import MiniLisp.Proofs.Evaluation.RenamedScopes
import MiniLisp.Proofs.Reader.Progress

/-!
# Readers whose tables share names

Symbols of two tables correspond if they have the same name there. Two readers with corresponding
frames that are given the same tokens go on having corresponding frames, whatever other names their
tables hold, and they complete corresponding forms or fail alike.
Main statements: `Reader.Alike.feed` and `Reader.Alike.readAll`.
-/

namespace MiniLisp

namespace Symbols

/-- Symbols correspond if both have a name, and the same one. -/
def sharing (t t' : Symbols) : Renaming where
  rel s s' := ∃ name, t.resolve? s = some name ∧ t'.resolve? s' = some name
  eq_iff := by
    rintro s s' u u' ⟨name, hs, hs'⟩ ⟨other, hu, hu'⟩
    constructor
    · rintro rfl
      rw [hs, Option.some.injEq] at hu
      subst hu
      exact eq_of_resolve? hs' hu'
    · rintro rfl
      rw [hs', Option.some.injEq] at hu'
      subst hu'
      exact eq_of_resolve? hs hu
  reserved := by
    have hname : ∀ (k : Nat) (h : k < reservedNames.length),
        ∃ name, t.resolve? ⟨k + 1⟩ = some name ∧ t'.resolve? ⟨k + 1⟩ = some name :=
      fun k h => ⟨_, t.resolve?_reserved k h, t'.resolve?_reserved k h⟩
    simp only [reservedSymbols, List.forall_mem_cons, List.not_mem_nil, false_implies,
      implies_true, and_true]
    exact ⟨hname 0 (by decide), hname 1 (by decide), hname 2 (by decide), hname 3 (by decide),
      hname 4 (by decide), hname 5 (by decide), hname 6 (by decide)⟩

variable {t t' u u' : Symbols}

theorem sharing_mono (h : t.Keeps u) (h' : t'.Keeps u') :
    ∀ s s', (t.sharing t').rel s s' → (u.sharing u').rel s s' := by
  rintro s s' ⟨name, hs, hs'⟩
  exact ⟨name, h s name hs, h' s' name hs'⟩

theorem sharing_intern (t t' : Symbols) (name : String) :
    ((t.intern name).2.sharing (t'.intern name).2).rel (t.intern name).1 (t'.intern name).1 :=
  ⟨name, t.resolve?_intern name, t'.resolve?_intern name⟩

theorem naming_eq_of_sharing : ∀ s s', (t.sharing t').rel s s' → t.naming s = t'.naming s' := by
  rintro s s' ⟨name, hs, hs'⟩
  exact hs.trans hs'.symm

end Symbols

inductive OpenFrame.Renamed (ρ : Renaming) : OpenFrame → OpenFrame → Prop
  | list {vs ws : List Value} (h : List.Forall₂ (Value.Renamed ρ) vs ws) :
      Renamed ρ (.list vs) (.list ws)
  | awaiting {s t : Symbol} (h : ρ.rel s t) : Renamed ρ (.awaiting s) (.awaiting t)

theorem OpenFrame.Renamed.mono {ρ σ : Renaming} (h : ∀ s t, ρ.rel s t → σ.rel s t)
    {frame frame' : OpenFrame} (hframe : frame.Renamed ρ frame') : frame.Renamed σ frame' := by
  cases hframe with
  | list hvs => exact .list (Value.Renamed.monoAll h hvs)
  | awaiting hs => exact .awaiting (h _ _ hs)

theorem Reader.settle_renamed {ρ : Renaming} {stack stack' : List OpenFrame} {v w : Value}
    (hs : List.Forall₂ (OpenFrame.Renamed ρ) stack stack') (hv : v.Renamed ρ w) :
    List.Forall₂ (OpenFrame.Renamed ρ) (settle stack v).1 (settle stack' w).1 ∧
      Option.Rel (Value.Renamed ρ) (settle stack v).2 (settle stack' w).2 := by
  induction hs generalizing v w with
  | nil => exact ⟨.nil, .some hv⟩
  | cons hframe hrest ih =>
    cases hframe with
    | list hitems => exact ⟨.cons (.list (.cons hv hitems)) hrest, .none⟩
    | awaiting hmark => exact ih (.list (.cons (.symbol hmark) (.cons hv .nil)))

namespace Reader

/-- The frames correspond by the names of their symbols. -/
def Alike (r r' : Reader) : Prop :=
  List.Forall₂ (OpenFrame.Renamed (r.symbols.sharing r'.symbols)) r.stack r'.stack

theorem alike_ofSymbols (t t' : Symbols) : (ofSymbols t).Alike (ofSymbols t') :=
  List.Forall₂.nil

namespace Progress

structure Alike (p q : Progress) : Prop where
  reader : p.reader.Alike q.reader
  literal : p.literal = q.literal
  forms : List.Forall₂ (Value.Renamed (p.reader.symbols.sharing q.reader.symbols)) p.forms q.forms

variable {p q : Progress} (h : p.Alike q)
include h

theorem Alike.enter {frame frame' : OpenFrame}
    (hframe : frame.Renamed (p.reader.symbols.sharing q.reader.symbols) frame') :
    (p.enter frame).Alike (q.enter frame') :=
  ⟨.cons hframe h.reader, h.literal, h.forms⟩

theorem Alike.deliver {stack stack' : List OpenFrame} {v w : Value}
    (hs : List.Forall₂ (OpenFrame.Renamed (p.reader.symbols.sharing q.reader.symbols))
      stack stack')
    (hv : v.Renamed (p.reader.symbols.sharing q.reader.symbols) w) :
    (p.deliver stack v).Alike (q.deliver stack' w) := by
  obtain ⟨hstack, hform⟩ := settle_renamed hs hv
  rw [Progress.deliver, Progress.deliver]
  rcases hp : settle stack v with ⟨rest, form⟩
  rcases hq : settle stack' w with ⟨rest', form'⟩
  rw [hp, hq] at hstack hform
  cases hform with
  | none => exact ⟨hstack, h.literal, h.forms⟩
  | some hw => exact ⟨hstack, h.literal, .cons hw h.forms⟩

theorem Alike.intern (name : String) :
    Progress.Alike
      { p with reader := { p.reader with symbols := (p.reader.symbols.intern name).2 } }
      { q with reader := { q.reader with symbols := (q.reader.symbols.intern name).2 } } := by
  have hmono := Symbols.sharing_mono (p.reader.symbols.keeps_intern name)
    (q.reader.symbols.keeps_intern name)
  exact ⟨List.Forall₂.imp (fun _ _ hframe => hframe.mono hmono) h.reader, h.literal,
    Value.Renamed.monoAll hmono h.forms⟩

theorem Alike.feedNormal (t : Token) : ResultRel Eq Alike (p.feedNormal t) (q.feedNormal t) := by
  have hmark : ∀ s ∈ reservedSymbols, (p.enter (.awaiting s)).Alike (q.enter (.awaiting s)) :=
    fun s hs => h.enter (.awaiting (Renaming.reserved _ s hs))
  obtain ⟨l, span⟩ := t
  cases l with
  | openParen => exact .ok (h.enter (.list .nil))
  | closeParen =>
    have hstack := h.reader
    simp only [Progress.feedNormal]
    unfold Reader.Alike at hstack
    generalize p.reader.stack = stack at hstack
    generalize q.reader.stack = stack' at hstack
    cases hstack with
    | nil => exact .error rfl
    | cons hframe hrest =>
      cases hframe with
      | list hitems => exact .ok (h.deliver hrest (.list (List.rel_reverse hitems)))
      | awaiting _ => exact .error rfl
  | quote => exact .ok (hmark _ (by decide))
  | quasiquote => exact .ok (hmark _ (by decide))
  | unquote => exact .ok (hmark _ (by decide))
  | unquoteSplice => exact .ok (hmark _ (by decide))
  | openString => exact .ok ⟨h.reader, rfl, h.forms⟩
  | symbol name =>
    have hgrown := h.intern name
    exact .ok (hgrown.deliver hgrown.reader (.symbol (Symbols.sharing_intern _ _ name)))
  | boolean b => exact .ok (h.deliver h.reader (.bool b))
  | number x => exact .ok (h.deliver h.reader (.number x))
  | unknown _ | text _ | closeString | badEscape _ => exact .error rfl

theorem Alike.feedString (cs : List Char) (t : Token) :
    ResultRel Eq Alike (p.feedString cs t) (q.feedString cs t) := by
  obtain ⟨l, span⟩ := t
  cases l with
  | text more => exact .ok ⟨h.reader, rfl, h.forms⟩
  | closeString =>
    have hclosed : Progress.Alike { p with literal := none } { q with literal := none } :=
      ⟨h.reader, rfl, h.forms⟩
    exact .ok (hclosed.deliver h.reader (.string _))
  | _ => exact .error rfl

theorem Alike.feed (t : Token) : ResultRel Eq Alike (p.feed t) (q.feed t) := by
  rw [Progress.feed, Progress.feed, ← h.literal]
  cases p.literal with
  | none => exact h.feedNormal t
  | some cs => exact h.feedString cs t

theorem Alike.run (ts : List Token) :
    (p.run ts).1.Alike (q.run ts).1 ∧ (p.run ts).2 = (q.run ts).2 := by
  induction ts generalizing p q with
  | nil =>
    refine ⟨h, ?_⟩
    rw [Progress.run, Progress.run, h.literal]
  | cons t ts ih =>
    have hfed := h.feed t
    rw [Progress.run, Progress.run]
    generalize p.feed t = next at hfed
    generalize q.feed t = next' at hfed
    cases hfed with
    | error he => exact ⟨h, congrArg some he⟩
    | ok hnext => exact ih hnext

end Progress

/-- What comes of the readings corresponds, by the names that symbols have afterwards. -/
structure Reading.Alike {α : Type} (A : Renaming → α → α → Prop) (x y : Reading α) : Prop where
  reader : x.reader.Alike y.reader
  result : ResultRel Eq (A (x.reader.symbols.sharing y.reader.symbols)) x.result y.result
  discarded : x.discarded = y.discarded

variable {r r' : Reader} (h : r.Alike r')
include h

theorem Alike.fail {α : Type} (A : Renaming → α → α → Prop) (e : ReadError) :
    Reading.Alike A (r.fail e) (r'.fail e) :=
  ⟨alike_ofSymbols _ _, .error rfl, h.length_eq⟩

theorem Alike.feed (chunk : String) :
    Reading.Alike (fun ρ => List.Forall₂ (Value.Renamed ρ)) (r.feed chunk) (r'.feed chunk) := by
  have hstart : Progress.Alike ⟨r, none, []⟩ ⟨r', none, []⟩ := ⟨h, rfl, .nil⟩
  obtain ⟨hlast, hend⟩ := hstart.run (tokens chunk)
  rw [Reader.feed, Reader.feed]
  rcases hp : (Progress.mk r none []).run (tokens chunk) with ⟨p, failure⟩
  rcases hq : (Progress.mk r' none []).run (tokens chunk) with ⟨q, failure'⟩
  rw [hp, hq] at hlast hend
  cases hend
  cases failure with
  | none => exact ⟨hlast.reader, .ok (List.rel_reverse hlast.forms), rfl⟩
  | some e => exact hlast.reader.fail _ e

theorem Alike.finish : Reading.Alike (fun _ => Eq) r.finish r'.finish := by
  have hpending : r.pending = r'.pending := h.length_eq
  obtain ⟨t, stack⟩ := r
  obtain ⟨t', stack'⟩ := r'
  have hstack : List.Forall₂ (OpenFrame.Renamed (t.sharing t')) stack stack' := h
  rw [Reader.finish, Reader.finish, ← hpending]
  cases hstack with
  | nil => exact ⟨h, .ok rfl, rfl⟩
  | cons _ _ => exact h.fail _ _

theorem Alike.readAll (source : String) :
    Reading.Alike (fun ρ => List.Forall₂ (Value.Renamed ρ)) (r.readAll source)
      (r'.readAll source) := by
  have hfed := h.feed source
  rw [Reader.readAll, Reader.readAll]
  generalize r.feed source = fed at hfed
  generalize r'.feed source = fed' at hfed
  obtain ⟨result, reader, discarded⟩ := fed
  obtain ⟨result', reader', discarded'⟩ := fed'
  obtain ⟨hreader, hresult, hdiscarded⟩ := hfed
  cases hresult with
  | error he => exact ⟨hreader, .error he, hdiscarded⟩
  | ok hforms =>
    obtain ⟨hdone, hend, hdropped⟩ := hreader.finish
    refine ⟨hdone, ?_, hdropped⟩
    dsimp only at hforms ⊢
    rw [symbols_finish, symbols_finish]
    generalize reader.finish.result = ended at hend
    generalize reader'.finish.result = ended' at hend
    cases hend with
    | ok _ => exact .ok hforms
    | error he => exact .error he

end Reader

end MiniLisp
