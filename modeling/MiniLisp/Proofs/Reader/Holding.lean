import MiniLisp.Proofs.SymbolTable
import MiniLisp.Reader

/-!
# What a reader holds

A property of values that passes from lexemes to the forms that are read from them: the open frames
of a reader have it, whatever chunks it was fed, and so has every form that it returns.
Main statements: `Handed.feed` and `Handed.readAll`.
-/

namespace MiniLisp

def OpenFrame.Holds (P : Value → Prop) : OpenFrame → Prop
  | .list items => ∀ v ∈ items, P v
  | .awaiting mark => P (.symbol mark)

def StackHolds (P : Value → Prop) (stack : List OpenFrame) : Prop :=
  ∀ frame ∈ stack, frame.Holds P

theorem OpenFrame.Holds.mono {P Q : Value → Prop} {frame : OpenFrame} (h : frame.Holds P)
    (hPQ : ∀ v, P v → Q v) : frame.Holds Q := by
  cases frame with
  | list items => exact fun v hv => hPQ v (h v hv)
  | awaiting mark => exact hPQ _ h

namespace Reader

def Holds (P : Symbols → Value → Prop) (r : Reader) : Prop := StackHolds (P r.symbols) r.stack

theorem holds_ofSymbols (P : Symbols → Value → Prop) (t : Symbols) : (ofSymbols t).Holds P :=
  fun _ hf => absurd hf List.not_mem_nil

/-- The open frames hold values with the property, and so do the forms completed so far. -/
def Progress.Holds (P : Symbols → Value → Prop) (p : Progress) : Prop :=
  p.reader.Holds P ∧ ∀ v ∈ p.forms, P p.reader.symbols v

theorem holds_finish {P : Symbols → Value → Prop} {r : Reader} (h : r.Holds P) :
    r.finish.reader.Holds P := by
  unfold finish
  split
  · exact h
  · exact holds_ofSymbols P _

theorem symbols_finish (r : Reader) : r.finish.reader.symbols = r.symbols := by
  unfold finish
  split
  · rfl
  · rfl

end Reader

/-- A property of values that passes from the lexemes with the property `L` to what is read. -/
structure Handed (L : Lexeme → Prop) (P : Symbols → Value → Prop) : Prop where
  keeps : ∀ {t t' : Symbols} {v : Value}, t.Keeps t' → P t v → P t' v
  bool : ∀ t b, P t (.bool b)
  number : ∀ t x, L (.number x) → P t (.number x)
  string : ∀ t s, P t (.string s)
  symbol : ∀ (t : Symbols) name, L (.symbol name) → P (t.intern name).2 (.symbol (t.intern name).1)
  list : ∀ t items, (∀ v ∈ items, P t v) → P t (.list items)
  mark : ∀ t, ∀ s ∈ [Symbol.quote, Symbol.quasiquote, Symbol.unquote, Symbol.unquoteSplice],
    P t (.symbol s)

namespace Handed

open Reader

variable {L : Lexeme → Prop} {P : Symbols → Value → Prop} (hP : Handed L P)
include hP

theorem settle {t : Symbols} {stack : List OpenFrame} {v : Value} (hs : StackHolds (P t) stack)
    (hv : P t v) : StackHolds (P t) (Reader.settle stack v).1 ∧
      ∀ w ∈ (Reader.settle stack v).2, P t w := by
  induction stack generalizing v with
  | nil =>
    refine ⟨hs, fun w hw => ?_⟩
    rw [Reader.settle, Option.mem_some_iff] at hw
    exact hw ▸ hv
  | cons frame stack ih =>
    obtain ⟨hframe, htail⟩ := List.forall_mem_cons.mp hs
    cases frame with
    | list items =>
      have hitems : OpenFrame.Holds (P t) (.list (v :: items)) :=
        List.forall_mem_cons.mpr ⟨hv, hframe⟩
      exact ⟨List.forall_mem_cons.mpr ⟨hitems, htail⟩, fun w hw => by cases hw⟩
    | awaiting mark =>
      refine ih htail (hP.list t _ fun w hw => ?_)
      simp only [List.mem_cons, List.not_mem_nil, or_false] at hw
      rcases hw with rfl | rfl
      · exact hframe
      · exact hv

theorem deliver {p : Progress} {stack : List OpenFrame} {v : Value} (h : p.Holds P)
    (hs : StackHolds (P p.reader.symbols) stack) (hv : P p.reader.symbols v) :
    (p.deliver stack v).Holds P := by
  obtain ⟨hstack, hform⟩ := hP.settle hs hv
  unfold Progress.deliver
  split
  · rename_i heq
    rw [heq] at hstack
    exact ⟨hstack, h.2⟩
  · rename_i w heq
    rw [heq] at hstack hform
    exact ⟨hstack, List.forall_mem_cons.mpr ⟨hform w rfl, h.2⟩⟩

theorem intern {p : Progress} (h : p.Holds P) (name : String) :
    Progress.Holds P
      { p with reader := { p.reader with symbols := (p.reader.symbols.intern name).2 } } :=
  ⟨fun frame hf => (h.1 frame hf).mono fun _ => hP.keeps (Symbols.keeps_intern _ name),
    fun v hv => hP.keeps (Symbols.keeps_intern _ name) (h.2 v hv)⟩

theorem mark_frame {p : Progress} (h : p.Holds P) {s : Symbol}
    (hs : s ∈ [Symbol.quote, Symbol.quasiquote, Symbol.unquote, Symbol.unquoteSplice]) :
    (p.enter (.awaiting s)).Holds P :=
  ⟨List.forall_mem_cons.mpr ⟨hP.mark _ s hs, h.1⟩, h.2⟩

theorem closeParen {p : Progress} {items : List Value} {stack : List OpenFrame} (h : p.Holds P)
    (heq : p.reader.stack = .list items :: stack) :
    (p.deliver stack (.list items.reverse)).Holds P := by
  have hall : StackHolds (P p.reader.symbols) (.list items :: stack) := heq ▸ h.1
  obtain ⟨hitems, hstack⟩ := List.forall_mem_cons.mp hall
  exact hP.deliver h hstack (hP.list _ _ fun v hv => hitems v (List.mem_reverse.mp hv))

theorem feedNormal {p q : Progress} {t : Token} (h : p.Holds P) (ht : L t.lexeme)
    (hq : p.feedNormal t = .ok q) : q.Holds P := by
  obtain ⟨l, span⟩ := t
  cases l with
  | openParen =>
    cases hq
    exact ⟨List.forall_mem_cons.mpr ⟨fun v hv => absurd hv List.not_mem_nil, h.1⟩, h.2⟩
  | closeParen =>
    simp only [Progress.feedNormal] at hq
    split at hq
    · rename_i items stack heq
      cases hq
      exact hP.closeParen h heq
    · cases hq
  | boolean b =>
    cases hq
    exact hP.deliver h h.1 (hP.bool _ b)
  | number x =>
    cases hq
    exact hP.deliver h h.1 (hP.number _ x ht)
  | symbol name =>
    have hgrown := hP.intern h name
    cases hq
    exact hP.deliver hgrown hgrown.1 (hP.symbol _ name ht)
  | quote =>
    cases hq
    exact hP.mark_frame h (by decide)
  | quasiquote =>
    cases hq
    exact hP.mark_frame h (by decide)
  | unquote =>
    cases hq
    exact hP.mark_frame h (by decide)
  | unquoteSplice =>
    cases hq
    exact hP.mark_frame h (by decide)
  | openString =>
    cases hq
    exact h
  | _ => cases hq

theorem feedString {p q : Progress} {cs : List Char} {t : Token} (h : p.Holds P)
    (hq : p.feedString cs t = .ok q) : q.Holds P := by
  obtain ⟨l, span⟩ := t
  cases l with
  | text more =>
    cases hq
    exact h
  | closeString =>
    have hclosed : Progress.Holds P { p with literal := none } := h
    cases hq
    exact hP.deliver hclosed h.1 (hP.string _ _)
  | _ => cases hq

theorem feedToken {p q : Progress} {t : Token} (h : p.Holds P) (ht : L t.lexeme)
    (hq : p.feed t = .ok q) : q.Holds P := by
  unfold Progress.feed at hq
  split at hq
  · exact hP.feedNormal h ht hq
  · exact hP.feedString h hq

theorem run {p : Progress} (h : p.Holds P) (ts : List Token) (hts : ∀ t ∈ ts, L t.lexeme) :
    (p.run ts).1.Holds P := by
  induction ts generalizing p with
  | nil => exact h
  | cons t ts ih =>
    obtain ⟨ht, hrest⟩ := List.forall_mem_cons.mp hts
    unfold Progress.run
    split
    · rename_i q hq
      exact ih (hP.feedToken h ht hq) hrest
    · exact h

theorem feed {r : Reader} (h : r.Holds P) {chunk : String}
    (hts : ∀ t ∈ tokens chunk, L t.lexeme) :
    (r.feed chunk).reader.Holds P ∧ ∀ forms, (r.feed chunk).result = .ok forms →
      ∀ v ∈ forms, P (r.feed chunk).reader.symbols v := by
  have hstart : Progress.Holds P ⟨r, none, []⟩ := ⟨h, fun v hv => absurd hv List.not_mem_nil⟩
  have hrun := hP.run hstart (tokens chunk) hts
  unfold Reader.feed
  split
  · rename_i p heq
    rw [heq] at hrun
    refine ⟨hrun.1, fun forms hforms v hv => ?_⟩
    cases hforms
    exact hrun.2 v (List.mem_reverse.mp hv)
  · exact ⟨holds_ofSymbols P _, fun forms hforms => by cases hforms⟩

theorem readAll {r : Reader} (h : r.Holds P) {source : String}
    (hts : ∀ t ∈ tokens source, L t.lexeme) :
    (r.readAll source).reader.Holds P ∧ ∀ forms, (r.readAll source).result = .ok forms →
      ∀ v ∈ forms, P (r.readAll source).reader.symbols v := by
  obtain ⟨hfed, hforms⟩ := hP.feed h hts
  unfold Reader.readAll
  simp only
  split
  · exact ⟨hfed, fun forms hf => by cases hf⟩
  · rename_i read heq
    refine ⟨holds_finish hfed, fun forms hf v hv => ?_⟩
    rw [symbols_finish]
    generalize (r.feed source).reader.finish.result = done at hf
    cases done with
    | error e => cases hf
    | ok u =>
      cases hf
      exact hforms read heq v hv

end Handed

end MiniLisp
