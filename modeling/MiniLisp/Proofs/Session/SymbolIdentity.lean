import MiniLisp.Proofs.Evaluation.SymbolMaps
import MiniLisp.Proofs.Printing
import MiniLisp.Proofs.Reader.SharedNames
import MiniLisp.Proofs.Session.Naming

/-!
# The identity of symbols is not seen

Names that are interned beforehand give other identities to all symbols that come later. Two
interpreters whose tables share names go on corresponding, whatever steps they perform, and nothing
that is printed of their replies tells them apart. An evaluation by itself commutes with every
renaming of symbols.
Main statement: `symbol_identity_abstract`.
-/

namespace MiniLisp

section

variable (names names' : Naming)

inductive EvalCause.ShownAlike : EvalCause → EvalCause → Prop
  | notApplicable {v w : Value} (h : v.print names = w.print names') (name : Option String) :
      ShownAlike (.notApplicable v name) (.notApplicable w name)
  | same (cause : EvalCause) (h : ∀ v name, cause ≠ .notApplicable v name) : ShownAlike cause cause

structure Frame.ShownAlike (f g : Frame) : Prop where
  form : f.form.print names = g.form.print names'
  path : f.path = g.path
  label : f.label = g.label

/-- The errors have the same cause, message and path, the same frames as far as they are printed,
and the same diagnostic. -/
structure EvalError.ShownAlike (d e : EvalError) : Prop where
  cause : d.cause.ShownAlike names names' e.cause
  message : d.cause.message = e.cause.message
  path : d.path = e.path
  frames : List.Forall₂ (Frame.ShownAlike names names') d.frames e.frames
  diagnostic : ∀ limit, d.diagnose names limit = e.diagnose names' limit

end

/-- Failures of one kind; errors of reading are the same. -/
inductive Failure.Rel (E : EvalError → EvalError → Prop) : Failure → Failure → Prop
  | read (e : ReadError) : Rel E (.read e) (.read e)
  | eval {d e : EvalError} (h : E d e) : Rel E (.eval d) (.eval e)
  | host : Rel E .host .host

/-- Replies of one kind with related values and related errors; errors of reading are the same. -/
inductive Reply.Rel (V : Value → Value → Prop) (E : EvalError → EvalError → Prop) :
    Reply → Reply → Prop
  | values {vs ws : List Value} (h : List.Forall₂ V vs ws) : Rel V E (.values vs) (.values ws)
  | forms {vs ws : List Value} (h : List.Forall₂ V vs ws) : Rel V E (.forms vs) (.forms ws)
  | results {rs rs' : List (Except Failure Value)}
      (h : List.Forall₂ (ResultRel (Failure.Rel E) V) rs rs') :
      Rel V E (.results rs) (.results rs')
  | binding {v w : Option Value} (h : Option.Rel V v w) : Rel V E (.binding v) (.binding w)
  | done : Rel V E .done .done
  | readError (e : ReadError) : Rel V E (.readError e) (.readError e)
  | evalError {d e : EvalError} (h : E d e) : Rel V E (.evalError d) (.evalError e)
  | hostError : Rel V E .hostError .hostError

abbrev Reply.Renamed (ρ : Renaming) : Reply → Reply → Prop :=
  Reply.Rel (Value.Renamed ρ) (EvalError.Renamed ρ)

/-- Nothing that is printed of the replies tells them apart. -/
def Reply.ShownAlike (names names' : Naming) : Reply → Reply → Prop :=
  Reply.Rel (fun v w => v.print names = w.print names') (EvalError.ShownAlike names names')

section

variable {V W : Value → Value → Prop} {E F : EvalError → EvalError → Prop}

theorem Failure.Rel.mono (hE : ∀ d e, E d e → F d e) {f g : Failure} (h : Failure.Rel E f g) :
    Failure.Rel F f g := by
  cases h with
  | read e => exact .read e
  | eval h => exact .eval (hE _ _ h)
  | host => exact .host

theorem Reply.Rel.mono (hV : ∀ v w, V v w → W v w) (hE : ∀ d e, E d e → F d e) {r r' : Reply}
    (h : Reply.Rel V E r r') : Reply.Rel W F r r' := by
  cases h with
  | values h => exact .values (h.imp hV)
  | forms h => exact .forms (h.imp hV)
  | results h =>
    refine .results (h.imp fun _ _ hresult => ?_)
    cases hresult with
    | ok hv => exact .ok (hV _ _ hv)
    | error hf => exact .error (hf.mono hE)
  | binding h =>
    cases h with
    | none => exact .binding .none
    | some h => exact .binding (.some (hV _ _ h))
  | done => exact .done
  | readError e => exact .readError e
  | evalError h => exact .evalError (hE _ _ h)
  | hostError => exact .hostError

theorem Reply.Rel.ofSource {r r' : Except Failure (List Value)}
    (h : ResultRel (Failure.Rel E) (List.Forall₂ V) r r') :
    Reply.Rel V E (.ofSource r) (.ofSource r') := by
  cases h with
  | ok hvs => exact .values hvs
  | error hf =>
    cases hf with
    | read e => exact .readError e
    | eval he => exact .evalError he
    | host => exact .hostError

end

section

variable {ρ : Renaming} {names names' : Naming} (h : ∀ s t, ρ.rel s t → names s = names' t)
include h

theorem Value.print_renamed {v w : Value} (hv : v.Renamed ρ w) :
    v.print names = w.print names' := by
  rw [print, print, chars_renamed h hv]

theorem EvalCause.Renamed.shownAlike {cause cause' : EvalCause} (hcause : cause.Renamed ρ cause') :
    cause.ShownAlike names names' cause' := by
  cases hcause with
  | notApplicable hv name => exact .notApplicable (Value.print_renamed h hv) name
  | same _ hsame => exact .same _ hsame

theorem EvalError.Renamed.shownAlike {d e : EvalError} (hde : d.Renamed ρ e) :
    d.ShownAlike names names' e := by
  refine ⟨hde.cause.shownAlike h, (message_renamed hde.cause).1, hde.path,
    hde.frames.imp fun f g hfg => ?_, diagnose_renamed h hde⟩
  exact ⟨Value.print_renamed h hfg.form, hfg.path, hfg.label⟩

end

namespace Interpreter

/-- Open frames and machines correspond by the names of their symbols; the limits and the hosts are
the same. -/
structure Alike (it it' : Interpreter) : Prop where
  reader : it.reader.Alike it'.reader
  machine : it.machine.Renamed (.entrywise (it.symbols.sharing it'.symbols)) it'.machine
  maxDepth : it.maxDepth = it'.maxDepth
  host : it.host = it'.host

def internFurther (it : Interpreter) (names : List String) : Interpreter :=
  { it with reader := { it.reader with symbols := (it.symbols.internAll names).2 } }

theorem NamedIn.alike_internFurther {it : Interpreter} (h : it.NamedIn Vocabulary.all)
    (names : List String) : it.Alike (it.internFurther names) := by
  have hkeeps := it.symbols.keeps_internAll names
  have hshared : ∀ s s', (Renaming.diagonal (Vocabulary.all.Names it.symbols)
      (Vocabulary.all.names_reserved it.symbols)).rel s s' →
      (it.symbols.sharing (it.internFurther names).symbols).rel s s' := by
    -- a symbol that has a name keeps it when the table grows
    rintro s _ ⟨rfl, name, hs, _⟩
    exact ⟨name, hs, hkeeps s name hs⟩
  refine ⟨List.forall₂_same.mpr fun frame hframe => ?_,
    (Machine.over_iff.mp h.machine).mono hshared, rfl, rfl⟩
  have hheld := h.reader frame hframe
  cases frame with
  | list items => exact .list (Value.Renamed.monoAll hshared (List.forall₂_same.mpr hheld))
  | awaiting mark =>
    cases hheld with
    | symbol hs => exact .awaiting (hshared _ _ hs)

variable {it it' : Interpreter}

theorem Alike.emit (h : it.Alike it') {event event' : Event}
    (hevent : event.Renamed (it.symbols.sharing it'.symbols) event') :
    (it.emit event).Alike (it'.emit event') :=
  ⟨h.reader, ⟨h.machine.env, h.machine.callDepth, .cons hevent h.machine.log⟩, h.maxDepth,
    h.host⟩

/-- The results of evaluating correspond: related results, or the same failure with related
errors. -/
abbrev ResultAlike {α : Type} (A : Renaming → α → α → Prop) (ρ : Renaming) :
    Except Failure α → Except Failure α → Prop :=
  ResultRel (Failure.Rel (EvalError.Renamed ρ)) (A ρ)

theorem conclude_renamed {ρ : Renaming} {v w : Value} (hv : v.Renamed ρ w) {o o' : Outcome Value}
    (ho : o.Renamed ρ (Value.Renamed ρ) o') :
    ResultAlike Value.Renamed ρ (conclude v o) (conclude w o') := by
  cases ho with
  | value h => exact .ok h
  | error he => exact .error (.eval (he.leaving hv _))
  | exhausted =>
    have he : (EvalError.of .exhausted).Renamed ρ (EvalError.of .exhausted) :=
      EvalError.renamed_of nofun
    exact .error (.eval (he.leaving hv _))

/-- The results correspond, and so do the interpreters after them. -/
def AlikeAfter {α : Type} (R : Renaming → α → α → Prop) (x y : α × Interpreter) : Prop :=
  R (x.2.symbols.sharing y.2.symbols) x.1 y.1 ∧ x.2.Alike y.2

/-- Both have results, or both have errors. -/
theorem AlikeAfter.ok_or_error {ε α : Type} {E : Renaming → ε → ε → Prop}
    {A : Renaming → α → α → Prop} {x y : Except ε α × Interpreter}
    (h : AlikeAfter (fun ρ => ResultRel (E ρ) (A ρ)) x y) :
    (∃ a b next next', x = (.ok a, next) ∧ y = (.ok b, next') ∧
      A (next.symbols.sharing next'.symbols) a b ∧ next.Alike next') ∨
    ∃ d e next next', x = (.error d, next) ∧ y = (.error e, next') ∧
      E (next.symbols.sharing next'.symbols) d e ∧ next.Alike next' := by
  obtain ⟨r, next⟩ := x
  obtain ⟨r', next'⟩ := y
  obtain ⟨hresult, hnext⟩ := h
  cases hresult with
  | ok ha => exact .inl ⟨_, _, next, next', rfl, rfl, ha, hnext⟩
  | error he => exact .inr ⟨_, _, next, next', rfl, rfl, he, hnext⟩

theorem Alike.evalForm (h : it.Alike it') {v w : Value}
    (hv : v.Renamed (it.symbols.sharing it'.symbols) w) :
    ResultAlike Value.Renamed (it.symbols.sharing it'.symbols) (it.evalForm v).1
        (it'.evalForm w).1 ∧
      (it.evalForm v).2.Renamed (.entrywise (it.symbols.sharing it'.symbols))
        (it'.evalForm w).2 := by
  have hcontext : it.context.Renamed (it.symbols.sharing it'.symbols) it'.context :=
    ⟨Symbols.naming_eq_of_sharing _ _, h.maxDepth, congrArg Host.closes h.host⟩
  obtain ⟨houtcome, hmachine⟩ := agree_evaluate (.entrywise (it.symbols.sharing it'.symbols))
    hcontext it.nesting hv _ _ h.machine
  have hnesting : it'.nesting = it.nesting := congrArg Host.nesting h.host.symm
  rw [Interpreter.evalForm, Interpreter.evalForm, hnesting]
  exact ⟨conclude_renamed hv houtcome, hmachine⟩

theorem Alike.evalTopLevel (h : it.Alike it') {v w : Value}
    (hv : v.Renamed (it.symbols.sharing it'.symbols) w) :
    AlikeAfter (ResultAlike Value.Renamed) (it.evalTopLevel v) (it'.evalTopLevel w) := by
  have hstart := h.emit (.evaluating hv)
  have hsame : it'.host.hasRoom it'.maxDepth = it.host.hasRoom it.maxDepth := by
    rw [h.host, h.maxDepth]
  cases hroom : it.host.hasRoom it.maxDepth with
  | true =>
    obtain ⟨hresult, hmachine⟩ := hstart.evalForm hv
    rw [evalTopLevel_of_hasRoom hroom, evalTopLevel_of_hasRoom (hsame.trans hroom)]
    exact ⟨hresult, h.reader, hmachine, h.maxDepth, h.host⟩
  | false =>
    rw [evalTopLevel_of_noRoom hroom, evalTopLevel_of_noRoom (hsame.trans hroom)]
    exact ⟨.error .host, hstart⟩

theorem Alike.evalForms (h : it.Alike it') {vs ws : List Value}
    (hvs : List.Forall₂ (Value.Renamed (it.symbols.sharing it'.symbols)) vs ws) :
    AlikeAfter (ResultAlike fun ρ => List.Forall₂ (Value.Renamed ρ))
      (it.evalForms vs) (it'.evalForms ws) := by
  induction vs generalizing it it' ws with
  | nil =>
    cases hvs
    exact ⟨.ok .nil, h⟩
  | cons v vs ih =>
    cases hvs with
    | @cons _ w _ ws hv hrest =>
      have hfirst := h.evalTopLevel hv
      have hafter := ih hfirst.2 hrest
      rw [evalForms_cons, evalForms_cons]
      rcases hfirst.ok_or_error with ⟨a, b, next, next', hp, hq, hvalue, hnext⟩ |
        ⟨d, e, next, next', hp, hq, he, hnext⟩
      · rw [hp, hq] at hafter ⊢
        obtain ⟨hvalues, hlast⟩ := hafter
        refine ⟨?_, hlast⟩
        dsimp only [evalBehind] at hvalues ⊢
        -- evaluating interns nothing, so symbols correspond at the end as they did before
        rw [symbols_evalForms, symbols_evalForms] at hvalues ⊢
        generalize (next.evalForms vs).1 = rest at hvalues
        generalize (next'.evalForms ws).1 = rest' at hvalues
        cases hvalues with
        | ok hvalues => exact .ok (.cons hvalue hvalues)
        | error he => exact .error he
      · rw [hp, hq]
        exact ⟨.error he, hnext⟩

theorem Alike.evalEachForm (h : it.Alike it') {vs ws : List Value}
    (hvs : List.Forall₂ (Value.Renamed (it.symbols.sharing it'.symbols)) vs ws) :
    AlikeAfter (fun ρ => List.Forall₂ (ResultAlike Value.Renamed ρ)) (it.evalEachForm vs)
      (it'.evalEachForm ws) := by
  induction vs generalizing it it' ws with
  | nil =>
    cases hvs
    exact ⟨.nil, h⟩
  | cons v vs ih =>
    cases hvs with
    | @cons _ w _ ws hv hrest =>
      obtain ⟨hresult, hnext⟩ := h.evalTopLevel hv
      obtain ⟨hresults, hlast⟩ := ih hnext hrest
      rw [symbols_evalEachForm, symbols_evalEachForm] at hresults
      refine ⟨?_, hlast⟩
      rw [symbols_evalEachForm, symbols_evalEachForm]
      exact .cons hresult hresults

theorem Alike.afterReading (h : it.Alike it') {r r' : Reader} (hr : r.Alike r')
    (hkeeps : it.symbols.Keeps r.symbols) (hkeeps' : it'.symbols.Keeps r'.symbols)
    (discarded : Nat) : (it.afterReading r discarded).Alike (it'.afterReading r' discarded) := by
  have hread : (it.withReader r).Alike (it'.withReader r') :=
    ⟨hr, h.machine.mono (Symbols.sharing_mono hkeeps hkeeps'), h.maxDepth, h.host⟩
  simp only [Interpreter.afterReading]
  split
  · exact hread
  · exact hread.emit (.discarded discarded)

theorem Alike.read (h : it.Alike it') (chunk : String) :
    AlikeAfter (fun ρ => ResultRel Eq (List.Forall₂ (Value.Renamed ρ))) (it.read chunk)
      (it'.read chunk) := by
  obtain ⟨hreader, hresult, hdiscarded⟩ := h.reader.feed chunk
  rw [Interpreter.read, Interpreter.read, ← hdiscarded]
  refine ⟨?_, h.afterReading hreader (it.reader.keeps_feed chunk) (it'.reader.keeps_feed chunk) _⟩
  rw [symbols_afterReading, symbols_afterReading]
  exact hresult

theorem Alike.readSource (h : it.Alike it') (source : String) :
    AlikeAfter (fun ρ => ResultRel Eq (List.Forall₂ (Value.Renamed ρ))) (it.readSource source)
      (it'.readSource source) := by
  obtain ⟨_, hresult, hdiscarded⟩ :=
    (Reader.alike_ofSymbols it.symbols it'.symbols).readAll source
  have hkeeps := (Reader.ofSymbols it.symbols).keeps_readAll source
  have hkeeps' := (Reader.ofSymbols it'.symbols).keeps_readAll source
  have hreader : Reader.Alike
      { it.reader with symbols := ((Reader.ofSymbols it.symbols).readAll source).reader.symbols }
      { it'.reader with
        symbols := ((Reader.ofSymbols it'.symbols).readAll source).reader.symbols } :=
    List.Forall₂.imp (fun _ _ hframe => hframe.mono (Symbols.sharing_mono hkeeps hkeeps'))
      h.reader
  rw [Interpreter.readSource, Interpreter.readSource, ← hdiscarded]
  refine ⟨?_, h.afterReading hreader hkeeps hkeeps' _⟩
  rw [symbols_afterReading, symbols_afterReading]
  exact hresult

theorem Alike.finish (h : it.Alike it') :
    AlikeAfter (fun _ => ResultRel Eq Eq) it.finish it'.finish := by
  obtain ⟨hreader, hresult, hdiscarded⟩ := h.reader.finish
  rw [Interpreter.finish, Interpreter.finish, ← hdiscarded]
  refine ⟨hresult, h.afterReading hreader ?_ ?_ _⟩
  · rw [Reader.symbols_finish]
    exact .refl _
  · rw [Reader.symbols_finish]
    exact .refl _

theorem Alike.reset (h : it.Alike it') : it.reset.Alike it'.reset := by
  have hpending : it.reader.pending = it'.reader.pending := h.reader.length_eq
  rw [Interpreter.reset, Interpreter.reset, Reader.reset, Reader.reset, ← hpending]
  exact h.afterReading (Reader.alike_ofSymbols _ _) (.refl _) (.refl _) _

theorem Alike.resolve (h : it.Alike it') (name : String) :
    AlikeAfter (fun ρ => Option.Rel (Value.Renamed ρ)) (it.resolve name) (it'.resolve name) := by
  have hmono := Symbols.sharing_mono (it.symbols.keeps_intern name) (it'.symbols.keeps_intern name)
  have hmachine := h.machine.mono hmono
  refine ⟨hmachine.env.resolve (Symbols.sharing_intern _ _ name), ?_, hmachine, h.maxDepth,
    h.host⟩
  exact List.Forall₂.imp (fun _ _ hframe => hframe.mono hmono) h.reader

theorem Alike.perform (h : it.Alike it') (step : Step) :
    AlikeAfter Reply.Renamed (it.perform step) (it'.perform step) := by
  cases step with
  | eval source =>
    rcases (h.readSource source).ok_or_error with ⟨_, _, next, next', hp, hq, hforms, hnext⟩ |
      ⟨e, _, next, next', hp, hq, rfl, hnext⟩
    · rw [Interpreter.perform, Interpreter.perform, evalSource_of_ok hp, evalSource_of_ok hq]
      obtain ⟨hresult, hlast⟩ := hnext.evalForms hforms
      exact ⟨.ofSource hresult, hlast⟩
    · rw [Interpreter.perform, Interpreter.perform, evalSource_of_error hp, evalSource_of_error hq]
      exact ⟨.readError e, hnext⟩
  | read chunk =>
    rcases (h.read chunk).ok_or_error with ⟨_, _, _, _, hp, hq, hforms, hnext⟩ |
      ⟨e, _, _, _, hp, hq, rfl, hnext⟩
    · rw [Interpreter.perform, Interpreter.perform, hp, hq]
      exact ⟨.forms hforms, hnext⟩
    · rw [Interpreter.perform, Interpreter.perform, hp, hq]
      exact ⟨.readError e, hnext⟩
  | feed chunk =>
    rcases (h.read chunk).ok_or_error with ⟨_, _, _, _, hp, hq, hforms, hnext⟩ |
      ⟨e, _, _, _, hp, hq, rfl, hnext⟩
    · obtain ⟨hresults, hlast⟩ := hnext.evalEachForm hforms
      rw [Interpreter.perform, Interpreter.perform, hp, hq]
      exact ⟨.results hresults, hlast⟩
    · rw [Interpreter.perform, Interpreter.perform, hp, hq]
      exact ⟨.readError e, hnext⟩
  | resolve name =>
    obtain ⟨hvalue, hnext⟩ := h.resolve name
    exact ⟨.binding hvalue, hnext⟩
  | reset => exact ⟨.done, h.reset⟩
  | finish =>
    rcases h.finish.ok_or_error with ⟨_, _, _, _, hp, hq, _, hnext⟩ |
      ⟨e, _, _, _, hp, hq, rfl, hnext⟩
    · rw [Interpreter.perform, Interpreter.perform, hp, hq]
      exact ⟨.done, hnext⟩
    · rw [Interpreter.perform, Interpreter.perform, hp, hq]
      exact ⟨.readError e, hnext⟩

theorem Alike.performAll (h : it.Alike it') (steps : List Step) :
    (it.performAll steps).2.Alike (it'.performAll steps).2 := by
  induction steps generalizing it it' with
  | nil => exact h
  | cons step steps ih => exact ih (h.perform step).2

end Interpreter

/-- The identity of symbols is not seen: names that are interned further at any time change nothing
that is shown of any later reply, and evaluations commute with every injective renaming of symbols
in the form, the machine and the naming that moves no reserved symbol. -/
theorem symbol_identity_abstract (maxDepth : Int) (host : Host) :
    (∀ (before : List Step) (names : List String) (steps : List Step) (step : Step),
      let it := ((Interpreter.start maxDepth host).performAll before).2
      let plain := (it.performAll steps).2.perform step
      let other := ((it.internFurther names).performAll steps).2.perform step
      plain.1.ShownAlike plain.2.names other.2.names other.1) ∧
    ∀ f : Symbol → Symbol, Function.Injective f → (∀ s ∈ reservedSymbols, f s = s) →
      ∀ names names' : Naming, (∀ s, names' (f s) = names s) →
      ∀ (fuel : Nat) (form : Value) (m : Machine),
        evaluate ⟨names', maxDepth, host.closes⟩ fuel (form.rename f) (m.rename f)
          = ((evaluate ⟨names, maxDepth, host.closes⟩ fuel form m).1.rename f,
              (evaluate ⟨names, maxDepth, host.closes⟩ fuel form m).2.rename f) := by
  constructor
  · intro before names steps step it plain other
    have hnamed : it.NamedIn Vocabulary.all :=
      (Interpreter.namedIn_start Vocabulary.all maxDepth host).performAll before
    obtain ⟨hreply, _⟩ := ((hnamed.alike_internFurther names).performAll steps).perform step
    have hnames : ∀ s s', (plain.2.symbols.sharing other.2.symbols).rel s s' →
        plain.2.names s = other.2.names s' := Symbols.naming_eq_of_sharing
    exact hreply.mono (fun v w hv => Value.print_renamed hnames hv)
      fun d e hde => hde.shownAlike hnames
  · intro f hf hfix names names' hnames fuel form m
    exact evaluate_rename hf hfix hnames maxDepth host.closes fuel form m

/-- Two symbols named `x` and `y`. -/
def twoNames : Naming := fun s =>
  if s = ⟨8⟩ then some "x" else if s = ⟨9⟩ then some "y" else none

/-- A call of a function with the parameter `x` whose body, the symbol `y`, is not bound. -/
theorem symbol_identity_abstract_swap :
    let f := Equiv.swap (Symbol.mk 8) (Symbol.mk 9)
    let callee := Value.procedure .function ⟨[⟨8⟩], none⟩ [.symbol ⟨9⟩]
    let m : Machine := ⟨Environment.empty, 0, []⟩
    (Function.Injective f ∧ (∀ s ∈ reservedSymbols, f s = s) ∧
      ∀ s, (twoNames ∘ f) (f s) = twoNames s) ∧
    (evaluate ⟨twoNames ∘ f, 4, Host.roomy.closes⟩ 3 ((Value.list [callee, .bool true]).rename f)
        (m.rename f)).1
      = .error ⟨.unbound "y", [0],
          [⟨.list (Value.definition .function ⟨[⟨9⟩], none⟩ [.symbol ⟨8⟩]), [2], none⟩]⟩ := by
  intro f callee m
  have hf : Function.Injective f := f.injective
  have hfix : ∀ s ∈ reservedSymbols, f s = s := by decide
  have hnames : ∀ s, (twoNames ∘ f) (f s) = twoNames s := fun s =>
    congrArg twoNames (Equiv.swap_apply_self _ _ s)
  have hsame := (symbol_identity_abstract 4 .roomy).2 f hf hfix twoNames (twoNames ∘ f) hnames 3
    (.list [callee, .bool true]) m
  refine ⟨⟨hf, hfix, hnames⟩, ?_⟩
  rw [hsame]
  rfl

end MiniLisp
