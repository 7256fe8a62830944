import MiniLisp.Proofs.Evaluation.Confinement
import MiniLisp.Proofs.Printing
import MiniLisp.Proofs.Reader.RoundTrip
import MiniLisp.Proofs.Session.Naming

/-!
# Printed symbols are real

In a session every symbol has a name that is read as one symbol: those that the environment binds,
those inside bound values and open frames, and those in whatever a step replies. So what is printed
of a reply never shows the text for a symbol without a name, it keeps to its line, and it can be
read again if it is data.
Main statement: `printed_symbols_real`.
-/

namespace MiniLisp

/-- The table has given the symbol a name that is read as one symbol. -/
def Symbols.Spells (t : Symbols) (s : Symbol) : Prop :=
  ∃ name, t.resolve? s = some name ∧ IsSymbolName name

/-- Data: booleans, strings, symbols, numbers that are numbers, and lists of these. -/
inductive Value.IsDatum : Value → Prop
  | bool (b : Bool) : IsDatum (.bool b)
  | number (x : Float) (h : x.isNaN = false) : IsDatum (.number x)
  | string (s : String) : IsDatum (.string s)
  | symbol (s : Symbol) : IsDatum (.symbol s)
  | list (items : List Value) (h : ∀ v ∈ items, IsDatum v) : IsDatum (.list items)

/-- Every symbol in the value is spelled by the table; the printed value is the same whatever is
shown for symbols without a name, it is one line, and if it is data it is read as one form, which
equals it. -/
structure Value.PrintsWell (t : Symbols) (v : Value) : Prop where
  spelled : ∀ s, v.Mentions s → t.Spells s
  named : ∀ names : Naming, (∀ s name, t.resolve? s = some name → names s = some name) →
    v.print names = v.print t.naming
  line : '\n' ∉ (v.print t.naming).toList
  reads : v.IsDatum → ∃ w,
    ((Reader.ofSymbols t).readAll (v.print t.naming)).result = .ok [w] ∧ v.equal w = true

/-- The same of an error: of its message, of the labels and forms of its frames, and of all that is
shown in a diagnostic. -/
structure EvalError.PrintsWell (t : Symbols) (e : EvalError) : Prop where
  told : e.ToldIn t.naming t.Spells
  forms : ∀ f ∈ e.frames, f.form.PrintsWell t
  named : ∀ names : Naming, (∀ s name, t.resolve? s = some name → names s = some name) →
    ∀ limit, e.diagnose names limit = e.diagnose t.naming limit
  lines : ∀ limit, ∀ line ∈ (e.diagnose t.naming limit).lines, '\n' ∉ line

def Failure.PrintsWell (t : Symbols) : Failure → Prop
  | .read e => ∀ source, ∀ line ∈ (e.diagnose source).lines, '\n' ∉ line
  | .eval e => e.PrintsWell t
  | .host => True

def ResultPrintsWell (t : Symbols) : Except Failure Value → Prop
  | .ok v => v.PrintsWell t
  | .error f => f.PrintsWell t

def Reply.PrintsWell (t : Symbols) : Reply → Prop
  | .values vs | .forms vs => ∀ v ∈ vs, v.PrintsWell t
  | .results rs => ∀ r ∈ rs, ResultPrintsWell t r
  | .binding v => ∀ w ∈ v, w.PrintsWell t
  | .evalError e => e.PrintsWell t
  | .readError e => ∀ source, ∀ line ∈ (e.diagnose source).lines, '\n' ∉ line
  | .done | .hostError => True

section

variable {t : Symbols}

theorem Reply.printsWell_ofSource {r : Except Failure (List Value)}
    (hok : ∀ vs, r = .ok vs → ∀ v ∈ vs, v.PrintsWell t)
    (herror : ∀ f, r = .error f → f.PrintsWell t) : (Reply.ofSource r).PrintsWell t := by
  rcases r with (e | e | _) | vs
  · exact herror _ rfl
  · exact herror _ rfl
  · trivial
  · exact hok vs rfl

theorem Symbols.spells_of_orReserved {s : Symbol} (h : OrReserved t.Spells s) : t.Spells s := by
  rcases h with h | h
  · exact h
  · exact Vocabulary.names_reserved ⟨IsSymbolName, id⟩ t s h

theorem Symbols.isSymbolName_nameOf {s : Symbol} (h : t.Spells s) :
    IsSymbolName (t.naming.nameOf s) := by
  obtain ⟨name, hs, hname⟩ := h
  rw [Naming.nameOf, Symbols.naming, hs]
  exact hname

theorem Symbols.newline_notMem_nameOf {s : Symbol} (h : OrReserved t.Spells s) :
    '\n' ∉ (t.naming.nameOf s).toList := by
  have hname := Symbols.isSymbolName_nameOf (Symbols.spells_of_orReserved h)
  have hrun := (isSymbolName_iff _).mp hname
  intro hmem
  exact absurd (hrun.2.1 '\n' hmem) (by decide)

theorem Symbols.naming_eq_of_extends {names : Naming}
    (h : ∀ s name, t.resolve? s = some name → names s = some name) {s : Symbol}
    (hs : OrReserved t.Spells s) : names s = t.naming s := by
  obtain ⟨name, hname, _⟩ := Symbols.spells_of_orReserved hs
  exact (h s name hname).trans hname.symm

theorem Value.isData_of_isDatum {v : Value} (h : v.IsDatum) (hv : v.MadeOf t.Spells) :
    v.IsData t := by
  induction h with
  | bool b => exact .bool b
  | number x h => exact .number x h
  | string s => exact .string s
  | symbol s =>
    obtain ⟨name, hs, hname⟩ := madeOf_symbol_iff.mp hv
    exact .symbol s name hs hname
  | list items _ ih => exact .list items fun v hmem => ih v hmem (madeOf_list_iff.mp hv v hmem)

theorem Value.printsWell_of_madeOf {v : Value} (h : v.MadeOf t.Spells) : v.PrintsWell t where
  spelled := h
  named names hnames := by
    rw [print, print, chars_congr (fun s hs => Symbols.naming_eq_of_extends hnames hs) h]
  line := by
    rw [print, String.toList_ofList]
    exact newline_notMem_chars (fun s => Symbols.newline_notMem_nameOf) h
  reads hdatum := by
    have hdata := isData_of_isDatum hdatum h
    exact ⟨v.asRead, congrArg Reader.Reading.result (readAll_print v hdata), equal_asRead hdata⟩

theorem EvalError.printsWell_of_toldIn {e : EvalError} (h : e.ToldIn t.naming t.Spells) :
    e.PrintsWell t := by
  have hforms : ∀ f ∈ e.frames, f.form.MadeOf t.Spells := fun f hf =>
    (h.frames f hf).form.mono fun _ => Symbols.spells_of_orReserved
  refine ⟨h, fun f hf => Value.printsWell_of_madeOf (hforms f hf), ?_, ?_⟩
  · intro names hnames limit
    exact diagnose_congr (fun s hs => Symbols.naming_eq_of_extends hnames hs) hforms limit
  · exact fun limit => newline_notMem_diagnose (fun s => Symbols.newline_notMem_nameOf) h limit

end

def EnvView.same (P : Symbol → Prop) : EnvView P where
  map := id
  depth _ := rfl
  resolve _ _ _ := rfl
  define _ _ _ _ := rfl
  assign _ _ _ _ := rfl
  push _ := rfl
  pop env := by
    rw [id_eq]
    cases env.pop <;> rfl

namespace Interpreter

/-- Names that are read as one symbol. -/
def readable : Vocabulary := ⟨IsSymbolName, id⟩

variable {it : Interpreter}

theorem NamedIn.binds (h : it.NamedIn readable) :
    it.env.Binds it.symbols.Spells (Value.MadeOf it.symbols.Spells) := by
  intro scope hscope s v _ hget
  exact Value.over_iff.mp (h.machine.env scope hscope _ (mem_of_valueOf? hget)).2

theorem NamedIn.printsWell_evalTopLevel (h : it.NamedIn readable) {form : Value}
    (hform : form.NamedIn readable it.symbols) :
    ResultPrintsWell it.symbols (it.evalTopLevel form).1 := by
  have hform := Value.over_iff.mp hform
  have htop : Frame.ToldIn it.names it.symbols.Spells ⟨form, [], some topLevelLabel⟩ :=
    ⟨hform.orReserved, .inr (.inl rfl)⟩
  obtain ⟨_, hs, _⟩ := commutes_evaluate (EnvView.same it.symbols.Spells) it.context it.nesting
    hform (it.emit (.evaluating form)).machine h.binds
  cases hroom : it.host.hasRoom it.maxDepth with
  | false =>
    rw [evalTopLevel_of_noRoom hroom]
    trivial
  | true =>
    rw [evalTopLevel_of_hasRoom hroom]
    change ResultPrintsWell it.symbols
      (conclude form (evaluate it.context it.nesting form (it.emit (.evaluating form)).machine).1)
    cases ho : (evaluate it.context it.nesting form (it.emit (.evaluating form)).machine).1 with
    | value v =>
      rw [ho] at hs
      exact Value.printsWell_of_madeOf hs
    | error e =>
      rw [ho] at hs
      have hleft : (e.leaving form (some topLevelLabel)).ToldIn it.names it.symbols.Spells :=
        EvalError.ToldIn.leaving hs ⟨htop.form, htop.label⟩
      exact EvalError.printsWell_of_toldIn hleft
    | exhausted =>
      have hcause : EvalCause.ToldIn it.names it.symbols.Spells .exhausted := trivial
      exact EvalError.printsWell_of_toldIn ((EvalError.toldIn_of hcause).leaving htop)

theorem NamedIn.printsWell_evalEachForm (h : it.NamedIn readable) {forms : List Value}
    (hforms : ∀ v ∈ forms, v.NamedIn readable it.symbols) :
    ∀ r ∈ (it.evalEachForm forms).1, ResultPrintsWell it.symbols r := by
  induction forms generalizing it with
  | nil => exact fun r hr => nomatch hr
  | cons form forms ih =>
    obtain ⟨hform, hrest⟩ := List.forall_mem_cons.mp hforms
    exact List.forall_mem_cons.mpr
      ⟨h.printsWell_evalTopLevel hform, ih (h.evalTopLevel hform) hrest⟩

/-- The results up to the first error, or that error. -/
theorem NamedIn.printsWell_evalForms (h : it.NamedIn readable) {forms : List Value}
    (hforms : ∀ v ∈ forms, v.NamedIn readable it.symbols) :
    (∀ vs, (it.evalForms forms).1 = .ok vs → ∀ v ∈ vs, v.PrintsWell it.symbols) ∧
      ∀ f, (it.evalForms forms).1 = .error f → f.PrintsWell it.symbols := by
  induction forms generalizing it with
  | nil =>
    refine ⟨fun vs hvs v hv => ?_, fun f hf => ?_⟩
    · cases hvs
      cases hv
    · cases hf
  | cons form forms ih =>
    obtain ⟨hform, hrest⟩ := List.forall_mem_cons.mp hforms
    have hfirst := h.printsWell_evalTopLevel hform
    have hnext := ih (h.evalTopLevel hform) hrest
    have hsymbols : (it.evalTopLevel form).2.symbols = it.symbols := rfl
    rw [hsymbols] at hnext
    rw [evalForms_cons]
    generalize it.evalTopLevel form = result at hfirst hnext ⊢
    obtain ⟨f | v, it'⟩ := result
    · refine ⟨fun vs hvs => ?_, fun f' hf => ?_⟩
      · cases hvs
      · cases hf
        exact hfirst
    · simp only [evalBehind] at hnext ⊢
      cases hr : (it'.evalForms forms).1 with
      | error f =>
        refine ⟨fun vs hvs => ?_, fun f' hf => ?_⟩
        · cases hvs
        · cases hf
          exact hnext.2 f hr
      | ok ws =>
        refine ⟨fun vs hvs => ?_, fun f hf => ?_⟩
        · cases hvs
          exact List.forall_mem_cons.mpr ⟨hfirst, hnext.1 ws hr⟩
        · cases hf

theorem NamedIn.printsWell_forms {vs : List Value} {t : Symbols}
    (h : ∀ v ∈ vs, v.NamedIn readable t) : ∀ v ∈ vs, v.PrintsWell t :=
  fun v hv => Value.printsWell_of_madeOf (Value.over_iff.mp (h v hv))

theorem NamedIn.printsWell_perform (h : it.NamedIn readable) (step : Step) :
    (it.perform step).1.PrintsWell (it.perform step).2.symbols := by
  cases step with
  | eval source =>
    obtain ⟨hread, hforms⟩ := h.readSource source
    rcases hresult : it.readSource source with ⟨e | forms, it'⟩ <;> rw [hresult] at hread hforms
    · rw [Interpreter.perform, evalSource_of_error hresult]
      exact newline_notMem_readDiagnose e
    · have hsymbols := it'.symbols_evalForms forms
      obtain ⟨hok, herror⟩ := hread.printsWell_evalForms (hforms forms rfl)
      rw [← hsymbols] at hok herror
      rw [Interpreter.perform, evalSource_of_ok hresult]
      exact Reply.printsWell_ofSource hok herror
  | read chunk =>
    obtain ⟨_, hforms⟩ := h.read chunk
    rcases hresult : it.read chunk with ⟨e | forms, it'⟩ <;> rw [hresult] at hforms
    · simp only [Interpreter.perform, hresult]
      exact newline_notMem_readDiagnose e
    · simp only [Interpreter.perform, hresult]
      exact NamedIn.printsWell_forms (hforms forms rfl)
  | feed chunk =>
    obtain ⟨hread, hforms⟩ := h.read chunk
    rcases hresult : it.read chunk with ⟨e | forms, it'⟩ <;> rw [hresult] at hread hforms
    · simp only [Interpreter.perform, hresult]
      exact newline_notMem_readDiagnose e
    · simp only [Interpreter.perform, hresult, symbols_evalEachForm]
      exact hread.printsWell_evalEachForm (hforms forms rfl)
  | resolve name =>
    intro v hv
    have hnamed := (h.perform (.resolve name)).machine.env
    obtain ⟨scope, hscope, hget⟩ := List.exists_of_findSome?_eq_some hv
    exact Value.printsWell_of_madeOf
      (Value.over_iff.mp (hnamed scope hscope _ (mem_of_valueOf? hget)).2)
  | reset => trivial
  | finish =>
    simp only [Interpreter.perform]
    split
    · trivial
    · exact newline_notMem_readDiagnose _

end Interpreter

theorem resolve?_internNatives (t : Symbols) {ns : List Native} :
    ∀ n ∈ ns, ∀ name ∈ n.params.positional ++ n.params.rest.toList,
      ∃ s, (internNatives t ns).2.resolve? s = some name := by
  induction ns generalizing t with
  | nil => exact fun n hn => nomatch hn
  | cons n ns ih =>
    refine List.forall_mem_cons.mpr ⟨fun name hname => ?_, ih _⟩
    obtain ⟨s, hs⟩ := (t.intern n.name).2.resolve?_of_mem_internAll hname
    exact ⟨s, (namedIn_internNatives Vocabulary.all _ ns).1 s name hs⟩

theorem resolve?_of_parameter (n : Native) :
    ∀ name ∈ n.params.positional ++ n.params.rest.toList,
      ∃ s, initialBindings.2.resolve? s = some name := by
  have htable : initialBindings.2
      = (internNatives (internSpecials Symbols.initial SpecialForm.all).2 Native.all).2 := rfl
  rw [htable]
  exact resolve?_internNatives _ n n.mem_all

theorem Native.isSymbolName_of_parameter (n : Native) :
    ∀ name ∈ n.params.positional ++ n.params.rest.toList, IsSymbolName name := by
  have hrun : ∀ name ∈ ["terms", "factors", "min", "subs", "o1", "o2", "lst", "elems", "lsts",
      "obj"], IsSymbolRun name.toList := by
    simp only [List.forall_mem_cons, List.not_mem_nil, false_implies, implies_true, and_true]
    refine ⟨?_, ?_, ?_, ?_, ?_, ?_, ?_, ?_, ?_, ?_⟩
    all_goals exact ⟨by decide, List.all_eq_true.mp rfl, rfl⟩
  have hnames : n.params.positional ++ n.params.rest.toList ⊆ ["terms", "factors", "min", "subs",
      "o1", "o2", "lst", "elems", "lsts", "obj"] := by
    cases n <;> simp [params]
  exact fun name hname => (isSymbolName_iff name).mpr (hrun name (hnames hname))

/-- Printed symbols are real: in every state that a session reaches, every symbol that is bound,
every symbol in a bound value and every symbol in an open frame is spelled by the table, and so is
every symbol in the reply to any next step; what is printed of these values and of errors shows no
symbol as one without a name, stays on its lines, and is read as what it was if it is data. -/
theorem printed_symbols_real (maxDepth : Int) (host : Host) (steps : List Step) :
    let it := ((Interpreter.start maxDepth host).performAll steps).2
    (∀ scope ∈ it.env.scopes, ∀ b ∈ scope.entries,
      it.symbols.Spells b.1 ∧ b.2.PrintsWell it.symbols) ∧
    (∀ frame ∈ it.reader.stack, frame.Holds fun v => v.PrintsWell it.symbols) ∧
    (∀ n : Native, ∀ name ∈ n.params.positional ++ n.params.rest.toList,
      IsSymbolName name ∧ ∃ s, it.symbols.resolve? s = some name) ∧
    ∀ step, (it.perform step).1.PrintsWell (it.perform step).2.symbols := by
  intro it
  have hnamed : it.NamedIn Interpreter.readable :=
    (Interpreter.namedIn_start Interpreter.readable maxDepth host).performAll steps
  refine ⟨fun scope hscope b hb => ?_, fun frame hframe => ?_, fun n name hname => ?_,
    hnamed.printsWell_perform⟩
  · obtain ⟨hkey, hvalue⟩ := hnamed.machine.env scope hscope b hb
    exact ⟨hkey.2, Value.printsWell_of_madeOf (Value.over_iff.mp hvalue)⟩
  · exact (hnamed.reader frame hframe).mono fun v hv =>
      Value.printsWell_of_madeOf (Value.over_iff.mp hv)
  · obtain ⟨s, hs⟩ := resolve?_of_parameter n name hname
    have hkept := (Interpreter.start maxDepth host).keeps_performAll steps s name hs
    exact ⟨n.isSymbolName_of_parameter name hname, s, hkept⟩

end MiniLisp
