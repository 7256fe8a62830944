import MiniLisp.Proofs.Evaluation.OwnSymbols
import MiniLisp.Proofs.Evaluation.Scopes
import MiniLisp.Proofs.Reader.Progress
import MiniLisp.Session

/-!
# Symbols that have a name

Whatever an interpreter holds is made of symbols to which its table has given a name: the reader
interns each name that it meets, and an evaluation makes no symbols. A table that has more names
makes no difference to an evaluation.
Main statements: `NamedIn.performAll` and `NamedIn.evalTopLevel_withReader`.
-/

namespace MiniLisp

/-- A set of names to which every name belongs that is read as one symbol. -/
structure Vocabulary where
  Has : String → Prop
  of_isSymbolName : ∀ {name}, IsSymbolName name → Has name

namespace Vocabulary

def all : Vocabulary := ⟨fun _ => True, fun _ => trivial⟩

variable (L : Vocabulary) (t : Symbols)

/-- The table has given the symbol a name of the vocabulary. -/
def Names (s : Symbol) : Prop := ∃ name, t.resolve? s = some name ∧ L.Has name

theorem names_reserved : ∀ s ∈ reservedSymbols, L.Names t s := by
  have hname : ∀ (k : Nat) (h : k < reservedNames.length), IsSymbolRun reservedNames[k].toList →
      L.Names t ⟨k + 1⟩ := fun k h hrun =>
    ⟨_, t.resolve?_reserved k h, L.of_isSymbolName ((isSymbolName_iff _).mpr hrun)⟩
  simp only [reservedSymbols, List.forall_mem_cons, List.not_mem_nil, false_implies, implies_true,
    and_true]
  refine ⟨hname 0 (by decide) ?_, hname 1 (by decide) ?_, hname 2 (by decide) ?_,
    hname 3 (by decide) ?_, hname 4 (by decide) ?_, hname 5 (by decide) ?_,
    hname 6 (by decide) ?_⟩
  all_goals exact ⟨by decide, List.all_eq_true.mp rfl, rfl⟩

theorem names_specialForm (f : SpecialForm) : L.Has f.name := by
  refine L.of_isSymbolName ((isSymbolName_iff _).mpr ?_)
  cases f <;> exact ⟨by decide, List.all_eq_true.mp rfl, rfl⟩

theorem names_native (n : Native) : L.Has n.name := by
  refine L.of_isSymbolName ((isSymbolName_iff _).mpr ?_)
  cases n <;> exact ⟨by decide, List.all_eq_true.mp rfl, rfl⟩

theorem names_intern {name : String} (h : L.Has name) :
    L.Names (t.intern name).2 (t.intern name).1 := ⟨name, t.resolve?_intern name, h⟩

variable {t}

theorem Names.mono {L : Vocabulary} {t' : Symbols} (ht : t.Keeps t') {s : Symbol}
    (h : L.Names t s) : L.Names t' s := by
  obtain ⟨name, hs, hname⟩ := h
  exact ⟨name, ht s name hs, hname⟩

end Vocabulary

section

variable (L : Vocabulary) (t : Symbols)

/-- Every symbol in the value has a name of the vocabulary in the table. -/
abbrev Value.NamedIn (v : Value) : Prop := v.Over (L.Names t) (L.names_reserved t)

abbrev Machine.NamedIn (m : Machine) : Prop := m.Over (L.Names t) (L.names_reserved t)

end

variable {L : Vocabulary} {t t' : Symbols}

theorem Value.NamedIn.mono (ht : t.Keeps t') {v : Value} (h : v.NamedIn L t) : v.NamedIn L t' :=
  Value.Over.mono (fun _ => Vocabulary.Names.mono ht) h

theorem Machine.NamedIn.mono (ht : t.Keeps t') {m : Machine} (h : m.NamedIn L t) :
    m.NamedIn L t' :=
  Machine.Over.mono (fun _ => Vocabulary.Names.mono ht) h

/-- What is read from sound lexemes is made of symbols that have been interned. -/
theorem handed_namedIn (L : Vocabulary) : Handed Lexeme.Sound fun t v => v.NamedIn L t where
  keeps ht hv := hv.mono ht
  bool _ b := .bool b
  number _ x _ := .number x
  string _ s := .string s
  symbol t _ hname := .symbol ⟨rfl, L.names_intern t (L.of_isSymbolName hname)⟩
  list _ _ h := .list (List.forall₂_same.mpr h)
  mark t s hs := .symbol ⟨rfl, L.names_reserved t s (List.mem_append_left _ hs)⟩

section

variable (L)

/-- The symbol has a name, and so has every symbol in the value. -/
def BindingNamedIn (t : Symbols) (b : Symbol × Value) : Prop := L.Names t b.1 ∧ b.2.NamedIn L t

theorem namedIn_internSpecials (t : Symbols) (fs : List SpecialForm) :
    t.Keeps (internSpecials t fs).2 ∧
      ∀ b ∈ (internSpecials t fs).1, BindingNamedIn L (internSpecials t fs).2 b := by
  induction fs generalizing t with
  | nil => exact ⟨.refl t, fun b hb => nomatch hb⟩
  | cons f fs ih =>
    obtain ⟨hkeeps, hrest⟩ := ih (t.intern f.name).2
    refine ⟨(t.keeps_intern f.name).trans hkeeps,
      List.forall_mem_cons.mpr ⟨⟨?_, .special f⟩, hrest⟩⟩
    exact (L.names_intern t (L.names_specialForm f)).mono hkeeps

theorem namedIn_internNatives (t : Symbols) (ns : List Native) :
    t.Keeps (internNatives t ns).2 ∧
      ∀ b ∈ (internNatives t ns).1, BindingNamedIn L (internNatives t ns).2 b := by
  induction ns generalizing t with
  | nil => exact ⟨.refl t, fun b hb => nomatch hb⟩
  | cons n ns ih =>
    obtain ⟨hkeeps, hrest⟩ := ih ((t.intern n.name).2.internAll
      (n.params.positional ++ n.params.rest.toList)).2
    have hall := (Symbols.keeps_internAll (t.intern n.name).2 _).trans hkeeps
    refine ⟨(t.keeps_intern n.name).trans hall, List.forall_mem_cons.mpr ⟨⟨?_, .native n⟩, hrest⟩⟩
    exact (L.names_intern t (L.names_native n)).mono hall

theorem namedIn_initialBindings :
    ∀ b ∈ initialBindings.1, BindingNamedIn L initialBindings.2 b := by
  have hspecials := (namedIn_internSpecials L Symbols.initial SpecialForm.all).2
  have hnatives := namedIn_internNatives L (internSpecials Symbols.initial SpecialForm.all).2
    Native.all
  refine List.forall_mem_append.mpr ⟨fun b hb => ?_, hnatives.2⟩
  exact ⟨(hspecials b hb).1.mono hnatives.1, (hspecials b hb).2.mono hnatives.1⟩

end

namespace Interpreter

/-- Every symbol in the open frames, in the environment and in the log has a name of the
vocabulary. -/
structure NamedIn (L : Vocabulary) (it : Interpreter) : Prop where
  reader : it.reader.Holds fun t v => v.NamedIn L t
  machine : it.machine.NamedIn L it.symbols

variable {it : Interpreter}

theorem namedIn_start (L : Vocabulary) (maxDepth : Int) (host : Host) :
    (start maxDepth host).NamedIn L := by
  refine ⟨Reader.holds_ofSymbols _ _, ?_, fun event hevent => (nomatch hevent)⟩
  refine Environment.forall_scopes_iff.mpr ⟨fun scope hscope => (nomatch hscope), ?_⟩
  refine Scope.over_putAll Scope.over_empty fun b hb => ?_
  obtain ⟨hname, hvalue⟩ := namedIn_initialBindings L b hb
  exact ⟨⟨rfl, hname⟩, hvalue⟩

def withReader (it : Interpreter) (r : Reader) : Interpreter := { it with reader := r }

theorem NamedIn.emit (h : it.NamedIn L) {event : Event}
    (hevent : event.Renamed (.diagonal (L.Names it.symbols) (L.names_reserved it.symbols)) event) :
    (it.emit event).NamedIn L :=
  ⟨h.reader, h.machine.env, List.forall_mem_cons.mpr ⟨hevent, h.machine.log⟩⟩

theorem NamedIn.evalTopLevel (h : it.NamedIn L) {form : Value}
    (hform : form.NamedIn L it.symbols) : (it.evalTopLevel form).2.NamedIn L := by
  have hemit := h.emit (.evaluating hform)
  cases hroom : it.host.hasRoom it.maxDepth with
  | true =>
    rw [evalTopLevel_of_hasRoom hroom]
    exact ⟨h.reader, (evaluate_over (c := it.context) (fun _ _ => rfl) rfl rfl it.nesting hform
      hemit.machine).2.2⟩
  | false =>
    rw [evalTopLevel_of_noRoom hroom]
    exact hemit

/-- A reader with more names, whatever frames it keeps open, is of no account to an evaluation. -/
theorem NamedIn.evalTopLevel_withReader (h : it.NamedIn L) {form : Value}
    (hform : form.NamedIn L it.symbols) {r : Reader} (hr : it.symbols.Keeps r.symbols) :
    (it.withReader r).evalTopLevel form
      = ((it.evalTopLevel form).1, (it.evalTopLevel form).2.withReader r) := by
  have hnames : ∀ s, L.Names it.symbols s → it.names s = r.symbols.naming s := by
    rintro s ⟨name, hs, _⟩
    exact hs.trans (hr s name hs).symm
  cases hroom : it.host.hasRoom it.maxDepth with
  | true =>
    have hroom' : (it.withReader r).host.hasRoom (it.withReader r).maxDepth = true := hroom
    have hsame := (evaluate_over (c := it.context)
      (d := ⟨r.symbols.naming, it.maxDepth, it.host.closes⟩) hnames rfl rfl
      it.nesting hform (h.emit (.evaluating hform)).machine).1
    rw [evalTopLevel_of_hasRoom hroom, evalTopLevel_of_hasRoom hroom']
    exact congrArg (fun result : Outcome Value × Machine => (conclude form result.1,
      Interpreter.withReader { it with machine := result.2 } r)) hsame
  | false =>
    have hroom' : (it.withReader r).host.hasRoom (it.withReader r).maxDepth = false := hroom
    rw [evalTopLevel_of_noRoom hroom, evalTopLevel_of_noRoom hroom']
    rfl

theorem reader_evalForms (it : Interpreter) (forms : List Value) :
    (it.evalForms forms).2.reader = it.reader := by
  induction forms generalizing it with
  | nil => rfl
  | cons form forms ih =>
    have hfirst : (it.evalTopLevel form).2.reader = it.reader := rfl
    rw [evalForms_cons]
    rcases heval : it.evalTopLevel form with ⟨e | v, it'⟩ <;> rw [heval] at hfirst
    · exact hfirst
    · exact (ih it').trans hfirst

theorem reader_evalEachForm (it : Interpreter) (forms : List Value) :
    (it.evalEachForm forms).2.reader = it.reader := by
  induction forms generalizing it with
  | nil => rfl
  | cons form forms ih => exact ih (it.evalTopLevel form).2

theorem symbols_evalForms (it : Interpreter) (forms : List Value) :
    (it.evalForms forms).2.symbols = it.symbols :=
  congrArg Reader.symbols (reader_evalForms it forms)

theorem symbols_evalEachForm (it : Interpreter) (forms : List Value) :
    (it.evalEachForm forms).2.symbols = it.symbols :=
  congrArg Reader.symbols (reader_evalEachForm it forms)

theorem symbols_afterReading (it : Interpreter) (r : Reader) (discarded : Nat) :
    (it.afterReading r discarded).symbols = r.symbols :=
  congrArg Reader.symbols (reader_afterReading r discarded)

theorem NamedIn.evalForms (h : it.NamedIn L) {forms : List Value}
    (hforms : ∀ v ∈ forms, v.NamedIn L it.symbols) : (it.evalForms forms).2.NamedIn L := by
  induction forms generalizing it with
  | nil => exact h
  | cons form forms ih =>
    obtain ⟨hform, hrest⟩ := List.forall_mem_cons.mp hforms
    have hfirst := h.evalTopLevel hform
    have hnext := ih hfirst hrest
    rw [evalForms_cons]
    rcases heval : it.evalTopLevel form with ⟨e | v, it'⟩ <;> rw [heval] at hfirst hnext
    · exact hfirst
    · exact hnext

theorem NamedIn.evalEachForm (h : it.NamedIn L) {forms : List Value}
    (hforms : ∀ v ∈ forms, v.NamedIn L it.symbols) : (it.evalEachForm forms).2.NamedIn L := by
  induction forms generalizing it with
  | nil => exact h
  | cons form forms ih =>
    obtain ⟨hform, hrest⟩ := List.forall_mem_cons.mp hforms
    exact ih (h.evalTopLevel hform) hrest

theorem NamedIn.afterReading (h : it.NamedIn L) {r : Reader}
    (hr : r.Holds fun t v => v.NamedIn L t) (hkeeps : it.symbols.Keeps r.symbols)
    (discarded : Nat) : (it.afterReading r discarded).NamedIn L := by
  have hread : (it.withReader r).NamedIn L := ⟨hr, h.machine.mono hkeeps⟩
  simp only [Interpreter.afterReading]
  split
  · exact hread
  · exact hread.emit (.discarded discarded)

theorem NamedIn.read (h : it.NamedIn L) (chunk : String) :
    (it.read chunk).2.NamedIn L ∧ ∀ forms, (it.read chunk).1 = .ok forms →
      ∀ v ∈ forms, v.NamedIn L (it.read chunk).2.symbols := by
  obtain ⟨hreader, hforms⟩ := (handed_namedIn L).feed h.reader (sound_tokensFrom _ 0 chunk.toList)
  refine ⟨h.afterReading hreader (it.reader.keeps_feed chunk) _, fun forms hok => ?_⟩
  rw [symbols, Interpreter.read, reader_afterReading]
  exact hforms forms hok

theorem NamedIn.readSource (h : it.NamedIn L) (source : String) :
    (it.readSource source).2.NamedIn L ∧ ∀ forms, (it.readSource source).1 = .ok forms →
      ∀ v ∈ forms, v.NamedIn L (it.readSource source).2.symbols := by
  obtain ⟨_, hforms⟩ := (handed_namedIn L).readAll (Reader.holds_ofSymbols _ it.symbols)
    (sound_tokensFrom _ 0 source.toList)
  have hkeeps := (Reader.ofSymbols it.symbols).keeps_readAll source
  have hreader : Reader.Holds (fun t v => v.NamedIn L t)
      { it.reader with symbols := ((Reader.ofSymbols it.symbols).readAll source).reader.symbols } :=
    fun frame hf => (h.reader frame hf).mono fun _ hv => hv.mono hkeeps
  refine ⟨h.afterReading hreader hkeeps _, fun forms hok => ?_⟩
  rw [symbols, Interpreter.readSource, reader_afterReading]
  exact hforms forms hok

theorem NamedIn.evalSource (h : it.NamedIn L) (source : String) :
    (it.evalSource source).2.NamedIn L := by
  obtain ⟨hread, hforms⟩ := h.readSource source
  rcases hresult : it.readSource source with ⟨e | forms, it'⟩ <;> rw [hresult] at hread hforms
  · rw [evalSource_of_error hresult]
    exact hread
  · rw [evalSource_of_ok hresult]
    exact hread.evalForms (hforms forms rfl)

theorem NamedIn.finish (h : it.NamedIn L) : it.finish.2.NamedIn L := by
  refine h.afterReading (Reader.holds_finish h.reader) ?_ _
  rw [Reader.symbols_finish]
  exact .refl _

theorem keeps_read (it : Interpreter) (chunk : String) :
    it.symbols.Keeps (it.read chunk).2.symbols := by
  rw [Interpreter.read, symbols_afterReading]
  exact it.reader.keeps_feed chunk

theorem keeps_readSource (it : Interpreter) (source : String) :
    it.symbols.Keeps (it.readSource source).2.symbols := by
  rw [Interpreter.readSource, symbols_afterReading]
  exact (Reader.ofSymbols it.symbols).keeps_readAll source

/-- Whatever a step does, every symbol keeps its name. -/
theorem keeps_perform (it : Interpreter) (step : Step) :
    it.symbols.Keeps (it.perform step).2.symbols := by
  cases step with
  | eval source =>
    have hsource := it.keeps_readSource source
    rcases hresult : it.readSource source with ⟨e | forms, it'⟩ <;> rw [hresult] at hsource
    · rw [Interpreter.perform, evalSource_of_error hresult]
      exact hsource
    · rw [← symbols_evalForms it' forms] at hsource
      rw [Interpreter.perform, evalSource_of_ok hresult]
      exact hsource
  | read chunk =>
    have hchunk := it.keeps_read chunk
    simp only [Interpreter.perform]
    split <;> rename_i heq <;> rwa [heq] at hchunk
  | feed chunk =>
    have hchunk := it.keeps_read chunk
    rcases hresult : it.read chunk with ⟨e | forms, it'⟩ <;> rw [hresult] at hchunk
    · simp only [Interpreter.perform, hresult]
      exact hchunk
    · simp only [Interpreter.perform, hresult, symbols_evalEachForm]
      exact hchunk
  | resolve name => exact it.symbols.keeps_intern name
  | reset =>
    rw [Interpreter.perform, reset, symbols_afterReading]
    exact .refl _
  | finish =>
    have hfinish : it.symbols.Keeps it.finish.2.symbols := by
      rw [Interpreter.finish, symbols_afterReading, Reader.symbols_finish]
      exact .refl _
    simp only [Interpreter.perform]
    split <;> rename_i heq <;> rwa [heq] at hfinish

theorem keeps_performAll (it : Interpreter) (steps : List Step) :
    it.symbols.Keeps (it.performAll steps).2.symbols := by
  induction steps generalizing it with
  | nil => exact .refl _
  | cons step steps ih => exact (keeps_perform it step).trans (ih (it.perform step).2)

theorem NamedIn.perform (h : it.NamedIn L) (step : Step) : (it.perform step).2.NamedIn L := by
  cases step with
  | eval source => exact h.evalSource source
  | read chunk =>
    have hread := (h.read chunk).1
    simp only [Interpreter.perform]
    split <;> rename_i heq <;> rwa [heq] at hread
  | feed chunk =>
    obtain ⟨hread, hforms⟩ := h.read chunk
    simp only [Interpreter.perform]
    split <;> rename_i heq <;> rw [heq] at hread hforms
    · exact hread.evalEachForm (hforms _ rfl)
    · exact hread
  | resolve name =>
    have hkeeps := it.symbols.keeps_intern name
    exact ⟨fun frame hf => (h.reader frame hf).mono fun _ hv => hv.mono hkeeps,
      h.machine.mono hkeeps⟩
  | reset => exact h.afterReading (Reader.holds_ofSymbols _ _) (.refl _) _
  | finish =>
    have hfinish := h.finish
    simp only [Interpreter.perform]
    split <;> rename_i heq <;> rwa [heq] at hfinish

theorem NamedIn.performAll (h : it.NamedIn L) (steps : List Step) :
    (it.performAll steps).2.NamedIn L := by
  induction steps generalizing it with
  | nil => exact h
  | cons step steps ih => exact ih (h.perform step)

end Interpreter

end MiniLisp
