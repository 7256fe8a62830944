import MiniLisp.Proofs.Reader.Cuts
import MiniLisp.Proofs.Session.Naming

/-!
# Programs that arrive in chunks

A program may be evaluated while it is still being read: each form as soon as its last chunk has
come, and nothing after the first failure. The names that later chunks bring are of no account to
the forms before them, so the values, the failure and the environment are those of the whole
program.
Main statement: `streaming_as_whole`.
-/

namespace MiniLisp

namespace Interpreter

/-- The values up to the first failure, and the failure if there is one. -/
structure Transcript where
  values : List Value
  failure : Option Failure

def Transcript.result (t : Transcript) : Except Failure (List Value) :=
  match t.failure with
  | none => .ok t.values
  | some e => .error e

theorem Transcript.result_append (vs : List Value) (t : Transcript) :
    (Transcript.mk (vs ++ t.values) t.failure).result = t.result.map (vs ++ ·) := by
  obtain ⟨ws, none | e⟩ := t <;> rfl

/-- Goes on behind the values so far, unless there has been a failure. -/
def goOn (next : Interpreter → Transcript × Interpreter) :
    Transcript × Interpreter → Transcript × Interpreter
  | (⟨vs, none⟩, it) => (⟨vs ++ (next it).1.values, (next it).1.failure⟩, (next it).2)
  | (⟨vs, some e⟩, it) => (⟨vs, some e⟩, it)

def runForm (it : Interpreter) (form : Value) : Transcript × Interpreter :=
  match it.evalTopLevel form with
  | (.ok v, it) => (⟨[v], none⟩, it)
  | (.error f, it) => (⟨[], some f⟩, it)

/-- Evaluates forms in order, up to and including the first that fails. -/
def runForms (it : Interpreter) : List Value → Transcript × Interpreter
  | [] => (⟨[], none⟩, it)
  | form :: forms => goOn (fun it => it.runForms forms) (it.runForm form)

/-- Reads chunks one by one, and evaluates the forms that a chunk completes before the next one is
read; the first failure ends it. -/
def stream (it : Interpreter) : List String → Transcript × Interpreter
  | [] => (⟨[], none⟩, it)
  | chunk :: chunks => match it.read chunk with
    | (.ok forms, it) => goOn (fun it => it.stream chunks) (it.runForms forms)
    | (.error e, it) => (⟨[], some (.read e)⟩, it)

theorem goOn_done (x : Transcript × Interpreter) : goOn (fun it => (⟨[], none⟩, it)) x = x := by
  obtain ⟨⟨vs, none | e⟩, it⟩ := x
  · rw [goOn, List.append_nil]
  · rfl

theorem goOn_goOn (f g : Interpreter → Transcript × Interpreter) (x : Transcript × Interpreter) :
    goOn g (goOn f x) = goOn (fun it => goOn g (f it)) x := by
  obtain ⟨⟨vs, none | e⟩, it⟩ := x
  · simp only [goOn]
    rcases f it with ⟨⟨ws, none | e⟩, it'⟩
    · simp only [List.append_assoc]
    · rfl
  · rfl

theorem runForms_append (it : Interpreter) (forms forms' : List Value) :
    it.runForms (forms ++ forms') = goOn (fun it => it.runForms forms') (it.runForms forms) := by
  induction forms generalizing it with
  | nil => rfl
  | cons form forms ih =>
    rw [List.cons_append, runForms, runForms, goOn_goOn]
    exact congrArg (goOn · _) (funext ih)

theorem runForms_eq (it : Interpreter) (forms : List Value) :
    (it.runForms forms).1.result = (it.evalForms forms).1 ∧
      (it.runForms forms).2 = (it.evalForms forms).2 := by
  induction forms generalizing it with
  | nil => exact ⟨rfl, rfl⟩
  | cons form forms ih =>
    rw [runForms, runForm, evalForms_cons]
    rcases it.evalTopLevel form with ⟨e | v, it'⟩
    · exact ⟨rfl, rfl⟩
    · obtain ⟨hresult, hit⟩ := ih it'
      refine ⟨?_, hit⟩
      rw [goOn, evalBehind, Transcript.result_append, hresult]
      cases (it'.evalForms forms).1 <;> rfl

theorem evalSource_of_readSource {it it' : Interpreter} {source : String} {forms : List Value}
    (h : it.readSource source = (.ok forms, it')) :
    it.evalSource source = ((it'.runForms forms).1.result, (it'.runForms forms).2) := by
  obtain ⟨hresult, hit⟩ := it'.runForms_eq forms
  rw [hresult, hit, evalSource_of_ok h]

theorem reader_runForms (it : Interpreter) (forms : List Value) :
    (it.runForms forms).2.reader = it.reader := by
  rw [(it.runForms_eq forms).2]
  exact reader_evalForms it forms

theorem stack_evalSource (it : Interpreter) (source : String) :
    (it.evalSource source).2.reader.stack = it.reader.stack := by
  have hread : (it.readSource source).2.reader.stack = it.reader.stack := by
    rw [readSource, reader_afterReading]
  rcases hresult : it.readSource source with ⟨e | forms, it'⟩ <;> rw [hresult] at hread
  · rw [evalSource_of_error hresult]
    exact hread
  · rw [evalSource_of_ok hresult, reader_evalForms]
    exact hread

theorem withReader_of_reader {it : Interpreter} {r : Reader} (h : it.reader = r) :
    it.withReader r = it := by
  subst h
  rfl

variable {it : Interpreter} {L : Vocabulary}

theorem NamedIn.runForms_withReader (h : it.NamedIn L) {forms : List Value}
    (hforms : ∀ v ∈ forms, v.NamedIn L it.symbols) {r : Reader}
    (hr : it.symbols.Keeps r.symbols) :
    (it.withReader r).runForms forms
      = ((it.runForms forms).1, (it.runForms forms).2.withReader r) := by
  induction forms generalizing it with
  | nil => rfl
  | cons form forms ih =>
    obtain ⟨hform, hrest⟩ := List.forall_mem_cons.mp hforms
    have hnext := ih (h.evalTopLevel hform) hrest hr
    rw [runForms, runForms, runForm, runForm, h.evalTopLevel_withReader hform hr]
    rcases heval : it.evalTopLevel form with ⟨e | v, it'⟩
    · rfl
    · rw [heval] at hnext
      simp only [goOn, hnext]

theorem NamedIn.runForms (h : it.NamedIn L) {forms : List Value}
    (hforms : ∀ v ∈ forms, v.NamedIn L it.symbols) : (it.runForms forms).2.NamedIn L := by
  rw [(it.runForms_eq forms).2]
  exact h.evalForms hforms

theorem read_of_feed {chunk : String} {forms : List Value}
    (h : (it.reader.feed chunk).result = .ok forms) :
    it.read chunk = (.ok forms, it.withReader (it.reader.feed chunk).reader) := by
  rw [read, h, Reader.discarded_of_feed h]
  rfl

theorem readSource_of_ok {source : String} {forms : List Value} (hstack : it.reader.stack = [])
    (h : (it.readSource source).1 = .ok forms) :
    (it.reader.feed source).result = .ok forms ∧
      it.readSource source = (.ok forms, it.withReader (it.reader.feed source).reader) := by
  have hempty : Reader.ofSymbols it.symbols = it.reader := by
    rw [Reader.ofSymbols, symbols, ← hstack]
  rw [readSource, hempty] at h ⊢
  rw [Reader.readAll] at h ⊢
  cases hfeed : (it.reader.feed source).result with
  | error e =>
    simp only [hfeed] at h
    cases h
  | ok fs =>
    simp only [hfeed, Reader.finish] at h ⊢
    split at h
    · rename_i hdone
      rw [if_pos hdone]
      cases h
      refine ⟨rfl, congrArg (fun r => (_, it.withReader r)) ?_⟩
      rw [hstack, ← List.isEmpty_iff.mp hdone]
    · cases h

theorem NamedIn.of_feed (h : it.NamedIn L) {chunk : String} {forms : List Value}
    (hread : (it.reader.feed chunk).result = .ok forms) :
    (it.withReader (it.reader.feed chunk).reader).NamedIn L ∧
      ∀ v ∈ forms, v.NamedIn L (it.reader.feed chunk).reader.symbols := by
  obtain ⟨hnamed, hforms⟩ := h.read chunk
  rw [read_of_feed hread] at hnamed hforms
  exact ⟨hnamed, hforms forms rfl⟩

/-- The first run has the transcript of the second, which had the reader `r` from the start; it
leaves all but the reader alike, and the reader too if nothing failed. -/
structure CatchesUp (r : Reader) (x y : Transcript × Interpreter) : Prop where
  transcript : x.1 = y.1
  rest : x.2.withReader r = y.2
  symbols : x.2.symbols.Keeps r.symbols
  reader : x.1.failure = none → x.2.reader = r

theorem CatchesUp.goOn {r : Reader} {x : Transcript × Interpreter}
    {f g : Interpreter → Transcript × Interpreter} (hx : x.2.symbols.Keeps r.symbols)
    (h : CatchesUp r (f x.2) (g (x.2.withReader r))) :
    CatchesUp r (goOn f x) (goOn g (x.1, x.2.withReader r)) := by
  obtain ⟨⟨vs, none | e⟩, it⟩ := x
  · refine ⟨?_, h.rest, h.symbols, h.reader⟩
    simp only [Interpreter.goOn, h.transcript]
  · exact ⟨rfl, rfl, hx, fun hnone => (nomatch hnone)⟩

theorem catchesUp_self (r : Reader) {x : Transcript × Interpreter} (h : x.2.reader = r) :
    CatchesUp r x x := by
  subst h
  exact ⟨rfl, rfl, .refl _, fun _ => rfl⟩

/-- Whatever frames are open at the start: the chunks are evaluated as the forms that a reading of
the whole text completes, with a reader that has read it already. -/
theorem NamedIn.catchesUp_stream (h : it.NamedIn L) {chunks : List String}
    (hcuts : CutsOutsideLiterals chunks) {forms : List Value} {r : Reader}
    (hread : (it.reader.feed ("\n".intercalate chunks)).result = .ok forms)
    (hr : (it.reader.feed ("\n".intercalate chunks)).reader = r) :
    CatchesUp r (it.stream chunks) ((it.withReader r).runForms forms) := by
  induction chunks generalizing it forms with
  | nil =>
    have hempty : it.reader.feed "" = ⟨.ok [], it.reader, 0⟩ := by
      rw [Reader.feed, show tokens "" = [] from tokensFrom_nil .normal 0]
      rfl
    rw [String.intercalate_nil, hempty] at hread hr
    cases hread
    subst hr
    exact catchesUp_self _ rfl
  | cons chunk chunks ih =>
    cases chunks with
    | nil =>
      rw [String.intercalate_singleton] at hread hr
      rw [stream, read_of_feed hread, hr]
      simp only [stream, goOn_done]
      exact catchesUp_self r (reader_runForms _ forms)
    | cons next chunks =>
      obtain ⟨hcut, hcuts⟩ := (cutsOutsideLiterals_cons chunk next chunks).mp hcuts
      rw [String.intercalate_cons_cons] at hread hr
      obtain ⟨fa, fb, rfl, ha, hb, hreader⟩ := Reader.feed_of_cut hcut hread
      rw [hreader] at hr
      obtain ⟨hnamed, hforms⟩ := h.of_feed ha
      have hkeeps : (it.reader.feed chunk).reader.symbols.Keeps r.symbols :=
        hr ▸ Reader.keeps_feed _ _
      -- the forms of the first chunk do not see the names of the others
      have hlater : (it.withReader r).runForms fa
          = (((it.withReader (it.reader.feed chunk).reader).runForms fa).1,
            ((it.withReader (it.reader.feed chunk).reader).runForms fa).2.withReader r) :=
        hnamed.runForms_withReader hforms hkeeps
      have hkept := reader_runForms (it.withReader (it.reader.feed chunk).reader) fa
      rw [stream, read_of_feed ha, runForms_append, hlater]
      refine CatchesUp.goOn ?_ (ih (hnamed.runForms hforms) hcuts ?_ ?_)
      · rw [symbols, hkept]
        exact hkeeps
      · rw [hkept]
        exact hb
      · rw [hkept]
        exact hr

end Interpreter

/-- Streaming a program equals evaluating it whole. Let a text be read completely by an interpreter
with no open frames, all of whose symbols have names, and be cut into chunks at line breaks outside
string literals. Then evaluating each form before the next chunk is read gives the values and the
failure that evaluating all forms of the text gives, the same result as the whole source, and the
same environment; the table has at most fewer names, and if nothing fails all is the same. Every
interpreter of a session has names for its symbols, and no source changes the frames that the
reader keeps open. -/
theorem streaming_as_whole :
    (∀ (it : Interpreter) (chunks : List String) (forms : List Value),
      it.NamedIn .all → it.reader.stack = [] → CutsOutsideLiterals chunks →
      (it.readSource ("\n".intercalate chunks)).1 = .ok forms →
      let streamed := it.stream chunks
      let whole := it.evalSource ("\n".intercalate chunks)
      streamed.1 = ((it.readSource ("\n".intercalate chunks)).2.runForms forms).1 ∧
      streamed.1.result = whole.1 ∧
      streamed.2.machine = whole.2.machine ∧
      streamed.2.symbols.Keeps whole.2.symbols ∧
      (streamed.1.failure = none → streamed.2 = whole.2)) ∧
    (∀ (maxDepth : Int) (host : Host) (steps : List Step),
      ((Interpreter.start maxDepth host).performAll steps).2.NamedIn .all) ∧
    ∀ (it : Interpreter) (source : String),
      (it.evalSource source).2.reader.stack = it.reader.stack := by
  refine ⟨fun it chunks forms hnamed hstack hcuts hread => ?_,
    fun maxDepth host steps => (Interpreter.namedIn_start .all maxDepth host).performAll steps,
    Interpreter.stack_evalSource⟩
  obtain ⟨hfeed, hsource⟩ := Interpreter.readSource_of_ok hstack hread
  have hrun := hnamed.catchesUp_stream hcuts hfeed rfl
  rw [Interpreter.evalSource_of_readSource hsource, hsource]
  dsimp only
  have hkept := Interpreter.reader_runForms
    (it.withReader (it.reader.feed ("\n".intercalate chunks)).reader) forms
  refine ⟨hrun.transcript, congrArg _ hrun.transcript, ?_, ?_, fun hnone => ?_⟩
  · rw [← hrun.rest]
    rfl
  · simp only [Interpreter.symbols, hkept]
    exact hrun.symbols
  · rw [← hrun.rest, Interpreter.withReader_of_reader (hrun.reader hnone)]

/-- The second chunk completes a form that the first has begun, and a form in it fails whose name
stands for nothing; the last chunk is not read. -/
theorem streaming_as_whole_unbound :
    let it := Interpreter.start 3 .roomy
    let chunks := ["(def x", "'y) x z", "(w #t)"]
    let forms : List Value := [.list [.symbol ⟨8⟩, .symbol ⟨33⟩,
      .list [.symbol Symbol.quote, .symbol ⟨34⟩]], .symbol ⟨33⟩, .symbol ⟨35⟩,
      .list [.symbol ⟨36⟩, .bool true]]
    it.NamedIn .all ∧ it.reader.stack = [] ∧ CutsOutsideLiterals chunks ∧
    (it.readSource ("\n".intercalate chunks)).1 = .ok forms ∧
    (it.stream chunks).1 = ⟨[.symbol ⟨34⟩, .symbol ⟨34⟩],
      some (.eval ⟨.unbound "z", [], [⟨.symbol ⟨35⟩, [], some "in"⟩]⟩)⟩ ∧
    (it.stream chunks).1.result = (it.evalSource ("\n".intercalate chunks)).1 ∧
    (it.stream chunks).2.machine = (it.evalSource ("\n".intercalate chunks)).2.machine := by
  intro it chunks forms
  obtain ⟨hstream, hnamed, _⟩ := streaming_as_whole
  have hit : it.NamedIn .all := hnamed 3 .roomy []
  have hcuts : CutsOutsideLiterals chunks := by
    have hfirst : finalMode (tokens "(def x") = .normal := by cbv
    have hsecond : finalMode (tokens "'y) x z") = .normal := by cbv
    exact (cutsOutsideLiterals_cons _ _ _).mpr ⟨hfirst, (cutsOutsideLiterals_cons _ _ _).mpr
      ⟨hsecond, cutsOutsideLiterals_singleton _⟩⟩
  have hread : (it.readSource ("\n".intercalate chunks)).1 = .ok forms := by cbv
  have hvalues : (it.stream chunks).1 = ⟨[.symbol ⟨34⟩, .symbol ⟨34⟩],
      some (.eval ⟨.unbound "z", [], [⟨.symbol ⟨35⟩, [], some "in"⟩]⟩)⟩ := by cbv
  obtain ⟨_, hresult, hmachine, _⟩ := hstream it chunks forms hit rfl hcuts hread
  exact ⟨hit, rfl, hcuts, hread, hvalues, hresult, hmachine⟩

end MiniLisp
