import Mathlib
import MiniLisp.Proofs.Evaluation.Termination
import MiniLisp.Proofs.Reader.Holding

/-!
# Sessions without macros end

If no source of a session names the head of a macro definition, no macro is ever read, bound or
made, so under a limit every form at the top level has an answer, provided that the host accepts the
limit on its stack that the bodies need. Where it does not, nothing is evaluated at all.
Main statement: `macro_free_sessions_end`.
-/

namespace MiniLisp

/-- The symbol that heads the definition of a macro is not among the tokens. -/
def MacroFreeSource (source : String) : Prop := ∀ t ∈ tokens source, t.lexeme ≠ .symbol "macro"

def Step.MacroFree : Step → Prop
  | .eval source | .read source | .feed source => MacroFreeSource source
  | .resolve _ | .reset | .finish => True

theorem Symbols.intern_ne_macroHead (t : Symbols) {name : String} (h : name ≠ "macro") :
    (t.intern name).1 ≠ Symbol.macroHead := by
  intro hsymbol
  have hname := t.resolve?_intern name
  have hmacro := (t.intern name).2.resolve?_reserved 6 (by decide)
  rw [hsymbol] at hname
  exact h (Option.some.inj (hname.symm.trans hmacro))

theorem handed_macroFree : Handed (· ≠ .symbol "macro") fun _ v => v.MacroFree where
  keeps _ hv := hv
  bool _ b := .bool b
  number _ x _ := .number x
  string _ s := .string s
  symbol t name hname := .symbol _ (t.intern_ne_macroHead fun h => hname (congrArg _ h))
  list _ items h := .list items h
  mark _ s hs := .symbol s (by revert s; decide)

/-- The failure is an answer: neither the stack of the host was exhausted nor its limit refused. -/
def Failure.Answers : Failure → Prop
  | .read _ => True
  | .eval e => e.cause ≠ .exhausted
  | .host => False

def Answered (r : Except Failure α) : Prop := ∀ f, r = .error f → f.Answers

/-- Every evaluation of which the reply tells has an answer. -/
def Reply.Answered : Reply → Prop
  | .evalError e => e.cause ≠ .exhausted
  | .hostError => False
  | .results rs => ∀ r ∈ rs, MiniLisp.Answered r
  | _ => True

/-- The reply tells of no evaluation: the host has refused each. -/
def Reply.Refused : Reply → Prop
  | .values vs => vs = []
  | .evalError _ => False
  | .results rs => ∀ r ∈ rs, r = .error .host
  | _ => True

theorem Reply.answered_ofSource {r : Except Failure (List Value)} (h : MiniLisp.Answered r) :
    (Reply.ofSource r).Answered := by
  rcases r with (e | e | _) | vs
  · trivial
  · exact h _ rfl
  · exact h _ rfl
  · trivial

namespace Interpreter

/-- The interpreter has no macros bound or begun, and no body is active. -/
structure MacroFree (it : Interpreter) : Prop where
  reader : it.reader.Holds fun _ v => v.MacroFree
  env : it.env.MacroFree
  callDepth : it.machine.callDepth = 0

theorem macroFree_internSpecials (t : Symbols) (fs : List SpecialForm) :
    ∀ b ∈ (internSpecials t fs).1, b.1 ≠ Symbol.macroHead → b.2.MacroFree := by
  induction fs generalizing t with
  | nil => exact fun b hb => nomatch hb
  | cons f fs ih =>
    refine List.forall_mem_cons.mpr ⟨fun hname => .special f fun hf => hname ?_, ih _⟩
    rw [hf]
    exact congrArg Prod.fst (t.intern_headName .expander)

theorem macroFree_internNatives (t : Symbols) (ns : List Native) :
    ∀ b ∈ (internNatives t ns).1, b.2.MacroFree := by
  induction ns generalizing t with
  | nil => exact fun b hb => nomatch hb
  | cons n ns ih => exact List.forall_mem_cons.mpr ⟨.native n, ih _⟩

theorem macroFree_start (maxDepth : Int) (host : Host) : (start maxDepth host).MacroFree := by
  refine ⟨Reader.holds_ofSymbols _ _, ?_, rfl⟩
  have hsplit : initialBindings.1 = (internSpecials Symbols.initial SpecialForm.all).1
      ++ (internNatives (internSpecials Symbols.initial SpecialForm.all).2 Native.all).1 := rfl
  have hbindings : ∀ b ∈ initialBindings.1, b.1 ≠ Symbol.macroHead → b.2.MacroFree := by
    rw [hsplit, List.forall_mem_append]
    exact ⟨macroFree_internSpecials _ _, fun b hb _ => macroFree_internNatives _ _ b hb⟩
  exact Environment.macroFree_iff.mpr ⟨fun scope hscope => (nomatch hscope),
    Scope.binds_putAll Scope.binds_empty hbindings⟩

theorem MacroFree.afterReading {it : Interpreter} (h : it.MacroFree) {reader : Reader}
    (hr : reader.Holds fun _ v => v.MacroFree) (discarded : Nat) :
    (it.afterReading reader discarded).MacroFree := by
  simp only [Interpreter.afterReading]
  split
  · exact ⟨hr, h.env, h.callDepth⟩
  · exact ⟨hr, h.env, h.callDepth⟩

/-- The interpreter without macros has the limit, and its host has room for it. -/
structure Ready (limit : Int) (it : Interpreter) : Prop where
  macroFree : it.MacroFree
  maxDepth : it.maxDepth = limit
  hasRoom : it.host.hasRoom limit = true

theorem Ready.afterReading {it : Interpreter} {limit : Int} (h : it.Ready limit) {reader : Reader}
    (hr : reader.Holds fun _ v => v.MacroFree) (discarded : Nat) :
    (it.afterReading reader discarded).Ready limit := by
  have hsame := it.sameLimits_afterReading reader discarded
  refine ⟨h.macroFree.afterReading hr discarded, hsame.maxDepth.trans h.maxDepth, ?_⟩
  rw [hsame.host]
  exact h.hasRoom

def withNesting (it : Interpreter) (n : Nat) : Interpreter :=
  { it with host := { it.host with nesting := n } }

/-- From some nesting on the answer is the same, and so is the interpreter that is left, which is
ready again; the answer satisfies `A`. -/
def Settles (limit : Int) (f : Nat → α × Interpreter) (A : α → Prop) : Prop :=
  ∃ (N : Nat) (a : α) (it : Interpreter), it.Ready limit ∧ A a ∧
    ∀ n, N ≤ n → f n = (a, it.withNesting n)

variable {it : Interpreter} {limit : Int}

namespace Settles

variable {f : Nat → α × Interpreter} {A : α → Prop} {B : β → Prop}

theorem once {a : α} (h : it.Ready limit) (ha : A a) :
    Settles limit (fun n => (a, it.withNesting n)) A :=
  ⟨0, a, it, h, ha, fun _ _ => rfl⟩

theorem andThen (g : α → Interpreter → β × Interpreter) (hf : Settles limit f A)
    (hg : ∀ a (it : Interpreter), A a → it.Ready limit →
      Settles limit (fun n => g a (it.withNesting n)) B) :
    Settles limit (fun n => g (f n).1 (f n).2) B := by
  obtain ⟨N, a, it, h, ha, hstable⟩ := hf
  obtain ⟨N', b, it', h', hb, hstable'⟩ := hg a it ha h
  refine ⟨max N N', b, it', h', hb, fun n hn => ?_⟩
  have hfirst := hstable n (by omega)
  have hsecond := hstable' n (by omega)
  simp only [hfirst]
  exact hsecond

theorem map (hf : Settles limit f A) (g : α → β) (hg : ∀ a, A a → B (g a)) :
    Settles limit (fun n => (g (f n).1, (f n).2)) B :=
  hf.andThen (fun a it => (g a, it)) fun _ _ ha h => once h (hg _ ha)

end Settles

theorem trail_not_exhausted {ctx : Context} {full : Value → Prop} {cause : EvalCause} {form : Value}
    {path : Path} {frames : List Frame} (h : Trail ctx full cause form path frames) :
    cause ≠ .exhausted := by
  induction h with
  | here _ hblames =>
    rintro rfl
    exact hblames
  | refused hcause =>
    rw [hcause]
    exact EvalCause.noConfusion
  | entered _ _ ih => exact ih

theorem answered_conclude {ctx : Context} {form : Value} {n : Nat} {m : Machine}
    {V : Value → Prop} (h : (evaluate ctx n form m).1.Answers V) :
    Answered (conclude form (evaluate ctx n form m).1) := by
  -- an error of an evaluation has a trail, and no trail leads to the lack of an answer
  have hsited := sited_evaluate ctx n form m
  intro f hf
  cases hresult : (evaluate ctx n form m).1 with
  | value v =>
    rw [hresult] at hf
    cases hf
  | error e =>
    rw [hresult] at hf hsited
    cases hf
    exact trail_not_exhausted hsited
  | exhausted =>
    rw [hresult] at h
    exact h.elim

theorem settles_evalTopLevel (hlimit : 1 ≤ limit) (h : it.Ready limit) {form : Value}
    (hform : form.MacroFree) :
    Settles limit (fun n => (it.withNesting n).evalTopLevel form) Answered := by
  obtain ⟨k, rfl⟩ := Int.eq_ofNat_of_zero_le (a := limit) (by omega)
  obtain ⟨hfree, hdepth, hroom⟩ := h
  have hk : 1 ≤ k := by omega
  -- whether there is room does not depend on the nesting, so the evaluation begins for each of them
  obtain ⟨N, r, hstable, hkeeps, hfree', hanswers⟩ := settles_evaluate it.names it.host.closes hk 0
    (Nat.zero_le k) form hform (it.emit (.evaluating form)).machine hfree.callDepth hfree.env
  refine ⟨N, conclude form r.1, { it with machine := r.2 }, ⟨?_, hdepth, hroom⟩, ?_,
    fun n hn => ?_⟩
  · exact ⟨hfree.reader, hfree', hkeeps.callDepth.trans hfree.callDepth⟩
  · rw [← hstable N (Nat.le_refl N)] at hanswers ⊢
    exact answered_conclude hanswers
  · have hcontext : (it.withNesting n).context = ⟨it.names, k, it.host.closes⟩ :=
      congrArg (Context.mk it.names · it.host.closes) hdepth
    have heval := hstable n hn
    have hroom' : (it.withNesting n).host.hasRoom (it.withNesting n).maxDepth = true := by
      rw [← hdepth] at hroom
      exact hroom
    rw [← hcontext] at heval
    rw [← heval]
    exact evalTopLevel_of_hasRoom hroom' form

theorem settles_evalForms (hlimit : 1 ≤ limit) (h : it.Ready limit) {forms : List Value}
    (hforms : ∀ v ∈ forms, v.MacroFree) :
    Settles limit (fun n => (it.withNesting n).evalForms forms) Answered := by
  induction forms generalizing it with
  | nil => exact .once h fun f hf => (nomatch hf)
  | cons form forms ih =>
    obtain ⟨hform, hrest⟩ := List.forall_mem_cons.mp hforms
    simp only [evalForms_cons]
    refine (settles_evalTopLevel hlimit h hform).andThen (fun r it => evalBehind forms (r, it))
      fun r it' hr h' => ?_
    cases r with
    | error f =>
      refine .once h' fun f' hf' => ?_
      cases hf'
      exact hr f rfl
    | ok v =>
      refine (ih h' hrest).map _ fun rs hrs f hf => ?_
      cases rs with
      | error f' =>
        cases hf
        exact hrs f rfl
      | ok vs => cases hf

theorem settles_evalEachForm (hlimit : 1 ≤ limit) (h : it.Ready limit) {forms : List Value}
    (hforms : ∀ v ∈ forms, v.MacroFree) :
    Settles limit (fun n => (it.withNesting n).evalEachForm forms)
      fun rs => ∀ r ∈ rs, Answered r := by
  induction forms generalizing it with
  | nil => exact .once h fun r hr => (nomatch hr)
  | cons form forms ih =>
    obtain ⟨hform, hrest⟩ := List.forall_mem_cons.mp hforms
    exact (settles_evalTopLevel hlimit h hform).andThen
      (fun r it => (r :: (it.evalEachForm forms).1, (it.evalEachForm forms).2))
      fun r it' hr h' =>
        (ih h' hrest).map (r :: ·) fun rs hrs => List.forall_mem_cons.mpr ⟨hr, hrs⟩

theorem afterReading_withNesting (n : Nat) (reader : Reader) (discarded : Nat) :
    (it.withNesting n).afterReading reader discarded
      = (it.afterReading reader discarded).withNesting n := by
  simp only [afterReading]
  split <;> rfl

theorem read_withNesting (n : Nat) (chunk : String) :
    (it.withNesting n).read chunk = ((it.read chunk).1, (it.read chunk).2.withNesting n) :=
  congrArg (Prod.mk _) (afterReading_withNesting n _ _)

theorem readSource_withNesting (n : Nat) (source : String) :
    (it.withNesting n).readSource source
      = ((it.readSource source).1, (it.readSource source).2.withNesting n) :=
  congrArg (Prod.mk _) (afterReading_withNesting n _ _)

theorem Ready.read (h : it.Ready limit) {chunk : String} (hc : MacroFreeSource chunk) :
    (it.read chunk).2.Ready limit ∧ ∀ forms, (it.read chunk).1 = .ok forms →
      ∀ v ∈ forms, v.MacroFree := by
  obtain ⟨hreader, hforms⟩ := handed_macroFree.feed h.macroFree.reader hc
  exact ⟨h.afterReading hreader _, hforms⟩

theorem Ready.readSource (h : it.Ready limit) {source : String} (hs : MacroFreeSource source) :
    (it.readSource source).2.Ready limit ∧ ∀ forms, (it.readSource source).1 = .ok forms →
      ∀ v ∈ forms, v.MacroFree := by
  obtain ⟨_, hforms⟩ := handed_macroFree.readAll (Reader.holds_ofSymbols _ it.symbols) hs
  refine ⟨h.afterReading ?_ _, hforms⟩
  exact h.macroFree.reader

/-- A step that begins with a reading, the same for every nesting, and that answers with its error,
settles if it does after the reading of any forms. -/
theorem settles_reading (op : Interpreter → Except ReadError α × Interpreter) {step : Step}
    (h : (op it).2.Ready limit)
    (hsame : ∀ n, op (it.withNesting n) = ((op it).1, (op it).2.withNesting n))
    (herror : ∀ i e i', op i = (.error e, i') → i.perform step = (.readError e, i'))
    (hok : ∀ a, (op it).1 = .ok a →
      Settles limit (fun n => (it.withNesting n).perform step) Reply.Answered) :
    Settles limit (fun n => (it.withNesting n).perform step) Reply.Answered := by
  cases hresult : (op it).1 with
  | error e =>
    refine ⟨0, .readError e, (op it).2, h, trivial, fun n _ => herror _ _ _ ?_⟩
    rw [hsame, hresult]
  | ok a => exact hok a hresult

theorem settles_eval (hlimit : 1 ≤ limit) (h : it.Ready limit) {source : String}
    (hs : MacroFreeSource source) :
    Settles limit (fun n => (it.withNesting n).perform (.eval source)) Reply.Answered := by
  obtain ⟨hread, hforms⟩ := h.readSource hs
  refine settles_reading (·.readSource source) hread (fun n => readSource_withNesting n source)
    (fun i e i' herr => by rw [perform, evalSource_of_error herr]; rfl) fun forms hok => ?_
  have hsource : ∀ n, (it.withNesting n).evalSource source
      = ((it.readSource source).2.withNesting n).evalForms forms := fun n =>
    evalSource_of_ok ((readSource_withNesting n source).trans (congrArg (·, _) hok))
  simp only [perform, hsource]
  exact (settles_evalForms hlimit hread (hforms forms hok)).map Reply.ofSource
    fun _ => Reply.answered_ofSource

theorem settles_feed (hlimit : 1 ≤ limit) (h : it.Ready limit) {chunk : String}
    (hc : MacroFreeSource chunk) :
    Settles limit (fun n => (it.withNesting n).perform (.feed chunk)) Reply.Answered := by
  obtain ⟨hread, hforms⟩ := h.read hc
  refine settles_reading (·.read chunk) hread (fun n => read_withNesting n chunk)
    (fun i e i' herr => by simp only [perform, herr]) fun forms hok => ?_
  simp only [perform, read_withNesting, hok]
  exact (settles_evalEachForm hlimit hread (hforms forms hok)).map Reply.results
    fun _ hrs => hrs

theorem settles_perform (hlimit : 1 ≤ limit) (h : it.Ready limit) {step : Step}
    (hstep : step.MacroFree) :
    Settles limit (fun n => (it.withNesting n).perform step) Reply.Answered := by
  cases step with
  | eval source => exact settles_eval hlimit h hstep
  | feed chunk => exact settles_feed hlimit h hstep
  | read chunk =>
    have hread := (h.read hstep).1
    refine settles_reading (·.read chunk) hread (fun n => read_withNesting n chunk)
      (fun i e i' herr => by simp only [perform, herr]) fun forms hok => ?_
    simp only [perform, read_withNesting, hok]
    exact .once hread trivial
  | resolve name =>
    have hfree := h.macroFree
    have hready : (it.resolve name).2.Ready limit :=
      ⟨⟨hfree.reader, hfree.env, hfree.callDepth⟩, h.maxDepth, h.hasRoom⟩
    exact ⟨0, .binding (it.resolve name).1, _, hready, trivial, fun _ _ => rfl⟩
  | reset =>
    refine ⟨0, .done, it.reset, h.afterReading (Reader.holds_ofSymbols _ _) _, trivial,
      fun n _ => ?_⟩
    exact congrArg (Prod.mk _) (afterReading_withNesting n _ _)
  | finish =>
    have hfinish : it.finish.2.Ready limit :=
      h.afterReading (Reader.holds_finish h.macroFree.reader) _
    have hsame : ∀ n, (it.withNesting n).finish = (it.finish.1, it.finish.2.withNesting n) :=
      fun n => congrArg (Prod.mk _) (afterReading_withNesting n _ _)
    refine settles_reading (·.finish) hfinish hsame
      (fun i e i' herr => by simp only [perform, herr]) fun u hok => ?_
    simp only [perform, hsame, hok]
    exact .once hfinish trivial

theorem settles_performAll (hlimit : 1 ≤ limit) (h : it.Ready limit) {steps : List Step}
    (hsteps : ∀ step ∈ steps, step.MacroFree) :
    Settles limit (fun n => (it.withNesting n).performAll steps)
      fun replies => ∀ reply ∈ replies, reply.Answered := by
  induction steps generalizing it with
  | nil => exact .once h fun r hr => (nomatch hr)
  | cons step steps ih =>
    obtain ⟨hstep, hrest⟩ := List.forall_mem_cons.mp hsteps
    exact (settles_perform hlimit h hstep).andThen
      (fun reply it => (reply :: (it.performAll steps).1, (it.performAll steps).2))
      fun reply it' hr h' =>
        (ih h' hrest).map (reply :: ·) fun rs hrs => List.forall_mem_cons.mpr ⟨hr, hrs⟩

section

variable (hroom : it.host.hasRoom it.maxDepth = false)
include hroom

theorem refused_evalSource (source : String) :
    (Reply.ofSource (it.evalSource source).1).Refused := by
  have hsame := it.sameLimits_readSource source
  rcases hread : it.readSource source with ⟨e | forms, it'⟩ <;> rw [hread] at hsame
  · rw [evalSource_of_error hread]
    trivial
  · rw [evalSource_of_ok hread]
    cases forms with
    | nil => rfl
    | cons form forms =>
      rw [evalForms_cons, evalTopLevel_of_noRoom (hsame.hasRoom.trans hroom)]
      trivial

theorem refused_evalEachForm (forms : List Value) :
    ∀ r ∈ (it.evalEachForm forms).1, r = .error .host := by
  intro r hr
  obtain ⟨it', form, hsame, heval⟩ := exists_of_mem_evalEachForm hr
  rw [evalTopLevel_of_noRoom (hsame.hasRoom.trans hroom)] at heval
  exact heval.symm

theorem refused_perform (step : Step) : (it.perform step).1.Refused := by
  cases step with
  | eval source => exact refused_evalSource hroom source
  | read chunk =>
    simp only [perform]
    split <;> trivial
  | feed chunk =>
    have hsame := it.sameLimits_read chunk
    simp only [perform]
    split <;> rename_i hread <;> rw [hread] at hsame
    · exact refused_evalEachForm (hsame.hasRoom.trans hroom) _
    · trivial
  | resolve name => trivial
  | reset => trivial
  | finish =>
    simp only [perform]
    split <;> trivial

theorem refused_performAll (steps : List Step) :
    ∀ reply ∈ (it.performAll steps).1, reply.Refused := by
  induction steps generalizing it with
  | nil => exact fun reply hreply => nomatch hreply
  | cons step steps ih =>
    have hsame := sameLimits_perform it step
    exact List.forall_mem_cons.mpr ⟨refused_perform hroom step, ih (hsame.hasRoom.trans hroom)⟩

end

end Interpreter

/-- Sessions without macros end. Under a limit of at least one active body, let no source of a
session name the head of a macro definition. If the host has room for the limit, there is a nesting
from which on every evaluation at the top level has a value or an error of its own for an answer,
and the replies of the session are the same. A host without room refuses every evaluation, before
anything of it is done. -/
theorem macro_free_sessions_end (maxDepth : Int) (hlimit : 1 ≤ maxDepth) (host : Host)
    (steps : List Step) (hsteps : ∀ step ∈ steps, step.MacroFree) :
    let replies (n : Nat) := (((Interpreter.start maxDepth host).withNesting n).performAll steps).1
    (host.hasRoom maxDepth = true →
      ∃ N, ∀ n, N ≤ n → (∀ reply ∈ replies n, reply.Answered) ∧ replies n = replies N) ∧
    (host.hasRoom maxDepth = false → ∀ n, ∀ reply ∈ replies n, reply.Refused) := by
  intro replies
  refine ⟨fun hroom => ?_, fun hroom n => Interpreter.refused_performAll hroom steps⟩
  obtain ⟨N, answers, it, _, hanswers, hstable⟩ := Interpreter.settles_performAll hlimit
    ⟨Interpreter.macroFree_start maxDepth host, rfl, hroom⟩ hsteps
  have hsame : ∀ n, N ≤ n → replies n = answers := fun n hn => congrArg Prod.fst (hstable n hn)
  refine ⟨N, fun n hn => ?_⟩
  rw [hsame n hn, hsame N (Nat.le_refl N)]
  exact ⟨hanswers, rfl⟩

/-- A function that always calls itself has an answer as well. -/
theorem macro_free_sessions_end_recursion :
    let steps : List Step := [.eval "(def f (fn (x) (f x)))", .feed "(f #t)"]
    let replies (n : Nat) := (((Interpreter.start 3 .roomy).withNesting n).performAll steps).1
    1 ≤ (3 : Int) ∧ (∀ step ∈ steps, step.MacroFree) ∧ Host.roomy.hasRoom 3 = true ∧
    ∃ N, ∀ n, N ≤ n → (∀ reply ∈ replies n, reply.Answered) ∧ replies n = replies N := by
  intro steps replies
  have hdef : (tokens "(def f (fn (x) (f x)))").map Token.lexeme
      = [.openParen, .symbol "def", .symbol "f", .openParen, .symbol "fn", .openParen, .symbol "x",
        .closeParen, .openParen, .symbol "f", .symbol "x", .closeParen, .closeParen,
        .closeParen] := by cbv
  have hcall : (tokens "(f #t)").map Token.lexeme
      = [.openParen, .symbol "f", .boolean true, .closeParen] := by cbv
  have hfree : ∀ {source : String} {ls : List Lexeme}, (tokens source).map Token.lexeme = ls →
      (∀ l ∈ ls, l ≠ .symbol "macro") → MacroFreeSource source :=
    fun h hls t ht => hls t.lexeme (h ▸ List.mem_map_of_mem ht)
  have hsteps : ∀ step ∈ steps, step.MacroFree := by
    refine List.forall_mem_cons.mpr ⟨hfree hdef ?_, List.forall_mem_cons.mpr ⟨hfree hcall ?_, ?_⟩⟩
    · simp
    · simp
    · exact fun step hstep => absurd hstep List.not_mem_nil
  have hroom : Host.roomy.hasRoom 3 = true := by decide
  exact ⟨by decide, hsteps, hroom,
    (macro_free_sessions_end 3 (by decide) .roomy steps hsteps).1 hroom⟩

/-- A limit of sixty million active bodies needs a limit on the stack that no host accepts, and not
even a literal is evaluated. -/
theorem literal_refused_without_room :
    1 ≤ (60000000 : Int) ∧ MacroFreeSource "#t" ∧
    ∀ n, (((Interpreter.start 60000000 .roomy).withNesting n).performAll [.eval "#t"]).1
      = [.hostError] ∧ ¬ Reply.hostError.Answered := by
  refine ⟨by decide, ?_, fun n => ⟨?_, id⟩⟩
  · have htokens : tokens "#t" = [⟨.boolean true, ⟨0, 2⟩⟩] := by cbv
    rw [MacroFreeSource, htokens, List.forall_mem_singleton]
    exact Lexeme.noConfusion
  · cbv

end MiniLisp
