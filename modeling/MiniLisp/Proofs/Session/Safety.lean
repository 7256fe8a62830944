import MiniLisp.Proofs.Evaluation.ErrorLocation
import MiniLisp.Proofs.Evaluation.Scopes
import MiniLisp.Proofs.Reader.Acceptance

/-!
# Sessions without internal errors

Whatever a session is given, no step of it ends in a state that the interpreter takes to be
impossible: reader and lexer agree on the mode, no scope is closed that was not opened, and every
operand that a native function or a special form takes is there.
Main statement: `sessions_stay_external`.
-/

namespace MiniLisp

/-- The cause is no defect of the interpreter: it is not internal, no list was taken for a
definition that is none, and an arity that is refused is one that does not fit. -/
def EvalCause.External : EvalCause → Prop
  | .internal _ => False
  | .badDefinition fault => fault ≠ .unknownHead
  | .arity _ rule expected actual => rule.admits expected actual = false
  | _ => True

def ReadCause.External (cause : ReadCause) : Prop := cause.isInternal = false

/-- The cause of the failure is outside the interpreter; the host fails only without room. -/
def Failure.External (room : Bool) : Failure → Prop
  | .read e => e.cause.External
  | .eval e => e.cause.External
  | .host => room = false

/-- Every failure of which the reply tells has its cause outside the interpreter. -/
def Reply.External (room : Bool) : Reply → Prop
  | .readError e => e.cause.External
  | .evalError e => e.cause.External
  | .hostError => room = false
  | .results rs => ∀ r ∈ rs, ∀ f, r = .error f → f.External room
  | _ => True

theorem Reply.external_ofSource {room : Bool} {r : Except Failure (List Value)}
    (h : ∀ f, r = .error f → f.External room) : (Reply.ofSource r).External room := by
  rcases r with (e | e | _) | vs
  · exact h _ rfl
  · exact h _ rfl
  · exact h _ rfl
  · trivial

theorem EvalCause.external_of_blames {ctx : Context} {full : Value → Prop} {culprit : Value}
    {cause : EvalCause} (h : cause.Blames ctx full culprit) : cause.External := by
  cases cause with
  | internal fault => exact h.elim
  | badDefinition fault =>
    obtain ⟨rfl, _⟩ := h
    exact DefinitionFault.noConfusion
  | arity description rule expected actual => exact h.1
  | _ => trivial

/-- No trail leads to an internal cause. -/
theorem Trail.external {ctx : Context} {full : Value → Prop} {cause : EvalCause} {form : Value}
    {path : Path} {frames : List Frame} (h : Trail ctx full cause form path frames) :
    cause.External := by
  induction h with
  | here _ hblames => exact EvalCause.external_of_blames hblames
  | refused hcause =>
    subst hcause
    trivial
  | entered _ _ ih => exact ih

theorem external_evaluate {ctx : Context} {fuel : Nat} {form : Value} {m : Machine}
    {e : EvalError} (h : (evaluate ctx fuel form m).1 = .error e) : e.cause.External := by
  have hsited := sited_evaluate ctx fuel form m
  rw [h] at hsited
  exact Trail.external hsited

/-- As many operands as a native function accepts are bound in the shape that it expects. -/
theorem Native.external_run {n : Native} {args : List Value}
    (hfit : n.params.arityRule.admits n.params.positional.length args.length = true)
    {e : EvalError} (h : n.run ((n.params.pair args).map Prod.snd) = .error e) :
    e.cause.External := by
  have hlocated : e.Located .bare (fun _ => False) (.list (.native n :: args)) :=
    run_located n hfit rfl h
  exact Trail.external hlocated

namespace Interpreter

variable {it : Interpreter}

theorem external_evalTopLevel {form : Value} {f : Failure}
    (h : (it.evalTopLevel form).1 = .error f) : f.External (it.host.hasRoom it.maxDepth) := by
  rcases evalTopLevel_error_cases h with ⟨e, rfl⟩ | ⟨rfl, hroom⟩
  · obtain ⟨path, frames, _, _, htrail | ⟨hcause, _, _⟩⟩ := evalTopLevel_error h
    · exact htrail.external
    · show e.cause.External
      rw [hcause]
      trivial
  · exact hroom

theorem external_evalForms {forms : List Value} {f : Failure}
    (h : (it.evalForms forms).1 = .error f) : f.External (it.host.hasRoom it.maxDepth) := by
  obtain ⟨it', form, hsame, hfails⟩ := exists_of_evalForms_error h
  exact hsame.hasRoom ▸ external_evalTopLevel hfails

theorem external_evalEachForm {forms : List Value} {r : Except Failure Value}
    (h : r ∈ (it.evalEachForm forms).1) {f : Failure} (hf : r = .error f) :
    f.External (it.host.hasRoom it.maxDepth) := by
  obtain ⟨it', form, hsame, hfails⟩ := exists_of_mem_evalEachForm h
  exact hsame.hasRoom ▸ external_evalTopLevel (hfails.trans hf)

end Interpreter

/-- Inside a string literal there is something to find in front of every character, unless a
backslash is the last one. -/
theorem found_scanString {cs : List Char} (h : cs ≠ []) (hback : cs ≠ ['\\']) :
    ∃ l w, scanString cs = .found l w := by
  have hscans := scans_scanString cs
  cases hscan : scanString cs <;> rw [hscan] at hscans
  case stop =>
    cases hscans with
    | nil => exact absurd rfl h
    | backslash => exact absurd rfl hback
  case skip w => cases hscans
  case found l w => exact ⟨l, w, rfl⟩

namespace Reader

namespace Progress

variable {p q : Progress} {t : Token} {e : ReadError}

theorem external_feed (hmode : t.lexeme.mode = p.mode) (h : p.feed t = .error e) :
    e.cause.External := by
  rcases feed_error_cases h with ⟨rfl, _⟩ | ⟨rfl, _⟩ | ⟨_, hother⟩
  · rfl
  · rfl
  · exact absurd hmode hother

theorem external_run {ts : List Token} (hts : InStep p.mode ts) (h : (p.run ts).2 = some e) :
    e.cause.External := by
  induction ts generalizing p with
  | nil =>
    simp only [run] at h
    split at h <;> cases h
    rfl
  | cons t ts ih =>
    cases hfeed : p.feed t with
    | error e' =>
      rw [run_feed_error _ hfeed] at h
      cases h
      exact external_feed hts.1 hfeed
    | ok q =>
      rw [run_feed_ok _ hfeed] at h
      exact ih (mode_feed hfeed ▸ hts.2) h

/-- The token that follows those fed so far is of the mode that the reader is in. -/
theorem mode_of_inStep {before after : List Token} (hts : InStep p.mode (before ++ t :: after))
    (h : before.foldlM feed p = .ok q) : t.lexeme.mode = q.mode := by
  induction before generalizing p with
  | nil =>
    cases h
    exact hts.1
  | cons u before ih =>
    rw [List.foldlM_cons] at h
    cases hfeed : p.feed u with
    | error e =>
      rw [hfeed] at h
      cases h
    | ok p' =>
      rw [hfeed] at h
      exact ih (mode_feed hfeed ▸ hts.2) h

end Progress

variable {r : Reader} {e : ReadError}

theorem external_feed {chunk : String} (h : (r.feed chunk).result = .error e) :
    e.cause.External := by
  rcases hrun : (Progress.mk r none []).run (tokens chunk) with ⟨p, none | e'⟩
  · rw [feed_of_run hrun] at h
    cases h
  · rw [feed_of_run_error hrun] at h
    cases h
    have hstep : InStep (Progress.mk r none []).mode (tokens chunk) :=
      inStep_tokensFrom .normal 0 chunk.toList
    exact Progress.external_run hstep (congrArg Prod.snd hrun)

theorem external_finish (h : r.finish.result = .error e) : e.cause.External := by
  unfold finish at h
  split at h <;> cases h
  rfl

theorem external_readAll {source : String} (h : (r.readAll source).result = .error e) :
    e.cause.External := by
  rcases readAll_error_cases h with hfeed | hfinish
  · exact external_feed hfeed
  · exact external_finish hfinish

end Reader

namespace Interpreter

theorem external_perform (it : Interpreter) (step : Step) :
    (it.perform step).1.External (it.host.hasRoom it.maxDepth) := by
  cases step with
  | eval source =>
    have hsame := it.sameLimits_readSource source
    rcases hread : it.readSource source with ⟨e | forms, it'⟩ <;> rw [hread] at hsame
    · rw [perform, evalSource_of_error hread]
      exact Reader.external_readAll (congrArg Prod.fst hread)
    · rw [perform, evalSource_of_ok hread, ← hsame.hasRoom]
      exact Reply.external_ofSource fun f hf => external_evalForms hf
  | read chunk =>
    simp only [perform]
    split
    · trivial
    · rename_i heq
      exact Reader.external_feed (congrArg Prod.fst heq)
  | feed chunk =>
    have hsame := it.sameLimits_read chunk
    simp only [perform]
    split <;> rename_i heq
    · rw [heq] at hsame
      rw [← hsame.hasRoom]
      exact fun r hr f hf => external_evalEachForm hr hf
    · exact Reader.external_feed (congrArg Prod.fst heq)
  | resolve name => trivial
  | reset => trivial
  | finish =>
    simp only [perform]
    split
    · trivial
    · rename_i heq
      exact Reader.external_finish (congrArg Prod.fst heq)

theorem external_performAll (it : Interpreter) (steps : List Step) :
    ∀ reply ∈ (it.performAll steps).1, reply.External (it.host.hasRoom it.maxDepth) := by
  induction steps generalizing it with
  | nil => exact fun reply hreply => nomatch hreply
  | cons step steps ih =>
    have hrest := ih (it.perform step).2
    rw [(sameLimits_perform it step).hasRoom] at hrest
    exact List.forall_mem_cons.mpr ⟨external_perform it step, hrest⟩

end Interpreter

/-- Nothing that is typed reaches an internal error. A reader in the middle of a chunk meets a token
of the mode that it is in; the lexer finds something in every string literal; a native function
that is given a number of arguments that it accepts finds all of them; and an evaluation, whatever
it begins with, closes only scopes that it has opened, takes no list for a definition that is none,
and refuses a number of operands only if it does not fit. So no reply of a session tells of an
internal error, and none of a failure of the host if it has room for the limit of active bodies. -/
theorem sessions_stay_external :
    (∀ (r : Reader) (chunk : String) (before after : List Token) (t : Token)
        (q : Reader.Progress), tokens chunk = before ++ t :: after →
      before.foldlM Reader.Progress.feed ⟨r, none, []⟩ = .ok q → t.lexeme.mode = q.mode) ∧
    (∀ cs : List Char, cs ≠ [] → cs ≠ ['\\'] → ∃ l w, scanString cs = .found l w) ∧
    (∀ (n : Native) (args : List Value) (e : EvalError),
      n.params.arityRule.admits n.params.positional.length args.length = true →
      n.run ((n.params.pair args).map Prod.snd) = .error e → e.cause.External) ∧
    (∀ (ctx : Context) (fuel : Nat) (form : Value) (m : Machine) (e : EvalError),
      (evaluate ctx fuel form m).1 = .error e → e.cause.External) ∧
    ∀ (maxDepth : Int) (host : Host) (steps : List Step),
      ∀ reply ∈ ((Interpreter.start maxDepth host).performAll steps).1,
        reply.External (host.hasRoom maxDepth) := by
  refine ⟨fun r chunk before after t q hsplit hfed => ?_, fun cs => found_scanString,
    fun n args e hfit h => Native.external_run hfit h, fun ctx fuel form m e => external_evaluate,
    fun maxDepth host steps => Interpreter.external_performAll _ steps⟩
  have hstep : InStep (Reader.Progress.mk r none []).mode (before ++ t :: after) :=
    hsplit ▸ inStep_tokensFrom .normal 0 chunk.toList
  exact Reader.Progress.mode_of_inStep hstep hfed

/-- A literal is closed in the middle of a chunk, a subtraction is given a boolean, and a session
calls a native function with nothing and closes a bracket that was not opened. -/
theorem sessions_stay_external_misuse :
    (∃ q, [(⟨.openString, ⟨0, 1⟩⟩ : Token)].foldlM Reader.Progress.feed
      ⟨Reader.ofSymbols Symbols.initial, none, []⟩ = .ok q ∧ Lexeme.closeString.mode = q.mode) ∧
    (∃ l w, scanString ['\\', 'n'] = .found l w) ∧
    (∃ e, Native.run .subtract [.bool true, .list []] = .error e ∧ e.cause.External) ∧
    (∃ e, (evaluate ⟨fun _ => none, 1, fun _ => true⟩ 2 (.list [.native .first])
        ⟨.empty, 0, []⟩).1 = .error e ∧
      e.cause.External) ∧
    Host.roomy.hasRoom 3 = true ∧
    ∃ e, ((Interpreter.start 3 .roomy).performAll [.feed "(first)", .read ")"]).1
      = [.results [.error (.eval e)], .readError ⟨.unexpectedClose, some ⟨0, 1⟩⟩] ∧
      e.cause.External := by
  obtain ⟨hmode, hfound, hnative, heval, hsession⟩ := sessions_stay_external
  refine ⟨?_, hfound _ (by decide) (by decide), ?_, ?_, by decide, ?_⟩
  · have htokens : tokens "\x22\x22"
        = [⟨.openString, ⟨0, 1⟩⟩] ++ ⟨.closeString, ⟨1, 2⟩⟩ :: [] := by cbv
    exact ⟨_, rfl, hmode (Reader.ofSymbols Symbols.initial) _ _ _ _ _ htokens rfl⟩
  · exact ⟨_, rfl, hnative .subtract [.bool true] _ rfl rfl⟩
  · exact ⟨_, rfl, heval ⟨fun _ => none, 1, fun _ => true⟩ 2 (.list [.native .first])
      ⟨.empty, 0, []⟩ _ rfl⟩
  · have hreplies : ((Interpreter.start 3 .roomy).performAll [.feed "(first)", .read ")"]).1
        = [.results [.error (.eval ⟨.arity "first (lst)" .exactly 1 0, [],
            [⟨.list [.symbol ⟨23⟩], [], some "in"⟩]⟩)],
          .readError ⟨.unexpectedClose, some ⟨0, 1⟩⟩] := by cbv
    have hexternal := hsession 3 .roomy [.feed "(first)", .read ")"]
    rw [hreplies] at hexternal
    exact ⟨_, hreplies, hexternal _ List.mem_cons_self _ List.mem_cons_self _ rfl⟩

end MiniLisp
