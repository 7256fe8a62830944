import MiniLisp.Proofs.Evaluation.Calls
import MiniLisp.Proofs.Evaluation.Parameters

/-!
# Literal definitions as heads

A call may be headed by a procedure or by the list that defines it. The list is parsed by the call;
the special form at its head makes a procedure of it before the call. Only the place of an error in
the parameters shows which of the two it was.
Main statement: a call of a quoted definition is a call of what the definition evaluates to.
-/

namespace MiniLisp

namespace Definition

theorem form?_definition (kind : ProcedureKind) (rest : List Value) :
    form? (.list (.symbol kind.head :: rest)) = some (.symbol kind.head :: rest) := by
  cases kind <;> rfl

theorem parse_definition (kind : ProcedureKind) (params : Value) (body : List Value) :
    parse (.symbol kind.head :: params :: body)
      = (ParamList.parseChild 1 params).map fun p => ⟨kind, p, body⟩ := by
  have hkind : kindOf? (.symbol kind.head) = some kind := by cases kind <;> rfl
  rw [parse, hkind]
  cases ParamList.parseChild 1 params <;> rfl

end Definition

section

variable {ctx : Context} {fuel : Nat} {m : Machine} {kind : ProcedureKind} {params : Value}
variable (hquote : m.env.resolve? Symbol.quote = some (.special .quote))
variable (hmaker : m.env.resolve? kind.head = some (.special kind.maker))

section

include hquote

theorem evaluate_quote (v : Value) :
    evaluate ctx (fuel + 2) (.list [.symbol Symbol.quote, v]) m = (.value v, m) := by
  rw [evaluate_special hquote]
  rfl

/-- The call of a quoted definition parses the definition and applies it. -/
theorem evaluate_quoted_definition (body operands : List Value) :
    evaluate ctx (fuel + 3) (.list (.list [.symbol Symbol.quote,
        .list (.symbol kind.head :: params :: body)] :: operands)) m
      = (Eval.ofExcept (((ParamList.parseChild 1 params).map (Definition.mk kind · body)).mapError
            (EvalError.leavingBody (.list (.symbol kind.head :: params :: body)) none))
          >>= fun d =>
            (applyProcedure ctx d operands none).run ctx (evaluate ctx (fuel + 2))) m := by
  rw [evaluate_list (evaluate_quote hquote _), ← Definition.parse_definition]
  simp only [applyValue, calledName, Definition.form?_definition]
  rfl

end

include hquote hmaker

/-- With well-formed parameters, both calls apply the same procedure. -/
theorem evaluate_definition_heads {p : ParamList Symbol}
    (hparams : ParamList.parseChild 1 params = .ok p) (first : Value) (rest operands : List Value) :
    evaluate ctx (fuel + 3) (.list (.list [.symbol Symbol.quote,
        .list (.symbol kind.head :: params :: first :: rest)] :: operands)) m
      = evaluate ctx (fuel + 3)
          (.list (.list (.symbol kind.head :: params :: first :: rest) :: operands)) m := by
  rw [evaluate_quoted_definition hquote, hparams,
    evaluate_list (evaluate_maker hmaker hparams first rest)]
  rfl

/-- With malformed parameters, neither call begins, and both fail for the same cause. -/
theorem unplaced_definition_heads {e : EvalError}
    (hparams : ParamList.parseChild 1 params = .error e) (first : Value)
    (rest operands : List Value) :
    (evaluate ctx (fuel + 3) (.list (.list [.symbol Symbol.quote,
        .list (.symbol kind.head :: params :: first :: rest)] :: operands))).unplaced m
      = (evaluate ctx (fuel + 3)
          (.list (.list (.symbol kind.head :: params :: first :: rest)
            :: operands))).unplaced m := by
  have hmade : evaluate ctx (fuel + 3) (.list (.list (.symbol kind.head :: params :: first :: rest)
      :: operands)) m = (.error (e.within 0), m) :=
    evaluate_list_error (evaluate_maker_error hmaker hparams first rest) operands
  rw [Eval.unplaced_error hmade]
  apply Eval.unplaced_error (e := e.leavingBody _ none)
  rw [evaluate_quoted_definition hquote, hparams]
  rfl

end

/-- A call headed by a quoted definition and a call headed by the definition have the same outcome
without places and leave the same machine, with the same fuel; with well-formed parameters their
errors have the same places too. -/
theorem literal_heads_agree (ctx : Context) (m : Machine) (kind : ProcedureKind)
    (hquote : m.env.resolve? Symbol.quote = some (.special .quote))
    (hmaker : m.env.resolve? kind.head = some (.special kind.maker))
    (params first : Value) (rest operands : List Value) (fuel : Nat) :
    let definition := Value.list (.symbol kind.head :: params :: first :: rest)
    let quoted := evaluate ctx fuel (.list (.list [.symbol Symbol.quote, definition] :: operands))
    let made := evaluate ctx fuel (.list (definition :: operands))
    quoted.unplaced m = made.unplaced m ∧
      ∀ p : ParamList Symbol, params = .list p.toForm → Symbol.rest ∉ p.positional →
        quoted m = made m := by
  match fuel with
  -- too little for the head, so that neither call has an answer
  | 0 | 1 | 2 => exact ⟨rfl, fun _ _ _ => rfl⟩
  | fuel + 3 =>
    intro definition quoted made
    cases hparams : ParamList.parseChild 1 params with
    | ok p =>
      have heq : quoted m = made m :=
        evaluate_definition_heads hquote hmaker hparams first rest operands
      exact ⟨Eval.unplaced_congr heq, fun _ _ _ => heq⟩
    | error e =>
      refine ⟨unplaced_definition_heads hquote hmaker hparams first rest operands, ?_⟩
      intro p hform hrest
      rw [ParamList.parseChild_eq_ok_iff.mpr ⟨hform, hrest⟩] at hparams
      cases hparams

/-- A failure in the body of a function has the same places in both calls; a failure in the
parameters of a macro has not. -/
theorem literal_heads_agree_failing :
    let ctx : Context := ⟨Symbols.initial.naming, 0, fun _ => true⟩
    let m : Machine := ⟨⟨[], ⟨[(Symbol.quote, .special .quote), (Symbol.fn, .special .makeFunction),
      (Symbol.macroHead, .special .makeMacro)]⟩⟩, 0, []⟩
    let function : Value := .list (Value.definition .function ⟨[⟨8⟩], none⟩ [.list [.symbol ⟨8⟩]])
    let malformed : Value := .list [.symbol Symbol.macroHead, .bool true, .bool true]
    let quoted : Value → Value := fun d => .list [.list [.symbol Symbol.quote, d], .bool true]
    let made : Value → Value := fun d => .list [d, .bool true]
    (∃ e, (evaluate ctx 9 (quoted function) m).1 = .error e ∧
      evaluate ctx 9 (quoted function) m = evaluate ctx 9 (made function) m ∧
      e.frames.length = 2) ∧
    (evaluate ctx 9 (quoted malformed)).unplaced m
        = (evaluate ctx 9 (made malformed)).unplaced m ∧
      ∃ e e', (evaluate ctx 9 (quoted malformed) m).1 = .error e ∧ e.path = [0] ∧
        (evaluate ctx 9 (made malformed) m).1 = .error e' ∧ e'.path = [0, 1] := by
  intro ctx m function malformed quoted made
  have hfunction := literal_heads_agree ctx m .function rfl rfl (.list [.symbol ⟨8⟩])
    (.list [.symbol ⟨8⟩]) [] [.bool true] 9
  have hmalformed := literal_heads_agree ctx m .expander rfl rfl (.bool true) (.bool true) []
    [.bool true] 9
  have hplaced := hfunction.2 ⟨[⟨8⟩], none⟩ rfl (by decide)
  exact ⟨⟨_, rfl, hplaced, rfl⟩, hmalformed.1, _, _, rfl, rfl, rfl, rfl⟩

end MiniLisp
