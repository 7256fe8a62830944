import MiniLisp.Proofs.Evaluation.Calls
import MiniLisp.Proofs.Evaluation.Parameters
import MiniLisp.Proofs.Evaluation.Trail
import MiniLisp.Proofs.Reader.RoundTrip

/-!
# Printed procedures

A procedure is printed as its definition. If that is data, the text is read as the definition, and
the evaluation of the definition makes an equal procedure again. Whatever procedure is made by a
definition that was read has such a text.
Main statement: `printed_procedure_is_source`.
-/

namespace MiniLisp

namespace Definition

/-- The procedure that the definition defines. -/
def procedure (d : Definition) : Value := .procedure d.kind d.params d.body

/-- The definition can be written: its parameters and its body are data, there is something in the
body, and no positional parameter is the rest mark. -/
structure IsWritable (t : Symbols) (d : Definition) : Prop where
  positional : Symbol.rest ∉ d.params.positional
  params : ∀ s ∈ d.params.positional ++ d.params.rest.toList, (Value.symbol s).IsData t
  nonempty : d.body ≠ []
  body : ∀ v ∈ d.body, v.IsData t

end Definition

variable {t : Symbols}

theorem isMark_rest : Symbol.rest.IsMark :=
  isMark_of_reserved 4 (by decide) ⟨by decide, List.all_eq_true.mp rfl, rfl⟩

theorem isMark_head (kind : ProcedureKind) : kind.head.IsMark := by
  cases kind with
  | function => exact isMark_of_reserved 5 (by decide) ⟨by decide, List.all_eq_true.mp rfl, rfl⟩
  | expander => exact isMark_of_reserved 6 (by decide) ⟨by decide, List.all_eq_true.mp rfl, rfl⟩

theorem ParamList.mem_symbols_iff {p : ParamList Symbol} {s : Symbol} :
    s ∈ p.symbols ↔ s ∈ p.positional ++ p.rest.toList ∨ s = Symbol.rest ∧ p.rest.isSome := by
  obtain ⟨positional, rest⟩ := p
  cases rest with
  | none => simp [symbols]
  | some r => simp [symbols, or_assoc, or_left_comm, or_comm]

theorem isData_toForm_iff {p : ParamList Symbol} :
    (Value.list p.toForm).IsData t ↔
      ∀ s ∈ p.positional ++ p.rest.toList, (Value.symbol s).IsData t := by
  constructor
  · intro h s hs
    cases h with
    | list items hitems =>
      exact hitems _ (List.mem_map_of_mem (ParamList.mem_symbols_iff.mpr (.inl hs)))
  · intro h
    refine .list _ fun v hv => ?_
    obtain ⟨s, hs, rfl⟩ := List.mem_map.mp hv
    rcases ParamList.mem_symbols_iff.mp hs with hs | ⟨rfl, _⟩
    · exact h s hs
    · exact isMark_rest t

theorem Definition.IsWritable.isData {d : Definition} (h : d.IsWritable t) :
    (Value.list (Value.definition d.kind d.params d.body)).IsData t := by
  refine .list _ ?_
  simp only [Value.definition, List.forall_mem_cons]
  exact ⟨isMark_head d.kind t, isData_toForm_iff.mpr h.params, h.body⟩

theorem Definition.IsWritable.mono {t' : Symbols} {d : Definition} (h : d.IsWritable t)
    (ht : t.Keeps t') : d.IsWritable t' :=
  ⟨h.positional, fun s hs => (h.params s hs).mono ht, h.nonempty,
    fun v hv => (h.body v hv).mono ht⟩

theorem Value.asReadAll_ofSymbols (ss : List Symbol) :
    asReadAll (ofSymbols ss) = ofSymbols ss := by
  induction ss with
  | nil => rfl
  | cons s ss ih =>
    show asRead (.symbol s) :: asReadAll (ofSymbols ss) = _
    rw [ih]
    rfl

theorem Value.asRead_definition (kind : ProcedureKind) (params : ParamList Symbol)
    (body : List Value) :
    (Value.list (definition kind params body)).asRead
      = .list (definition kind params (asReadAll body)) := by
  simp only [definition, asRead, asReadAll, asReadAll_ofSymbols]

theorem Value.print_procedure (names : Naming) (kind : ProcedureKind) (params : ParamList Symbol)
    (body : List Value) :
    (Value.procedure kind params body).print names
      = (Value.list (definition kind params body)).print names := by
  rw [print, print, chars_procedure]

/-- The procedure as it comes back from its text. -/
def Definition.asRead (d : Definition) : Definition := ⟨d.kind, d.params, Value.asReadAll d.body⟩

theorem Definition.equal_asRead {d : Definition} (h : d.IsWritable t) :
    d.procedure.equal d.asRead.procedure = true := by
  have hbody := Value.equalAll_asReadAll fun v hv => Value.equal_asRead (h.body v hv)
  simp only [procedure, asRead, Value.equal, hbody, decide_true, Bool.and_self]

theorem readAll_print_procedure {d : Definition} (h : d.IsWritable t) :
    (Reader.ofSymbols t).readAll (d.procedure.print t.naming)
      = ⟨.ok [.list (Value.definition d.kind d.params (Value.asReadAll d.body))],
          Reader.ofSymbols t, 0⟩ := by
  rw [Definition.procedure, Value.print_procedure, readAll_print _ h.isData,
    Value.asRead_definition]

section

variable {ctx : Context} {fuel : Nat} {m m' : Machine} {kind : ProcedureKind} {v : Value}
variable (hmaker : m.env.resolve? kind.head = some (.special kind.maker))
include hmaker

theorem evaluate_definition {p : ParamList Symbol} {body : List Value}
    (hpositional : Symbol.rest ∉ p.positional) (hbody : body ≠ []) :
    evaluate ctx (fuel + 2) (.list (Value.definition kind p body)) m
      = (.value (.procedure kind p body), m) := by
  obtain ⟨first, rest, rfl⟩ := List.exists_cons_of_ne_nil hbody
  exact evaluate_maker hmaker (ParamList.parseChild_eq_ok_iff.mpr ⟨rfl, hpositional⟩) first rest

/-- A list that is headed like a definition and has a value is one. -/
theorem eq_definition_of_value {operands : List Value}
    (h : evaluate ctx fuel (.list (.symbol kind.head :: operands)) m = (.value v, m')) :
    ∃ p body, operands = .list p.toForm :: body ∧ Symbol.rest ∉ p.positional ∧ body ≠ [] ∧
      v = .procedure kind p body := by
  match fuel with
  | 0 | 1 => cases h
  | fuel + 2 =>
    rw [evaluate_special hmaker] at h
    match operands with
    | params :: first :: rest =>
      rw [run_applySpecial_maker] at h
      cases hparams : ParamList.parseChild 1 params with
      | ok p =>
        obtain ⟨rfl, hpositional⟩ := ParamList.parseChild_eq_ok_iff.mp hparams
        rw [hparams] at h
        cases h
        exact ⟨p, first :: rest, rfl, hpositional, List.cons_ne_nil first rest, rfl⟩
      | error e =>
        rw [hparams] at h
        cases h
    | [] | [_] => cases kind <;> cases h

/-- What a definition that is data evaluates to can be written. -/
theorem isWritable_of_value {operands : List Value}
    (hdata : (Value.list (.symbol kind.head :: operands)).IsData t)
    (h : evaluate ctx fuel (.list (.symbol kind.head :: operands)) m = (.value v, m')) :
    ∃ d : Definition, v = d.procedure ∧ d.kind = kind ∧ d.IsWritable t := by
  obtain ⟨p, body, rfl, hpositional, hbody, rfl⟩ := eq_definition_of_value hmaker h
  cases hdata with
  | list items hitems =>
    simp only [List.forall_mem_cons] at hitems
    exact ⟨⟨kind, p, body⟩, rfl, rfl, hpositional, isData_toForm_iff.mp hitems.2.1, hbody,
      hitems.2.2⟩

end

theorem Value.IsData.descend {v w : Value} {path : Path} (h : v.IsData t)
    (hw : v.descend? path = some w) : w.IsData t := by
  induction path generalizing v with
  | nil =>
    cases hw
    exact h
  | cons i path ih =>
    obtain ⟨child, hchild, hpath⟩ := Option.bind_eq_some_iff.mp hw
    refine ih ?_ hpath
    cases h with
    | list items hitems =>
      simp only [child?] at hchild
      split at hchild
      · exact hitems child (List.mem_of_getElem? hchild)
      · cases hchild
    | _ => cases hchild

/-- A printed procedure is its own source. The text of a procedure whose definition can be written
is read as one form, which evaluates without effect, wherever its head has its meaning, to an equal
procedure of the same kind. What is made by a definition anywhere in a form that was read is such a
procedure, and stays one while the table grows. -/
theorem printed_procedure_is_source :
    (∀ (t : Symbols) (d : Definition), d.IsWritable t → ∃ (form : Value) (g : Definition),
      (Reader.ofSymbols t).readAll (d.procedure.print t.naming)
        = ⟨.ok [form], Reader.ofSymbols t, 0⟩ ∧
      d.procedure.equal g.procedure = true ∧ g.kind = d.kind ∧
      ∀ (ctx : Context) (m : Machine) (fuel : Nat),
        m.env.resolve? d.kind.head = some (.special d.kind.maker) →
          evaluate ctx (fuel + 2) form m = (.value g.procedure, m)) ∧
    (∀ (r : Reader) (chunk : String) (forms : List Value), r.Reachable →
      (r.feed chunk).result = .ok forms → ∀ form ∈ forms, ∀ (path : Path) (kind : ProcedureKind)
        (operands : List Value),
        form.descend? path = some (.list (.symbol kind.head :: operands)) →
        ∀ (ctx : Context) (m m' : Machine) (fuel : Nat) (v : Value),
          m.env.resolve? kind.head = some (.special kind.maker) →
          evaluate ctx fuel (.list (.symbol kind.head :: operands)) m = (.value v, m') →
            ∃ d : Definition, v = d.procedure ∧ d.kind = kind ∧
              ∀ t, (r.feed chunk).reader.symbols.Keeps t → d.IsWritable t) := by
  refine ⟨?_, ?_⟩
  · intro t d h
    refine ⟨_, d.asRead, readAll_print_procedure h, Definition.equal_asRead h, rfl, ?_⟩
    intro ctx m fuel hmaker
    have hbody : Value.asReadAll d.body ≠ [] := by
      obtain ⟨first, rest, hcons⟩ := List.exists_cons_of_ne_nil h.nonempty
      rw [hcons, Value.asReadAll]
      exact List.cons_ne_nil _ _
    exact evaluate_definition hmaker h.positional hbody
  · intro r chunk forms hr hforms form hform path kind operands hpath ctx m m' fuel v hmaker hv
    have hdata := (Reader.isData_of_feed hr hforms form hform).descend hpath
    obtain ⟨d, hd, hkind, hwritable⟩ := isWritable_of_value hmaker hdata hv
    exact ⟨d, hd, hkind, fun t ht => hwritable.mono ht⟩

/-- The macro `(macro (quote &rest &rest) (quote -0 "a\"b") fn)`, whose parameters are marks. -/
def markedMacro : Definition :=
  ⟨.expander, ⟨[Symbol.quote], some Symbol.rest⟩, [quotedZero, .symbol Symbol.fn]⟩

theorem isWritable_markedMacro : markedMacro.IsWritable Symbols.initial where
  positional := by decide
  params := by
    intro s hs
    simp only [markedMacro, Option.toList_some, List.mem_append, List.mem_singleton] at hs
    rcases hs with rfl | rfl
    · exact isMark_of_mem _ (by decide) _
    · exact isMark_rest _
  nonempty := List.cons_ne_nil _ _
  body := by
    simp only [markedMacro, List.forall_mem_cons]
    exact ⟨isData_quotedZero, isMark_head .function _, List.forall_mem_nil _⟩

theorem printed_procedure_is_source_marks :
    let m : Machine := ⟨⟨[], ⟨[(Symbol.macroHead, .special .makeMacro)]⟩⟩, 0, []⟩
    let source := markedMacro.procedure.print Symbols.initial.naming
    markedMacro.IsWritable Symbols.initial ∧ (Reader.ofSymbols Symbols.initial).Reachable ∧
    ∃ (form : Value) (g : Definition),
      ((Reader.ofSymbols Symbols.initial).feed source).result = .ok [form] ∧
      ((Reader.ofSymbols Symbols.initial).readAll source).result = .ok [form] ∧
      evaluate ⟨Symbols.initial.naming, 0, fun _ => true⟩ 2 form m = (.value g.procedure, m) ∧
      markedMacro.procedure.equal g.procedure = true ∧ g.kind = .expander ∧
      g.IsWritable Symbols.initial := by
  intro m source
  obtain ⟨hsource, hmade⟩ := printed_procedure_is_source
  obtain ⟨form, g, hread, hequal, hkind, hvalue⟩ := hsource _ _ isWritable_markedMacro
  have hdata : ∀ v ∈ [Value.list (Value.definition markedMacro.kind markedMacro.params
      markedMacro.body)], v.IsData Symbols.initial := by
    rw [List.forall_mem_singleton]
    exact isWritable_markedMacro.isData
  have hfed := feed_spaced _ hdata
  have hform := readAll_print_procedure isWritable_markedMacro
  rw [hform] at hread
  cases hread
  have hg := hvalue ⟨Symbols.initial.naming, 0, fun _ => true⟩ m 0 rfl
  obtain ⟨d, hd, _, hwritable⟩ := hmade _ _ _ (.empty _) (congrArg Reader.Reading.result hfed) _
    List.mem_cons_self [] .expander _ rfl _ m m 2 _ rfl hg
  have hgd : g = d := by
    obtain ⟨kind, params, body⟩ := g
    cases hd
    rfl
  rw [hfed] at hwritable
  refine ⟨isWritable_markedMacro, .empty _, _, g, ?_, congrArg Reader.Reading.result hform, hg,
    hequal, hkind, ?_⟩
  · rw [show source = _ from Value.print_procedure ..]
    exact congrArg Reader.Reading.result hfed
  · rw [hgd]
    exact hwritable _ (.refl _)

end MiniLisp
