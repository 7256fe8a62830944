import MiniLisp.Proofs.Reader.RoundTrip

/-!
# Equal values

Values are equal exactly if they hold no undefined number and are the same value once every zero has
lost its sign; so equality is symmetric and transitive, and values that hold an undefined number are
all that it is not reflexive on. A printed value does not show the sign of zero either, hence equal
values are printed alike, and data that are printed alike are read alike and so are equal.
Main statements: `equal_iff` and `equality_matches_printing`.
-/

namespace MiniLisp

namespace Value

/-- There is an undefined number in the value, be it in the body of a procedure. -/
inductive HoldsNaN : Value → Prop
  | number {x : Float} (h : x.isNaN = true) : HoldsNaN (.number x)
  | list {items : List Value} {v : Value} (hv : v ∈ items) (h : HoldsNaN v) : HoldsNaN (.list items)
  | procedure {kind : ProcedureKind} {params : ParamList Symbol} {body : List Value} {v : Value}
      (hv : v ∈ body) (h : HoldsNaN v) : HoldsNaN (.procedure kind params body)

mutual

/-- The value with all zeros positive. -/
def unsigned : Value → Value
  | .number x => .number (Number.unsignedZero x)
  | .list items => .list (unsignedAll items)
  | .procedure kind params body => .procedure kind params (unsignedAll body)
  | v => v

def unsignedAll : List Value → List Value
  | [] => []
  | v :: vs => unsigned v :: unsignedAll vs

end

theorem not_holdsNaN_number_iff {x : Float} : ¬ (number x).HoldsNaN ↔ x.isNaN = false := by
  constructor
  · intro h
    cases hx : x.isNaN with
    | true => exact absurd (.number hx) h
    | false => rfl
  · intro h hnan
    cases hnan with
    | number hx => rw [h] at hx; cases hx

theorem not_holdsNaN_list_iff {items : List Value} :
    ¬ (list items).HoldsNaN ↔ ∀ v ∈ items, ¬ v.HoldsNaN := by
  constructor
  · intro h v hv hnan
    exact h (.list hv hnan)
  · intro h hnan
    cases hnan with
    | list hv hnan => exact h _ hv hnan

theorem not_holdsNaN_procedure_iff {kind : ProcedureKind} {params : ParamList Symbol}
    {body : List Value} : ¬ (procedure kind params body).HoldsNaN ↔ ∀ v ∈ body, ¬ v.HoldsNaN := by
  constructor
  · intro h v hv hnan
    exact h (.procedure hv hnan)
  · intro h hnan
    cases hnan with
    | procedure hv hnan => exact h _ hv hnan

mutual

theorem equal_iff (v w : Value) :
    v.equal w = true ↔ ¬ v.HoldsNaN ∧ v.unsigned = w.unsigned := by
  cases v with
  | number x =>
    cases w with
    | number y =>
      rw [not_holdsNaN_number_iff, unsigned, unsigned, number.injEq, ← Number.beq_iff, equal]
    | _ => simp [equal, unsigned]
  | list vs =>
    cases w with
    | list ws =>
      rw [not_holdsNaN_list_iff, unsigned, unsigned, list.injEq, ← equalAll_iff vs ws, equal]
    | _ => simp [equal, unsigned]
  | procedure kind params body =>
    cases w with
    | procedure kind' params' body' =>
      simp only [equal, unsigned, Bool.and_eq_true, decide_eq_true_eq, equalAll_iff body body',
        not_holdsNaN_procedure_iff, procedure.injEq]
      tauto
    | _ => simp [equal, unsigned]
  | bool _ | string _ | symbol _ | special _ | native _ =>
    rw [and_iff_right nofun]
    cases w <;> simp [equal, unsigned]

theorem equalAll_iff (vs ws : List Value) :
    equalAll vs ws = true ↔ (∀ v ∈ vs, ¬ v.HoldsNaN) ∧ unsignedAll vs = unsignedAll ws := by
  match vs, ws with
  | [], [] => simp [equalAll]
  | [], w :: ws => simp [equalAll, unsignedAll]
  | v :: vs, [] => simp [equalAll, unsignedAll]
  | v :: vs, w :: ws =>
    simp only [equalAll, unsignedAll, Bool.and_eq_true, equal_iff v w, equalAll_iff vs ws,
      List.forall_mem_cons, List.cons.injEq]
    tauto

end

mutual

theorem not_holdsNaN_unsigned_iff (v : Value) : ¬ v.unsigned.HoldsNaN ↔ ¬ v.HoldsNaN := by
  cases v with
  | number x => rw [unsigned, not_holdsNaN_number_iff, not_holdsNaN_number_iff,
      Number.isNaN_unsignedZero]
  | list vs =>
    rw [unsigned, not_holdsNaN_list_iff, not_holdsNaN_list_iff]
    exact not_holdsNaN_unsignedAll_iff vs
  | procedure kind params body =>
    rw [unsigned, not_holdsNaN_procedure_iff, not_holdsNaN_procedure_iff]
    exact not_holdsNaN_unsignedAll_iff body
  | _ => simp only [unsigned]

theorem not_holdsNaN_unsignedAll_iff (vs : List Value) :
    (∀ v ∈ unsignedAll vs, ¬ v.HoldsNaN) ↔ ∀ v ∈ vs, ¬ v.HoldsNaN := by
  cases vs with
  | nil => rfl
  | cons v vs =>
    rw [unsignedAll, List.forall_mem_cons, List.forall_mem_cons, not_holdsNaN_unsigned_iff v,
      not_holdsNaN_unsignedAll_iff vs]

end

theorem equal_self_iff (v : Value) : v.equal v = true ↔ ¬ v.HoldsNaN := by
  rw [equal_iff]
  exact and_iff_left rfl

theorem equal_symm {v w : Value} (h : v.equal w = true) : w.equal v = true := by
  obtain ⟨hnan, hvw⟩ := (equal_iff v w).mp h
  rw [← not_holdsNaN_unsigned_iff, hvw, not_holdsNaN_unsigned_iff] at hnan
  exact (equal_iff w v).mpr ⟨hnan, hvw.symm⟩

theorem equal_comm (v w : Value) : v.equal w = w.equal v :=
  Bool.eq_iff_iff.mpr ⟨equal_symm, equal_symm⟩

theorem equal_trans {u v w : Value} (huv : u.equal v = true) (hvw : v.equal w = true) :
    u.equal w = true := by
  obtain ⟨hnan, hu⟩ := (equal_iff u v).mp huv
  have hv := ((equal_iff v w).mp hvw).2
  exact (equal_iff u w).mpr ⟨hnan, hu.trans hv⟩

mutual

theorem chars_unsigned (names : Naming) (v : Value) : v.unsigned.chars names = v.chars names := by
  cases v with
  | number x => simp only [unsigned, chars, Number.text_unsignedZero]
  | list vs =>
    cases vs with
    | nil => simp only [unsigned, unsignedAll]
    | cons v vs =>
      simp only [unsigned, unsignedAll, chars, chars_unsigned names v, tailChars_unsigned names vs]
  | procedure kind params body => simp only [unsigned, chars, tailChars_unsigned names body]
  | _ => simp only [unsigned]

theorem tailChars_unsigned (names : Naming) (vs : List Value) :
    tailChars names (unsignedAll vs) = tailChars names vs := by
  cases vs with
  | nil => simp only [unsignedAll]
  | cons v vs =>
    simp only [unsignedAll, tailChars, chars_unsigned names v, tailChars_unsigned names vs]

end

theorem print_eq_of_equal {v w : Value} (h : v.equal w = true) (names : Naming) :
    v.print names = w.print names := by
  rw [print, print, ← chars_unsigned names v, ((equal_iff v w).mp h).2, chars_unsigned]

theorem equal_of_print_eq {t : Symbols} {v w : Value} (hv : v.IsData t) (hw : w.IsData t)
    (h : v.print t.naming = w.print t.naming) : v.equal w = true := by
  -- what is printed alike is read alike, and each of the two equals what is read
  have hread := readAll_print v hv
  rw [h, readAll_print w hw] at hread
  have hsame : w.asRead = v.asRead := by
    simpa using congrArg Reader.Reading.result hread
  have hback := equal_symm (equal_asRead hw)
  rw [hsame] at hback
  exact equal_trans (equal_asRead hv) hback

end Value

/-- Equality is symmetric and transitive, and a value equals itself exactly if it holds no undefined
number. Equal values are printed alike, whatever the names of symbols are; data whose symbols have
readable names in a table are equal if they are printed alike with these names. -/
theorem equality_matches_printing :
    (∀ v w : Value, v.equal w = w.equal v) ∧
    (∀ u v w : Value, u.equal v = true → v.equal w = true → u.equal w = true) ∧
    (∀ v : Value, v.equal v = true ↔ ¬ v.HoldsNaN) ∧
    (∀ (v w : Value) (names : Naming), v.equal w = true → v.print names = w.print names) ∧
    (∀ (t : Symbols) (v w : Value), v.IsData t → w.IsData t →
      v.print t.naming = w.print t.naming → v.equal w = true) := by
  refine ⟨Value.equal_comm, ?_, Value.equal_self_iff, ?_, ?_⟩
  · intro u v w huv hvw
    exact Value.equal_trans huv hvw
  · intro v w names h
    exact Value.print_eq_of_equal h names
  · intro t v w hv hw h
    exact Value.equal_of_print_eq hv hw h

/-- `(quote -0 "a\"b")` and `(quote 0 "a\"b")`, equal either way and printed alike. -/
theorem equality_matches_printing_quotedZero :
    quotedZero.equal quotedZero.asRead = true ∧
    quotedZero.asRead.equal quotedZero = true ∧
    quotedZero.equal quotedZero = true ∧
    ¬ quotedZero.HoldsNaN ∧
    quotedZero.print Symbols.initial.naming = quotedZero.asRead.print Symbols.initial.naming ∧
    quotedZero.IsData Symbols.initial ∧
    quotedZero.asRead.IsData Symbols.initial := by
  have hread := readAll_print quotedZero isData_quotedZero
  have hdata : quotedZero.asRead.IsData Symbols.initial := by
    have hall := Reader.isData_of_readAll (.empty Symbols.initial)
      (congrArg Reader.Reading.result hread)
    rw [hread] at hall
    exact hall _ List.mem_cons_self
  have hforth := Value.equal_asRead isData_quotedZero
  obtain ⟨hcomm, htrans, hself, hprint, hback⟩ := equality_matches_printing
  have hsymm := (hcomm quotedZero.asRead quotedZero).trans hforth
  have hsame := hprint _ _ Symbols.initial.naming hforth
  have hrefl := htrans _ _ _ hforth hsymm
  exact ⟨hback _ _ _ isData_quotedZero hdata hsame, hsymm, hrefl, (hself quotedZero).mp hrefl,
    hsame, isData_quotedZero, hdata⟩

end MiniLisp
