import MiniLisp.Proofs.Reader.Data

/-!
# Steps and runs of a reader

A reader is inside a string literal exactly when the lexer is, so it meets no lexeme of the other
mode. A run is made of steps, one for each token.
-/

namespace MiniLisp

theorem mode_classify (run : List Char) : (classify run).mode = .normal := by
  unfold classify
  split
  · rfl
  · split
    · rfl
    · split <;> rfl

theorem mode_singleMark (c : Char) : (singleMark c).mode = .normal := by
  unfold singleMark
  repeat' split
  all_goals rfl

theorem mode_of_scan {mode : Mode} {cs : List Char} {l : Lexeme} {w : Nat}
    (h : scan mode cs = .found l w) : l.mode = mode := by
  cases scans_of_scan h with
  | atom => exact mode_classify _
  | mark => exact mode_singleMark _
  | _ => rfl

namespace Reader.Progress

/-- Hands over several completed forms in order. -/
def deliverAll (p : Progress) : List Value → Progress
  | [] => p
  | v :: vs => (p.deliver p.reader.stack v).deliverAll vs

theorem literal_deliver (p : Progress) (stack : List OpenFrame) (v : Value) :
    (p.deliver stack v).literal = p.literal := by
  unfold deliver
  split <;> rfl

theorem symbols_deliver (p : Progress) (stack : List OpenFrame) (v : Value) :
    (p.deliver stack v).reader.symbols = p.reader.symbols := by
  unfold deliver
  split <;> rfl

theorem deliverAll_list (t : Symbols) (literal : Option (List Char)) (forms : List Value)
    (stack : List OpenFrame) (items vs : List Value) :
    deliverAll ⟨⟨t, .list items :: stack⟩, literal, forms⟩ vs
      = ⟨⟨t, .list (vs.reverse ++ items) :: stack⟩, literal, forms⟩ := by
  induction vs generalizing items with
  | nil => rfl
  | cons v vs ih =>
    rw [List.reverse_cons, List.append_assoc]
    exact ih (v :: items)

theorem deliverAll_nil (t : Symbols) (literal : Option (List Char)) (forms vs : List Value) :
    deliverAll ⟨⟨t, []⟩, literal, forms⟩ vs = ⟨⟨t, []⟩, literal, vs.reverse ++ forms⟩ := by
  induction vs generalizing forms with
  | nil => rfl
  | cons v vs ih =>
    rw [List.reverse_cons, List.append_assoc]
    exact ih (v :: forms)

def mode (p : Progress) : Mode := if p.literal.isSome then .string else .normal

theorem mode_of_literal_none {p : Progress} (h : p.literal = none) : p.mode = .normal := by
  rw [mode, h]
  rfl

theorem mode_of_literal_some {p : Progress} {cs : List Char} (h : p.literal = some cs) :
    p.mode = .string := by
  rw [mode, h]
  rfl

theorem literal_of_mode_string {p : Progress} (h : p.mode = .string) :
    ∃ cs, p.literal = some cs := by
  cases hp : p.literal with
  | some cs => exact ⟨cs, rfl⟩
  | none =>
    rw [mode_of_literal_none hp] at h
    cases h

theorem literal_of_mode_normal {p : Progress} (h : p.mode = .normal) : p.literal = none := by
  cases hp : p.literal with
  | none => rfl
  | some cs =>
    rw [mode_of_literal_some hp] at h
    cases h

theorem mode_deliver (p : Progress) (stack : List OpenFrame) (v : Value) :
    (p.deliver stack v).mode = p.mode := by
  rw [mode, literal_deliver, mode]

theorem mode_feedNormal {p q : Progress} {t : Token} (hp : p.mode = .normal)
    (hq : p.feedNormal t = .ok q) : q.mode = t.lexeme.nextMode := by
  unfold feedNormal at hq
  split at hq
  case h_6 hl =>
    rw [hl]
    split at hq <;> cases hq
    exact (mode_deliver _ _ _).trans hp
  all_goals rename_i hl
  all_goals rw [hl]
  all_goals cases hq
  all_goals first
    | exact hp
    | exact (mode_deliver _ _ _).trans hp
    | rfl

theorem mode_feedString {p q : Progress} {cs : List Char} {t : Token}
    (hq : p.feedString cs t = .ok q) : q.mode = t.lexeme.nextMode := by
  unfold feedString at hq
  split at hq
  · rename_i hl
    rw [hl]
    cases hq
    rfl
  · rename_i hl
    rw [hl]
    cases hq
    exact mode_deliver _ _ _
  · cases hq
  · cases hq

/-- A token leaves the reader in the mode in which it leaves the lexer. -/
theorem mode_feed {p q : Progress} {t : Token} (hq : p.feed t = .ok q) :
    q.mode = t.lexeme.nextMode := by
  unfold feed at hq
  split at hq
  · rename_i hnone
    exact mode_feedNormal (mode_of_literal_none hnone) hq
  · exact mode_feedString hq

theorem run_feed_ok {p q : Progress} {t : Token} (ts : List Token) (h : p.feed t = .ok q) :
    p.run (t :: ts) = q.run ts := by
  rw [run, h]

theorem run_feed_error {p : Progress} {t : Token} {e : ReadError} (ts : List Token)
    (h : p.feed t = .error e) : p.run (t :: ts) = (p, some e) := by
  rw [run, h]

theorem feed_text {p : Progress} {cs : List Char} (h : p.literal = some cs) (more : List Char)
    (span : Span) : p.feed ⟨.text more, span⟩ = .ok { p with literal := some (cs ++ more) } := by
  rw [feed, h]
  rfl

theorem keeps_feed {p q : Progress} {t : Token} (h : p.feed t = .ok q) :
    p.reader.symbols.Keeps q.reader.symbols := by
  have hdeliver : ∀ (p' : Progress) (stack : List OpenFrame) (v : Value),
      p'.reader.symbols.Keeps (p'.deliver stack v).reader.symbols := fun p' stack v => by
    rw [symbols_deliver]
    exact .refl _
  obtain ⟨l, span⟩ := t
  cases hp : p.literal with
  | none =>
    simp only [feed, hp] at h
    cases l with
    | closeParen =>
      simp only [feedNormal] at h
      split at h <;> cases h
      exact hdeliver _ _ _
    | symbol name =>
      cases h
      exact (Symbols.keeps_intern _ name).trans (hdeliver
        { p with reader := { p.reader with symbols := (p.reader.symbols.intern name).2 } } _ _)
    | boolean _ | number _ =>
      cases h
      exact hdeliver _ _ _
    | unknown _ | text _ | closeString | badEscape _ => cases h
    | _ =>
      cases h
      exact .refl _
  | some cs =>
    simp only [feed, hp] at h
    cases l with
    | text more =>
      cases h
      exact .refl _
    | closeString =>
      cases h
      exact hdeliver { p with literal := none } _ _
    | _ => cases h

theorem keeps_run (p : Progress) (ts : List Token) :
    p.reader.symbols.Keeps (p.run ts).1.reader.symbols := by
  induction ts generalizing p with
  | nil => exact .refl _
  | cons t ts ih =>
    cases hfeed : p.feed t with
    | error e =>
      rw [run_feed_error _ hfeed]
      exact .refl _
    | ok q =>
      rw [run_feed_ok _ hfeed]
      exact (keeps_feed hfeed).trans (ih q)

end Reader.Progress

namespace Reader

theorem feed_of_run {r : Reader} {chunk : String} {p : Progress}
    (h : (Progress.mk r none []).run (tokens chunk) = (p, none)) :
    r.feed chunk = ⟨.ok p.forms.reverse, p.reader, 0⟩ := by
  rw [feed, h]

theorem feed_of_run_error {r : Reader} {chunk : String} {p : Progress} {e : ReadError}
    (h : (Progress.mk r none []).run (tokens chunk) = (p, some e)) :
    r.feed chunk = p.reader.fail e := by
  rw [feed, h]

theorem keeps_feed (r : Reader) (chunk : String) :
    r.symbols.Keeps (r.feed chunk).reader.symbols := by
  have hkeeps := Progress.keeps_run ⟨r, none, []⟩ (tokens chunk)
  rcases hrun : (Progress.mk r none []).run (tokens chunk) with ⟨p, none | e⟩
  · rw [hrun] at hkeeps
    rw [feed_of_run hrun]
    exact hkeeps
  · rw [hrun] at hkeeps
    rw [feed_of_run_error hrun]
    exact hkeeps

theorem readAll_error_cases {r : Reader} {source : String} {e : ReadError}
    (h : (r.readAll source).result = .error e) :
    (r.feed source).result = .error e ∨ (r.feed source).reader.finish.result = .error e := by
  unfold readAll at h
  dsimp only at h
  split at h
  · rename_i e' heq
    cases h
    exact .inl heq
  · cases hdone : (r.feed source).reader.finish.result with
    | error e' =>
      rw [hdone] at h
      cases h
      exact .inr rfl
    | ok u =>
      rw [hdone] at h
      cases h

theorem keeps_readAll (r : Reader) (source : String) :
    r.symbols.Keeps (r.readAll source).reader.symbols := by
  have hkeeps := r.keeps_feed source
  unfold readAll
  dsimp only
  split
  · exact hkeeps
  · rw [symbols_finish]
    exact hkeeps

end Reader

end MiniLisp
