import MiniLisp.Proofs.Reader.Acceptance
import MiniLisp.Proofs.Reader.Chunking

/-!
# Texts cut at line breaks

A text may be cut at any line break outside string literals. Whether a break is inside one depends
on all the text before it, yet each chunk can be judged by itself; and if the whole text is read,
so is each chunk.
Main statements: `cutsOutsideLiterals_cons` and `Reader.feed_of_cut`.
-/

namespace MiniLisp

theorem lastMode_append (mode : Mode) (ts us : List Token) :
    lastMode mode (ts ++ us) = lastMode (lastMode mode ts) us := by
  induction ts generalizing mode with
  | nil => rfl
  | cons t ts ih => exact ih t.lexeme.nextMode

theorem lastMode_shift (mode : Mode) (ts : List Token) (k : Nat) :
    lastMode mode (ts.map (Token.shift k)) = lastMode mode ts := by
  induction ts generalizing mode with
  | nil => rfl
  | cons t ts ih => exact ih t.lexeme.nextMode

theorem tokensFrom_append {mode : Mode} {pos : Nat} {cs : List Char} (ds : List Char)
    (h : lastMode mode (tokensFrom mode pos cs) = .normal) :
    tokensFrom mode pos (cs ++ '\n' :: ds)
      = tokensFrom mode pos cs ++ tokensFrom .normal (pos + cs.length + 1) ds := by
  induction mode, pos, cs using tokensFrom.induct with
  | case1 mode pos cs hstop =>
    rw [tokensFrom_stop pos hstop] at h ⊢
    obtain rfl : mode = .normal := h
    have hbreak : scan .normal ('\n' :: ds) = .skip 1 := rfl
    rw [eq_nil_of_scanNormal_stop hstop]
    exact tokensFrom_skip pos hbreak
  | case2 mode pos cs w hskip ih =>
    have hw : w ≤ cs.length := width_le_of_scan hskip Scan.noConfusion
    rw [tokensFrom_skip pos hskip] at h ⊢
    rw [tokensFrom_skip pos (scan_append_skip ds hskip), List.drop_append_of_le_length hw,
      ← pos_break pos hw]
    exact ih h
  | case3 mode pos cs l w hfound ih =>
    have hw : w ≤ cs.length := width_le_of_scan hfound Scan.noConfusion
    rw [tokensFrom_found pos hfound] at h ⊢
    rcases scan_append ds hfound with hsame | ⟨⟨text, rfl⟩, hnil⟩
    · rw [tokensFrom_found pos hsame, List.drop_append_of_le_length hw, ← pos_break pos hw,
        List.cons_append]
      exact congrArg _ (ih h)
    · -- the text runs up to the break, which is then inside the literal
      rw [hnil, tokensFrom_nil] at h
      cases h

/-- Behind a break outside string literals the lexer goes on as if the text began there. -/
theorem finalMode_append {a : String} (ha : finalMode (tokens a) = .normal) (b : String) :
    finalMode (tokens (a ++ "\n" ++ b)) = finalMode (tokens b) := by
  rw [← lastMode_normal] at ha ⊢
  rw [← lastMode_normal, tokens, toList_break, tokensFrom_append b.toList ha, lastMode_append]
  rw [tokens] at ha
  rw [ha, ← Nat.add_zero (0 + a.toList.length + 1), tokensFrom_shift, lastMode_shift]
  rfl

/-- No chunk but the last ends inside a string literal of the text that the chunks make up. -/
def CutsOutsideLiterals (chunks : List String) : Prop :=
  ∀ front back, chunks = front ++ back → front ≠ [] → back ≠ [] →
    finalMode (tokens ("\n".intercalate front)) = .normal

theorem cutsOutsideLiterals_singleton (chunk : String) : CutsOutsideLiterals [chunk] := by
  intro front back h hfront hback
  have hlen := congrArg List.length h
  rw [List.length_append, List.length_singleton] at hlen
  have hfront' := List.length_pos_iff.mpr hfront
  have hback' := List.length_pos_iff.mpr hback
  omega

theorem cutsOutsideLiterals_cons (a b : String) (chunks : List String) :
    CutsOutsideLiterals (a :: b :: chunks)
      ↔ finalMode (tokens a) = .normal ∧ CutsOutsideLiterals (b :: chunks) := by
  have hjoin : ∀ front : List String, front ≠ [] →
      "\n".intercalate (a :: front) = a ++ "\n" ++ "\n".intercalate front :=
    fun front h => String.intercalate_cons_of_ne_nil h
  constructor
  · intro h
    have ha : finalMode (tokens a) = .normal := by
      have hfirst := h [a] (b :: chunks) rfl (List.cons_ne_nil _ _) (List.cons_ne_nil _ _)
      rwa [String.intercalate_singleton] at hfirst
    refine ⟨ha, fun front back hsplit hfront hback => ?_⟩
    have hcut := h (a :: front) back (by rw [hsplit, List.cons_append]) (List.cons_ne_nil _ _) hback
    rwa [hjoin front hfront, finalMode_append ha] at hcut
  · rintro ⟨ha, h⟩ front back hsplit hfront hback
    cases front with
    | nil => exact absurd rfl hfront
    | cons c front =>
      obtain ⟨rfl, hrest⟩ := List.cons_eq_cons.mp hsplit
      by_cases hnil : front = []
      · rw [hnil, String.intercalate_singleton]
        exact ha
      · rw [hjoin front hnil, finalMode_append ha]
        exact h front back hrest hnil hback

namespace Reader

theorem Progress.unterminated_feed {p : Progress} {t : Token} {e : ReadError}
    (h : p.feed t = .error e) : e.cause ≠ .unterminatedString := by
  rcases feed_error_cases h with ⟨rfl, _⟩ | ⟨rfl, _⟩ | ⟨rfl, _⟩ <;> exact ReadCause.noConfusion

/-- A run is cut off by the end of the text only if the lexer is inside a string literal there. -/
theorem Progress.lastMode_of_unterminated {p : Progress} {ts : List Token} {e : ReadError}
    (h : (p.run ts).2 = some e) (he : e.cause = .unterminatedString) :
    lastMode p.mode ts = .string := by
  induction ts generalizing p with
  | nil =>
    cases hp : p.literal with
    | none =>
      simp only [run, hp] at h
      cases h
    | some cs => exact mode_of_literal_some hp
  | cons t ts ih =>
    cases hfeed : p.feed t with
    | error e' =>
      rw [run_feed_error _ hfeed] at h
      cases h
      exact absurd he (unterminated_feed hfeed)
    | ok q =>
      rw [run_feed_ok _ hfeed] at h
      have hrest := ih h
      rwa [mode_feed hfeed] at hrest

variable {r : Reader} {a b : String} {e : ReadError} {forms : List Value}

theorem unterminated_of_feed (ha : finalMode (tokens a) = .normal)
    (h : (r.feed a).result = .error e) : e.cause ≠ .unterminatedString := by
  rcases hrun : (Progress.mk r none []).run (tokens a) with ⟨p, none | e'⟩
  · rw [feed_of_run hrun] at h
    cases h
  · rw [feed_of_run_error hrun] at h
    cases h
    intro he
    have hstring : lastMode .normal (tokens a) = .string :=
      Progress.lastMode_of_unterminated (p := ⟨r, none, []⟩) (congrArg Prod.snd hrun) he
    rw [lastMode_normal, ha] at hstring
    cases hstring

/-- If the text on both sides of a cut is read, the first part is, and then the second. -/
theorem feed_of_cut (ha : finalMode (tokens a) = .normal)
    (h : (r.feed (a ++ "\n" ++ b)).result = .ok forms) :
    ∃ fa fb, forms = fa ++ fb ∧ (r.feed a).result = .ok fa ∧
      ((r.feed a).reader.feed b).result = .ok fb ∧
      (r.feed (a ++ "\n" ++ b)).reader = ((r.feed a).reader.feed b).reader := by
  cases hfirst : (r.feed a).result with
  | error e =>
    rw [feed_append_of_error hfirst (unterminated_of_feed ha hfirst) b, hfirst] at h
    cases h
  | ok fa =>
    rw [feed_append_of_ok hfirst b] at h ⊢
    cases hsecond : ((r.feed a).reader.feed b).result with
    | error e =>
      rw [hsecond] at h
      cases h
    | ok fb =>
      rw [hsecond] at h
      cases h
      exact ⟨fa, fb, rfl, rfl, rfl, rfl⟩

theorem discarded_of_feed (h : (r.feed a).result = .ok forms) : (r.feed a).discarded = 0 := by
  rcases hrun : (Progress.mk r none []).run (tokens a) with ⟨p, none | e'⟩
  · rw [feed_of_run hrun]
  · rw [feed_of_run_error hrun] at h
    cases h

end Reader

end MiniLisp
