import Mathlib.Algebra.Group.Nat.Even
import MiniLisp.Proofs.Reader.Chunking

/-!
# The pieces of a text

A text is cut into pieces, one for each step of the lexer. A piece is the run of a token or a gap,
which is layout or a comment, and what a piece looks like depends on the text behind it: a run of an
atom and a comment are as long as they can be.
Main statement: `tiled_tokensFrom`.
-/

namespace MiniLisp

def backslashesAtEnd (cs : List Char) : Nat := (cs.reverse.takeWhile (· == '\\')).length

theorem backslashesAtEnd_append_of_mem (a : List Char) {b : List Char} {c : Char} (hc : c ∈ b)
    (hne : c ≠ '\\') : backslashesAtEnd (a ++ b) = backslashesAtEnd b := by
  have hstops : (b.reverse.takeWhile (· == '\\')).length ≠ b.reverse.length := by
    intro hall
    have hwhole := (List.takeWhile_prefix (· == '\\') (l := b.reverse)).eq_of_length hall
    rw [← List.mem_reverse, ← hwhole] at hc
    have hback := List.mem_takeWhile_imp hc
    exact hne (beq_iff_eq.mp hback)
  rw [backslashesAtEnd, backslashesAtEnd, List.reverse_append, List.takeWhile_append,
    if_neg hstops]

theorem backslashesAtEnd_append_of_all (a : List Char) {b : List Char} (h : ∀ c ∈ b, c = '\\') :
    backslashesAtEnd (a ++ b) = b.length + backslashesAtEnd a := by
  have hall : ∀ c ∈ b.reverse, (c == '\\') = true := by
    intro c hc
    exact beq_iff_eq.mpr (h c (List.mem_reverse.mp hc))
  rw [backslashesAtEnd, backslashesAtEnd, List.reverse_append, List.takeWhile_append_of_pos hall,
    List.length_append, List.length_reverse]

theorem backslashesAtEnd_eq_zero {cs : List Char} (h : ∀ c ∈ cs, c ≠ '\\') :
    backslashesAtEnd cs = 0 := by
  rw [backslashesAtEnd, List.length_eq_zero_iff, List.eq_nil_iff_forall_not_mem]
  intro c hc
  have hmem := (List.takeWhile_subset _) hc
  have hback := List.mem_takeWhile_imp hc
  exact h c (List.mem_reverse.mp hmem) (beq_iff_eq.mp hback)

/-- Backslashes that pair up do not change what comes behind them. -/
theorem odd_backslashesAtEnd_append {a : List Char} (ha : Even (backslashesAtEnd a))
    (b : List Char) :
    Odd (backslashesAtEnd (a ++ b)) ↔ Odd (backslashesAtEnd b) := by
  by_cases hb : ∀ c ∈ b, c = '\\'
  · have hself := backslashesAtEnd_append_of_all [] hb
    have hnil : backslashesAtEnd [] = 0 := rfl
    rw [List.nil_append, hnil, Nat.add_zero] at hself
    rw [backslashesAtEnd_append_of_all a hb, hself, Nat.odd_add]
    exact iff_true_right ha
  · simp only [not_forall] at hb
    obtain ⟨c, hc, hne⟩ := hb
    rw [backslashesAtEnd_append_of_mem a hc hne]

/-- The lexeme is a symbol, a number or a boolean. -/
def Lexeme.IsAtom : Lexeme → Prop
  | .symbol _ | .number _ | .boolean _ => True
  | _ => False

/-- The run of characters is that of the lexeme, when the rest comes behind it. -/
structure Lexeme.Fits (l : Lexeme) (run rest : List Char) : Prop where
  nonempty : run ≠ []
  visible : l.mode = .normal → ∀ c ∈ run, isLayout c = false ∧ c ≠ ';'
  longest : l.IsAtom → (∀ c ∈ run, isAtomChar c = true) ∧ Separated rest
  opening : l = .openString → '\x22' ∈ run
  escaped : l.nextMode = .string → Even (backslashesAtEnd run)

/-- What is skipped at once between string literals, when the rest comes behind it. -/
inductive Gap : List Char → List Char → Prop
  | layout {c : Char} (rest : List Char) (hc : isLayout c = true) : Gap [c] rest
  | comment {cs rest : List Char} (hcs : ∀ c ∈ cs, c ≠ '\n') (hrest : ∀ c ∈ rest.head?, c = '\n') :
      Gap (';' :: cs) rest

/-- The text, which begins at a position in a mode, is made up of gaps and of the runs of the
tokens, in this order. -/
inductive Tiled : Mode → Nat → List Char → List Token → Prop
  | nil (mode : Mode) (pos : Nat) : Tiled mode pos [] []
  | backslash (pos : Nat) : Tiled .string pos ['\\'] []
  | gap {pos : Nat} {run rest : List Char} {ts : List Token} (hgap : Gap run rest)
      (h : Tiled .normal (pos + run.length) rest ts) : Tiled .normal pos (run ++ rest) ts
  | token {pos : Nat} {l : Lexeme} {run rest : List Char} {ts : List Token}
      (hfits : l.Fits run rest) (h : Tiled l.nextMode (pos + run.length) rest ts) :
      Tiled l.mode pos (run ++ rest) (⟨l, pos, pos + run.length⟩ :: ts)

theorem false_of_head?_dropWhile {p : Char → Bool} {cs : List Char} {c : Char}
    (hc : c ∈ (cs.dropWhile p).head?) : p c = false := by
  have hhead := List.head?_dropWhile_not p cs
  rw [Option.mem_def.mp hc] at hhead
  simpa using hhead

theorem gap_comment (cs : List Char) :
    Gap (';' :: cs.takeWhile isCommentChar) (cs.dropWhile isCommentChar) := by
  apply Gap.comment
  · intro c hc
    have hcomment := List.mem_takeWhile_imp hc
    exact bne_iff_ne.mp hcomment
  · intro c hc
    have hstops := false_of_head?_dropWhile hc
    simpa [isCommentChar] using hstops

theorem gap_of_skip {mode : Mode} {cs : List Char} {w : Nat} (h : scan mode cs = .skip w) :
    mode = .normal ∧ ∃ run rest, cs = run ++ rest ∧ run.length = w ∧ Gap run rest := by
  cases scans_of_scan h with
  | @layout c cs hc => exact ⟨rfl, [c], cs, rfl, rfl, .layout cs hc⟩
  | comment cs =>
    refine ⟨rfl, _, _, ?_, ?_, gap_comment cs⟩
    · rw [List.cons_append, List.takeWhile_append_dropWhile]
    · rw [List.length_cons, Nat.add_comm]

/-- What does not lead into a string literal has no quote and no backslash to answer for. -/
theorem fits_of_nextMode_normal {l : Lexeme} {run rest : List Char} (hnext : l.nextMode = .normal)
    (hne : run ≠ []) (hvisible : ∀ c ∈ run, isLayout c = false ∧ c ≠ ';')
    (hlongest : l.IsAtom → (∀ c ∈ run, isAtomChar c = true) ∧ Separated rest) :
    l.Fits run rest := by
  refine ⟨hne, fun _ => hvisible, hlongest, ?_, ?_⟩
  · intro hopen
    rw [hopen] at hnext
    cases hnext
  · intro hstring
    rw [hstring] at hnext
    cases hnext

theorem fits_classify {c : Char} (hc : isAtomChar c = true) (cs : List Char) :
    (classify (c :: cs.takeWhile isAtomChar)).Fits (c :: cs.takeWhile isAtomChar)
      (cs.dropWhile isAtomChar) := by
  have hall : ∀ d ∈ c :: cs.takeWhile isAtomChar, isAtomChar d = true := by
    rw [List.forall_mem_cons]
    exact ⟨hc, fun d hd => List.mem_takeWhile_imp hd⟩
  apply fits_of_nextMode_normal (nextMode_classify _) (List.cons_ne_nil _ _)
  · intro d hd
    exact ⟨isLayout_of_isAtomChar (hall d hd), ne_of_isAtomChar (hall d hd) (by decide)⟩
  · intro _
    exact ⟨hall, fun d hd => false_of_head?_dropWhile hd⟩

theorem fits_singleMark {c : Char} (hlayout : isLayout c = false) (hsemi : c ≠ ';')
    (rest : List Char) : (singleMark c).Fits [c] rest := by
  have hopen : (singleMark c).nextMode = .string → c = '\x22' := by
    unfold singleMark
    repeat' split
    all_goals intro h
    all_goals first | assumption | cases h
  refine ⟨List.cons_ne_nil _ _, ?_, ?_, ?_, ?_⟩
  · intro _ d hd
    rw [List.mem_singleton.mp hd]
    exact ⟨hlayout, hsemi⟩
  · intro hatom
    unfold singleMark at hatom
    repeat' split at hatom
    all_goals cases hatom
  · intro h
    rw [hopen (by rw [h]; rfl)]
    exact List.mem_singleton_self _
  · intro h
    rw [hopen h]
    decide

theorem fits_unquoteSplice (rest : List Char) : Lexeme.unquoteSplice.Fits [',', '@'] rest := by
  apply fits_of_nextMode_normal rfl (List.cons_ne_nil _ _)
  · intro d hd
    rw [List.mem_pair] at hd
    rcases hd with rfl | rfl <;> decide
  · intro hatom
    cases hatom

/-- Inside a string literal only the backslashes of a run matter. -/
theorem fits_of_mode_string {l : Lexeme} {run : List Char} (hmode : l.mode = .string)
    (hne : run ≠ []) (heven : l.nextMode = .string → Even (backslashesAtEnd run))
    (rest : List Char) : l.Fits run rest := by
  refine ⟨hne, ?_, ?_, ?_, heven⟩
  · intro hnormal
    cases hnormal.symm.trans hmode
  · intro hatom
    cases l <;> first | exact False.elim hatom | cases hmode
  · intro hopen
    rw [hopen] at hmode
    cases hmode

theorem even_text {c : Char} (hback : c ≠ '\\') (cs : List Char) :
    Even (backslashesAtEnd (c :: cs.takeWhile isPlainChar)) := by
  have hplain : ∀ d ∈ c :: cs.takeWhile isPlainChar, d ≠ '\\' := by
    rw [List.forall_mem_cons]
    refine ⟨hback, fun d hd => ?_⟩
    have hd' := List.mem_takeWhile_imp hd
    simp only [isPlainChar, Bool.and_eq_true, bne_iff_ne] at hd'
    exact hd'.1
  rw [backslashesAtEnd_eq_zero hplain]
  decide

theorem even_escape (d : Char) : Even (backslashesAtEnd ['\\', d]) := by
  by_cases hd : d = '\\'
  · rw [hd]
    decide
  · have hzero : backslashesAtEnd [d] = 0 := backslashesAtEnd_eq_zero (by simpa using hd)
    have hmem := backslashesAtEnd_append_of_mem ['\\'] (List.mem_singleton_self d) hd
    rw [List.singleton_append, hzero] at hmem
    rw [hmem]
    decide

theorem fits_of_found {mode : Mode} {cs : List Char} {l : Lexeme} {w : Nat}
    (h : scan mode cs = .found l w) :
    ∃ run rest, cs = run ++ rest ∧ run.length = w ∧ l.Fits run rest := by
  have htakes : ∀ (p : Char → Bool) (c : Char) (cs : List Char),
      c :: cs = c :: cs.takeWhile p ++ cs.dropWhile p := fun p c cs => by
    rw [List.cons_append, List.takeWhile_append_dropWhile]
  cases scans_of_scan h with
  | atom cs hc => exact ⟨_, _, htakes isAtomChar _ cs, rfl, fits_classify hc cs⟩
  | unquoteSplice cs => exact ⟨[',', '@'], cs, rfl, rfl, fits_unquoteSplice cs⟩
  | @mark c cs hlayout hsemi => exact ⟨[c], cs, rfl, rfl, fits_singleMark hlayout hsemi cs⟩
  | closeString cs =>
    exact ⟨['\x22'], cs, rfl, rfl, fits_of_mode_string rfl (List.cons_ne_nil _ _)
      (fun _ => by decide) cs⟩
  | @escape d _ cs | @badEscape d cs =>
    exact ⟨['\\', d], cs, rfl, rfl, fits_of_mode_string rfl (List.cons_ne_nil _ _)
      (fun _ => even_escape d) cs⟩
  | text cs _ hback =>
    exact ⟨_, _, htakes isPlainChar _ cs, rfl, fits_of_mode_string rfl (List.cons_ne_nil _ _)
      (fun _ => even_text hback cs) _⟩

theorem tiled_of_stop {mode : Mode} {cs : List Char} (pos : Nat) (h : scan mode cs = .stop) :
    Tiled mode pos cs [] := by
  cases scans_of_scan h with
  | nil => exact .nil mode pos
  | backslash => exact .backslash pos

theorem tiled_tokensFrom (mode : Mode) (pos : Nat) (cs : List Char) :
    Tiled mode pos cs (tokensFrom mode pos cs) := by
  induction mode, pos, cs using tokensFrom.induct with
  | case1 mode pos cs h =>
    rw [tokensFrom_stop pos h]
    exact tiled_of_stop pos h
  | case2 mode pos cs w h ih =>
    obtain ⟨rfl, run, rest, rfl, rfl, hgap⟩ := gap_of_skip h
    rw [List.drop_left] at ih
    rw [tokensFrom_skip pos h, List.drop_left]
    exact .gap hgap ih
  | case3 mode pos cs l w h ih =>
    obtain rfl := mode_of_scan h
    obtain ⟨run, rest, rfl, rfl, hfits⟩ := fits_of_found h
    rw [List.drop_left] at ih
    rw [tokensFrom_found pos h, List.drop_left]
    exact .token hfits ih

end MiniLisp
