import MiniLisp.Proofs.Number.Text
import MiniLisp.Token.Lexer

/-!
# What a text is cut into

What one step of the lexer finds, and the texts that are one token: a run of atom characters that
nothing continues, and the name of a symbol. Main statements: `scans_of_scan`, which says once what
a step can do, `scan_atom`, `isSymbolName_iff` and `sound_tokensFrom`, which says that no number
found is undefined and that every symbol found has a name that would be found again.
-/

namespace MiniLisp

/-- What a step of the lexer finds at the beginning of a text, with one rule for each kind of
piece. -/
inductive Scans : Mode → List Char → Scan → Prop
  | nil (mode : Mode) : Scans mode [] .stop
  | layout {c : Char} (cs : List Char) (hc : isLayout c = true) : Scans .normal (c :: cs) (.skip 1)
  | comment (cs : List Char) :
      Scans .normal (';' :: cs) (.skip (1 + (cs.takeWhile isCommentChar).length))
  | atom {c : Char} (cs : List Char) (hc : isAtomChar c = true) :
      Scans .normal (c :: cs) (.found (classify (c :: cs.takeWhile isAtomChar))
        (c :: cs.takeWhile isAtomChar).length)
  | unquoteSplice (cs : List Char) : Scans .normal (',' :: '@' :: cs) (.found .unquoteSplice 2)
  | mark {c : Char} (cs : List Char) (hlayout : isLayout c = false) (hsemi : c ≠ ';')
      (hatom : isAtomChar c = false) : Scans .normal (c :: cs) (.found (singleMark c) 1)
  | backslash : Scans .string ['\\'] .stop
  | closeString (cs : List Char) : Scans .string ('\x22' :: cs) (.found .closeString 1)
  | escape {d e : Char} (cs : List Char) (hd : Text.unescape? d = some e) :
      Scans .string ('\\' :: d :: cs) (.found (.text [e]) 2)
  | badEscape {d : Char} (cs : List Char) (hd : Text.unescape? d = none) :
      Scans .string ('\\' :: d :: cs) (.found (.badEscape d) 2)
  | text {c : Char} (cs : List Char) (hquote : c ≠ '\x22') (hback : c ≠ '\\') :
      Scans .string (c :: cs) (.found (.text (c :: cs.takeWhile isPlainChar))
        (c :: cs.takeWhile isPlainChar).length)

theorem scans_scanNormal (cs : List Char) : Scans .normal cs (scanNormal cs) := by
  cases cs with
  | nil => exact .nil .normal
  | cons c cs =>
    simp only [scanNormal]
    split
    · rename_i hlayout
      exact .layout cs hlayout
    · rename_i hlayout
      split
      · rename_i hsemi
        rw [hsemi]
        exact .comment cs
      · rename_i hsemi
        split
        · rename_i hatom
          exact .atom cs hatom
        · rename_i hatom
          split
          · rename_i hsplice
            obtain ⟨rfl, hat⟩ := hsplice
            obtain ⟨ds, rfl⟩ := List.head?_eq_some_iff.mp hat
            exact .unquoteSplice ds
          · exact .mark cs (Bool.eq_false_iff.mpr hlayout) hsemi (Bool.eq_false_iff.mpr hatom)

theorem scans_scanString (cs : List Char) : Scans .string cs (scanString cs) := by
  cases cs with
  | nil => exact .nil .string
  | cons c cs =>
    simp only [scanString]
    split
    · rename_i hquote
      rw [hquote]
      exact .closeString cs
    · rename_i hquote
      split
      · rename_i hback
        rw [hback]
        cases cs with
        | nil => exact .backslash
        | cons d ds =>
          simp only
          split
          · rename_i hd
            exact .escape ds hd
          · rename_i hd
            exact .badEscape ds hd
      · rename_i hback
        exact .text cs hquote hback

theorem scans_of_scan {mode : Mode} {cs : List Char} {s : Scan} (h : scan mode cs = s) :
    Scans mode cs s := by
  rw [← h]
  cases mode with
  | normal => exact scans_scanNormal cs
  | string => exact scans_scanString cs

theorem tokensFrom_stop {mode : Mode} {cs : List Char} (pos : Nat) (h : scan mode cs = .stop) :
    tokensFrom mode pos cs = [] := by
  rw [tokensFrom]
  split
  · rfl
  · rename_i hs
    rw [h] at hs
    cases hs
  · rename_i hs
    rw [h] at hs
    cases hs

theorem tokensFrom_skip {mode : Mode} {cs : List Char} {w : Nat} (pos : Nat)
    (h : scan mode cs = .skip w) :
    tokensFrom mode pos cs = tokensFrom mode (pos + w) (cs.drop w) := by
  rw [tokensFrom]
  split
  · rename_i hs
    rw [h] at hs
    cases hs
  · rename_i hs
    rw [h] at hs
    cases hs
    rfl
  · rename_i hs
    rw [h] at hs
    cases hs

theorem tokensFrom_found {mode : Mode} {cs : List Char} {l : Lexeme} {w : Nat} (pos : Nat)
    (h : scan mode cs = .found l w) :
    tokensFrom mode pos cs
      = ⟨l, pos, pos + w⟩ :: tokensFrom l.nextMode (pos + w) (cs.drop w) := by
  rw [tokensFrom]
  split
  · rename_i hs
    rw [h] at hs
    cases hs
  · rename_i hs
    rw [h] at hs
    cases hs
  · rename_i hs
    rw [h] at hs
    cases hs
    rfl

theorem tokensFrom_nil (mode : Mode) (pos : Nat) : tokensFrom mode pos [] = [] := by
  cases mode with
  | normal => exact tokensFrom_stop pos rfl
  | string => exact tokensFrom_stop pos rfl

theorem tokensFrom_blank (pos : Nat) (rest : List Char) :
    tokensFrom .normal pos (' ' :: rest) = tokensFrom .normal (pos + 1) rest :=
  tokensFrom_skip pos rfl

theorem tokensFrom_open (pos : Nat) (rest : List Char) :
    tokensFrom .normal pos ('(' :: rest)
      = ⟨.openParen, pos, pos + 1⟩ :: tokensFrom .normal (pos + 1) rest :=
  tokensFrom_found pos rfl

theorem tokensFrom_close (pos : Nat) (rest : List Char) :
    tokensFrom .normal pos (')' :: rest)
      = ⟨.closeParen, pos, pos + 1⟩ :: tokensFrom .normal (pos + 1) rest :=
  tokensFrom_found pos rfl

theorem tokensFrom_openString (pos : Nat) (rest : List Char) :
    tokensFrom .normal pos ('\x22' :: rest)
      = ⟨.openString, pos, pos + 1⟩ :: tokensFrom .string (pos + 1) rest :=
  tokensFrom_found pos rfl

theorem tokensFrom_closeString (pos : Nat) (rest : List Char) :
    tokensFrom .string pos ('\x22' :: rest)
      = ⟨.closeString, pos, pos + 1⟩ :: tokensFrom .normal (pos + 1) rest :=
  tokensFrom_found pos rfl

/-- Nothing at the start of the text continues an atom before it. -/
def Separated (rest : List Char) : Prop := ∀ c ∈ rest.head?, isAtomChar c = false

theorem separated_nil : Separated [] := fun _ hc => by cases hc

theorem separated_cons {c : Char} {rest : List Char} (h : isAtomChar c = false) :
    Separated (c :: rest) := by
  intro d hd
  rw [List.head?_cons, Option.mem_some_iff] at hd
  exact hd ▸ h

theorem takeWhile_separated {rest : List Char} (h : Separated rest) :
    rest.takeWhile isAtomChar = [] := by
  cases rest with
  | nil => rfl
  | cons c cs =>
    have hc : isAtomChar c = false := h c rfl
    rw [List.takeWhile_cons_of_neg (by rw [hc]; decide)]

theorem isLayout_of_isAtomChar {c : Char} (h : isAtomChar c = true) : isLayout c = false := by
  cases hl : isLayout c with
  | false => rfl
  | true =>
    simp only [isLayout, Bool.or_eq_true, beq_iff_eq] at hl
    rcases hl with (((rfl | rfl) | rfl) | rfl) | rfl <;> exact absurd h (by decide)

theorem ne_of_isAtomChar {c d : Char} (h : isAtomChar c = true) (hd : isAtomChar d = false) :
    c ≠ d := by
  rintro rfl
  rw [h] at hd
  cases hd

/-- A run of atom characters that nothing continues is one token. -/
theorem scan_atom {run rest : List Char} (hne : run ≠ []) (hall : ∀ c ∈ run, isAtomChar c = true)
    (hrest : Separated rest) :
    scan .normal (run ++ rest) = .found (classify run) run.length := by
  cases run with
  | nil => exact absurd rfl hne
  | cons c cs =>
    have hc := hall c List.mem_cons_self
    have hcs : (cs ++ rest).takeWhile isAtomChar = cs := by
      rw [List.takeWhile_append_of_pos fun d hd => hall d (List.mem_cons_of_mem c hd),
        takeWhile_separated hrest, List.append_nil]
    have hl := isLayout_of_isAtomChar hc
    have hsemi : c ≠ ';' := ne_of_isAtomChar hc (by decide)
    show scanNormal (c :: (cs ++ rest)) = _
    simp only [scanNormal, hl, hsemi, hc, hcs, Bool.false_eq_true, ite_false, ite_true]

theorem nextMode_classify (run : List Char) : (classify run).nextMode = .normal := by
  unfold classify
  split
  · rfl
  · split
    · rfl
    · split <;> rfl

theorem tokensFrom_atom {run rest : List Char} (pos : Nat) (hne : run ≠ [])
    (hall : ∀ c ∈ run, isAtomChar c = true) (hrest : Separated rest) :
    tokensFrom .normal pos (run ++ rest)
      = ⟨classify run, pos, pos + run.length⟩ :: tokensFrom .normal (pos + run.length) rest := by
  rw [tokensFrom_found pos (scan_atom hne hall hrest), nextMode_classify, List.drop_left]

theorem isAtomChar_of_isDigit {c : Char} (h : c.isDigit = true) : isAtomChar c = true := by
  have hrange : 48 ≤ c.toNat ∧ c.toNat ≤ 57 := by
    simp only [Char.isDigit, Bool.and_eq_true, decide_eq_true_eq] at h
    exact ⟨UInt32.le_iff_toNat_le.mp h.1, UInt32.le_iff_toNat_le.mp h.2⟩
  have hblank : Text.isBlank c = false := by
    cases hb : Text.isBlank c with
    | false => rfl
    | true =>
      obtain ⟨r, hr, hlow, hhigh⟩ := (Text.Ranges.contains_iff Text.blankRanges c).mp hb
      simp only [Text.blankRanges, List.mem_cons, List.not_mem_nil, or_false] at hr
      rcases hr with rfl | rfl | rfl | rfl | rfl | rfl | rfl | rfl | rfl | rfl <;> omega
  have hdelim : isDelimiter c = false := by
    cases hd : isDelimiter c with
    | false => rfl
    | true =>
      simp only [isDelimiter, Bool.or_eq_true, beq_iff_eq] at hd
      rcases hd with (((((rfl | rfl) | rfl) | rfl) | rfl) | rfl) | rfl <;>
        exact absurd h (by decide)
  have hdel : c ≠ '\x7f' := by
    rintro rfl
    exact absurd h (by decide)
  have hshown : 0x20 ≤ c.toNat := by omega
  simp only [isAtomChar, hblank, hdelim, hshown, hdel, Bool.not_false, decide_true, bne_iff_ne,
    ne_eq, not_false_eq_true, Bool.and_self, Bool.true_and]

theorem isAtomChar_of_isNumberChar {c : Char} (h : Number.isNumberChar c = true) :
    isAtomChar c = true := by
  simp only [Number.isNumberChar, Bool.or_eq_true, beq_iff_eq] at h
  rcases h with ((((h | rfl) | rfl) | rfl) | rfl) | rfl
  · exact isAtomChar_of_isDigit h
  all_goals decide

theorem classify_literal {run : List Char} {l : Number.Literal}
    (h : Number.literal? run = some l) : classify run = .number l.toFloat := by
  have hchars := Number.numberChars_of_literal? h
  have hhash : ∀ cs, run ≠ '#' :: cs := by
    rintro cs rfl
    exact absurd (hchars '#' List.mem_cons_self) (by decide)
  unfold classify
  rw [if_neg (hhash _), if_neg (hhash _), h]

/-- The name is read as one symbol. -/
def IsSymbolName (name : String) : Prop :=
  tokens name = [⟨.symbol name, 0, name.toList.length⟩]

def IsSymbolRun (run : List Char) : Prop :=
  run ≠ [] ∧ (∀ c ∈ run, isAtomChar c = true) ∧ classify run = .symbol (String.ofList run)

theorem start_tokensFrom (mode : Mode) (pos : Nat) (cs : List Char) :
    ∀ t ∈ tokensFrom mode pos cs, pos ≤ t.span.start := by
  induction mode, pos, cs using tokensFrom.induct with
  | case1 mode pos cs h =>
    rw [tokensFrom_stop pos h]
    exact fun t ht => absurd ht List.not_mem_nil
  | case2 mode pos cs w h ih =>
    rw [tokensFrom_skip pos h]
    exact fun t ht => Nat.le_trans (Nat.le_add_right pos w) (ih t ht)
  | case3 mode pos cs l w h ih =>
    rw [tokensFrom_found pos h]
    intro t ht
    rcases List.mem_cons.mp ht with rfl | ht
    · exact Nat.le_refl pos
    · exact Nat.le_trans (Nat.le_add_right pos w) (ih t ht)

theorem scan_of_isSymbolName {name : String} (h : IsSymbolName name) :
    scan .normal name.toList = .found (.symbol name) name.toList.length := by
  unfold IsSymbolName tokens at h
  generalize hs : scan .normal name.toList = s
  cases s with
  | stop =>
    rw [tokensFrom_stop 0 hs] at h
    cases h
  | skip w =>
    rw [tokensFrom_skip 0 hs] at h
    have hstart := start_tokensFrom .normal (0 + w) (name.toList.drop w)
    rw [h] at hstart
    have hle : 0 + w ≤ 0 := hstart _ List.mem_cons_self
    have hpos := (width_scan .normal name.toList (by rw [hs]; exact Scan.noConfusion)).1
    rw [hs] at hpos
    exact absurd hpos (by simp only [Scan.width]; omega)
  | found l w =>
    rw [tokensFrom_found 0 hs] at h
    have htoken := (List.cons.inj h).1
    injection htoken with hl hspan
    injection hspan with _ hw
    rw [hl, ← hw, Nat.zero_add]

theorem singleMark_ne_symbol (c : Char) (name : String) : singleMark c ≠ .symbol name := by
  unfold singleMark
  repeat' split
  all_goals exact Lexeme.noConfusion

theorem name_of_classify {run : List Char} {name : String} (h : classify run = .symbol name) :
    name.toList = run := by
  unfold classify at h
  split at h
  · cases h
  · split at h
    · cases h
    · split at h
      · cases h
      · injection h with h
        rw [← h, String.toList_ofList]

theorem isSymbolRun_of_classify {c : Char} (hc : isAtomChar c = true) {cs : List Char}
    {name : String} (h : classify (c :: cs.takeWhile isAtomChar) = .symbol name) :
    IsSymbolRun name.toList := by
  rw [name_of_classify h]
  refine ⟨List.cons_ne_nil _ _, ?_, ?_⟩
  · rw [List.forall_mem_cons]
    exact ⟨hc, fun d hd => List.mem_takeWhile_imp hd⟩
  · rw [h, ← name_of_classify h, String.ofList_toList]

theorem isSymbolRun_of_scan {cs : List Char} {name : String} {w : Nat}
    (h : scan .normal cs = .found (.symbol name) w) : IsSymbolRun name.toList := by
  generalize hl : Lexeme.symbol name = l at h
  cases scans_of_scan h with
  | atom cs hc => exact isSymbolRun_of_classify hc hl.symm
  | mark => exact absurd hl.symm (singleMark_ne_symbol _ name)
  | _ => cases hl

theorem tokens_of_isSymbolRun {run : List Char} (h : IsSymbolRun run) :
    IsSymbolName (String.ofList run) := by
  obtain ⟨hne, hall, hclass⟩ := h
  have hone := tokensFrom_atom 0 hne hall separated_nil
  rw [List.append_nil, tokensFrom_nil, Nat.zero_add, hclass] at hone
  rw [IsSymbolName, tokens, String.toList_ofList, hone]

/-- A name is read as one symbol exactly if it is a run of atom characters, and neither a boolean
nor a number. -/
theorem isSymbolName_iff (name : String) : IsSymbolName name ↔ IsSymbolRun name.toList := by
  constructor
  · intro h
    exact isSymbolRun_of_scan (scan_of_isSymbolName h)
  · intro h
    have hname := tokens_of_isSymbolRun h
    rwa [String.ofList_toList] at hname

/-- A symbol found has a name that would be found again, and a number found is one. -/
def Lexeme.Sound : Lexeme → Prop
  | .symbol name => IsSymbolName name
  | .number x => x.isNaN = false
  | _ => True

theorem sound_classify {c : Char} (hc : isAtomChar c = true) (cs : List Char) :
    (classify (c :: cs.takeWhile isAtomChar)).Sound := by
  generalize hl : classify (c :: cs.takeWhile isAtomChar) = l
  cases l with
  | symbol name => exact (isSymbolName_iff name).mpr (isSymbolRun_of_classify hc hl)
  | number x =>
    unfold classify at hl
    split at hl
    · cases hl
    · split at hl
      · cases hl
      · split at hl
        · injection hl with hx
          rw [← hx]
          exact Number.isNaN_toFloat _
        · cases hl
  | _ => trivial

theorem sound_singleMark (c : Char) : (singleMark c).Sound := by
  unfold singleMark
  repeat' split
  all_goals trivial

theorem sound_scan {mode : Mode} {cs : List Char} {l : Lexeme} {w : Nat}
    (h : scan mode cs = .found l w) : l.Sound := by
  cases scans_of_scan h with
  | atom cs hc => exact sound_classify hc cs
  | mark => exact sound_singleMark _
  | _ => trivial

theorem sound_tokensFrom (mode : Mode) (pos : Nat) (cs : List Char) :
    ∀ t ∈ tokensFrom mode pos cs, t.lexeme.Sound := by
  induction mode, pos, cs using tokensFrom.induct with
  | case1 mode pos cs h =>
    rw [tokensFrom_stop pos h]
    exact fun t ht => absurd ht List.not_mem_nil
  | case2 mode pos cs w h ih =>
    rw [tokensFrom_skip pos h]
    exact ih
  | case3 mode pos cs l w h ih =>
    rw [tokensFrom_found pos h]
    intro t ht
    rcases List.mem_cons.mp ht with rfl | ht
    · exact sound_scan h
    · exact ih t ht

end MiniLisp
