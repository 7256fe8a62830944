import MiniLisp.Proofs.Number.Bits
import MiniLisp.Proofs.Number.Rounding

/-!
# The text of a number reads back

A printed number is a literal as a whole, and the literal stands for the number; only the sign of
zero is lost. Main statements: `literal?_text` and `unsigned?_write`.
-/

namespace MiniLisp.Number

open Binary64 Decimal

def AllDigits (cs : List Char) : Prop := ∀ c ∈ cs, c.isDigit = true

theorem allDigits_append {cs ds : List Char} (hc : AllDigits cs) (hd : AllDigits ds) :
    AllDigits (cs ++ ds) := by
  intro c h
  rcases List.mem_append.mp h with h | h
  · exact hc c h
  · exact hd c h

theorem allDigits_toDigits (n : Nat) : AllDigits (Nat.toDigits 10 n) := fun _ hc =>
  Nat.isDigit_of_mem_toDigits (by decide) (by decide) hc

theorem allDigits_zeros (n : Nat) : AllDigits (List.replicate n '0') := by
  intro c hc
  rw [(List.mem_replicate.mp hc).2]
  rfl

theorem takeWhile_digits {ds : List Char} (rest : List Char) (hd : AllDigits ds) :
    (ds ++ rest).takeWhile Char.isDigit = ds ++ rest.takeWhile Char.isDigit :=
  List.takeWhile_append_of_pos hd

theorem dropWhile_digits {ds : List Char} (rest : List Char) (hd : AllDigits ds) :
    (ds ++ rest).dropWhile Char.isDigit = rest.dropWhile Char.isDigit :=
  List.dropWhile_append_of_pos hd

theorem isEmpty_of_ne_nil {cs : List Char} (h : cs ≠ []) : cs.isEmpty = false := by
  cases cs with
  | nil => exact absurd rfl h
  | cons c cs => rfl

theorem digits?_of_allDigits {ds : List Char} (hd : AllDigits ds) (hne : ds ≠ []) :
    digits? ds = some (Nat.ofDigitChars 10 ds 0) := by
  have hall : ds.all Char.isDigit = true := List.all_eq_true.mpr hd
  have hemp := isEmpty_of_ne_nil hne
  simp only [digits?, hall, hemp, Bool.not_true, Bool.or_self, Bool.false_eq_true, ite_false]

theorem ofDigitChars_zeros_append (k : Nat) (cs : List Char) :
    Nat.ofDigitChars 10 (List.replicate k '0' ++ cs) 0 = Nat.ofDigitChars 10 cs 0 := by
  rw [Nat.ofDigitChars_append, Nat.ofDigitChars_replicate_zero, Nat.mul_zero]

theorem signedDigits?_exponentText (width : Nat) (x : Int) :
    signedDigits? (exponentText width x) = some x := by
  have hall := allDigits_append (allDigits_zeros (width - (Nat.toDigits 10 x.natAbs).length))
    (allDigits_toDigits x.natAbs)
  have hneg : x < 0 → -(x.natAbs : Int) = x := by omega
  have hpos : ¬ x < 0 → (x.natAbs : Int) = x := by omega
  have hread := digits?_of_allDigits hall
    (List.append_ne_nil_of_right_ne_nil _ Nat.toDigits_ne_nil)
  rw [ofDigitChars_zeros_append, Nat.ofDigitChars_ten_toDigits] at hread
  by_cases hx : x < 0
  · rw [exponentText, if_pos hx, List.cons_append]
    rw [signedDigits?, hread]
    exact congrArg some (hneg hx)
  · rw [exponentText, if_neg hx, List.cons_append]
    rw [signedDigits?, hread]
    exact congrArg some (hpos hx)

/-- What may follow the digits of a literal is neither a digit nor a point. -/
theorem exponent?_cases {rest : List Char} {e : Int} (h : exponent? rest = some e) :
    rest = [] ∨ ∃ cs, rest = 'e' :: cs ∨ rest = 'E' :: cs := by
  cases rest with
  | nil => exact .inl rfl
  | cons c cs =>
    by_cases hc : c = 'e' ∨ c = 'E'
    · rcases hc with rfl | rfl
      · exact .inr ⟨cs, .inl rfl⟩
      · exact .inr ⟨cs, .inr rfl⟩
    · simp only [exponent?, hc, ite_false, reduceCtorEq] at h

theorem takeWhile_exponent {rest : List Char} {e : Int} (h : exponent? rest = some e) :
    rest.takeWhile Char.isDigit = [] ∧ rest.dropWhile Char.isDigit = rest := by
  rcases exponent?_cases h with rfl | ⟨cs, rfl | rfl⟩
  · exact ⟨rfl, rfl⟩
  · exact ⟨rfl, rfl⟩
  · exact ⟨rfl, rfl⟩

theorem unsigned?_whole {ds : List Char} (rest : List Char) {e : Int} (hd : AllDigits ds)
    (hne : ds ≠ []) (he : exponent? rest = some e) :
    unsigned? (ds ++ rest) = some ⟨Nat.ofDigitChars 10 ds 0, e⟩ := by
  obtain ⟨htake, hdrop⟩ := takeWhile_exponent he
  have hemp := isEmpty_of_ne_nil hne
  unfold unsigned?
  simp only [takeWhile_digits rest hd, dropWhile_digits rest hd, htake, hdrop, List.append_nil,
    hemp]
  rcases exponent?_cases he with rfl | ⟨cs, rfl | rfl⟩
  · exact congrArg (Option.map _) he
  · exact congrArg (Option.map _) he
  · exact congrArg (Option.map _) he

theorem unsigned?_point {ds fs : List Char} (rest : List Char) {e : Int} (hd : AllDigits ds)
    (hf : AllDigits fs) (hne : fs ≠ []) (he : exponent? rest = some e) :
    unsigned? (ds ++ '.' :: (fs ++ rest))
      = some ⟨Nat.ofDigitChars 10 (ds ++ fs) 0, e - fs.length⟩ := by
  obtain ⟨htake, hdrop⟩ := takeWhile_exponent he
  have hemp := isEmpty_of_ne_nil hne
  have hstop : ('.' :: (fs ++ rest)).dropWhile Char.isDigit = '.' :: (fs ++ rest) := rfl
  have hnone : ('.' :: (fs ++ rest)).takeWhile Char.isDigit = [] := rfl
  unfold unsigned?
  simp only [takeWhile_digits _ hd, dropWhile_digits _ hd, hstop, hnone, List.append_nil,
    takeWhile_digits rest hf, dropWhile_digits rest hf, htake, hdrop, hemp]
  exact congrArg (Option.map _) he

theorem unsigned?_minus (cs : List Char) : unsigned? ('-' :: cs) = none := rfl

theorem literal?_signed {cs : List Char} {d : Decimal} (negative : Bool)
    (h : unsigned? cs = some d) :
    literal? ((if negative then ['-'] else []) ++ cs) = some ⟨negative, d⟩ := by
  cases negative with
  | true =>
    show (unsigned? cs).map _ = _
    rw [h]
    rfl
  | false =>
    show literal? cs = _
    unfold literal?
    split
    · rw [unsigned?_minus] at h
      cases h
    · rw [h]
      rfl

theorem unsigned?_positional_small (s : Nat) (first : Int) (h : first < 0) :
    unsigned? (positional (Nat.toDigits 10 s) first)
      = some ⟨s, first + 1 - (Nat.toDigits 10 s).length⟩ := by
  have hzeros := allDigits_zeros (-first - 1).toNat
  have hdigits := allDigits_append hzeros (allDigits_toDigits s)
  have hwhole : AllDigits ['0'] := allDigits_zeros 1
  have hread := unsigned?_point [] hwhole hdigits
    (List.append_ne_nil_of_right_ne_nil _ Nat.toDigits_ne_nil) rfl
  have hvalue : Nat.ofDigitChars 10 (['0'] ++ (List.replicate (-first - 1).toNat '0'
      ++ Nat.toDigits 10 s)) 0 = s := by
    rw [← List.append_assoc, ← List.replicate_one, List.replicate_append_replicate,
      ofDigitChars_zeros_append, Nat.ofDigitChars_ten_toDigits]
  rw [List.append_nil, hvalue, List.length_append, List.length_replicate] at hread
  rw [positional, if_pos h]
  refine hread.trans ?_
  congr 2
  omega

/-- All digits before the point: the last place and one more zero behind the point. -/
theorem unsigned?_positional_whole (s n : Nat) (first : Int) (h : first + 1 = n) (hpos : 0 < n)
    (hle : (Nat.toDigits 10 s).length ≤ n) :
    unsigned? (positional (Nat.toDigits 10 s) first)
      = some ⟨s * 10 ^ (n - (Nat.toDigits 10 s).length + 1), -1⟩ := by
  have hnat : first.toNat + 1 = n := by omega
  have hneg : ¬ first < 0 := by omega
  have htake : (Nat.toDigits 10 s).take n = Nat.toDigits 10 s := List.take_of_length_le hle
  have hdrop : (Nat.toDigits 10 s).drop n = [] := List.drop_of_length_le hle
  have hwhole := allDigits_append (allDigits_toDigits s)
    (allDigits_zeros (n - (Nat.toDigits 10 s).length))
  have hzero : AllDigits ['0'] := allDigits_zeros 1
  have hread := unsigned?_point [] hwhole hzero (by decide) rfl
  have hvalue : Nat.ofDigitChars 10 (Nat.toDigits 10 s
      ++ List.replicate (n - (Nat.toDigits 10 s).length) '0' ++ ['0']) 0
      = s * 10 ^ (n - (Nat.toDigits 10 s).length + 1) := by
    rw [List.append_assoc, ← List.replicate_succ', Nat.ofDigitChars_append,
      Nat.ofDigitChars_ten_toDigits, Nat.ofDigitChars_replicate_zero, Nat.mul_comm]
  rw [hvalue] at hread
  rw [positional, if_neg hneg]
  simp only [hnat, htake, hdrop, List.isEmpty_nil, ite_true]
  exact hread

theorem unsigned?_positional_point (s n : Nat) (first : Int) (h : first + 1 = n) (hpos : 0 < n)
    (hlt : n < (Nat.toDigits 10 s).length) :
    unsigned? (positional (Nat.toDigits 10 s) first)
      = some ⟨s, first + 1 - (Nat.toDigits 10 s).length⟩ := by
  have hnat : first.toNat + 1 = n := by omega
  have hneg : ¬ first < 0 := by omega
  have hall := allDigits_toDigits s
  have hne : (Nat.toDigits 10 s).drop n ≠ [] := by
    intro h0
    have := List.drop_eq_nil_iff.mp h0
    omega
  have htake : AllDigits ((Nat.toDigits 10 s).take n) :=
    fun c hc => hall c (List.mem_of_mem_take hc)
  have hdrop : AllDigits ((Nat.toDigits 10 s).drop n) :=
    fun c hc => hall c (List.mem_of_mem_drop hc)
  have hread := unsigned?_point [] htake hdrop hne rfl
  rw [List.take_append_drop, Nat.ofDigitChars_ten_toDigits, List.append_nil,
    List.length_drop] at hread
  rw [positional, if_neg hneg]
  have hpad : n - (Nat.toDigits 10 s).length = 0 := by omega
  simp only [hnat, hpad, List.replicate_zero, List.append_nil, isEmpty_of_ne_nil hne,
    Bool.false_eq_true, ite_false]
  refine hread.trans ?_
  congr 2
  omega

theorem unsigned?_scientific (width s : Nat) (first : Int) :
    unsigned? (scientific width (Nat.toDigits 10 s) first)
      = some ⟨s, first + 1 - (Nat.toDigits 10 s).length⟩ := by
  have hall := allDigits_toDigits s
  have hlen := Nat.length_toDigits_pos (b := 10) (n := s)
  have hexp : exponent? ('e' :: exponentText width first) = some first :=
    signedDigits?_exponentText width first
  have htake : AllDigits ((Nat.toDigits 10 s).take 1) :=
    fun c hc => hall c (List.mem_of_mem_take hc)
  have hdrop : AllDigits ((Nat.toDigits 10 s).drop 1) :=
    fun c hc => hall c (List.mem_of_mem_drop hc)
  by_cases h1 : (Nat.toDigits 10 s).drop 1 = []
  · have hle := List.drop_eq_nil_iff.mp h1
    have hread := unsigned?_whole _ hall Nat.toDigits_ne_nil hexp
    rw [Nat.ofDigitChars_ten_toDigits] at hread
    simp only [scientific, h1, List.isEmpty_nil, ite_true, List.append_nil,
      List.take_of_length_le hle]
    refine hread.trans ?_
    congr 2
    omega
  · have hread := unsigned?_point _ htake hdrop h1 hexp
    rw [List.take_append_drop, Nat.ofDigitChars_ten_toDigits, List.length_drop] at hread
    simp only [scientific, isEmpty_of_ne_nil h1, Bool.false_eq_true, ite_false,
      List.append_assoc, List.cons_append]
    refine hread.trans ?_
    congr 2
    omega

/-- A written decimal number reads back, as itself or as the same number with one more digit. -/
theorem unsigned?_write (d : Decimal) :
    ∃ r, unsigned? (layout.write d) = some r ∧ r.toMagnitude = d.toMagnitude := by
  obtain ⟨s, e⟩ := d
  have hlen := Nat.length_toDigits_pos (b := 10) (n := s)
  have hback : Decimal.mk s (e + (Nat.toDigits 10 s).length - 1 + 1 - (Nat.toDigits 10 s).length)
      = ⟨s, e⟩ := by
    congr 1
    omega
  by_cases hplace : layout.least ≤ e + (Nat.toDigits 10 s).length - 1
      ∧ e + (Nat.toDigits 10 s).length - 1 < layout.limit
  · -- the point is in place: before the digits, behind them, or among them
    have hwrite : layout.write ⟨s, e⟩
        = positional (Nat.toDigits 10 s) (e + (Nat.toDigits 10 s).length - 1) := if_pos hplace
    have hlimit : layout.limit = 16 := rfl
    rw [hwrite]
    by_cases hneg : e + (Nat.toDigits 10 s).length - 1 < 0
    · rw [unsigned?_positional_small s _ hneg, hback]
      exact ⟨_, rfl, rfl⟩
    · obtain ⟨n, hn⟩ : ∃ n : Nat, e + (Nat.toDigits 10 s).length - 1 + 1 = n :=
        ⟨(e + (Nat.toDigits 10 s).length).toNat, by omega⟩
      by_cases hle : (Nat.toDigits 10 s).length ≤ n
      · obtain ⟨k, hk⟩ : ∃ k : Nat, e = k := ⟨e.toNat, by omega⟩
        have hpad : n - (Nat.toDigits 10 s).length = k := by omega
        rw [unsigned?_positional_whole s n _ hn (by omega) hle, hpad, hk]
        exact ⟨_, rfl, toMagnitude_pointZero s k (by omega)⟩
      · rw [unsigned?_positional_point s n _ hn (by omega) (by omega), hback]
        exact ⟨_, rfl, rfl⟩
  · have hwrite : layout.write ⟨s, e⟩ = scientific layout.exponentWidth (Nat.toDigits 10 s)
        (e + (Nat.toDigits 10 s).length - 1) := if_neg hplace
    rw [hwrite, unsigned?_scientific, hback]
    exact ⟨_, rfl, rfl⟩

/-- The number without the sign of zero. -/
def unsignedZero (x : Float) : Float := if magnitude x = 0 then ofMagnitude false 0 else x

theorem toMagnitude_whole? (bits n : Nat) (hb : bits < infinity) (hn : n ≠ 0)
    (h : whole? bits = some n) : toMagnitude ⟨n, 0⟩ = bits := by
  unfold whole? at h
  split at h
  · rename_i hwhole
    have hunits : n * unitsPerOne = units bits * 1 := by
      rw [← Option.some.inj h, Nat.mul_one]
      exact Nat.div_mul_cancel (Nat.dvd_of_mod_eq_zero hwhole.1)
    rw [toMagnitude_whole n hn, nearest, hunits]
    exact nearestUnits_units bits 1 Nat.one_pos hb
  · cases h

theorem whole?_zero : whole? 0 = some 0 := by
  have hunits : units 0 = 0 := by rfl
  simp only [whole?, hunits, Nat.zero_mod, Nat.zero_div, wholeLimit, true_and]
  rfl

theorem eq_zero_of_whole? (bits : Nat) (h : whole? bits = some 0) : bits = 0 := by
  unfold whole? at h
  split at h
  · rename_i hwhole
    have hunits : units bits = 0 := by
      rw [← Nat.div_mul_cancel (Nat.dvd_of_mod_eq_zero hwhole.1), Option.some.inj h, Nat.zero_mul]
    rcases Nat.mul_eq_zero.mp hunits with hs | hp
    · have := significand_pos bits
      omega
    · exact absurd hp (Nat.ne_of_gt (Nat.two_pow_pos _))
  · cases h

/-- The text of a number is a literal for it. -/
theorem literal?_text (x : Float) (h : x.isNaN = false) :
    ∃ l, literal? (text x) = some l ∧ l.toFloat = unsignedZero x := by
  have hle := (isNaN_eq_false_iff x).mp h
  have hsame : ∀ d, d.toMagnitude = magnitude x →
      (Literal.toFloat ⟨isNegative x, d⟩) = x := by
    intro d hd
    rw [Literal.toFloat, hd, ofMagnitude_magnitude]
  unfold text
  simp only
  rw [if_neg (by omega)]
  by_cases hinf : magnitude x = infinity
  · rw [if_pos hinf]
    have hread : unsigned? ['1', 'e', '9', '9', '9'] = some ⟨1, 999⟩ := by decide
    have hne : magnitude x ≠ 0 := by
      rw [hinf]
      decide
    refine ⟨_, literal?_signed (isNegative x) hread, ?_⟩
    rw [unsignedZero, if_neg hne]
    exact hsame _ hinf.symm
  · rw [if_neg hinf]
    have hlt : magnitude x < infinity := by omega
    by_cases h0 : magnitude x = 0
    · have hread : literal? ['0'] = some ⟨false, ⟨0, 0⟩⟩ := by decide
      rw [unsignedZero, if_pos h0, h0, whole?_zero]
      exact ⟨_, hread, rfl⟩
    · rw [unsignedZero, if_neg h0]
      generalize hw : whole? (magnitude x) = w
      rcases w with _ | n
      · obtain ⟨r, hr, hmag⟩ := unsigned?_write (shortest (magnitude x))
        have hshort := toMagnitude_shortest (magnitude x) (by omega) hlt
        exact ⟨_, literal?_signed (isNegative x) hr, hsame r (hmag.trans hshort)⟩
      · have hn : n ≠ 0 := fun hn => h0 (eq_zero_of_whole? _ (hn ▸ hw))
        have hread := unsigned?_whole [] (allDigits_toDigits n) Nat.toDigits_ne_nil rfl
        rw [List.append_nil, Nat.ofDigitChars_ten_toDigits] at hread
        have hmag := toMagnitude_whole? (magnitude x) n hlt hn hw
        obtain ⟨k, rfl⟩ := Nat.exists_eq_succ_of_ne_zero hn
        exact ⟨_, literal?_signed (isNegative x) hread, hsame _ hmag⟩

theorem isNaN_unsignedZero (x : Float) : (unsignedZero x).isNaN = x.isNaN := by
  unfold unsignedZero
  split
  · rename_i h0
    have hx : x.isNaN = false := by
      rw [isNaN_eq_false_iff, h0]
      exact Nat.zero_le infinity
    rw [hx, isNaN_eq_false_iff, magnitude_ofMagnitude false 0 (Nat.zero_le infinity)]
    exact Nat.zero_le infinity
  · rfl

theorem beq_unsignedZero (x : Float) (h : x.isNaN = false) : (x == unsignedZero x) = true := by
  unfold unsignedZero
  split
  · rename_i h0
    exact beq_zero x h0
  · exact beq_self x h

/-- Numbers are equal if they are defined and differ in nothing but the sign of zero. -/
theorem beq_iff {x y : Float} :
    (x == y) = true ↔ x.isNaN = false ∧ unsignedZero x = unsignedZero y := by
  have hzero : magnitude (ofMagnitude false 0) = 0 :=
    magnitude_ofMagnitude false 0 (Nat.zero_le infinity)
  constructor
  · intro h
    obtain ⟨hx, _, hxy⟩ := Float.beq_iff_ne_nan_and_eq.mp h
    refine ⟨by rw [Float.isNaN_eq_decide_eq_nan, decide_eq_false hx], ?_⟩
    rcases hxy with rfl | ⟨rfl, rfl⟩ | ⟨rfl, rfl⟩
    · rfl
    · rfl
    · rfl
  · rintro ⟨hx, hxy⟩
    by_cases hx0 : magnitude x = 0
    · by_cases hy0 : magnitude y = 0
      · rw [← ofMagnitude_magnitude x, ← ofMagnitude_magnitude y, hx0, hy0]
        cases isNegative x <;> cases isNegative y <;> rfl
      · rw [unsignedZero, if_pos hx0, unsignedZero, if_neg hy0] at hxy
        exact absurd (hxy ▸ hzero) hy0
    · by_cases hy0 : magnitude y = 0
      · rw [unsignedZero, if_neg hx0, unsignedZero, if_pos hy0] at hxy
        exact absurd (hxy ▸ hzero) hx0
      · rw [unsignedZero, if_neg hx0, unsignedZero, if_neg hy0] at hxy
        rw [← hxy]
        exact beq_self x hx

theorem text_of_zero {x : Float} (h : magnitude x = 0) : text x = ['0'] := by
  have hne : ¬ 0 = infinity := by decide
  simp only [text, h, if_neg (Nat.not_lt_zero infinity), if_neg hne, whole?_zero]

theorem text_unsignedZero (x : Float) : text (unsignedZero x) = text x := by
  unfold unsignedZero
  split
  · rename_i h
    rw [text_of_zero h, text_of_zero (magnitude_ofMagnitude false 0 (Nat.zero_le infinity))]
  · rfl

theorem isNaN_toFloat (l : Literal) : l.toFloat.isNaN = false := by
  have hle := toMagnitude_le_infinity l.magnitude
  rw [isNaN_eq_false_iff, Literal.toFloat, magnitude_ofMagnitude _ _ hle]
  exact hle

def isNumberChar (c : Char) : Bool :=
  c.isDigit || c == '-' || c == '+' || c == '.' || c == 'e' || c == 'E'

theorem isNumberChar_of_isDigit {c : Char} (h : c.isDigit = true) : isNumberChar c = true := by
  simp only [isNumberChar, h, Bool.true_or]

theorem numberChars_takeWhile (cs : List Char) :
    ∀ c ∈ cs.takeWhile Char.isDigit, isNumberChar c = true := fun _ hc =>
  isNumberChar_of_isDigit (List.all_eq_true.mp List.all_takeWhile _ hc)

theorem numberChars_of_digits? {cs : List Char} {n : Nat} (h : digits? cs = some n) :
    ∀ c ∈ cs, isNumberChar c = true := by
  intro c hc
  unfold digits? at h
  split at h
  · cases h
  · rename_i hall
    simp only [Bool.or_eq_true, Bool.not_eq_true', not_or, Bool.not_eq_false] at hall
    exact isNumberChar_of_isDigit (List.all_eq_true.mp hall.2 c hc)

theorem numberChars_cons {c : Char} {cs : List Char} (hc : isNumberChar c = true)
    (hcs : ∀ d ∈ cs, isNumberChar d = true) : ∀ d ∈ c :: cs, isNumberChar d = true := by
  intro d hd
  rcases List.mem_cons.mp hd with rfl | hd
  · exact hc
  · exact hcs d hd

theorem numberChars_of_signedDigits? {cs : List Char} {e : Int} (h : signedDigits? cs = some e) :
    ∀ c ∈ cs, isNumberChar c = true := by
  unfold signedDigits? at h
  split at h
  all_goals
    obtain ⟨_, hlift, _⟩ := Option.map_eq_some_iff.mp h
    obtain ⟨n, hn, _⟩ := Option.bind_eq_some_iff.mp hlift
  · exact numberChars_cons rfl (numberChars_of_digits? hn)
  · exact numberChars_cons rfl (numberChars_of_digits? hn)
  · exact numberChars_of_digits? hn

theorem numberChars_of_exponent? {cs : List Char} {e : Int} (h : exponent? cs = some e) :
    ∀ c ∈ cs, isNumberChar c = true := by
  rcases exponent?_cases h with rfl | ⟨ds, rfl | rfl⟩
  · exact fun c hc => absurd hc List.not_mem_nil
  · exact numberChars_cons rfl (numberChars_of_signedDigits? h)
  · exact numberChars_cons rfl (numberChars_of_signedDigits? h)

theorem numberChars_of_unsigned? {cs : List Char} {d : Decimal} (h : unsigned? cs = some d) :
    ∀ c ∈ cs, isNumberChar c = true := by
  have hrest : ∀ c ∈ cs.dropWhile Char.isDigit, isNumberChar c = true := by
    unfold unsigned? at h
    split at h
    · rename_i more hmore
      rw [hmore]
      simp only at h
      split at h
      · cases h
      · obtain ⟨e, he, _⟩ := Option.map_eq_some_iff.mp h
        refine numberChars_cons rfl fun c hc => ?_
        rw [← List.takeWhile_append_dropWhile (p := Char.isDigit) (l := more)] at hc
        rcases List.mem_append.mp hc with hc | hc
        · exact numberChars_takeWhile more c hc
        · exact numberChars_of_exponent? he c hc
    · simp only at h
      split at h
      · cases h
      · obtain ⟨e, he, _⟩ := Option.map_eq_some_iff.mp h
        exact numberChars_of_exponent? he
  intro c hc
  rw [← List.takeWhile_append_dropWhile (p := Char.isDigit) (l := cs)] at hc
  rcases List.mem_append.mp hc with hc | hc
  · exact numberChars_takeWhile cs c hc
  · exact hrest c hc

theorem numberChars_of_literal? {cs : List Char} {l : Literal} (h : literal? cs = some l) :
    ∀ c ∈ cs, isNumberChar c = true := by
  unfold literal? at h
  split at h
  all_goals obtain ⟨d, hd, _⟩ := Option.map_eq_some_iff.mp h
  · exact numberChars_cons rfl (numberChars_of_unsigned? hd)
  · exact numberChars_of_unsigned? hd

theorem literal?_nil : literal? [] = none := rfl

theorem text_ne_nil (x : Float) : text x ≠ [] := by
  cases hx : x.isNaN with
  | true =>
    rw [isNaN_iff] at hx
    simp only [text, hx, ite_true]
    exact List.cons_ne_nil _ _
  | false =>
    obtain ⟨l, hl, _⟩ := literal?_text x hx
    intro hnil
    rw [hnil, literal?_nil] at hl
    cases hl

end MiniLisp.Number
