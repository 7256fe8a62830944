import MiniLisp.Proofs.Reader.Tiling

/-!
# Layout between tokens

Wherever a token begins or ends outside string literals, layout and closed comments may be put in:
they are skipped, what stands before them is cut as it was, and what stands behind them is cut as
it was but found further on.
Main statement: `layout_keeps_meaning`.
-/

namespace MiniLisp

/-- Layout and comments, each of which is closed by a line feed. -/
inductive Filler : List Char → Prop
  | nil : Filler []
  | layout {c : Char} {w : List Char} (hc : isLayout c = true) (h : Filler w) : Filler (c :: w)
  | comment {cs w : List Char} (hcs : ∀ c ∈ cs, c ≠ '\n') (h : Filler w) :
      Filler (';' :: cs ++ '\n' :: w)

theorem scan_layout {c : Char} (hc : isLayout c = true) (rest : List Char) :
    scan .normal (c :: rest) = .skip 1 := if_pos hc

theorem scan_comment {cs : List Char} (hcs : ∀ c ∈ cs, c ≠ '\n') (rest : List Char) :
    scan .normal (';' :: cs ++ '\n' :: rest) = .skip (';' :: cs).length := by
  have hrun : (cs ++ '\n' :: rest).takeWhile isCommentChar = cs := by
    rw [takeWhile_append_cons rfl, List.takeWhile_eq_self_iff]
    exact fun c hc => bne_iff_ne.mpr (hcs c hc)
  change Scan.skip (1 + ((cs ++ '\n' :: rest).takeWhile isCommentChar).length) = _
  rw [hrun, List.length_cons, Nat.add_comm]

theorem Filler.tokensFrom {w : List Char} (hw : Filler w) (pos : Nat) (rest : List Char) :
    tokensFrom .normal pos (w ++ rest) = tokensFrom .normal (w.length + pos) rest := by
  induction hw generalizing pos with
  | nil => rw [List.nil_append, List.length_nil, Nat.zero_add]
  | @layout c w hc _ ih =>
    rw [List.cons_append, tokensFrom_skip pos (scan_layout hc _), List.drop_succ_cons,
      List.drop_zero, ih, List.length_cons]
    congr 1
    omega
  | @comment cs w hcs _ ih =>
    have hbreak : scan .normal ('\n' :: (w ++ rest)) = .skip 1 := scan_layout rfl _
    have hsplit : ';' :: cs ++ '\n' :: w ++ rest = ';' :: cs ++ '\n' :: (w ++ rest) :=
      List.append_assoc _ _ _
    rw [hsplit, tokensFrom_skip pos (scan_comment hcs _), List.drop_left,
      tokensFrom_skip _ hbreak, List.drop_succ_cons, List.drop_zero, ih]
    simp only [List.length_append, List.length_cons]
    congr 1
    omega

/-- A filler ends the atom in front of it, unless it is empty. -/
theorem Filler.separated {w : List Char} (hw : Filler w) (rest : List Char) :
    Separated (w ++ rest) ∨ w ++ rest = rest := by
  cases hw with
  | nil => exact .inr rfl
  | @layout c w hc _ =>
    refine .inl (separated_cons (Bool.eq_false_iff.mpr fun hatom => ?_))
    rw [isLayout_of_isAtomChar hatom] at hc
    cases hc
  | comment _ _ => exact .inl (separated_cons (by decide))

section

variable {p : Char → Bool} {c : Char} {cs x y : List Char} {l : Lexeme} {w : Nat}

theorem takeWhile_append_congr
    (h : (cs.takeWhile p).length = cs.length → x.takeWhile p = y.takeWhile p) :
    (cs ++ x).takeWhile p = (cs ++ y).takeWhile p := by
  rw [List.takeWhile_append, List.takeWhile_append]
  split
  · rename_i hall
    rw [h hall]
  · rfl

/-- A run that does not leave the first part of a text ends with it, if it covers it. -/
theorem takeWhile_eq_nil_of_length_le (hle : ((cs ++ x).takeWhile p).length ≤ cs.length)
    (hall : (cs.takeWhile p).length = cs.length) : x.takeWhile p = [] := by
  rw [List.takeWhile_append, if_pos hall, List.length_append] at hle
  exact List.eq_nil_of_length_eq_zero (by omega)

/-- A token that ends before the cut or at it is found whatever separate text is behind the cut. -/
theorem scanNormal_cut (h : scanNormal (c :: cs ++ x) = .found l w) (hw : w ≤ (c :: cs).length)
    (hy : Separated y) : scanNormal (c :: cs ++ y) = .found l w := by
  simp only [scanNormal, List.cons_append, List.length_cons] at h hw ⊢
  split at h
  · cases h
  · rename_i hlayout
    rw [if_neg hlayout]
    split at h
    · cases h
    · rename_i hsemi
      rw [if_neg hsemi]
      split at h
      · rename_i hatom
        cases h
        have hle := Nat.le_of_succ_le_succ hw
        have hrun : (cs ++ y).takeWhile isAtomChar = (cs ++ x).takeWhile isAtomChar := by
          refine takeWhile_append_congr fun hall => ?_
          rw [takeWhile_separated hy, takeWhile_eq_nil_of_length_le hle hall]
        rw [if_pos hatom, hrun]
      · rename_i hatom
        rw [if_neg hatom]
        cases cs with
        | cons d ds => exact h
        | nil =>
          -- the mark is the last character before the cut, and no sign behind it belongs to it
          have hat : y.head? ≠ some '@' := fun hat => absurd (hy '@' hat) (by decide)
          rw [List.nil_append, if_neg fun hsplice => hat hsplice.2]
          split at h
          · cases h
            exact absurd hw (by decide)
          · exact h

theorem scanString_cut (h : scanString (c :: cs ++ x) = .found l w) (hw : w ≤ (c :: cs).length)
    (hends : w = (c :: cs).length → l.nextMode = .normal) :
    scanString (c :: cs ++ y) = .found l w := by
  simp only [scanString, List.cons_append, List.length_cons] at h hw hends ⊢
  split at h
  · rename_i hquote
    rw [if_pos hquote]
    exact h
  · rename_i hquote
    rw [if_neg hquote]
    split at h
    · rename_i hback
      rw [if_pos hback]
      cases cs with
      | cons d ds => exact h
      | nil =>
        cases x with
        | nil => cases h
        | cons d ds =>
          simp only [List.nil_append] at h
          split at h <;> cases h <;> exact absurd hw (by decide)
    · rename_i hback
      rw [if_neg hback]
      cases h
      have hrun : (cs ++ y).takeWhile isPlainChar = (cs ++ x).takeWhile isPlainChar := by
        refine takeWhile_append_congr fun hall => ?_
        -- a run of plain characters up to the cut would leave the lexer inside the literal there
        have hnil := takeWhile_eq_nil_of_length_le (Nat.le_of_succ_le_succ hw) hall
        rw [List.takeWhile_append, if_pos hall, hnil, List.append_nil] at hends
        cases hends rfl
      rw [hrun]

theorem scan_cut {mode : Mode} (h : scan mode (c :: cs ++ x) = .found l w)
    (hw : w ≤ (c :: cs).length) (hends : w = (c :: cs).length → l.nextMode = .normal)
    (hy : Separated y ∨ y = x) : scan mode (c :: cs ++ y) = .found l w := by
  rcases hy with hy | rfl
  · cases mode with
    | normal => exact scanNormal_cut h hw hy
    | string => exact scanString_cut h hw hends
  · exact h

/-- What is skipped before the cut is skipped whatever is behind the cut, unless it is a comment
that goes on up to the cut and no further. -/
theorem scan_cut_skip {mode : Mode} (h : scan mode (c :: cs ++ x) = .skip w)
    (hw : w ≤ (c :: cs).length) :
    mode = .normal ∧ (scan .normal (c :: cs ++ y) = .skip w ∨
      w = (c :: cs).length ∧ ∀ d ∈ x.head?, d = '\n') := by
  cases mode with
  | string => exact absurd h (scanString_ne_skip (c :: cs ++ x) w)
  | normal =>
    refine ⟨rfl, ?_⟩
    simp only [scan, scanNormal, List.cons_append, List.length_cons] at h hw ⊢
    split at h
    · rename_i hlayout
      rw [if_pos hlayout]
      exact .inl h
    · rename_i hlayout
      rw [if_neg hlayout]
      split at h
      · rename_i hsemi
        cases h
        rw [if_pos hsemi]
        by_cases hall : (cs.takeWhile isCommentChar).length = cs.length
        · have hnil := takeWhile_eq_nil_of_length_le (x := x) (by omega) hall
          refine .inr ⟨?_, fun d hd => ?_⟩
          · rw [List.takeWhile_append, if_pos hall, hnil, List.append_nil, Nat.add_comm]
          · obtain ⟨more, rfl⟩ := List.head?_eq_some_iff.mp hd
            by_contra hne
            have hcomment : isCommentChar d = true := bne_iff_ne.mpr hne
            rw [List.takeWhile_cons_of_pos hcomment] at hnil
            cases hnil
        · rw [takeWhile_append_congr (y := x) fun h => absurd h hall]
          exact .inl rfl
      · repeat' split at h
        all_goals cases h

end

theorem modeAt_tokensFrom (mode : Mode) (pos : Nat) (cs : List Char) :
    modeAt mode (tokensFrom mode pos cs) pos = mode := by
  refine modeAt_of_lt fun t ht => ?_
  have hspan := (tiled_tokensFrom mode pos cs).span t ht
  omega

/-- A token begins or ends at the index. -/
def Touched (ts : List Token) (i : Nat) : Prop := ∃ t ∈ ts, t.span.start = i ∨ t.span.stop = i

theorem touched_cons {t : Token} {ts : List Token} {i : Nat} :
    Touched (t :: ts) i ↔ (t.span.start = i ∨ t.span.stop = i) ∨ Touched ts i := by
  simp only [Touched, List.mem_cons, or_and_right, exists_or, exists_eq_left]

theorem le_of_touched {mode : Mode} {pos i : Nat} {cs : List Char}
    (h : Touched (tokensFrom mode pos cs) i) : pos ≤ i := by
  obtain ⟨t, ht, hi⟩ := h
  have hspan := (tiled_tokensFrom mode pos cs).span t ht
  omega

/-- Between string literals no token begins or ends in front of a line feed where a comment ends. -/
theorem not_touched_of_break {pos : Nat} {cs : List Char} (h : ∀ c ∈ cs.head?, c = '\n') :
    ¬ Touched (tokensFrom .normal pos cs) pos := by
  cases cs with
  | nil =>
    rw [tokensFrom_nil]
    rintro ⟨t, ht, _⟩
    cases ht
  | cons c cs =>
    rw [h c rfl, tokensFrom_skip pos (scan_layout rfl cs)]
    intro htouched
    exact absurd (le_of_touched htouched) (Nat.not_succ_le_self pos)

theorem length_behind {cs : List Char} {w : Nat} (pos : Nat) (hle : w ≤ cs.length) :
    pos + w + (cs.drop w).length = pos + cs.length := by
  rw [List.length_drop]
  omega

theorem length_drop_lt {cs : List Char} {w : Nat} (hpos : 0 < w) (hle : w ≤ cs.length) :
    (cs.drop w).length < cs.length := by
  rw [List.length_drop]
  omega

theorem pos_of_scan {mode : Mode} {cs : List Char} {s : Scan} (h : scan mode cs = s)
    (hs : s ≠ .stop) : 0 < s.width := by
  have hw := (width_scan mode cs (by rw [h]; exact hs)).1
  rwa [h] at hw

/-- The tokens in front of a cut are there whatever separate text is behind it, and the lexer goes
on behind the cut as if the text began there. -/
theorem tokensFrom_cut {mode : Mode} {pos : Nat} {cs x y : List Char}
    (hy : Separated y ∨ y = x)
    (hmode : modeAt mode (tokensFrom mode pos (cs ++ x)) (pos + cs.length) = .normal)
    (hcut : cs = [] ∨ Touched (tokensFrom mode pos (cs ++ x)) (pos + cs.length)) :
    ∃ front, (∀ t ∈ front, t.span.stop ≤ pos + cs.length) ∧
      tokensFrom mode pos (cs ++ x) = front ++ tokensFrom .normal (pos + cs.length) x ∧
      tokensFrom mode pos (cs ++ y) = front ++ tokensFrom .normal (pos + cs.length) y := by
  -- on the length of the first part: a step in front of the cut is taken whatever is behind it
  induction hn : cs.length using Nat.strong_induction_on generalizing mode pos cs with
  | _ n ih =>
    subst hn
    cases cs with
    | nil =>
      rw [List.nil_append, List.length_nil, Nat.add_zero, modeAt_tokensFrom] at hmode
      subst hmode
      exact ⟨[], List.forall_mem_nil _, rfl, rfl⟩
    | cons c cs =>
      have htouched := hcut.resolve_left (List.cons_ne_nil c cs)
      cases hscan : scan mode (c :: cs ++ x) with
      | stop =>
        rw [tokensFrom_stop pos hscan] at htouched
        obtain ⟨t, ht, _⟩ := htouched
        cases ht
      | skip w =>
        rw [tokensFrom_skip pos hscan] at hmode htouched ⊢
        have hle := Nat.le_of_add_le_add_left (le_of_touched htouched)
        have hlt := length_drop_lt (pos_of_scan hscan Scan.noConfusion) hle
        rw [List.drop_append_of_le_length hle, ← length_behind pos hle] at hmode htouched ⊢
        obtain ⟨rfl, hsame | ⟨hall, hbreak⟩⟩ := scan_cut_skip (y := y) hscan hle
        · rw [tokensFrom_skip pos hsame, List.drop_append_of_le_length hle]
          exact ih _ hlt hmode (.inr htouched) rfl
        · rw [hall, List.drop_length, List.nil_append] at htouched
          exact absurd htouched (not_touched_of_break hbreak)
      | found l w =>
        rw [tokensFrom_found pos hscan] at hmode htouched ⊢
        have hbehind : w = (c :: cs).length ∨ Touched (tokensFrom l.nextMode (pos + w)
            ((c :: cs ++ x).drop w)) (pos + (c :: cs).length) := by
          refine (touched_cons.mp htouched).imp_left fun hself => ?_
          rw [List.length_cons] at hself ⊢
          dsimp only at hself
          omega
        have hle : w ≤ (c :: cs).length := by
          rcases hbehind with hall | hrest
          · exact Nat.le_of_eq hall
          · exact Nat.le_of_add_le_add_left (le_of_touched hrest)
        have hlt := length_drop_lt (pos_of_scan hscan Scan.noConfusion) hle
        rw [modeAt_cons (Nat.add_le_add_left hle pos)] at hmode
        rw [List.drop_append_of_le_length hle, ← length_behind pos hle] at hmode hbehind ⊢
        have hends : w = (c :: cs).length → l.nextMode = .normal := by
          intro hall
          rwa [hall, List.drop_length, List.nil_append, List.length_nil, Nat.add_zero,
            modeAt_tokensFrom] at hmode
        have hsame := scan_cut hscan hle hends hy
        obtain ⟨front, hfront, hx, hy⟩ :=
          ih _ hlt hmode (hbehind.imp_left fun hall => by rw [hall, List.drop_length]) rfl
        rw [tokensFrom_found pos hsame, List.drop_append_of_le_length hle, hx, hy]
        refine ⟨⟨l, pos, pos + w⟩ :: front, List.forall_mem_cons.mpr ⟨?_, hfront⟩, rfl, rfl⟩
        rw [length_behind pos hle]
        exact Nat.add_le_add_left hle pos

/-- Where a span is, once `k` characters have been put in at the index. -/
def Span.displace (i k : Nat) (s : Span) : Span := if i ≤ s.start then s.shift k else s

theorem displace_of_le {t : Token} {i : Nat} (k : Nat) (h : i ≤ t.span.start) :
    t.respan (Span.displace i k) = t.shift k := by
  rw [Token.respan, Span.displace, if_pos h, Token.shift]

theorem displace_of_lt {t : Token} {i : Nat} (k : Nat) (h : t.span.start < i) :
    t.respan (Span.displace i k) = t := by
  rw [Token.respan, Span.displace, if_neg (Nat.not_le.mpr h)]

theorem Reader.feed_respan (r : Reader) {s s' : String} {f : Span → Span}
    (h : tokens s' = (tokens s).map (Token.respan f)) :
    r.feed s'
      = ⟨(r.feed s).result.mapError (ReadError.respan f), (r.feed s).reader,
          (r.feed s).discarded⟩ := by
  have hrun := Progress.run_respan ⟨r, none, []⟩ (tokens s) f
  rw [← h] at hrun
  rcases hs : (Progress.mk r none []).run (tokens s) with ⟨p, none | e⟩
  · rw [hs] at hrun
    rw [feed_of_run hs, feed_of_run hrun]
    rfl
  · rw [hs] at hrun
    rw [feed_of_run_error hs, feed_of_run_error hrun]
    rfl

/-- Let a text be cut where a token begins or ends outside string literals, and let layout and
closed comments be put in at the cut. Then every token is found as before, on its side of the cut,
and those behind the cut further on; so from every state the same forms are read and the same reader
is left behind, or the same error is met, which is further on if it is behind the cut. -/
theorem layout_keeps_meaning (a b w : String) (hw : Filler w.toList)
    (hmode : modeAt .normal (tokens (a ++ b)) a.length = .normal)
    (hcut : Touched (tokens (a ++ b)) a.length) :
    (∀ t ∈ tokens (a ++ b), t.span.stop ≤ a.length ∨ a.length ≤ t.span.start) ∧
    tokens (a ++ w ++ b)
      = (tokens (a ++ b)).map (Token.respan (Span.displace a.length w.length)) ∧
    ∀ r : Reader, r.feed (a ++ w ++ b)
      = ⟨(r.feed (a ++ b)).result.mapError (ReadError.respan (Span.displace a.length w.length)),
          (r.feed (a ++ b)).reader, (r.feed (a ++ b)).discarded⟩ := by
  have hlen : a.length = 0 + a.toList.length := by rw [Nat.zero_add, String.length_toList]
  have hall : (a ++ b).toList = a.toList ++ b.toList := String.toList_append
  have hfilled : (a ++ w ++ b).toList = a.toList ++ (w.toList ++ b.toList) := by
    rw [String.toList_append, String.toList_append, List.append_assoc]
  rw [tokens, hall, hlen] at hmode hcut
  obtain ⟨front, hfront, hb, hwb⟩ := tokensFrom_cut (hw.separated b.toList) hmode (.inr hcut)
  rw [hw.tokensFrom, tokensFrom_shift, ← hfilled, ← hlen, String.length_toList] at hwb
  rw [← hall, ← hlen] at hb
  rw [← hlen] at hfront
  have hback := start_tokensFrom .normal a.length b.toList
  have htokens : tokens (a ++ w ++ b)
      = (tokens (a ++ b)).map (Token.respan (Span.displace a.length w.length)) := by
    have hstart : ∀ t ∈ front, t.span.start < a.length := by
      intro t ht
      have hspan := (tiled_tokensFrom .normal 0 (a ++ b).toList).span t
        (hb ▸ List.mem_append_left _ ht)
      exact Nat.lt_of_lt_of_le hspan.2.1 (hfront t ht)
    have hleft : front.map (Token.respan (Span.displace a.length w.length)) = front.map id :=
      List.map_congr_left fun t ht => displace_of_lt _ (hstart t ht)
    have hright := List.map_congr_left fun t ht => displace_of_le w.length (hback t ht)
    rw [tokens, tokens, hwb, hb, List.map_append, hleft, hright, List.map_id]
  refine ⟨fun t ht => ?_, htokens, fun r => r.feed_respan htokens⟩
  rw [tokens, hb] at ht
  exact (List.mem_append.mp ht).imp (hfront t) (hback t)

/-- A comment is put in behind an atom, and a literal further on has an escape that is none. -/
theorem layout_keeps_meaning_comment :
    Filler " ; )\n\t".toList ∧
    modeAt .normal (tokens ("(a" ++ ",@b \"\\q\")")) "(a".length = .normal ∧
    Touched (tokens ("(a" ++ ",@b \"\\q\")")) "(a".length ∧
    ((Reader.ofSymbols Symbols.initial).feed ("(a" ++ " ; )\n\t" ++ ",@b \"\\q\")")).result
      = .error ⟨.unknownCharacter, some ⟨13, 15⟩⟩ := by
  have hcomment : Filler (';' :: [' ', ')'] ++ '\n' :: ['\t']) :=
    .comment (by simp) (.layout rfl .nil)
  have hw : Filler " ; )\n\t".toList := .layout rfl hcomment
  have htokens : tokens ("(a" ++ ",@b \"\\q\")") = [⟨.openParen, 0, 1⟩, ⟨.symbol "a", 1, 2⟩,
      ⟨.unquoteSplice, 2, 4⟩, ⟨.symbol "b", 4, 5⟩, ⟨.openString, 6, 7⟩, ⟨.badEscape 'q', 7, 9⟩,
      ⟨.closeString, 9, 10⟩, ⟨.closeParen, 10, 11⟩] := by cbv
  have hmode : modeAt .normal (tokens ("(a" ++ ",@b \"\\q\")")) "(a".length = .normal := by
    rw [htokens]
    cbv
  have hcut : Touched (tokens ("(a" ++ ",@b \"\\q\")")) "(a".length := by
    rw [htokens]
    exact ⟨_, .tail _ (.head _), .inr rfl⟩
  have herror : ((Reader.ofSymbols Symbols.initial).feed ("(a" ++ ",@b \"\\q\")")).result
      = .error ⟨.unknownCharacter, some ⟨7, 9⟩⟩ := by cbv
  obtain ⟨_, _, hfeed⟩ := layout_keeps_meaning "(a" ",@b \"\\q\")" " ; )\n\t" hw hmode hcut
  refine ⟨hw, hmode, hcut, ?_⟩
  rw [hfeed, herror]
  rfl

end MiniLisp
