import MiniLisp.Diagnostic
import MiniLisp.Proofs.Reader.Pieces

/-!
# What an excerpt shows

An excerpt of a source is the line in which a span begins, with as much of the span marked as the
line has. A formatted diagnostic has a line for its message and two or three lines for each excerpt,
and its carets stand under the characters that are marked, if there are any.
Main statements: `shows_ofLine` and `Diagnostic.aligned_of`.
-/

namespace MiniLisp

/-- The source has a line behind the text `before`, and the position is in it or at its end. -/
structure IsLine (source before line : List Char) (pos : Nat) : Prop where
  splits : ∃ after, source = before ++ line ++ after ∧ ∀ c ∈ after.head?, c = '\n'
  begins : ∀ c ∈ before.getLast?, c = '\n'
  unbroken : '\n' ∉ line
  first : before.length ≤ pos
  last : pos ≤ before.length + line.length

/-- Something is marked in the text, and a label is not blank. -/
structure Excerpt.Proper (x : Excerpt) : Prop where
  marks : 0 ≤ x.start ∧ x.start < x.stop ∧ x.stop ≤ x.text.length
  label : ∀ label ∈ x.label, label ≠ ""

/-- The excerpt is the line of the source in which the span begins, and it marks the characters of
the span that are in the line. -/
structure Excerpt.Shows (x : Excerpt) (source : List Char) (span : Span) : Prop where
  proper : x.Proper
  line : ∃ before, IsLine source before x.text span.start ∧
    x.start + before.length = span.start ∧
    x.highlighted
      = Text.slice source span.start (min span.stop (before.length + x.text.length) : Nat)

theorem newline_notMem_takeWhile (cs : List Char) : '\n' ∉ cs.takeWhile (· != '\n') := by
  intro hmem
  exact absurd (List.mem_takeWhile_imp hmem) (by decide)

theorem newline_of_head?_dropWhile {cs : List Char} {c : Char}
    (h : c ∈ (cs.dropWhile (· != '\n')).head?) : c = '\n' := by
  have hstops := false_of_head?_dropWhile h
  simpa using hstops

theorem isLine_around (front back : List Char) :
    IsLine (front ++ back) (front.reverse.dropWhile (· != '\n')).reverse
      ((front.reverse.takeWhile (· != '\n')).reverse ++ back.takeWhile (· != '\n'))
      front.length := by
  have hfront : (front.reverse.dropWhile (· != '\n')).reverse
      ++ (front.reverse.takeWhile (· != '\n')).reverse = front := by
    rw [← List.reverse_append, List.takeWhile_append_dropWhile, List.reverse_reverse]
  have hlength := congrArg List.length hfront
  rw [List.length_append] at hlength
  constructor
  case splits =>
    refine ⟨back.dropWhile (· != '\n'), ?_, fun c hc => newline_of_head?_dropWhile hc⟩
    rw [List.append_assoc, List.append_assoc, List.takeWhile_append_dropWhile,
      ← List.append_assoc, hfront]
  case begins =>
    intro c hc
    rw [List.getLast?_reverse] at hc
    exact newline_of_head?_dropWhile hc
  case unbroken =>
    rw [List.mem_append, List.mem_reverse]
    exact not_or.mpr ⟨newline_notMem_takeWhile _, newline_notMem_takeWhile _⟩
  case first => omega
  case last =>
    rw [List.length_append]
    omega

theorem slice_middle (before line after : List Char) {i j : Nat} (hi : i ≤ line.length)
    (hj : j ≤ line.length) :
    Text.slice (before ++ line ++ after) ((before.length + i : Nat) : Int)
      ((before.length + j : Nat) : Int) = Text.slice line i j := by
  have hlength : (before ++ line ++ after).length = before.length + line.length + after.length := by
    rw [List.length_append, List.length_append]
  rw [Text.slice_of_nat line i j hi hj, Text.slice_of_nat _ _ _ (by omega) (by omega),
    List.append_assoc, List.take_length_add_append, List.take_append_of_le_length hj,
    List.drop_length_add_append]

theorem highlighted_ofLine {source before line : List Char} {span : Span}
    (h : IsLine source before line span.start) (hspan : span.start ≤ span.stop)
    (label : Option String) :
    Excerpt.highlighted ⟨line, ((span.start - before.length : Nat) : Int),
        ((min span.stop (before.length + line.length) - before.length : Nat) : Int), label⟩
      = Text.slice source span.start (min span.stop (before.length + line.length) : Nat) := by
  have hfirst := h.first
  have hlast := h.last
  obtain ⟨after, rfl, _⟩ := h.splits
  rw [Excerpt.highlighted, ← slice_middle before line after (by omega) (by omega),
    Nat.add_sub_cancel' hfirst, Nat.add_sub_cancel' (by omega)]

theorem exists_ofLine {source : List Char} {span : Span} (hspan : span.start ≤ span.stop)
    (hstart : span.start ≤ source.length) :
    ∃ before line, IsLine source before line span.start ∧
      Excerpt.ofLine source span.start span.stop
        = ⟨line, ((span.start - before.length : Nat) : Int),
            ((min span.stop (before.length + line.length) - before.length : Nat) : Int), none⟩ := by
  have hline := isLine_around (source.take span.start) (source.drop span.start)
  rw [List.take_append_drop, List.length_take_of_le hstart] at hline
  refine ⟨_, _, hline, ?_⟩
  have hlength := congrArg List.length
    (List.takeWhile_append_dropWhile (p := (· != '\n')) (l := (source.take span.start).reverse))
  rw [List.length_append, List.length_reverse, List.length_take_of_le hstart] at hlength
  simp only [Excerpt.ofLine, Text.clampPosition_of_le _ _ hstart, Excerpt.mk.injEq, true_and,
    and_true, List.length_append, List.length_reverse]
  omega

/-- A span that does not begin at a line feed is shown on the line in which it begins. -/
theorem shows_ofLine {source : List Char} {span : Span} (hspan : span.start < span.stop)
    (hfirst : ∃ c, source[span.start]? = some c ∧ c ≠ '\n') :
    (Excerpt.ofLine source span.start span.stop).Shows source span := by
  obtain ⟨c, hc, hbreak⟩ := hfirst
  have hstart := (List.getElem?_eq_some_iff.mp hc).1
  obtain ⟨before, line, hline, hofLine⟩ := exists_ofLine (Nat.le_of_lt hspan) (Nat.le_of_lt hstart)
  have hfirst := hline.first
  have hlast := hline.last
  -- the character at the start of the span is in the line, since only a line feed can end it
  have hin : span.start < before.length + line.length := by
    by_contra hend
    obtain ⟨after, hsplit, hafter⟩ := hline.splits
    have hbehind : span.start = (before ++ line).length := by
      rw [List.length_append]
      omega
    rw [hsplit, hbehind, List.getElem?_append_right (Nat.le_refl _), Nat.sub_self,
      ← List.head?_eq_getElem?] at hc
    exact hbreak (hafter c hc)
  rw [hofLine]
  constructor
  case proper =>
    refine ⟨?_, fun label hlabel => nomatch hlabel⟩
    simp only
    omega
  case line =>
    refine ⟨before, hline, ?_, highlighted_ofLine hline (Nat.le_of_lt hspan) none⟩
    simp only
    omega

namespace Excerpt

/-- The label if there is one, the text, and a caret for each marked character. -/
def shown (x : Excerpt) : List (List Char) :=
  (x.label.toList.map fun label => ' ' :: label.toList) ++
    [' ' :: '|' :: ' ' :: x.text,
      ' ' :: '|' :: ' ' :: (List.replicate x.start.toNat ' ' ++
        List.replicate (x.stop - x.start).toNat '^')]

/-- The characters that stand above a caret. -/
def underlined (x : Excerpt) : List Char :=
  ((x.text.zip x.carets).filter fun column => column.2 == '^').map Prod.fst

variable {x : Excerpt}

theorem Proper.carets (h : x.Proper) :
    x.carets = List.replicate x.start.toNat ' ' ++ List.replicate (x.stop - x.start).toNat '^' := by
  have hmarks := h.marks
  have hwidth : max (x.stop - x.start) 1 = x.stop - x.start := by omega
  rw [Excerpt.carets, hwidth]

theorem Proper.lines (h : x.Proper) : x.lines = x.shown := by
  unfold Excerpt.lines shown
  rw [h.carets]
  cases hlabel : x.label with
  | none => rfl
  | some label =>
    have hne : label.isEmpty = false := by
      have := h.label label hlabel
      simpa using this
    simp only [hne]
    rfl

theorem length_shown (x : Excerpt) : x.shown.length = if x.label.isSome then 3 else 2 := by
  unfold shown
  cases x.label <;> rfl

theorem filter_columns (before marked after : List Char) :
    (((before ++ marked ++ after).zip (List.replicate before.length ' ' ++
      List.replicate marked.length '^')).filter fun column => column.2 == '^').map Prod.fst
      = marked := by
  induction before with
  | nil =>
    induction marked with
    | nil => simp
    | cons c marked ih => simpa [List.replicate_succ] using ih
  | cons c before ih => simpa [List.replicate_succ] using ih

theorem Proper.underlined (h : x.Proper) : x.underlined = x.highlighted := by
  obtain ⟨hstart, hlt, hle⟩ := h.marks
  have hstop : 0 ≤ x.stop := by omega
  have hmarked := Text.slice_of_nat x.text x.start.toNat x.stop.toNat (by omega) (by omega)
  rw [Int.toNat_of_nonneg hstart, Int.toNat_of_nonneg hstop] at hmarked
  have hcolumns := filter_columns ((x.text.take x.stop.toNat).take x.start.toNat)
    ((x.text.take x.stop.toNat).drop x.start.toNat) (x.text.drop x.stop.toNat)
  have hbefore : ((x.text.take x.stop.toNat).take x.start.toNat).length = x.start.toNat := by
    rw [List.length_take, List.length_take]
    omega
  have hwidth : ((x.text.take x.stop.toNat).drop x.start.toNat).length
      = (x.stop - x.start).toNat := by
    rw [List.length_drop, List.length_take]
    omega
  rw [List.take_append_drop, List.take_append_drop, hbefore, hwidth, ← h.carets] at hcolumns
  rw [highlighted, hmarked]
  exact hcolumns

end Excerpt

namespace Diagnostic

/-- The diagnostic is formatted as a line for the message and the lines of the excerpts, in each of
which the carets stand under the marked characters. -/
structure Aligned (d : Diagnostic) : Prop where
  lines : d.format.toList.splitOn '\n'
    = (d.title ++ d.message).toList :: d.excerpts.flatMap Excerpt.shown
  count : (d.format.toList.splitOn '\n').length
    = 1 + (d.excerpts.map fun x => if x.label.isSome then 3 else 2).sum
  proper : ∀ x ∈ d.excerpts, x.Proper
  underlined : ∀ x ∈ d.excerpts, x.underlined = x.highlighted

theorem aligned_of {d : Diagnostic} (hlines : ∀ line ∈ d.lines, '\n' ∉ line)
    (hproper : ∀ x ∈ d.excerpts, x.Proper) : d.Aligned := by
  have hshown : d.format.toList.splitOn '\n'
      = (d.title ++ d.message).toList :: d.excerpts.flatMap Excerpt.shown := by
    have heach : d.excerpts.flatMap Excerpt.lines = d.excerpts.flatMap Excerpt.shown :=
      List.flatMap_congr fun x hx => (hproper x hx).lines
    rw [format, String.toList_ofList, List.splitOn_intercalate _ hlines (List.cons_ne_nil _ _),
      Diagnostic.lines, heach]
  refine ⟨hshown, ?_, hproper, fun x hx => (hproper x hx).underlined⟩
  rw [hshown, List.length_cons, List.length_flatMap, Nat.add_comm]
  simp only [Excerpt.length_shown]

end Diagnostic

end MiniLisp
