import MiniLisp.Proofs.Excerpts
import MiniLisp.Proofs.Reader.Tiling

/-!
# Where errors of reading point

An error of reading that has a place was raised at a token, so its place is the run of that token: a
closing bracket, a character with which nothing begins, or an escape that stands for nothing. None
of them begins with a line feed; so what is marked on the line in which the place begins is never
empty, though the line may end before the place does.
Main statement: `read_errors_point_at_text`.
-/

namespace MiniLisp

/-- A character with which nothing between string literals begins. -/
def IsStray (c : Char) : Prop := isLayout c = false ∧ isDelimiter c = false ∧ isAtomChar c = false

/-- The run of a lexeme that may be refused; any other lexeme is never the place of an error. -/
def Lexeme.Spells : Lexeme → List Char → Prop
  | .closeParen, run => run = [')']
  | .unknown c, run => run = [c] ∧ IsStray c
  | .badEscape c, run => run = ['\\', c] ∧ Text.unescape? c = none
  | _, _ => True

theorem spells_classify (run cs : List Char) : (classify run).Spells cs := by
  unfold classify
  repeat' split
  all_goals trivial

theorem spells_singleMark {c : Char} (hlayout : isLayout c = false) (hsemi : c ≠ ';')
    (hatom : isAtomChar c = false) : (singleMark c).Spells [c] := by
  unfold singleMark
  split
  · trivial
  · split
    · rename_i hclose
      rw [hclose]
      rfl
    · repeat' split
      all_goals first | trivial | skip
      refine ⟨rfl, hlayout, ?_, hatom⟩
      simp only [isDelimiter, Bool.or_eq_false_iff, beq_eq_false_iff_ne]
      tauto

theorem spells_scan {mode : Mode} {cs : List Char} {l : Lexeme} {w : Nat}
    (h : scan mode cs = .found l w) : l.Spells (cs.take w) := by
  cases scans_of_scan h with
  | atom => exact spells_classify _ _
  | mark cs hlayout hsemi hatom => exact spells_singleMark hlayout hsemi hatom
  | badEscape cs hd => exact ⟨rfl, hd⟩
  | _ => trivial

theorem spells_tokensFrom {text : List Char} (mode : Mode) (pos : Nat) (cs : List Char)
    (htext : text.drop pos = cs) :
    ∀ t ∈ tokensFrom mode pos cs, t.lexeme.Spells ((text.take t.span.stop).drop t.span.start) := by
  induction mode, pos, cs using tokensFrom.induct with
  | case1 mode pos cs h =>
    rw [tokensFrom_stop pos h]
    exact List.forall_mem_nil _
  | case2 mode pos cs w h ih =>
    rw [tokensFrom_skip pos h]
    exact ih (by rw [← htext, List.drop_drop])
  | case3 mode pos cs l w h ih =>
    rw [tokensFrom_found pos h, List.forall_mem_cons]
    refine ⟨?_, ih (by rw [← htext, List.drop_drop])⟩
    rw [← List.take_drop, htext]
    exact spells_scan h

theorem spells_tokens {source : String} {t : Token} (ht : t ∈ tokens source) :
    t.lexeme.Spells (Text.slice source.toList t.span.start t.span.stop) := by
  have hspan := (tiled_tokensFrom .normal 0 source.toList).span t ht
  rw [Text.slice_of_nat _ _ _ (by omega) (by omega)]
  exact spells_tokensFrom .normal 0 source.toList List.drop_zero t ht

/-- The text is what errors of the cause point at. -/
def ReadCause.PointsAt : ReadCause → List Char → Prop
  | .unexpectedClose, text => text = [')']
  | .unknownCharacter, text =>
    (∃ c, text = [c] ∧ IsStray c) ∨ ∃ c, text = ['\\', c] ∧ Text.unescape? c = none
  | _, _ => False

theorem ReadCause.PointsAt.isInternal {cause : ReadCause} {text : List Char}
    (h : cause.PointsAt text) : cause.isInternal = false := by
  cases cause with
  | modeMismatch => exact h.elim
  | _ => rfl

/-- What an error points at begins with some character, but not with a line feed. -/
theorem ReadCause.PointsAt.head? {cause : ReadCause} {text : List Char} (h : cause.PointsAt text) :
    ∃ c, text.head? = some c ∧ c ≠ '\n' := by
  cases cause with
  | unexpectedClose => exact ⟨')', by rw [h]; rfl, by decide⟩
  | unknownCharacter =>
    rcases h with ⟨c, rfl, hstray⟩ | ⟨c, rfl, _⟩
    · refine ⟨c, rfl, ?_⟩
      rintro rfl
      exact absurd hstray.1 (by decide)
    · exact ⟨'\\', rfl, by decide⟩
  | _ => exact h.elim

namespace Reader

theorem Progress.run_error_span {p : Progress} {ts : List Token} {e : ReadError} {span : Span}
    (hts : InStep p.mode ts) (h : (p.run ts).2 = some e) (hspan : e.span = some span) :
    ∃ t ∈ ts, t.span = span ∧ (e.cause = .unexpectedClose ∧ t.lexeme = .closeParen ∨
      e.cause = .unknownCharacter ∧ t.lexeme.IsError) := by
  induction ts generalizing p with
  | nil =>
    simp only [run] at h
    split at h <;> cases h
    cases hspan
  | cons t ts ih =>
    cases hfeed : p.feed t with
    | error e' =>
      rw [run_feed_error _ hfeed] at h
      cases h
      refine ⟨t, List.mem_cons_self, ?_⟩
      rcases feed_error_cases hfeed with ⟨rfl, hclose⟩ | ⟨rfl, herror⟩ | ⟨_, hother⟩
      · cases hspan
        exact ⟨rfl, .inl ⟨rfl, hclose⟩⟩
      · cases hspan
        exact ⟨rfl, .inr ⟨rfl, herror⟩⟩
      · exact absurd hts.1 hother
    | ok q =>
      rw [run_feed_ok _ hfeed] at h
      obtain ⟨u, hu, hplace⟩ := ih (mode_feed hfeed ▸ hts.2) h
      exact ⟨u, List.mem_cons_of_mem t hu, hplace⟩

/-- The place of an error is the run of a token of the chunk, and the cause tells which run. -/
theorem points_of_feed {r : Reader} {chunk : String} {e : ReadError} {span : Span}
    (h : (r.feed chunk).result = .error e) (hspan : e.span = some span) :
    span.start < span.stop ∧ span.stop ≤ chunk.toList.length ∧
    e.cause.PointsAt (Text.slice chunk.toList span.start span.stop) := by
  rcases hrun : (Progress.mk r none []).run (tokens chunk) with ⟨p, none | e'⟩
  · rw [feed_of_run hrun] at h
    cases h
  · rw [feed_of_run_error hrun] at h
    cases h
    have hstep : InStep (Progress.mk r none []).mode (tokens chunk) :=
      inStep_tokensFrom .normal 0 chunk.toList
    obtain ⟨⟨l, _⟩, ht, rfl, hcause⟩ :=
      Progress.run_error_span hstep (congrArg Prod.snd hrun) hspan
    have hplace := (tiled_tokensFrom .normal 0 chunk.toList).span _ ht
    have hspells := spells_tokens ht
    refine ⟨hplace.2.1, by omega, ?_⟩
    rcases hcause with ⟨hcause, hclose⟩ | ⟨hcause, herror⟩
    · rw [hcause]
      rw [hclose] at hspells
      exact hspells
    · rw [hcause]
      cases l with
      | unknown c => exact .inl ⟨c, hspells⟩
      | badEscape c => exact .inr ⟨c, hspells⟩
      | _ => exact herror.elim

theorem shows_of_feed {r : Reader} {chunk : String} {e : ReadError} {span : Span}
    (h : (r.feed chunk).result = .error e) (hspan : e.span = some span) :
    (Excerpt.ofLine chunk.toList span.start span.stop).Shows chunk.toList span := by
  obtain ⟨hlt, hle, hpoints⟩ := points_of_feed h hspan
  have hhead := hpoints.head?
  rw [Text.slice_of_nat _ _ _ (by omega) hle, List.head?_drop,
    List.getElem?_take_of_lt hlt] at hhead
  exact shows_ofLine hlt hhead

/-- Errors of reading point at the text that they are about. If a chunk is refused at some place,
whatever the reader was fed before, the place is not empty and lies in the chunk; it is a closing
bracket, a character with which nothing begins, or a backslash with a character that it does not
escape. The diagnostic shows the line of the chunk in which the place begins, and what is marked on
it is as much of the place as the line has. -/
theorem read_errors_point_at_text (r : Reader) (chunk : String) (e : ReadError) (span : Span)
    (h : (r.feed chunk).result = .error e) (hspan : e.span = some span) :
    span.start < span.stop ∧ span.stop ≤ chunk.toList.length ∧
    e.cause.PointsAt (Text.slice chunk.toList span.start span.stop) ∧
    ∃ x, e.diagnose chunk = ⟨e.cause.message, [x], false⟩ ∧ x.Shows chunk.toList span := by
  obtain ⟨hlt, hle, hpoints⟩ := points_of_feed h hspan
  refine ⟨hlt, hle, hpoints, _, ?_, shows_of_feed h hspan⟩
  rw [ReadError.diagnose, hspan, hpoints.isInternal]
  rfl

/-- The chunk goes on with an open list, and its second line ends between a backslash and the line
feed that it does not escape. -/
theorem read_errors_point_at_text_lineBreak :
    ∃ e, ((Reader.mk .initial [.list []]).feed "a\n\x22b\\\nc").result = .error e ∧
      e.span = some ⟨4, 6⟩ ∧ e.cause.PointsAt ['\\', '\n'] ∧
      ∃ x, e.diagnose "a\n\x22b\\\nc" = ⟨"Unexpected character.", [x], false⟩ ∧
        x.Shows "a\n\x22b\\\nc".toList ⟨4, 6⟩ ∧ x.highlighted = ['\\'] := by
  have hfeed : ((Reader.mk .initial [.list []]).feed "a\n\x22b\\\nc").result
      = .error ⟨.unknownCharacter, some ⟨4, 6⟩⟩ := by cbv
  obtain ⟨_, _, hpoints, x, hx, hshows⟩ := read_errors_point_at_text _ _ _ ⟨4, 6⟩ hfeed rfl
  have hdiagnose : ReadError.diagnose ⟨.unknownCharacter, some ⟨4, 6⟩⟩ "a\n\x22b\\\nc"
      = ⟨"Unexpected character.", [⟨['\x22', 'b', '\\'], 2, 3, none⟩], false⟩ := by cbv
  refine ⟨_, hfeed, rfl, hpoints, x, hx, hshows, ?_⟩
  rw [hdiagnose] at hx
  cases hx
  rfl

end Reader

end MiniLisp
