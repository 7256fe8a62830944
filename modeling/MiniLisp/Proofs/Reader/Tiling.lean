import MiniLisp.Proofs.Reader.Acceptance
import MiniLisp.Proofs.Reader.Pieces

/-!
# How tokens cover a text

The tokens of a text and the gaps between them make up the text from its beginning to its end; only
a backslash that breaks off a string literal is left over. So the characters outside of all tokens
are known from the text and the mode of the lexer.
Main statement: `tokens_tile_source`.
-/

namespace MiniLisp

/-- The character at the index is one of those that the token was found in. -/
def Token.Covers (t : Token) (i : Nat) : Prop := t.span.start ≤ i ∧ i < t.span.stop

theorem Gap.length_pos {run rest : List Char} (h : Gap run rest) : 0 < run.length := by
  cases h <;> exact Nat.succ_pos _

namespace Tiled

variable {mode : Mode} {pos : Nat} {cs : List Char} {ts : List Token}

theorem span (h : Tiled mode pos cs ts) :
    ∀ t ∈ ts, pos ≤ t.span.start ∧ t.span.start < t.span.stop ∧
      t.span.stop ≤ pos + cs.length := by
  induction h with
  | nil => exact List.forall_mem_nil _
  | backslash => exact List.forall_mem_nil _
  | gap hgap h ih =>
    intro t ht
    have hspan := ih t ht
    rw [List.length_append]
    omega
  | token hfits h ih =>
    have hpos := List.length_pos_iff.mpr hfits.nonempty
    rw [List.forall_mem_cons, List.length_append]
    refine ⟨⟨Nat.le_refl _, ?_, ?_⟩, fun t ht => ?_⟩
    · exact Nat.lt_add_of_pos_right hpos
    · exact Nat.add_le_add_left (Nat.le_add_right _ _) _
    · have hspan := ih t ht
      omega

theorem length_le (h : Tiled mode pos cs ts) : ts.length ≤ cs.length := by
  induction h with
  | nil => exact Nat.zero_le _
  | backslash => exact Nat.zero_le _
  | gap hgap h ih =>
    rw [List.length_append]
    omega
  | token hfits h ih =>
    have hpos := List.length_pos_iff.mpr hfits.nonempty
    rw [List.length_append, List.length_cons]
    omega

theorem pairwise (h : Tiled mode pos cs ts) :
    ts.Pairwise fun t u => t.span.stop ≤ u.span.start := by
  induction h with
  | nil => exact .nil
  | backslash => exact .nil
  | gap hgap h ih => exact ih
  | token hfits h ih => exact .cons (fun u hu => (h.span u hu).1) ih

/-- An atom that begins where the text begins needs an atom character there. -/
theorem not_separated (h : Tiled mode pos cs ts) {u : Token} (hu : u ∈ ts.head?)
    (hatom : u.lexeme.IsAtom) (hstart : u.span.start ≤ pos) : ¬ Separated cs := by
  cases h with
  | nil => cases hu
  | backslash => cases hu
  | gap hgap h =>
    have hpos := hgap.length_pos
    have hspan := h.span u (List.mem_of_mem_head? hu)
    omega
  | token hfits h =>
    cases hu
    obtain ⟨hrun, _⟩ := hfits.longest hatom
    obtain ⟨c, run, rfl⟩ := List.exists_cons_of_ne_nil hfits.nonempty
    intro hseparated
    have hc := hseparated c rfl
    rw [hrun c List.mem_cons_self] at hc
    cases hc

theorem atoms_apart (h : Tiled mode pos cs ts) :
    ts.IsChain fun t u => t.lexeme.IsAtom → u.lexeme.IsAtom → t.span.stop < u.span.start := by
  induction h with
  | nil => exact .nil
  | backslash => exact .nil
  | gap hgap h ih => exact ih
  | token hfits h ih =>
    refine List.isChain_cons.mpr ⟨fun u hu ht hatom => ?_, ih⟩
    by_contra htouch
    exact h.not_separated hu hatom (Nat.le_of_not_lt htouch) (hfits.longest ht).2

end Tiled

theorem lexeme_mode_of_inStep {mode : Mode} {before after : List Token} {t : Token}
    (h : InStep mode (before ++ t :: after)) : t.lexeme.mode = lastMode mode before := by
  induction before generalizing mode with
  | nil => exact h.1
  | cons u before ih => exact ih h.2

/-- A string literal has been opened and not closed. -/
def LiteralOpen (ts : List Token) : Prop :=
  ∃ before t after, ts = before ++ t :: after ∧ t.lexeme = .openString ∧
    ∀ u ∈ after, u.lexeme ≠ .closeString

theorem literalOpen_cons {t : Token} {ts : List Token} :
    LiteralOpen (t :: ts) ↔
      (t.lexeme = .openString ∧ ∀ u ∈ ts, u.lexeme ≠ .closeString) ∨ LiteralOpen ts := by
  constructor
  · rintro ⟨before, u, after, hsplit, hopen, hclose⟩
    cases before with
    | nil =>
      cases hsplit
      exact .inl ⟨hopen, hclose⟩
    | cons v before =>
      cases hsplit
      exact .inr ⟨before, u, after, rfl, hopen, hclose⟩
  · rintro (⟨hopen, hclose⟩ | ⟨before, u, after, rfl, hopen, hclose⟩)
    · exact ⟨[], t, ts, rfl, hopen, hclose⟩
    · exact ⟨t :: before, u, after, rfl, hopen, hclose⟩

theorem nextMode_eq_string_iff {l : Lexeme} :
    l.nextMode = .string ↔ l = .openString ∨ l.mode = .string ∧ l ≠ .closeString := by
  cases l <;> simp [Lexeme.nextMode, Lexeme.mode]

theorem lastMode_eq_string_iff {mode : Mode} {ts : List Token} (h : InStep mode ts) :
    lastMode mode ts = .string ↔
      (mode = .string ∧ ∀ u ∈ ts, u.lexeme ≠ .closeString) ∨ LiteralOpen ts := by
  induction ts generalizing mode with
  | nil => simp [lastMode, LiteralOpen]
  | cons t ts ih =>
    obtain ⟨rfl, hts⟩ := h
    rw [lastMode, ih hts, literalOpen_cons, nextMode_eq_string_iff, List.forall_mem_cons]
    tauto

/-- A text that begins outside string literals and ends inside one has a quote. -/
theorem Tiled.quote_mem {mode : Mode} {pos : Nat} {cs : List Char} {ts : List Token}
    (h : Tiled mode pos cs ts) (hmode : mode = .normal) (hlast : lastMode mode ts = .string) :
    '\x22' ∈ cs := by
  induction h with
  | nil mode pos => cases hmode.symm.trans hlast
  | backslash pos => cases hmode
  | gap hgap h ih => exact List.mem_append_right _ (ih rfl hlast)
  | @token pos l run rest ts hfits h ih =>
    rcases hnext : l.nextMode with _ | _
    · exact List.mem_append_right _ (ih hnext hlast)
    · rcases nextMode_eq_string_iff.mp hnext with hopen | ⟨hstring, _⟩
      · exact List.mem_append_left _ (hfits.opening hopen)
      · cases hmode.symm.trans hstring

/-- The mode of the lexer at an index, behind the tokens that end there or before. -/
def modeAt (mode : Mode) (ts : List Token) (i : Nat) : Mode :=
  lastMode mode (ts.filter fun t => decide (t.span.stop ≤ i))

theorem modeAt_of_lt {mode : Mode} {ts : List Token} {i : Nat} (h : ∀ t ∈ ts, i < t.span.stop) :
    modeAt mode ts i = mode := by
  have hnone : (ts.filter fun t => decide (t.span.stop ≤ i)) = [] := by
    rw [List.filter_eq_nil_iff]
    intro t ht
    simpa using h t ht
  rw [modeAt, hnone, lastMode]

theorem modeAt_cons {mode : Mode} {t : Token} {ts : List Token} {i : Nat} (h : t.span.stop ≤ i) :
    modeAt mode (t :: ts) i = modeAt t.lexeme.nextMode ts i := by
  rw [modeAt, List.filter_cons_of_pos (by simpa using h), lastMode, modeAt]

/-- Between string literals, the character at the index is layout or in a comment, which begins at
`start` or behind it and is not over. -/
def Skipped (text : List Char) (modes : Nat → Mode) (start i : Nat) : Prop :=
  (modes i = .normal ∧ ∃ c ∈ text[i]?, isLayout c = true) ∨
    ∃ j, start ≤ j ∧ j ≤ i ∧ modes j = .normal ∧ text[j]? = some ';' ∧
      ∀ k, j ≤ k → k ≤ i → text[k]? ≠ some '\n'

section

variable {text run rest : List Char} {modes modes' : Nat → Mode} {pos i : Nat}

theorem getElem?_run (htext : text.drop pos = run ++ rest) {j : Nat} (hpos : pos ≤ j)
    (hj : j < pos + run.length) : ∃ c ∈ run, text[j]? = some c := by
  obtain ⟨k, rfl⟩ := Nat.exists_eq_add_of_le hpos
  have hk : k < run.length := by omega
  refine ⟨run[k], List.getElem_mem hk, ?_⟩
  rw [← List.getElem?_drop, htext, List.getElem?_append_left hk, List.getElem?_eq_getElem hk]

theorem drop_run (htext : text.drop pos = run ++ rest) : text.drop (pos + run.length) = rest := by
  rw [← List.drop_drop, htext, List.drop_left]

/-- Behind a piece of the text, what is skipped does not depend on the piece, unless a comment that
begins in it is not over. -/
theorem skipped_congr {stop : Nat} (hpos : pos ≤ stop) (hi : stop ≤ i)
    (hmodes : ∀ j, stop ≤ j → modes j = modes' j)
    (hover : ∀ j, pos ≤ j → j < stop → modes j = .normal → text[j]? = some ';' →
      ∃ k, j ≤ k ∧ k ≤ i ∧ text[k]? = some '\n') :
    Skipped text modes pos i ↔ Skipped text modes' stop i := by
  simp only [Skipped, hmodes i hi]
  apply or_congr Iff.rfl
  constructor
  · rintro ⟨j, hj, hji, hmode, hsemi, hline⟩
    have hbehind : stop ≤ j := by
      by_contra hin
      obtain ⟨k, hjk, hki, hbreak⟩ := hover j hj (Nat.lt_of_not_le hin) hmode hsemi
      exact hline k hjk hki hbreak
    exact ⟨j, hbehind, hji, (hmodes j hbehind) ▸ hmode, hsemi, hline⟩
  · rintro ⟨j, hj, hji, hmode, hsemi, hline⟩
    exact ⟨j, hpos.trans hj, hji, (hmodes j hj).trans hmode, hsemi, hline⟩

theorem Gap.skipped (hgap : Gap run rest) (htext : text.drop pos = run ++ rest)
    (hmodes : ∀ j, j < pos + run.length → modes j = .normal) (hpos : pos ≤ i)
    (hi : i < pos + run.length) : Skipped text modes pos i := by
  cases hgap with
  | @layout c _ hc =>
    obtain ⟨d, hd, hget⟩ := getElem?_run htext hpos hi
    rw [List.mem_singleton.mp hd] at hget
    exact .inl ⟨hmodes i hi, c, hget, hc⟩
  | @comment cs _ hcs _ =>
    have hfirst : text[pos]? = some ';' := by
      rw [← Nat.add_zero pos, ← List.getElem?_drop, htext]
      rfl
    refine .inr ⟨pos, Nat.le_refl pos, hpos, hmodes pos (hpos.trans_lt hi), hfirst, ?_⟩
    intro k hk hki hbreak
    obtain ⟨c, hc, hget⟩ := getElem?_run htext hk (hki.trans_lt hi)
    rw [hget] at hbreak
    cases hbreak
    rcases List.mem_cons.mp hc with hsemi | hc
    · exact absurd hsemi (by decide)
    · exact hcs _ hc rfl

/-- A comment that begins in a gap is over where the gap is. -/
theorem Gap.over (hgap : Gap run rest) (htext : text.drop pos = run ++ rest)
    (hi : pos + run.length ≤ i) (hlt : i < text.length) {j : Nat} (hpos : pos ≤ j)
    (hj : j < pos + run.length) (hsemi : text[j]? = some ';') :
    ∃ k, j ≤ k ∧ k ≤ i ∧ text[k]? = some '\n' := by
  cases hgap with
  | @layout c _ hc =>
    obtain ⟨d, hd, hget⟩ := getElem?_run htext hpos hj
    rw [List.mem_singleton.mp hd, hsemi] at hget
    cases hget
    exact absurd hc (by decide)
  | @comment cs _ _ hrest =>
    refine ⟨_, Nat.le_of_lt hj, hi, ?_⟩
    have hbehind := congrArg List.length (drop_run htext)
    rw [List.length_drop] at hbehind
    obtain ⟨c, more, rfl⟩ := List.exists_cons_of_length_pos (l := rest) (by omega)
    rw [← hrest c rfl, ← Nat.add_zero (pos + _), ← List.getElem?_drop, drop_run htext]
    rfl

/-- Neither layout nor the beginning of a comment stands in the run of a token. -/
theorem Lexeme.Fits.visible_at {l : Lexeme} (hfits : l.Fits run rest)
    (htext : text.drop pos = run ++ rest) {j : Nat} (hpos : pos ≤ j) (hj : j < pos + run.length)
    (hmode : l.mode = .normal) : ∀ c ∈ text[j]?, isLayout c = false ∧ c ≠ ';' := by
  obtain ⟨d, hd, hget⟩ := getElem?_run htext hpos hj
  intro c hc
  rw [hget] at hc
  cases hc
  exact hfits.visible hmode d hd

theorem Lexeme.Fits.not_skipped {l : Lexeme} (hfits : l.Fits run rest)
    (htext : text.drop pos = run ++ rest) (hmodes : ∀ j, j < pos + run.length → modes j = l.mode)
    (hpos : pos ≤ i) (hi : i < pos + run.length) : ¬ Skipped text modes pos i := by
  rintro (⟨hmode, c, hget, hlayout⟩ | ⟨j, hj, hji, hmode, hsemi, _⟩)
  · rw [hmodes i hi] at hmode
    rw [(hfits.visible_at htext hpos hi hmode c hget).1] at hlayout
    cases hlayout
  · rw [hmodes j (hji.trans_lt hi)] at hmode
    exact (hfits.visible_at htext hj (hji.trans_lt hi) hmode ';' hsemi).2 rfl

end

theorem Lexeme.Fits.odd_iff {l : Lexeme} {run rest : List Char} {pos : Nat} {ts : List Token}
    (hfits : l.Fits run rest) (h : Tiled l.nextMode pos rest ts)
    (hlast : lastMode l.nextMode ts = .string) :
    Odd (backslashesAtEnd (run ++ rest)) ↔ Odd (backslashesAtEnd rest) := by
  rcases hnext : l.nextMode with _ | _
  · rw [backslashesAtEnd_append_of_mem run (h.quote_mem hnext hlast) (by decide)]
  · exact odd_backslashesAtEnd_append (hfits.escaped hnext) rest

/-- The character at the index is skipped, or it is a backslash at the very end of a text that ends
inside a string literal, and no other backslash escapes it. -/
def LeftOut (text : List Char) (mode : Mode) (pos : Nat) (cs : List Char) (ts : List Token)
    (i : Nat) : Prop :=
  Skipped text (modeAt mode ts) pos i ∨
    (i + 1 = text.length ∧ lastMode mode ts = .string ∧ Odd (backslashesAtEnd cs))

section

variable {text run rest : List Char} {pos i : Nat} {ts : List Token}

theorem Gap.leftOut (hgap : Gap run rest) (htext : text.drop pos = run ++ rest)
    (h : Tiled .normal (pos + run.length) rest ts) (hpos : pos ≤ i) (hi : i < pos + run.length) :
    LeftOut text .normal pos (run ++ rest) ts i := by
  refine .inl (hgap.skipped htext (fun j hj => modeAt_of_lt fun t ht => ?_) hpos hi)
  have hspan := h.span t ht
  omega

theorem Gap.leftOut_behind (hgap : Gap run rest) (htext : text.drop pos = run ++ rest)
    (h : Tiled .normal (pos + run.length) rest ts) (hi : pos + run.length ≤ i)
    (hlt : i < text.length) :
    LeftOut text .normal pos (run ++ rest) ts i
      ↔ LeftOut text .normal (pos + run.length) rest ts i := by
  have hskipped : Skipped text (modeAt .normal ts) pos i
      ↔ Skipped text (modeAt .normal ts) (pos + run.length) i := by
    apply skipped_congr (Nat.le_add_right _ _) hi (fun _ _ => rfl)
    intro j hpos hj _ hsemi
    exact hgap.over htext hi hlt hpos hj hsemi
  refine or_congr hskipped (and_congr_right fun _ => and_congr_right fun hlast => ?_)
  rw [backslashesAtEnd_append_of_mem run (h.quote_mem rfl hlast) (by decide)]

theorem Tiled.modeAt_run {l : Lexeme} (h : Tiled l.nextMode (pos + run.length) rest ts) {j : Nat}
    (hj : j < pos + run.length) :
    modeAt l.mode (⟨l, pos, pos + run.length⟩ :: ts) j = l.mode := by
  apply modeAt_of_lt
  rw [List.forall_mem_cons]
  refine ⟨hj, fun t ht => ?_⟩
  have hspan := h.span t ht
  omega

variable {l : Lexeme} (hfits : l.Fits run rest) (htext : text.drop pos = run ++ rest)
variable (h : Tiled l.nextMode (pos + run.length) rest ts)
include hfits htext h

theorem Lexeme.Fits.not_leftOut (hpos : pos ≤ i) (hi : i < pos + run.length) :
    ¬ LeftOut text l.mode pos (run ++ rest) (⟨l, pos, pos + run.length⟩ :: ts) i := by
  rintro (hskipped | ⟨hend, hlast, hodd⟩)
  · exact hfits.not_skipped htext (fun j hj => h.modeAt_run hj) hpos hi hskipped
  · have hlength := congrArg List.length htext
    rw [List.length_drop, List.length_append] at hlength
    have hrest : rest = [] := List.eq_nil_of_length_eq_zero (by omega)
    subst hrest
    have hts : ts = [] := List.eq_nil_of_length_eq_zero (Nat.le_zero.mp h.length_le)
    subst hts
    rw [List.append_nil] at hodd
    exact Nat.not_even_iff_odd.mpr hodd (hfits.escaped hlast)

theorem Lexeme.Fits.leftOut_behind (hi : pos + run.length ≤ i) :
    LeftOut text l.mode pos (run ++ rest) (⟨l, pos, pos + run.length⟩ :: ts) i
      ↔ LeftOut text l.nextMode (pos + run.length) rest ts i := by
  have hskipped : Skipped text (modeAt l.mode (⟨l, pos, pos + run.length⟩ :: ts)) pos i
      ↔ Skipped text (modeAt l.nextMode ts) (pos + run.length) i := by
    apply skipped_congr (Nat.le_add_right _ _) hi (fun j hj => modeAt_cons hj)
    intro j hpos hj hmode hsemi
    rw [h.modeAt_run hj] at hmode
    exact absurd rfl (hfits.visible_at htext hpos hj hmode ';' hsemi).2
  refine or_congr hskipped (and_congr_right fun _ => and_congr_right fun hlast => ?_)
  exact hfits.odd_iff h hlast

end

/-- The characters in no token are those that are left out. -/
theorem Tiled.uncovered_iff {mode : Mode} {pos : Nat} {cs text : List Char} {ts : List Token}
    (h : Tiled mode pos cs ts) (htext : text.drop pos = cs) {i : Nat} (hpos : pos ≤ i)
    (hi : i < text.length) :
    (∀ t ∈ ts, ¬ t.Covers i) ↔ LeftOut text mode pos cs ts i := by
  -- the index is in the first piece, or behind it, where the same holds for the rest of the text
  induction h with
  | nil mode pos =>
    have hend := List.drop_eq_nil_iff.mp htext
    omega
  | backslash pos =>
    have hlength := congrArg List.length htext
    rw [List.length_drop, List.length_singleton] at hlength
    have hend : i + 1 = text.length := by omega
    exact iff_of_true (List.forall_mem_nil _) (.inr ⟨hend, rfl, by decide⟩)
  | @gap pos run rest ts hgap h ih =>
    by_cases hin : i < pos + run.length
    · refine iff_of_true (fun t ht hcovers => ?_) (hgap.leftOut htext h hpos hin)
      have hstart := (h.span t ht).1.trans hcovers.1
      omega
    · have hbehind := Nat.le_of_not_lt hin
      have hrest := ih (drop_run htext) hbehind
      rw [hrest, hgap.leftOut_behind htext h hbehind hi]
  | @token pos l run rest ts hfits h ih =>
    by_cases hin : i < pos + run.length
    · refine iff_of_false (fun hnone => ?_) (hfits.not_leftOut htext h hpos hin)
      exact hnone _ List.mem_cons_self ⟨hpos, hin⟩
    · have hbehind := Nat.le_of_not_lt hin
      have hrest := ih (drop_run htext) hbehind
      have hcovers : ¬ Token.Covers ⟨l, pos, pos + run.length⟩ i := fun hcovers => hin hcovers.2
      rw [List.forall_mem_cons, hrest, hfits.leftOut_behind htext h hbehind]
      exact and_iff_right hcovers

/-- The tokens tile the text. -/
structure TileText (text : List Char) (ts : List Token) : Prop where
  length_le : ts.length ≤ text.length
  spans : ∀ t ∈ ts, t.span.start < t.span.stop ∧ t.span.stop ≤ text.length
  ordered : ts.Pairwise fun t u => t.span.stop ≤ u.span.start
  /-- The characters in no span are layout and comments between string literals, and the last
  character if it is the backslash at which a string literal breaks off. -/
  uncovered : ∀ i < text.length, (∀ t ∈ ts, ¬ t.Covers i) ↔
    Skipped text (modeAt .normal ts) 0 i ∨
      (i + 1 = text.length ∧ finalMode ts = .string ∧ Odd (backslashesAtEnd text))
  /-- Each token is of the mode in which those before it leave the lexer. -/
  modes : ∀ before t after, ts = before ++ t :: after → t.lexeme.mode = finalMode before
  ends : finalMode ts = .string ↔ LiteralOpen ts
  atoms : ts.IsChain fun t u => t.lexeme.IsAtom → u.lexeme.IsAtom → t.span.stop < u.span.start

/-- The tokens of a source, of which there are at most as many as characters, tile the source: their
spans are not empty, lie inside the source and follow one another without overlap, what is outside
of them is known, and symbols, numbers and booleans never touch each other. -/
theorem tokens_tile_source (source : String) : TileText source.toList (tokens source) := by
  have htiled : Tiled .normal 0 source.toList (tokens source) := tiled_tokensFrom .normal 0 _
  have hstep : InStep .normal (tokens source) := inStep_tokensFrom .normal 0 _
  refine ⟨htiled.length_le, ?_, htiled.pairwise, ?_, ?_, ?_, htiled.atoms_apart⟩
  · intro t ht
    have hspan := htiled.span t ht
    omega
  · intro i hi
    rw [htiled.uncovered_iff List.drop_zero (Nat.zero_le i) hi, LeftOut, lastMode_normal]
  · intro before t after hsplit
    rw [hsplit] at hstep
    rw [lexeme_mode_of_inStep hstep, lastMode_normal]
  · rw [← lastMode_normal, lastMode_eq_string_iff hstep]
    simp only [reduceCtorEq, false_and, false_or]

end MiniLisp
