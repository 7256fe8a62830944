import MiniLisp.Proofs.Reader.Progress

/-!
# Reading in chunks

A text that is cut at a line break is read as its two parts are, one after the other: outside string
literals no token runs over a line break, and the frames that are open at the cut carry over.
Main statement: `reading_in_chunks`.
-/

namespace MiniLisp

def Span.shift (k : Nat) (s : Span) : Span := ⟨k + s.start, k + s.stop⟩

def Token.shift (k : Nat) (t : Token) : Token := { t with span := t.span.shift k }

/-- The error as it is in a text that has `k` more characters at its start. -/
def ReadError.shift (k : Nat) (e : ReadError) : ReadError :=
  { e with span := e.span.map (·.shift k) }

def Token.respan (f : Span → Span) (t : Token) : Token := { t with span := f t.span }

def ReadError.respan (f : Span → Span) (e : ReadError) : ReadError :=
  { e with span := e.span.map f }

theorem tokensFrom_shift (k : Nat) (mode : Mode) (pos : Nat) (cs : List Char) :
    tokensFrom mode (k + pos) cs = (tokensFrom mode pos cs).map (Token.shift k) := by
  induction mode, pos, cs using tokensFrom.induct with
  | case1 mode pos cs h => rw [tokensFrom_stop _ h, tokensFrom_stop _ h, List.map_nil]
  | case2 mode pos cs w h ih =>
    rw [tokensFrom_skip _ h, tokensFrom_skip _ h, Nat.add_assoc]
    exact ih
  | case3 mode pos cs l w h ih =>
    rw [tokensFrom_found _ h, tokensFrom_found _ h, Nat.add_assoc, ih]
    rfl

theorem takeWhile_append_cons {p : Char → Bool} {c : Char} (hc : p c = false)
    (cs ds : List Char) : (cs ++ c :: ds).takeWhile p = cs.takeWhile p := by
  induction cs with
  | nil => exact List.takeWhile_cons_of_neg (by rw [hc]; decide)
  | cons d cs ih =>
    rw [List.cons_append, List.takeWhile_cons, List.takeWhile_cons, ih]

theorem scanNormal_append (c : Char) (cs ds : List Char) :
    scanNormal (c :: cs ++ '\n' :: ds) = scanNormal (c :: cs) := by
  have hcomment := takeWhile_append_cons (p := isCommentChar) (c := '\n') rfl cs ds
  have hatom := takeWhile_append_cons (p := isAtomChar) (c := '\n') (by decide) cs ds
  have hhead : (cs ++ '\n' :: ds).head? = some '@' ↔ cs.head? = some '@' := by
    cases cs with
    | nil => simp only [List.nil_append, List.head?_cons, List.head?_nil, Option.some.injEq,
        reduceCtorEq, iff_false]; decide
    | cons d cs => rfl
  simp only [scanNormal, List.cons_append, hcomment, hatom, hhead]

/-- Inside a string literal a line break only adds to the text that runs up to it. -/
theorem scanString_append {cs : List Char} {l : Lexeme} {w : Nat} (ds : List Char)
    (h : scanString cs = .found l w) :
    scanString (cs ++ '\n' :: ds) = .found l w ∨ ((∃ text, l = .text text) ∧ cs.drop w = []) := by
  cases cs with
  | nil => cases h
  | cons c cs =>
    simp only [scanString, List.cons_append] at h ⊢
    split at h
    · rename_i hquote
      rw [if_pos hquote]
      exact .inl h
    · rename_i hquote
      rw [if_neg hquote]
      split at h
      · rename_i hback
        rw [if_pos hback]
        cases cs with
        | nil => cases h
        | cons d cs => exact .inl h
      · rename_i hback
        rw [if_neg hback]
        cases h
        by_cases hlen : (cs.takeWhile isPlainChar).length = cs.length
        · right
          rw [List.length_cons, hlen]
          exact ⟨⟨_, rfl⟩, List.drop_length⟩
        · left
          rw [List.takeWhile_append, if_neg hlen]

/-- The text runs on to the end of the literal, or the token before a line break is as it was. -/
theorem scan_append {mode : Mode} {cs : List Char} {l : Lexeme} {w : Nat} (ds : List Char)
    (h : scan mode cs = .found l w) :
    scan mode (cs ++ '\n' :: ds) = .found l w ∨ ((∃ text, l = .text text) ∧ cs.drop w = []) := by
  cases mode with
  | normal =>
    cases cs with
    | nil => cases h
    | cons c cs => exact .inl ((scanNormal_append c cs ds).trans h)
  | string => exact scanString_append ds h

/-- Nothing is skipped inside a string literal. -/
theorem scanString_ne_skip (cs : List Char) (w : Nat) : scanString cs ≠ .skip w := by
  intro h
  have hscans := scans_scanString cs
  rw [h] at hscans
  cases hscans

theorem scan_append_skip {mode : Mode} {cs : List Char} {w : Nat} (ds : List Char)
    (h : scan mode cs = .skip w) : scan mode (cs ++ '\n' :: ds) = .skip w := by
  cases mode with
  | normal =>
    cases cs with
    | nil => cases h
    | cons c cs => exact (scanNormal_append c cs ds).trans h
  | string => exact absurd h (scanString_ne_skip cs w)

theorem eq_nil_of_scanNormal_stop {cs : List Char} (h : scanNormal cs = .stop) : cs = [] := by
  have hscans := scans_scanNormal cs
  rw [h] at hscans
  cases hscans with
  | nil => rfl

theorem width_le_of_scan {mode : Mode} {cs : List Char} {s : Scan} (h : scan mode cs = s)
    (hs : s ≠ .stop) : s.width ≤ cs.length := by
  have hw := (width_scan mode cs (by rw [h]; exact hs)).2
  rwa [h] at hw

/-- The position behind the break, counted from the start of the text and from a place in it. -/
theorem pos_break {cs : List Char} {w : Nat} (pos : Nat) (hw : w ≤ cs.length) :
    pos + w + (cs.drop w).length + 1 = pos + cs.length + 1 := by
  rw [List.length_drop]
  omega

theorem toList_break (a b : String) : (a ++ "\n" ++ b).toList = a.toList ++ '\n' :: b.toList := by
  rw [String.toList_append, String.toList_append, List.append_assoc]
  rfl

namespace Reader

namespace Progress

/-- What comes after a run that ended in order; one that failed has ended. -/
def andThen (next : Progress → Progress × Option ReadError) :
    Progress × Option ReadError → Progress × Option ReadError
  | (q, none) => next q
  | (q, some e) => (q, some e)

/-- Behind a line break a run goes on as if it began there, if no literal is open. -/
theorem run_append (p : Progress) (mode : Mode) (pos : Nat) (cs ds : List Char)
    (hmode : p.mode = mode)
    (hends : ∀ e ∈ (p.run (tokensFrom mode pos cs)).2, e.cause ≠ .unterminatedString) :
    p.run (tokensFrom mode pos (cs ++ '\n' :: ds))
      = andThen (fun q => q.run (tokensFrom .normal (pos + cs.length + 1) ds))
          (p.run (tokensFrom mode pos cs)) := by
  -- on the text before the break: what is left of it is followed by the same line break
  induction mode, pos, cs using tokensFrom.induct generalizing p with
  | case1 mode pos cs h =>
    rw [tokensFrom_stop pos h] at hends ⊢
    cases hp : p.literal with
    | some more =>
      simp only [run, hp, Option.isSome_some, ite_true] at hends
      exact absurd rfl (hends _ rfl)
    | none =>
      rw [mode_of_literal_none hp] at hmode
      subst hmode
      have hbreak : scan .normal ('\n' :: ds) = .skip 1 := rfl
      rw [eq_nil_of_scanNormal_stop h, List.nil_append, tokensFrom_skip pos hbreak]
      simp only [run, hp, Option.isSome_none, Bool.false_eq_true, ite_false]
      rfl
  | case2 mode pos cs w h ih =>
    have hw : w ≤ cs.length := width_le_of_scan h Scan.noConfusion
    rw [tokensFrom_skip pos h] at hends ⊢
    rw [tokensFrom_skip pos (scan_append_skip ds h), List.drop_append_of_le_length hw,
      ← pos_break pos hw]
    exact ih p hmode hends
  | case3 mode pos cs l w h ih =>
    have hw : w ≤ cs.length := width_le_of_scan h Scan.noConfusion
    rw [tokensFrom_found pos h] at hends ⊢
    rcases scan_append ds h with hsame | ⟨⟨text, rfl⟩, hnil⟩
    · rw [tokensFrom_found pos hsame, List.drop_append_of_le_length hw]
      cases hfeed : p.feed ⟨l, pos, pos + w⟩ with
      | error e => rw [run_feed_error _ hfeed, run_feed_error _ hfeed, andThen]
      | ok q =>
        rw [run_feed_ok _ hfeed] at hends ⊢
        rw [run_feed_ok _ hfeed, ← pos_break pos hw]
        exact ih q (mode_feed hfeed) hends
    · -- the text runs up to the end of the first part, so the literal is still open there
      obtain ⟨more, hp⟩ : ∃ more, p.literal = some more :=
        literal_of_mode_string (hmode.trans (mode_of_scan h).symm)
      rw [run_feed_ok _ (feed_text hp text _), hnil, tokensFrom_nil] at hends
      exact absurd rfl (hends _ rfl)

theorem feed_respan (p : Progress) (t : Token) (f : Span → Span) :
    p.feed (t.respan f) = (p.feed t).mapError (ReadError.respan f) := by
  obtain ⟨l, span⟩ := t
  cases hp : p.literal with
  | none =>
    simp only [feed, hp]
    cases l with
    | closeParen =>
      simp only [feedNormal, Token.respan]
      split <;> rfl
    | _ => rfl
  | some cs =>
    simp only [feed, hp]
    cases l <;> rfl

/-- Where the tokens stand is of account to nothing but the place of an error. -/
theorem run_respan (p : Progress) (ts : List Token) (f : Span → Span) :
    p.run (ts.map (Token.respan f)) = ((p.run ts).1, (p.run ts).2.map (ReadError.respan f)) := by
  induction ts generalizing p with
  | nil =>
    simp only [List.map_nil, run]
    split <;> rfl
  | cons t ts ih =>
    rw [List.map_cons]
    have hspan := feed_respan p t f
    cases hfeed : p.feed t with
    | error e =>
      rw [hfeed] at hspan
      rw [run_feed_error _ hfeed, run_feed_error _ hspan]
      rfl
    | ok q =>
      rw [hfeed] at hspan
      rw [run_feed_ok _ hfeed, run_feed_ok _ hspan]
      exact ih q

theorem run_shift (p : Progress) (ts : List Token) (k : Nat) :
    p.run (ts.map (Token.shift k)) = ((p.run ts).1, (p.run ts).2.map (ReadError.shift k)) :=
  run_respan p ts (Span.shift k)

/-- The state in which the forms `fs` had been completed before all others. -/
def after (fs : List Value) (p : Progress) : Progress := { p with forms := p.forms ++ fs }

theorem deliver_after (fs : List Value) (p : Progress) (stack : List OpenFrame) (v : Value) :
    (p.after fs).deliver stack v = (p.deliver stack v).after fs := by
  unfold deliver
  split <;> rfl

theorem feed_after (fs : List Value) (p : Progress) (t : Token) :
    (p.after fs).feed t = (p.feed t).map (after fs) := by
  obtain ⟨l, span⟩ := t
  have hliteral : (p.after fs).literal = p.literal := rfl
  cases hp : p.literal with
  | none =>
    simp only [feed, hliteral, hp]
    cases l with
    | closeParen =>
      simp only [feedNormal, after]
      split
      · exact congrArg Except.ok (deliver_after fs p _ _)
      · rfl
    | symbol name =>
      exact congrArg Except.ok (deliver_after fs
        { p with reader := { p.reader with symbols := (p.reader.symbols.intern name).2 } } _ _)
    | boolean b => exact congrArg Except.ok (deliver_after fs _ _ _)
    | number x => exact congrArg Except.ok (deliver_after fs _ _ _)
    | _ => rfl
  | some cs =>
    simp only [feed, hliteral, hp]
    cases l with
    | closeString =>
      exact congrArg Except.ok (deliver_after fs { p with literal := none } p.reader.stack _)
    | _ => rfl

theorem run_after (fs : List Value) (p : Progress) (ts : List Token) :
    (p.after fs).run ts = ((p.run ts).1.after fs, (p.run ts).2) := by
  induction ts generalizing p with
  | nil => rfl
  | cons t ts ih =>
    have hafter := feed_after fs p t
    cases hfeed : p.feed t with
    | error e =>
      rw [hfeed] at hafter
      rw [run_feed_error _ hfeed, run_feed_error _ hafter]
    | ok q =>
      rw [hfeed] at hafter
      rw [run_feed_ok _ hfeed, run_feed_ok _ hafter]
      exact ih q

theorem literal_of_run {p q : Progress} {ts : List Token} (h : p.run ts = (q, none)) :
    q.literal = none := by
  induction ts generalizing p with
  | nil =>
    rw [run] at h
    split at h
    · cases h
    · rename_i hnone
      cases h
      exact Option.not_isSome_iff_eq_none.mp hnone
  | cons t ts ih =>
    cases hfeed : p.feed t with
    | error e =>
      rw [run_feed_error _ hfeed] at h
      cases h
    | ok p' =>
      rw [run_feed_ok _ hfeed] at h
      exact ih h

end Progress

theorem run_tokens_append {r : Reader} {a : String} {result : Progress × Option ReadError}
    (h : (Progress.mk r none []).run (tokens a) = result)
    (hends : ∀ e ∈ result.2, e.cause ≠ .unterminatedString) (b : String) :
    (Progress.mk r none []).run (tokens (a ++ "\n" ++ b))
      = Progress.andThen (fun q => q.run ((tokens b).map (Token.shift (a.length + 1)))) result := by
  subst h
  have hlen : 0 + a.toList.length + 1 = a.length + 1 + 0 := by
    rw [String.length_toList]
    omega
  rw [tokens, toList_break, Progress.run_append _ .normal 0 a.toList b.toList rfl hends, hlen,
    tokensFrom_shift]
  rfl

theorem stack_of_feed_error {r : Reader} {chunk : String} {e : ReadError}
    (h : (r.feed chunk).result = .error e) : (r.feed chunk).reader.stack = [] := by
  rcases hrun : (Progress.mk r none []).run (tokens chunk) with ⟨p, none | e'⟩
  · rw [feed_of_run hrun] at h
    cases h
  · rw [feed_of_run_error hrun]
    rfl

/-- A chunk that is read in order goes on behind a line break with a chunk of its own. -/
theorem feed_append_of_ok {r : Reader} {a : String} {fa : List Value}
    (h : (r.feed a).result = .ok fa) (b : String) :
    r.feed (a ++ "\n" ++ b)
      = ⟨(((r.feed a).reader.feed b).result.map (fa ++ ·)).mapError
            (ReadError.shift (a.length + 1)),
          ((r.feed a).reader.feed b).reader, ((r.feed a).reader.feed b).discarded⟩ := by
  rcases hrun : (Progress.mk r none []).run (tokens a) with ⟨p, none | e⟩
  · rw [feed_of_run hrun] at h ⊢
    cases h
    -- the state at the break is a fresh one behind the forms completed so far
    have hp : p = (Progress.mk p.reader none []).after p.forms := by
      rw [← Progress.literal_of_run hrun]
      rfl
    have hall := run_tokens_append hrun (fun e he => by cases he) b
    rw [Progress.andThen, hp, Progress.run_after, Progress.run_shift] at hall
    rcases hb : (Progress.mk p.reader none []).run (tokens b) with ⟨q, none | e⟩
    · rw [hb] at hall
      rw [feed_of_run hall, feed_of_run hb]
      simp only [Progress.after, List.reverse_append]
      rfl
    · rw [hb] at hall
      rw [feed_of_run_error hall, feed_of_run_error hb]
      rfl
  · rw [feed_of_run_error hrun] at h
    cases h

theorem feed_append_of_error {r : Reader} {a : String} {e : ReadError}
    (h : (r.feed a).result = .error e) (he : e.cause ≠ .unterminatedString) (b : String) :
    r.feed (a ++ "\n" ++ b) = r.feed a := by
  rcases hrun : (Progress.mk r none []).run (tokens a) with ⟨p, none | e'⟩
  · rw [feed_of_run hrun] at h
    cases h
  · rw [feed_of_run_error hrun] at h ⊢
    cases h
    refine feed_of_run_error (run_tokens_append hrun (fun e' he' => ?_) b)
    cases he'
    exact he

end Reader

/-- Chunking does not change what is read. Let a first chunk be read, from any state: then the text
of both chunks, with a line break between them, is read exactly when the second chunk is, with the
forms of both and the same reader afterwards; or it fails as the second chunk does, only further on,
and nothing stays open. A first chunk that fails otherwise than by an open literal fails alike with
anything behind it. -/
theorem reading_in_chunks (r : Reader) (a b : String) :
    (∀ fa, (r.feed a).result = .ok fa →
      ((∃ forms, (r.feed (a ++ "\n" ++ b)).result = .ok forms) ↔
        ∃ fb, ((r.feed a).reader.feed b).result = .ok fb) ∧
      (∀ fb, ((r.feed a).reader.feed b).result = .ok fb →
        (r.feed (a ++ "\n" ++ b)).result = .ok (fa ++ fb) ∧
        (r.feed (a ++ "\n" ++ b)).reader = ((r.feed a).reader.feed b).reader) ∧
      (∀ e, ((r.feed a).reader.feed b).result = .error e →
        (r.feed (a ++ "\n" ++ b)).result = .error (e.shift (a.length + 1)) ∧
        (r.feed (a ++ "\n" ++ b)).reader = ((r.feed a).reader.feed b).reader ∧
        ((r.feed a).reader.feed b).reader.stack = [])) ∧
    ∀ e, (r.feed a).result = .error e → e.cause ≠ .unterminatedString →
      (r.feed (a ++ "\n" ++ b)).result = .error e ∧
      (r.feed (a ++ "\n" ++ b)).reader = (r.feed a).reader := by
  refine ⟨fun fa ha => ?_, fun e ha he => ?_⟩
  · have hall := Reader.feed_append_of_ok ha b
    rw [hall]
    refine ⟨?_, fun fb hb => ?_, fun e hb => ?_⟩
    · cases ((r.feed a).reader.feed b).result with
      | ok fb => exact ⟨fun _ => ⟨fb, rfl⟩, fun _ => ⟨fa ++ fb, rfl⟩⟩
      | error e => exact ⟨fun ⟨_, h⟩ => (nomatch h), fun ⟨_, h⟩ => (nomatch h)⟩
    · rw [hb]
      exact ⟨rfl, rfl⟩
    · refine ⟨?_, rfl, Reader.stack_of_feed_error hb⟩
      rw [hb]
      rfl
  · rw [Reader.feed_append_of_error ha he b]
    exact ⟨ha, rfl⟩

/-- The first chunk leaves a list open behind a comment; of the two that may follow it, one closes
the list and one closes what is not a list. -/
theorem reading_in_chunks_openList :
    ((Reader.ofSymbols Symbols.initial).feed "#t (#f ; (").result = .ok [.bool true] ∧
    ((Reader.ofSymbols Symbols.initial).feed ("#t (#f ; (" ++ "\n" ++ "y) ' (")).result
      = .ok ([.bool true] ++ [.list [.bool false, .symbol ⟨8⟩]]) ∧
    ((Reader.ofSymbols Symbols.initial).feed ("#t (#f ; (" ++ "\n" ++ "y) ' )")).result
      = .error ⟨.unexpectedClose, some ⟨16, 17⟩⟩ ∧
    ((Reader.ofSymbols Symbols.initial).feed (")" ++ "\n" ++ "x")).result
      = .error ⟨.unexpectedClose, some ⟨0, 1⟩⟩ := by
  have ha : ((Reader.ofSymbols Symbols.initial).feed "#t (#f ; (").result = .ok [.bool true] := by
    cbv
  have hb : (((Reader.ofSymbols Symbols.initial).feed "#t (#f ; (").reader.feed "y) ' (").result
      = .ok [.list [.bool false, .symbol ⟨8⟩]] := by cbv
  have hc : (((Reader.ofSymbols Symbols.initial).feed "#t (#f ; (").reader.feed "y) ' )").result
      = .error ⟨.unexpectedClose, some ⟨5, 6⟩⟩ := by cbv
  have hd : ((Reader.ofSymbols Symbols.initial).feed ")").result
      = .error ⟨.unexpectedClose, some ⟨0, 1⟩⟩ := by cbv
  obtain ⟨hok, _⟩ := reading_in_chunks (Reader.ofSymbols Symbols.initial) "#t (#f ; (" "y) ' ("
  obtain ⟨hfail, _⟩ := reading_in_chunks (Reader.ofSymbols Symbols.initial) "#t (#f ; (" "y) ' )"
  obtain ⟨_, hfirst⟩ := reading_in_chunks (Reader.ofSymbols Symbols.initial) ")" "x"
  exact ⟨ha, ((hok _ ha).2.1 _ hb).1, ((hfail _ ha).2.2 _ hc).1, (hfirst _ hd (by decide)).1⟩

end MiniLisp
