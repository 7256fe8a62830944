import MiniLisp.Proofs.Reader.Grammar

/-!
# What a reader accepts

The stack of a reader is the unfinished part of a derivation: a frame for each bracket that is not
closed and each mark that waits for its form. Main statement: `reading_accepts_grammar`.
-/

namespace MiniLisp

/-- The lexemes begin a sequence of forms, and the frames are those of the forms begun but not
completed, the innermost first. -/
inductive Begun : List OpenFrame → List Lexeme → Prop
  | forms (forms : List Tree) : Begun [] (Tree.yieldAll forms)
  | list {stack : List OpenFrame} {ls : List Lexeme} (items : List Value) (forms : List Tree)
      (h : Begun stack ls) : Begun (.list items :: stack) (ls ++ .openParen :: Tree.yieldAll forms)
  | mark {stack : List OpenFrame} {ls : List Lexeme} (m : Mark) (h : Begun stack ls) :
      Begun (.awaiting m.symbol :: stack) (ls ++ [m.lexeme])

theorem begun_nil {ls : List Lexeme} (h : Begun [] ls) : ∃ forms, Tree.yieldAll forms = ls := by
  cases h with
  | forms forms => exact ⟨forms, rfl⟩

namespace Begun

variable {stack : List OpenFrame} {ls : List Lexeme}

theorem settle (h : Begun stack ls) (t : Tree) (v : Value) :
    Begun (Reader.settle stack v).1 (ls ++ t.yield) := by
  induction h generalizing t v with
  | forms forms =>
    rw [← Tree.yieldAll_singleton t, ← Tree.yieldAll_append]
    exact .forms (forms ++ [t])
  | list items forms h _ =>
    rw [← Tree.yieldAll_singleton t, List.append_assoc, List.cons_append, ← Tree.yieldAll_append]
    exact .list (v :: items) (forms ++ [t]) h
  | mark m h ih =>
    rw [List.append_assoc]
    exact ih (.marked m t) _

theorem exists_completion (h : Begun stack ls) (t : Tree) :
    ∃ forms more, Tree.yieldAll forms = ls ++ (t.yield ++ more) := by
  -- the tree completes the innermost form, and each frame around it becomes a larger tree
  induction h generalizing t with
  | forms forms =>
    refine ⟨forms ++ [t], [], ?_⟩
    rw [Tree.yieldAll_append, Tree.yieldAll_singleton, List.append_nil]
  | list items forms h ih =>
    obtain ⟨all, more, hall⟩ := ih (.list (forms ++ [t]))
    refine ⟨all, .closeParen :: more, ?_⟩
    rw [hall, Tree.yield_list_append, Tree.yieldAll_append, Tree.yieldAll_singleton]
    simp only [List.append_assoc, List.cons_append]
  | mark m h ih =>
    obtain ⟨all, more, hall⟩ := ih (.marked m t)
    exact ⟨all, more, by rw [hall, List.append_assoc]; rfl⟩

theorem viable (h : Begun stack ls) : Viable ls := by
  obtain ⟨forms, more, hforms⟩ := h.exists_completion (.atom (.boolean true))
  exact ⟨forms, _, hforms⟩

theorem unfinished_append (h : Begun stack ls) {x : List Lexeme} (hx : Dangling x) :
    unfinished (ls ++ x) = unfinished x + stack.length := by
  -- each frame is one form that nothing behind it completes, so what follows stays dangling
  induction h generalizing x with
  | forms forms => exact unfinished_yieldAll forms x
  | list items forms h ih =>
    have hopen := hx.list forms
    rw [List.append_assoc, List.cons_append, ih hopen,
      unfinished_of_incomplete (l := .openParen) trivial hopen.incomplete, unfinished_yieldAll,
      List.length_cons]
    omega
  | mark m h ih =>
    have hopen := hx.mark m
    rw [List.append_assoc, List.singleton_append, ih hopen,
      unfinished_of_incomplete m.opens_lexeme hopen.incomplete, List.length_cons]
    omega

theorem unfinished_eq (h : Begun stack ls) : unfinished ls = stack.length := by
  have hall := h.unfinished_append dangling_nil
  rw [List.append_nil] at hall
  exact hall.trans (Nat.zero_add _)

end Begun

/-- Each token is of the mode in which the one before it leaves a lexer. -/
def InStep : Mode → List Token → Prop
  | _, [] => True
  | mode, t :: ts => t.lexeme.mode = mode ∧ InStep t.lexeme.nextMode ts

theorem inStep_tokensFrom (mode : Mode) (pos : Nat) (cs : List Char) :
    InStep mode (tokensFrom mode pos cs) := by
  induction mode, pos, cs using tokensFrom.induct with
  | case1 mode pos cs h =>
    rw [tokensFrom_stop _ h]
    trivial
  | case2 mode pos cs w h ih =>
    rw [tokensFrom_skip _ h]
    exact ih
  | case3 mode pos cs l w h ih =>
    rw [tokensFrom_found _ h]
    exact ⟨mode_of_scan h, ih⟩

/-- The mode in which the tokens leave a lexer that began in the given mode. -/
def lastMode : Mode → List Token → Mode
  | mode, [] => mode
  | _, t :: ts => lastMode t.lexeme.nextMode ts

theorem lastMode_cons (mode : Mode) (t : Token) (ts : List Token) :
    lastMode mode (t :: ts) = finalMode (t :: ts) := by
  induction ts generalizing mode t with
  | nil => rfl
  | cons u ts ih => rw [lastMode, ih, finalMode, finalMode, List.getLast?_cons_cons]

theorem lastMode_normal (ts : List Token) : lastMode .normal ts = finalMode ts := by
  cases ts with
  | nil => rfl
  | cons t ts => exact lastMode_cons _ t ts

namespace Reader.Progress

/-- The reader has read the lexemes: they begin the forms on its stack, and behind them the parts
of the literal that is open, if one is. -/
def HasRead (p : Progress) (ls : List Lexeme) : Prop :=
  match p.literal with
  | none => Begun p.reader.stack ls
  | some _ => ∃ (before : List Lexeme) (parts : List (List Char)),
      ls = before ++ .openString :: parts.map .text ∧ Begun p.reader.stack before

theorem hasRead_none {p : Progress} {ls : List Lexeme} (hp : p.literal = none) :
    p.HasRead ls ↔ Begun p.reader.stack ls := by
  rw [HasRead, hp]

theorem hasRead_some {p : Progress} {ls : List Lexeme} {cs : List Char}
    (hp : p.literal = some cs) :
    p.HasRead ls ↔ ∃ (before : List Lexeme) (parts : List (List Char)),
      ls = before ++ .openString :: parts.map .text ∧ Begun p.reader.stack before := by
  rw [HasRead, hp]

theorem stack_deliver (p : Progress) (stack : List OpenFrame) (v : Value) :
    (p.deliver stack v).reader.stack = (settle stack v).1 := by
  unfold deliver
  split <;> rename_i heq <;> rw [heq]

theorem hasRead_deliver {p : Progress} {stack : List OpenFrame} {ls : List Lexeme}
    (hp : p.literal = none) (h : Begun stack ls) (t : Tree) (v : Value) :
    (p.deliver stack v).HasRead (ls ++ t.yield) := by
  rw [hasRead_none ((literal_deliver p stack v).trans hp), stack_deliver]
  exact h.settle t v

theorem hasRead_mark {p : Progress} {ls : List Lexeme} (hp : p.literal = none)
    (h : Begun p.reader.stack ls) (m : Mark) :
    (p.enter (.awaiting m.symbol)).HasRead (ls ++ [m.lexeme]) := by
  rw [hasRead_none (p := p.enter (.awaiting m.symbol)) hp]
  exact h.mark m

theorem hasRead_closeParen {p : Progress} {ls : List Lexeme} {items : List Value}
    {rest : List OpenFrame} (hp : p.literal = none) (h : Begun (.list items :: rest) ls)
    (v : Value) : (p.deliver rest v).HasRead (ls ++ [.closeParen]) := by
  cases h with
  | list _ forms h =>
    rw [List.append_assoc, List.cons_append]
    exact hasRead_deliver hp h (.list forms) v

theorem hasRead_feedNormal {p q : Progress} {t : Token} {ls : List Lexeme}
    (hp : p.literal = none) (h : Begun p.reader.stack ls) (hq : p.feedNormal t = .ok q) :
    q.HasRead (ls ++ [t.lexeme]) := by
  obtain ⟨l, span⟩ := t
  cases l with
  | openParen =>
    cases hq
    exact (hasRead_none (p := p.enter (.list [])) hp).mpr (h.list [] [])
  | closeParen =>
    simp only [feedNormal] at hq
    split at hq
    · rename_i items rest hstack
      cases hq
      exact hasRead_closeParen hp (hstack ▸ h) _
    · cases hq
  | boolean b =>
    cases hq
    exact hasRead_deliver hp h (.atom (.boolean b)) _
  | number x =>
    cases hq
    exact hasRead_deliver hp h (.atom (.number x)) _
  | symbol name =>
    cases hq
    exact hasRead_deliver
      (p := { p with reader := { p.reader with symbols := (p.reader.symbols.intern name).2 } })
      hp h (.atom (.symbol name)) _
  | quote =>
    cases hq
    exact hasRead_mark hp h .quote
  | quasiquote =>
    cases hq
    exact hasRead_mark hp h .quasiquote
  | unquote =>
    cases hq
    exact hasRead_mark hp h .unquote
  | unquoteSplice =>
    cases hq
    exact hasRead_mark hp h .unquoteSplice
  | openString =>
    cases hq
    exact (hasRead_some (p := { p with literal := some [] }) rfl).mpr ⟨ls, [], rfl, h⟩
  | unknown c => cases hq
  | text cs => cases hq
  | closeString => cases hq
  | badEscape c => cases hq

theorem hasRead_feedString {p q : Progress} {cs : List Char} {t : Token} {before : List Lexeme}
    {parts : List (List Char)} (h : Begun p.reader.stack before)
    (hq : p.feedString cs t = .ok q) :
    q.HasRead (before ++ .openString :: parts.map .text ++ [t.lexeme]) := by
  obtain ⟨l, span⟩ := t
  cases l with
  | text more =>
    cases hq
    refine (hasRead_some (p := { p with literal := some (cs ++ more) }) rfl).mpr
      ⟨before, parts ++ [more], ?_, h⟩
    rw [List.map_append, List.append_assoc, List.cons_append]
    rfl
  | closeString =>
    cases hq
    rw [List.append_assoc, List.cons_append]
    exact hasRead_deliver (p := { p with literal := none }) rfl h (.string parts) _
  | _ => cases hq

theorem hasRead_feed {p q : Progress} {t : Token} {ls : List Lexeme} (h : p.HasRead ls)
    (hq : p.feed t = .ok q) : q.HasRead (ls ++ [t.lexeme]) := by
  unfold feed at hq
  split at hq
  · rename_i hp
    exact hasRead_feedNormal hp ((hasRead_none hp).mp h) hq
  · rename_i cs hp
    obtain ⟨before, parts, rfl, hbegun⟩ := (hasRead_some hp).mp h
    exact hasRead_feedString hbegun hq

theorem viable_of_hasRead {p : Progress} {ls : List Lexeme} (h : p.HasRead ls) : Viable ls := by
  cases hp : p.literal with
  | none => exact ((hasRead_none hp).mp h).viable
  | some cs =>
    obtain ⟨before, parts, rfl, hbegun⟩ := (hasRead_some hp).mp h
    obtain ⟨forms, more, hforms⟩ := hbegun.exists_completion (.string parts)
    refine ⟨forms, .closeString :: more, ?_⟩
    rw [hforms, Tree.yield_string_append, List.append_assoc, List.cons_append]

/-- A token that is refused closes a bracket that is not open, or fits nowhere, or is of the mode
that the reader is not in. -/
theorem feed_error_cases {p : Progress} {t : Token} {e : ReadError} (h : p.feed t = .error e) :
    (e = ⟨.unexpectedClose, some t.span⟩ ∧ t.lexeme = .closeParen) ∨
    (e = ⟨.unknownCharacter, some t.span⟩ ∧ t.lexeme.IsError) ∨
    (e = ⟨.modeMismatch, some t.span⟩ ∧ t.lexeme.mode ≠ p.mode) := by
  obtain ⟨l, span⟩ := t
  cases hp : p.literal with
  | none =>
    rw [mode_of_literal_none hp]
    simp only [feed, hp] at h
    cases l with
    | closeParen =>
      simp only [feedNormal] at h
      split at h <;> cases h
      exact .inl ⟨rfl, rfl⟩
    | unknown c =>
      cases h
      exact .inr (.inl ⟨rfl, trivial⟩)
    | text _ | closeString | badEscape _ =>
      cases h
      exact .inr (.inr ⟨rfl, Mode.noConfusion⟩)
    | _ => cases h
  | some cs =>
    rw [mode_of_literal_some hp]
    simp only [feed, hp] at h
    cases l with
    | badEscape c =>
      cases h
      exact .inr (.inl ⟨rfl, trivial⟩)
    | text _ | closeString => cases h
    | _ =>
      cases h
      exact .inr (.inr ⟨rfl, Mode.noConfusion⟩)

/-- In the mode of the reader a token that fits somewhere fails only if it is a closing bracket. -/
theorem feed_error {p : Progress} {t : Token} {e : ReadError} (hmode : t.lexeme.mode = p.mode)
    (ht : ¬ t.lexeme.IsError) (h : p.feed t = .error e) :
    e = ⟨.unexpectedClose, some t.span⟩ := by
  rcases feed_error_cases h with ⟨hclose, _⟩ | ⟨_, herror⟩ | ⟨_, hother⟩
  · exact hclose
  · exact absurd herror ht
  · exact absurd hmode hother

/-- The tokens lead from `p` to `q`, whatever follows them. -/
def Reaches (p : Progress) (ts : List Token) (q : Progress) : Prop :=
  ∀ us, p.run (ts ++ us) = q.run us

theorem Reaches.refl (p : Progress) : p.Reaches [] p := fun _ => rfl

theorem Reaches.cons {p q q' : Progress} {t : Token} {ts : List Token} (h : p.feed t = .ok q)
    (hq : q.Reaches ts q') : p.Reaches (t :: ts) q' := fun us => by
  rw [List.cons_append, run_feed_ok _ h, hq us]

theorem Reaches.trans {p q q' : Progress} {ts us : List Token} (h : p.Reaches ts q)
    (hq : q.Reaches us q') : p.Reaches (ts ++ us) q' := fun ws => by
  rw [List.append_assoc, h, hq]

theorem Reaches.single {p q : Progress} {t : Token} (h : p.feed t = .ok q) : p.Reaches [t] q :=
  Reaches.cons h (.refl q)

theorem Reaches.run_eq {p q : Progress} {ts : List Token} (h : p.Reaches ts q) :
    p.run ts = q.run [] := by
  have hrun := h []
  rwa [List.append_nil] at hrun

def withSymbols (p : Progress) (t : Symbols) : Progress :=
  { p with reader := { p.reader with symbols := t } }

theorem withSymbols_deliver (p : Progress) (t : Symbols) (stack : List OpenFrame) (v : Value) :
    (p.deliver stack v).withSymbols t = (p.withSymbols t).deliver stack v := by
  unfold deliver
  split <;> rfl

theorem feed_atom {p : Progress} (hp : p.literal = none) (a : Atom) (span : Span) :
    p.feed ⟨a.lexeme, span⟩ = .ok ((p.withSymbols ((Tree.atom a).value p.reader.symbols).2).deliver
      p.reader.stack ((Tree.atom a).value p.reader.symbols).1) := by
  rw [feed, hp]
  cases a <;> rfl

theorem feed_mark {p : Progress} (hp : p.literal = none) (m : Mark) (span : Span) :
    p.feed ⟨m.lexeme, span⟩ = .ok (p.enter (.awaiting m.symbol)) := by
  rw [feed, hp]
  cases m <;> rfl

theorem feed_closeParen (t : Symbols) (stack : List OpenFrame) (forms vs : List Value)
    (span : Span) : feed ⟨⟨t, .list vs.reverse :: stack⟩, none, forms⟩ ⟨.closeParen, span⟩
      = .ok (deliver ⟨⟨t, stack⟩, none, forms⟩ stack (.list vs)) := by
  have hitems : vs.reverse.reverse = vs := List.reverse_reverse vs
  simp only [feed, feedNormal, hitems]
  rfl

theorem reaches_parts {p : Progress} {cs : List Char} (hp : p.literal = some cs)
    {ts : List Token} (parts : List (List Char)) (hts : ts.map Token.lexeme = parts.map .text) :
    p.Reaches ts { p with literal := some (cs ++ parts.flatten) } := by
  induction parts generalizing p cs ts with
  | nil =>
    rw [List.map_eq_nil_iff.mp hts, List.flatten_nil, List.append_nil, ← hp]
    exact .refl p
  | cons part parts ih =>
    obtain ⟨⟨l, span⟩, ts, rfl, rfl, hrest⟩ := List.map_eq_cons_iff.mp hts
    have hreach := ih (p := { p with literal := some (cs ++ part) }) rfl hrest
    rw [List.flatten_cons, ← List.append_assoc]
    exact .cons (feed_text hp part span) hreach

mutual

/-- The tokens of a form deliver its value. -/
theorem reaches_yield (t : Tree) {p : Progress} (hp : p.literal = none) {ts : List Token}
    (hts : ts.map Token.lexeme = t.yield) :
    p.Reaches ts ((p.withSymbols (t.value p.reader.symbols).2).deliver p.reader.stack
      (t.value p.reader.symbols).1) := by
  match t with
  | .atom a =>
    obtain ⟨⟨l, span⟩, ts, rfl, rfl, hrest⟩ := List.map_eq_cons_iff.mp hts
    rw [List.map_eq_nil_iff.mp hrest]
    exact .single (feed_atom hp a span)
  | .string parts =>
    obtain ⟨⟨l, span⟩, ts, rfl, rfl, hrest⟩ := List.map_eq_cons_iff.mp hts
    obtain ⟨inner, last, rfl, hinner, hlast⟩ := List.map_eq_append_iff.mp hrest
    obtain ⟨⟨l', span'⟩, last, rfl, rfl, hnil⟩ := List.map_eq_cons_iff.mp hlast
    have hopen : p.feed ⟨.openString, span⟩ = .ok { p with literal := some [] } := by
      rw [feed, hp]
      rfl
    have hparts := reaches_parts (p := { p with literal := some [] }) rfl parts hinner
    rw [List.map_eq_nil_iff.mp hnil]
    refine .cons hopen (hparts.trans (.single ?_))
    obtain ⟨reader, literal, forms⟩ := p
    cases hp
    rfl
  | .list items =>
    obtain ⟨⟨l, span⟩, ts, rfl, rfl, hrest⟩ := List.map_eq_cons_iff.mp hts
    obtain ⟨inner, last, rfl, hinner, hlast⟩ := List.map_eq_append_iff.mp hrest
    obtain ⟨⟨l', span'⟩, last, rfl, rfl, hnil⟩ := List.map_eq_cons_iff.mp hlast
    have hopen : p.feed ⟨.openParen, span⟩ = .ok (p.enter (.list [])) := by
      rw [feed, hp]
      rfl
    have hitems := reaches_yieldAll items (p := p.enter (.list [])) hp hinner
    rw [List.map_eq_nil_iff.mp hnil]
    refine .cons hopen (hitems.trans (.single ?_))
    obtain ⟨⟨symbols, stack⟩, literal, forms⟩ := p
    cases hp
    -- the items have been collected in the frame of the bracket, in reverse
    have hall := deliverAll_list (Tree.values symbols items).2 none forms stack []
      (Tree.values symbols items).1
    rw [List.append_nil] at hall
    exact (congrArg (feed · _) hall).trans (feed_closeParen _ stack forms _ span')
  | .marked m t =>
    obtain ⟨⟨l, span⟩, ts, rfl, rfl, hrest⟩ := List.map_eq_cons_iff.mp hts
    exact .cons (feed_mark hp m span) (reaches_yield t (p := p.enter (.awaiting m.symbol)) hp hrest)

theorem reaches_yieldAll (forms : List Tree) {p : Progress} (hp : p.literal = none)
    {ts : List Token} (hts : ts.map Token.lexeme = Tree.yieldAll forms) :
    p.Reaches ts ((p.withSymbols (Tree.values p.reader.symbols forms).2).deliverAll
      (Tree.values p.reader.symbols forms).1) := by
  match forms with
  | [] =>
    rw [List.map_eq_nil_iff.mp hts]
    exact .refl p
  | t :: forms =>
    obtain ⟨front, back, rfl, hfront, hback⟩ := List.map_eq_append_iff.mp hts
    have hfirst := reaches_yield t hp hfront
    have hrest := reaches_yieldAll forms (p := (p.withSymbols (t.value p.reader.symbols).2).deliver
      p.reader.stack (t.value p.reader.symbols).1) ((literal_deliver _ _ _).trans hp) hback
    rw [symbols_deliver, withSymbols_deliver] at hrest
    exact hfirst.trans hrest

end

theorem run_cases {p : Progress} {ls : List Lexeme} (h : p.HasRead ls) {ts : List Token}
    (hstep : InStep p.mode ts) (hts : ∀ t ∈ ts, ¬ t.lexeme.IsError) :
    (∃ q, p.Reaches ts q ∧ q.HasRead (ls ++ ts.map Token.lexeme) ∧ q.mode = lastMode p.mode ts) ∨
    ∃ before t after q, ts = before ++ t :: after ∧ p.Reaches before q ∧
      q.HasRead (ls ++ before.map Token.lexeme) ∧
      q.feed t = .error ⟨.unexpectedClose, some t.span⟩ := by
  induction ts generalizing p ls with
  | nil => exact .inl ⟨p, .refl p, (List.append_nil ls).symm ▸ h, rfl⟩
  | cons t ts ih =>
    cases hfeed : p.feed t with
    | error e =>
      obtain rfl := feed_error hstep.1 (hts t List.mem_cons_self) hfeed
      exact .inr ⟨[], t, ts, p, rfl, .refl p, (List.append_nil ls).symm ▸ h, hfeed⟩
    | ok q =>
      have hq := hasRead_feed h hfeed
      have hmode := mode_feed hfeed
      have hrest := ih hq (hmode ▸ hstep.2) fun u hu => hts u (List.mem_cons_of_mem t hu)
      simp only [List.append_assoc, List.singleton_append] at hrest
      rcases hrest with ⟨r, hr, hread, hlast⟩ | ⟨before, u, after, r, rfl, hr, hread, he⟩
      · exact .inl ⟨r, .cons hfeed hr, hread, by rw [hlast, hmode, lastMode]⟩
      · exact .inr ⟨t :: before, u, after, r, rfl, .cons hfeed hr, hread, he⟩

theorem run_yieldAll (symbols : Symbols) (forms : List Tree) {ts : List Token}
    (hts : ts.map Token.lexeme = Tree.yieldAll forms) :
    run ⟨⟨symbols, []⟩, none, []⟩ ts = (⟨⟨(Tree.values symbols forms).2, []⟩, none,
      (Tree.values symbols forms).1.reverse⟩, none) := by
  have hall := (reaches_yieldAll forms (p := ⟨⟨symbols, []⟩, none, []⟩) rfl hts).run_eq
  have hdeliver :=
    deliverAll_nil (Tree.values symbols forms).2 none [] (Tree.values symbols forms).1
  rw [List.append_nil] at hdeliver
  exact hall.trans (congrArg (run · []) hdeliver)

/-- A token that the reader refuses cannot be part of any sequence of forms. -/
theorem not_viable_of_feed_error {symbols : Symbols} {before : List Token} {t : Token}
    {q : Progress} {e : ReadError} (hq : Reaches ⟨⟨symbols, []⟩, none, []⟩ before q)
    (he : q.feed t = .error e) : ¬ Viable ((before ++ [t]).map Token.lexeme) := by
  rintro ⟨forms, more, hforms⟩
  have hmap : (before ++ t :: more.map (Token.mk · t.span)).map Token.lexeme
      = Tree.yieldAll forms := by
    rw [hforms, List.map_append, List.map_append, List.map_cons, List.map_map, List.append_assoc]
    exact congrArg _ (congrArg _ (List.map_id more))
  -- the tokens of the forms would lead past the token
  have hall := run_yieldAll symbols forms hmap
  rw [hq, run_feed_error _ he] at hall
  cases hall

end Reader.Progress

namespace Reader

theorem readAll_of_forms (symbols : Symbols) {source : String} {forms : List Tree}
    (h : (tokens source).map Token.lexeme = Tree.yieldAll forms) :
    (ofSymbols symbols).readAll source
      = ⟨.ok (Tree.values symbols forms).1, ofSymbols (Tree.values symbols forms).2, 0⟩ := by
  have hfeed := feed_of_run (r := ofSymbols symbols) (Progress.run_yieldAll symbols forms h)
  rw [List.reverse_reverse] at hfeed
  rw [readAll, hfeed]
  rfl

theorem readAll_of_feed_error {r : Reader} {source : String} {p : Progress} {e : ReadError}
    (h : (Progress.mk r none []).run (tokens source) = (p, some e)) :
    r.readAll source = p.reader.fail e := by
  rw [readAll, feed_of_run_error h]
  rfl

theorem readAll_of_open {r : Reader} {source : String} {p : Progress}
    (h : (Progress.mk r none []).run (tokens source) = (p, none)) (hp : p.reader.stack ≠ []) :
    r.readAll source = p.reader.fail ⟨.unexpectedEnd p.reader.pending, none⟩ := by
  have hempty : p.reader.stack.isEmpty = false := List.isEmpty_eq_false_iff.mpr hp
  rw [readAll, feed_of_run h]
  simp only [finish, hempty]
  rfl

/-- A source is a sequence of forms, or could have gone on to be one, or has a first token at which
it no longer could. -/
theorem readAll_cases (symbols : Symbols) {source : String}
    (hlex : ∀ t ∈ tokens source, ¬ t.lexeme.IsError)
    (hclosed : finalMode (tokens source) = .normal) :
    (∃ forms, Tree.yieldAll forms = (tokens source).map Token.lexeme) ∨
    (Viable ((tokens source).map Token.lexeme) ∧
      ((ofSymbols symbols).readAll source).result
        = .error ⟨.unexpectedEnd (unfinished ((tokens source).map Token.lexeme)), none⟩ ∧
      ((ofSymbols symbols).readAll source).reader.stack = []) ∨
    ∃ before t after, tokens source = before ++ t :: after ∧
      Viable (before.map Token.lexeme) ∧ ¬ Viable ((before ++ [t]).map Token.lexeme) ∧
      ((ofSymbols symbols).readAll source).result = .error ⟨.unexpectedClose, some t.span⟩ ∧
      ((ofSymbols symbols).readAll source).reader.stack = [] := by
  have hbegin : (Progress.mk (ofSymbols symbols) none []).HasRead [] := .forms []
  have hstep : InStep .normal (tokens source) := inStep_tokensFrom _ 0 source.toList
  rcases Progress.run_cases hbegin hstep hlex with
    ⟨q, hq, hread, hmode⟩ | ⟨before, t, after, q, hsplit, hq, hread, he⟩
  · have hnormal : q.mode = .normal := hmode.trans ((lastMode_normal _).trans hclosed)
    have hq' : q.literal = none := Progress.literal_of_mode_normal hnormal
    have hbegun : Begun q.reader.stack ((tokens source).map Token.lexeme) :=
      (Progress.hasRead_none hq').mp hread
    have hrun : (Progress.mk (ofSymbols symbols) none []).run (tokens source) = (q, none) := by
      rw [hq.run_eq, Progress.run, hq']
      rfl
    -- all tokens were read: with no frame left they are forms, else the end is what is refused
    by_cases hstack : q.reader.stack = []
    · exact .inl (begun_nil (hstack ▸ hbegun))
    · refine .inr (.inl ⟨hbegun.viable, ?_⟩)
      rw [readAll_of_open hrun hstack, hbegun.unfinished_eq]
      exact ⟨rfl, rfl⟩
  · have hrun : (Progress.mk (ofSymbols symbols) none []).run (tokens source)
        = (q, some ⟨.unexpectedClose, some t.span⟩) := by
      rw [hsplit, hq, Progress.run_feed_error _ he]
    refine .inr (.inr ⟨before, t, after, hsplit, Progress.viable_of_hasRead hread,
      Progress.not_viable_of_feed_error hq he, ?_⟩)
    rw [readAll_of_feed_error hrun]
    exact ⟨rfl, rfl⟩

end Reader

/-- The reader accepts exactly the sequences of forms. Let a source have no token that fits nowhere
and no literal left open. It is read if and only if its lexemes have a derivation; the derivation is
the only one, and its values are what is returned. Otherwise it fails at the first token with which
no sequence of forms begins, or, if there is none, at the end, where it tells how many brackets are
not closed and how many marks wait for their form. A failure leaves nothing open. -/
theorem reading_accepts_grammar (symbols : Symbols) (source : String)
    (hlex : ∀ t ∈ tokens source, ¬ t.lexeme.IsError)
    (hclosed : finalMode (tokens source) = .normal) :
    let lexemes := (tokens source).map Token.lexeme
    let reading := (Reader.ofSymbols symbols).readAll source
    ((∃ vs, reading.result = .ok vs) ↔ ∃ forms, Tree.yieldAll forms = lexemes) ∧
    (∀ forms, Tree.yieldAll forms = lexemes →
      (∀ others, Tree.yieldAll others = lexemes → others = forms) ∧
      reading.result = .ok (Tree.values symbols forms).1 ∧
      reading.reader = Reader.ofSymbols (Tree.values symbols forms).2) ∧
    ((∃ before, before <+: lexemes ∧ ¬ Viable before) →
      ∃ before t after, tokens source = before ++ t :: after ∧
        Viable (before.map Token.lexeme) ∧ ¬ Viable ((before ++ [t]).map Token.lexeme) ∧
        reading.result = .error ⟨.unexpectedClose, some t.span⟩ ∧ reading.reader.stack = []) ∧
    ((¬ ∃ forms, Tree.yieldAll forms = lexemes) → (∀ before, before <+: lexemes → Viable before) →
      reading.result = .error ⟨.unexpectedEnd (unfinished lexemes), none⟩ ∧
      reading.reader.stack = []) := by
  intro lexemes reading
  have hvalues : ∀ forms, Tree.yieldAll forms = lexemes →
      reading = ⟨.ok (Tree.values symbols forms).1, .ofSymbols (Tree.values symbols forms).2, 0⟩ :=
    fun forms h => Reader.readAll_of_forms symbols h.symm
  have hunique : ∀ forms, Tree.yieldAll forms = lexemes →
      ∀ others, Tree.yieldAll others = lexemes → others = forms :=
    fun forms h others h' => Tree.yieldAll_injective (h'.trans h.symm)
  have hread : ∀ forms, Tree.yieldAll forms = lexemes →
      reading.result = .ok (Tree.values symbols forms).1 ∧
      reading.reader = Reader.ofSymbols (Tree.values symbols forms).2 := fun forms h => by
    rw [hvalues forms h]
    exact ⟨rfl, rfl⟩
  refine ⟨⟨?_, fun ⟨forms, h⟩ => ⟨_, (hread forms h).1⟩⟩,
    fun forms h => ⟨hunique forms h, hread forms h⟩, ?_⟩
  · rintro ⟨vs, hvs⟩
    rcases Reader.readAll_cases symbols hlex hclosed with
      hforms | ⟨_, herror, _⟩ | ⟨_, _, _, _, _, _, herror, _⟩
    · exact hforms
    · exact nomatch hvs.symm.trans herror
    · exact nomatch hvs.symm.trans herror
  · rcases Reader.readAll_cases symbols hlex hclosed with
      ⟨forms, hforms⟩ | ⟨hviable, herror⟩ | ⟨before, t, after, hsplit, hbefore, ht, herror⟩
    · have hviable : Viable lexemes := ⟨forms, [], hforms.trans (List.append_nil _).symm⟩
      exact ⟨fun ⟨before, hp, hn⟩ => absurd (hviable.of_prefix hp) hn,
        fun hnone => absurd ⟨forms, hforms⟩ hnone⟩
    · exact ⟨fun ⟨before, hp, hn⟩ => absurd (hviable.of_prefix hp) hn, fun _ _ => herror⟩
    · have htokens : before ++ [t] <+: tokens source :=
        ⟨after, by rw [hsplit, List.append_assoc, List.singleton_append]⟩
      exact ⟨fun _ => ⟨before, t, after, hsplit, hbefore, ht, herror⟩,
        fun _ hall => absurd (hall _ (htokens.map Token.lexeme)) ht⟩

/-- A form under a mark; a bracket and two marks that nothing follows; and a bracket that is closed
while a mark waits for its form. -/
theorem reading_accepts_grammar_marks :
    ((Reader.ofSymbols Symbols.initial).readAll "'(#t \"ab\")").result
      = .ok [.list [.symbol Symbol.quote, .list [.bool true, .string "ab"]]] ∧
    ((Reader.ofSymbols Symbols.initial).readAll "(#t ' `").result
      = .error ⟨.unexpectedEnd 3, none⟩ ∧
    ∃ before t after, tokens "('))" = before ++ t :: after ∧
      Viable (before.map Token.lexeme) ∧ ¬ Viable ((before ++ [t]).map Token.lexeme) ∧
      ((Reader.ofSymbols Symbols.initial).readAll "('))").result
        = .error ⟨.unexpectedClose, some t.span⟩ := by
  have hform : tokens "'(#t \"ab\")" = [⟨.quote, 0, 1⟩, ⟨.openParen, 1, 2⟩, ⟨.boolean true, 2, 4⟩,
      ⟨.openString, 5, 6⟩, ⟨.text ['a', 'b'], 6, 8⟩, ⟨.closeString, 8, 9⟩,
      ⟨.closeParen, 9, 10⟩] := by
    cbv
  have hopen : tokens "(#t ' `" = [⟨.openParen, 0, 1⟩, ⟨.boolean true, 1, 3⟩, ⟨.quote, 4, 5⟩,
      ⟨.quasiquote, 6, 7⟩] := by cbv
  have hclose : tokens "('))" = [⟨.openParen, 0, 1⟩, ⟨.quote, 1, 2⟩, ⟨.closeParen, 2, 3⟩,
      ⟨.closeParen, 3, 4⟩] := by cbv
  refine ⟨?_, ?_, ?_⟩
  · have hall := reading_accepts_grammar Symbols.initial "'(#t \"ab\")"
      (by rw [hform]; simp [Lexeme.IsError]) (by rw [hform]; rfl)
    exact (hall.2.1 [.marked .quote (.list [.atom (.boolean true), .string [['a', 'b']]])]
      (by rw [hform]; rfl)).2.1
  · have hbegun : Begun [.awaiting Symbol.quasiquote, .awaiting Symbol.quote, .list [.bool true]]
        ((tokens "(#t ' `").map Token.lexeme) := by
      rw [hopen]
      exact .mark .quasiquote (.mark .quote (.list _ [.atom (.boolean true)] (.forms [])))
    have hall := reading_accepts_grammar Symbols.initial "(#t ' `"
      (by rw [hopen]; simp [Lexeme.IsError]) (by rw [hopen]; rfl)
    have hnone : ¬ ∃ forms, Tree.yieldAll forms = (tokens "(#t ' `").map Token.lexeme := by
      rintro ⟨forms, hforms⟩
      have hzero := unfinished_yieldAll forms []
      rw [List.append_nil, hforms, hbegun.unfinished_eq] at hzero
      cases hzero
    have herror := (hall.2.2.2 hnone fun _ hp => hbegun.viable.of_prefix hp).1
    rwa [hbegun.unfinished_eq] at herror
  · have hreach : Reader.Progress.Reaches ⟨⟨Symbols.initial, []⟩, none, []⟩
        [⟨.openParen, 0, 1⟩, ⟨.quote, 1, 2⟩] _ := .cons rfl (.single rfl)
    have hnot := Reader.Progress.not_viable_of_feed_error hreach (t := ⟨.closeParen, 2, 3⟩) rfl
    have hall := reading_accepts_grammar Symbols.initial "('))"
      (by rw [hclose]; simp [Lexeme.IsError]) (by rw [hclose]; rfl)
    obtain ⟨before, t, after, hsplit, hbefore, ht, herror, _⟩ := hall.2.2.1
      ⟨_, by rw [hclose]; exact ⟨[.closeParen], rfl⟩, hnot⟩
    exact ⟨before, t, after, hsplit, hbefore, ht, herror⟩

end MiniLisp
