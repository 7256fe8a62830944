import MiniLisp.Proofs.Reader.Progress

/-!
# The grammar of forms

A form is an atom, a string literal, a bracketed sequence of forms, or a mark and a form. A tree is
a derivation, its yield the lexemes it derives, and its value what it stands for.
Main statements: a sequence of lexemes has at most one derivation, and inside a derivation a
complete form begins at every opening bracket and at every mark.
-/

namespace MiniLisp

inductive Atom where
  | boolean (b : Bool)
  | number (x : Float)
  | symbol (name : String)

def Atom.lexeme : Atom → Lexeme
  | .boolean b => .boolean b
  | .number x => .number x
  | .symbol name => .symbol name

/-- A mark that is put before a form. -/
inductive Mark where
  | quote
  | quasiquote
  | unquote
  | unquoteSplice

namespace Mark

def lexeme : Mark → Lexeme
  | quote => .quote
  | quasiquote => .quasiquote
  | unquote => .unquote
  | unquoteSplice => .unquoteSplice

def symbol : Mark → Symbol
  | quote => Symbol.quote
  | quasiquote => Symbol.quasiquote
  | unquote => Symbol.unquote
  | unquoteSplice => Symbol.unquoteSplice

end Mark

/-- A derivation of a form; the text of a string literal may come in several parts. -/
inductive Tree where
  | atom (a : Atom)
  | string (parts : List (List Char))
  | list (items : List Tree)
  | marked (mark : Mark) (form : Tree)

namespace Tree

mutual

def yield : Tree → List Lexeme
  | .atom a => [a.lexeme]
  | .string parts => .openString :: (parts.map .text ++ [.closeString])
  | .list items => .openParen :: (yieldAll items ++ [.closeParen])
  | .marked mark form => mark.lexeme :: form.yield

def yieldAll : List Tree → List Lexeme
  | [] => []
  | t :: ts => t.yield ++ yieldAll ts

end

mutual

/-- The value of a tree, with the table of symbols once its names have been interned in order. -/
def value (symbols : Symbols) : Tree → Value × Symbols
  | .atom (.boolean b) => (.bool b, symbols)
  | .atom (.number x) => (.number x, symbols)
  | .atom (.symbol name) => (.symbol (symbols.intern name).1, (symbols.intern name).2)
  | .string parts => (.string (String.ofList parts.flatten), symbols)
  | .list items => (.list (values symbols items).1, (values symbols items).2)
  | .marked mark form =>
    (.list [.symbol mark.symbol, (value symbols form).1], (value symbols form).2)

def values (symbols : Symbols) : List Tree → List Value × Symbols
  | [] => ([], symbols)
  | t :: ts =>
    ((value symbols t).1 :: (values (value symbols t).2 ts).1, (values (value symbols t).2 ts).2)

end

theorem yieldAll_append (ts us : List Tree) : yieldAll (ts ++ us) = yieldAll ts ++ yieldAll us := by
  induction ts with
  | nil => rfl
  | cons t ts ih => rw [List.cons_append, yieldAll, yieldAll, ih, List.append_assoc]

theorem yieldAll_singleton (t : Tree) : yieldAll [t] = t.yield := by
  rw [yieldAll, yieldAll, List.append_nil]

theorem yield_string_append (parts : List (List Char)) (r : List Lexeme) :
    (string parts).yield ++ r = .openString :: (parts.map .text ++ .closeString :: r) := by
  rw [yield, List.cons_append, List.append_assoc, List.singleton_append]

theorem yield_list_append (items : List Tree) (r : List Lexeme) :
    (list items).yield ++ r = .openParen :: (yieldAll items ++ .closeParen :: r) := by
  rw [yield, List.cons_append, List.append_assoc, List.singleton_append]

theorem parts_unique {parts parts' : List (List Char)} {r s : List Lexeme}
    (h : parts.map Lexeme.text ++ .closeString :: r = parts'.map Lexeme.text ++ .closeString :: s) :
    parts = parts' ∧ r = s := by
  induction parts generalizing parts' with
  | nil =>
    cases parts' with
    | nil => exact ⟨rfl, (List.cons.inj h).2⟩
    | cons cs parts' => cases (List.cons.inj h).1
  | cons cs parts ih =>
    cases parts' with
    | nil => cases (List.cons.inj h).1
    | cons cs' parts' =>
      obtain ⟨hhead, htail⟩ := List.cons.inj h
      obtain ⟨rfl, rfl⟩ := ih htail
      cases hhead
      exact ⟨rfl, rfl⟩

/-- The first lexeme tells which alternative of the grammar applies. -/
theorem yield_cons (t : Tree) : ∃ l ls, t.yield = l :: ls ∧ l ≠ .closeParen := by
  cases t with
  | atom a => exact ⟨a.lexeme, [], rfl, by cases a <;> exact Lexeme.noConfusion⟩
  | string parts => exact ⟨_, _, rfl, Lexeme.noConfusion⟩
  | list items => exact ⟨_, _, rfl, Lexeme.noConfusion⟩
  | marked mark form => exact ⟨mark.lexeme, _, rfl, by cases mark <;> exact Lexeme.noConfusion⟩

mutual

theorem yield_unique (t u : Tree) {r s : List Lexeme} (h : t.yield ++ r = u.yield ++ s) :
    t = u ∧ r = s := by
  match t, u with
  | .atom a, .atom b =>
    obtain ⟨hhead, htail⟩ := List.cons.inj h
    have hab : a = b := by cases a <;> cases b <;> cases hhead <;> rfl
    exact ⟨congrArg atom hab, htail⟩
  | .string parts, .string parts' =>
    rw [yield_string_append, yield_string_append] at h
    obtain ⟨rfl, rfl⟩ := parts_unique (List.cons.inj h).2
    exact ⟨rfl, rfl⟩
  | .list items, .list items' =>
    rw [yield_list_append, yield_list_append] at h
    obtain ⟨rfl, rfl⟩ := yieldAll_unique items items' (List.cons.inj h).2
    exact ⟨rfl, rfl⟩
  | .marked m t, .marked n u =>
    obtain ⟨hhead, htail⟩ := List.cons.inj h
    obtain ⟨rfl, rfl⟩ := yield_unique t u htail
    have hmn : m = n := by cases m <;> cases n <;> first | rfl | cases hhead
    exact ⟨congrArg (marked · t) hmn, rfl⟩
  | .atom a, .string _ => cases a <;> cases (List.cons.inj h).1
  | .atom a, .list _ => cases a <;> cases (List.cons.inj h).1
  | .atom a, .marked m _ => cases a <;> cases m <;> cases (List.cons.inj h).1
  | .string _, .atom b => cases b <;> cases (List.cons.inj h).1
  | .string _, .list _ => cases (List.cons.inj h).1
  | .string _, .marked m _ => cases m <;> cases (List.cons.inj h).1
  | .list _, .atom b => cases b <;> cases (List.cons.inj h).1
  | .list _, .string _ => cases (List.cons.inj h).1
  | .list _, .marked m _ => cases m <;> cases (List.cons.inj h).1
  | .marked m _, .atom b => cases m <;> cases b <;> cases (List.cons.inj h).1
  | .marked m _, .string _ => cases m <;> cases (List.cons.inj h).1
  | .marked m _, .list _ => cases m <;> cases (List.cons.inj h).1

theorem yieldAll_unique (ts us : List Tree) {r s : List Lexeme}
    (h : yieldAll ts ++ .closeParen :: r = yieldAll us ++ .closeParen :: s) :
    ts = us ∧ r = s := by
  match ts, us with
  | [], [] => exact ⟨rfl, (List.cons.inj h).2⟩
  | [], u :: us =>
    obtain ⟨l, ls, hu, hl⟩ := yield_cons u
    rw [yieldAll, yieldAll, hu] at h
    exact absurd (List.cons.inj h).1.symm hl
  | t :: ts, [] =>
    obtain ⟨l, ls, ht, hl⟩ := yield_cons t
    rw [yieldAll, yieldAll, ht] at h
    exact absurd (List.cons.inj h).1 hl
  | t :: ts, u :: us =>
    rw [yieldAll, yieldAll, List.append_assoc, List.append_assoc] at h
    obtain ⟨rfl, htail⟩ := yield_unique t u h
    obtain ⟨rfl, rfl⟩ := yieldAll_unique ts us htail
    exact ⟨rfl, rfl⟩

end

/-- A sequence of lexemes is a sequence of forms in at most one way. -/
theorem yieldAll_injective {ts us : List Tree} (h : yieldAll ts = yieldAll us) : ts = us :=
  (yieldAll_unique ts us (congrArg (· ++ [Lexeme.closeParen]) h)).1

end Tree

/-- A character that fits nowhere, between string literals or inside one. -/
def Lexeme.IsError : Lexeme → Prop
  | .unknown _ | .badEscape _ => True
  | _ => False

/-- The lexemes can be continued to a sequence of forms. -/
def Viable (ls : List Lexeme) : Prop := ∃ forms more, Tree.yieldAll forms = ls ++ more

theorem Viable.of_prefix {ls ks : List Lexeme} (h : Viable ks) (hp : ls <+: ks) : Viable ls := by
  obtain ⟨forms, more, hforms⟩ := h
  obtain ⟨rest, rfl⟩ := hp
  exact ⟨forms, rest ++ more, by rw [hforms, List.append_assoc]⟩

/-- A form begins at the first of the lexemes and ends within them. -/
def CompleteForm (ls : List Lexeme) : Prop :=
  ∃ (t : Tree) (rest : List Lexeme), ls = t.yield ++ rest

/-- An opening bracket or a mark: what a form may be begun with and left unfinished. -/
def Lexeme.Opens : Lexeme → Prop
  | .openParen | .quote | .quasiquote | .unquote | .unquoteSplice => True
  | _ => False

theorem Mark.opens_lexeme (m : Mark) : m.lexeme.Opens := by
  cases m <;> trivial

open Classical in
/-- The number of brackets that are not closed and of marks that wait for their form. -/
noncomputable def unfinished : List Lexeme → Nat
  | [] => 0
  | l :: ls => unfinished ls + if l.Opens ∧ ¬ CompleteForm (l :: ls) then 1 else 0

theorem unfinished_of_complete {l : Lexeme} {ls : List Lexeme} (h : CompleteForm (l :: ls)) :
    unfinished (l :: ls) = unfinished ls := by
  rw [unfinished, if_neg fun hl => hl.2 h, Nat.add_zero]

theorem unfinished_of_not_opens {l : Lexeme} {ls : List Lexeme} (h : ¬ l.Opens) :
    unfinished (l :: ls) = unfinished ls := by
  rw [unfinished, if_neg fun hl => h hl.1, Nat.add_zero]

theorem unfinished_of_incomplete {l : Lexeme} {ls : List Lexeme} (hl : l.Opens)
    (h : ¬ CompleteForm (l :: ls)) : unfinished (l :: ls) = unfinished ls + 1 := by
  rw [unfinished, if_pos ⟨hl, h⟩]

theorem unfinished_parts (parts : List (List Char)) (r : List Lexeme) :
    unfinished (parts.map .text ++ .closeString :: r) = unfinished r := by
  induction parts with
  | nil => exact unfinished_of_not_opens id
  | cons cs parts ih => exact (unfinished_of_not_opens id).trans ih

mutual

/-- Nothing within a complete form is unfinished. -/
theorem unfinished_yield (t : Tree) (r : List Lexeme) :
    unfinished (t.yield ++ r) = unfinished r := by
  match t with
  | .atom a =>
    have hatom : ¬ a.lexeme.Opens := by cases a <;> exact id
    exact unfinished_of_not_opens hatom
  | .string parts =>
    rw [Tree.yield_string_append, unfinished_of_not_opens id, unfinished_parts]
  | .list items =>
    have hcomplete : CompleteForm (.openParen :: (Tree.yieldAll items ++ .closeParen :: r)) :=
      ⟨.list items, r, (Tree.yield_list_append items r).symm⟩
    rw [Tree.yield_list_append, unfinished_of_complete hcomplete, unfinished_yieldAll,
      unfinished_of_not_opens id]
  | .marked m t =>
    have hcomplete : CompleteForm (m.lexeme :: (t.yield ++ r)) := ⟨.marked m t, r, rfl⟩
    have hyield : (Tree.marked m t).yield ++ r = m.lexeme :: (t.yield ++ r) := rfl
    rw [hyield, unfinished_of_complete hcomplete, unfinished_yield]

theorem unfinished_yieldAll (ts : List Tree) (r : List Lexeme) :
    unfinished (Tree.yieldAll ts ++ r) = unfinished r := by
  match ts with
  | [] => rfl
  | t :: ts =>
    rw [Tree.yieldAll, List.append_assoc, unfinished_yield, unfinished_yieldAll]

end

/-- The lexemes neither complete a form nor close a bracket before them. -/
structure Dangling (ls : List Lexeme) : Prop where
  incomplete : ¬ CompleteForm ls
  head : ls.head? ≠ some .closeParen

theorem dangling_nil : Dangling [] := by
  refine ⟨fun ⟨t, rest, h⟩ => ?_, fun h => nomatch h⟩
  obtain ⟨l, ls, ht, _⟩ := t.yield_cons
  rw [ht] at h
  cases h

theorem Dangling.not_closed {x : List Lexeme} (hx : Dangling x) (forms items : List Tree)
    (rest : List Lexeme) :
    Tree.yieldAll forms ++ x ≠ Tree.yieldAll items ++ .closeParen :: rest := by
  -- on both sequences of forms: as long as both go on, they begin with the same form
  intro h
  induction forms generalizing items with
  | nil =>
    cases items with
    | nil => exact hx.head (congrArg List.head? h)
    | cons t items =>
      rw [Tree.yieldAll, Tree.yieldAll, List.nil_append, List.append_assoc] at h
      exact hx.incomplete ⟨t, _, h⟩
  | cons u forms ih =>
    cases items with
    | nil =>
      obtain ⟨l, ls, hu, hl⟩ := u.yield_cons
      rw [Tree.yieldAll, Tree.yieldAll, hu] at h
      exact hl (List.cons.inj h).1
    | cons t items =>
      rw [Tree.yieldAll, Tree.yieldAll, List.append_assoc, List.append_assoc] at h
      exact ih items (Tree.yield_unique u t h).2

theorem Dangling.list {x : List Lexeme} (hx : Dangling x) (forms : List Tree) :
    Dangling (.openParen :: (Tree.yieldAll forms ++ x)) := by
  refine ⟨fun ⟨t, rest, h⟩ => ?_, fun h => by cases h⟩
  cases t with
  | list items =>
    rw [Tree.yield_list_append] at h
    exact hx.not_closed forms items rest (List.cons.inj h).2
  | atom a => cases a <;> cases (List.cons.inj h).1
  | string parts => cases (List.cons.inj h).1
  | marked m t => cases m <;> cases (List.cons.inj h).1

theorem Dangling.mark {x : List Lexeme} (hx : Dangling x) (m : Mark) :
    Dangling (m.lexeme :: x) := by
  refine ⟨fun ⟨t, rest, h⟩ => ?_, fun h => by cases m <;> cases h⟩
  cases t with
  | marked n t => exact hx.incomplete ⟨t, rest, (List.cons.inj h).2⟩
  | atom a => cases a <;> cases m <;> cases (List.cons.inj h).1
  | string parts => cases m <;> cases (List.cons.inj h).1
  | list items => cases m <;> cases (List.cons.inj h).1

end MiniLisp
