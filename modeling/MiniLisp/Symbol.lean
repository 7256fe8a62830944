/-!
# Symbols and their names

A symbol is an identity without a name. A naming gives names to some symbols; the table of symbols
hands out the identities `1`, `2`, `3` and so on, one for each name, and never takes one back.
Main statements: a name and its symbol determine each other, and interning keeps every name.
-/

namespace MiniLisp

/-- A symbol, known by its number alone. -/
structure Symbol where
  id : Int
  deriving DecidableEq, Repr

namespace Symbol

def quote : Symbol := ⟨1⟩

def quasiquote : Symbol := ⟨2⟩

def unquote : Symbol := ⟨3⟩

def unquoteSplice : Symbol := ⟨4⟩

/-- The symbol before the name of a rest parameter. -/
def rest : Symbol := ⟨5⟩

def fn : Symbol := ⟨6⟩

def macroHead : Symbol := ⟨7⟩

end Symbol

/-- The names of symbols, where they have one. -/
abbrev Naming := Symbol → Option String

/-- What is shown for a symbol without a name. -/
def namelessText : String := "~~uninterned~~"

def Naming.nameOf (names : Naming) (s : Symbol) : String := (names s).getD namelessText

/-- The names that every table starts with, in the order of the symbols defined above. -/
def reservedNames : List String :=
  ["quote", "quasiquote", "unquote", "unquote-splice", "&rest", "fn", "macro"]

/-- The symbols of these names. -/
def reservedSymbols : List Symbol :=
  [Symbol.quote, Symbol.quasiquote, Symbol.unquote, Symbol.unquoteSplice, Symbol.rest, Symbol.fn,
    Symbol.macroHead]

/-- The names in use, in the order in which they were interned; none occurs twice. -/
structure Symbols where
  names : List String
  nodup : names.Nodup
  reserved : reservedNames <+: names

namespace Symbols

def initial : Symbols where
  names := reservedNames
  nodup := by decide
  reserved := List.prefix_rfl

instance : Inhabited Symbols := ⟨initial⟩

def size (t : Symbols) : Nat := t.names.length

/-- The name of a symbol, if the table has given it out. -/
def resolve? (t : Symbols) (s : Symbol) : Option String :=
  if 1 ≤ s.id then t.names[(s.id - 1).toNat]? else none

def naming (t : Symbols) : Naming := t.resolve?

def push (t : Symbols) (name : String) (h : name ∉ t.names) : Symbols where
  names := t.names ++ [name]
  nodup := by
    rw [List.nodup_append]
    refine ⟨t.nodup, by simp only [List.nodup_cons, List.not_mem_nil, not_false_eq_true,
      List.nodup_nil, and_self], ?_⟩
    intro a ha b hb he
    rw [List.mem_singleton] at hb
    exact h (hb ▸ he ▸ ha)
  reserved := List.IsPrefix.trans t.reserved (List.prefix_append _ _)

/-- The symbol of a name: the one that it has, or a new one. -/
def intern (t : Symbols) (name : String) : Symbol × Symbols :=
  if h : name ∈ t.names then (⟨t.names.idxOf name + 1⟩, t)
  else (⟨t.names.length + 1⟩, t.push name h)

def internAll (t : Symbols) : List String → List Symbol × Symbols
  | [] => ([], t)
  | name :: names =>
    let (s, t) := t.intern name
    let (ss, t) := t.internAll names
    (s :: ss, t)

theorem resolve?_intern (t : Symbols) (name : String) :
    (t.intern name).2.resolve? (t.intern name).1 = some name := by
  unfold intern
  split
  · rename_i h
    have hlt := List.idxOf_lt_length_of_mem h
    have h1 : (1 : Int) ≤ (t.names.idxOf name : Int) + 1 := by omega
    simp only [resolve?, h1, ite_true, Int.add_sub_cancel, Int.toNat_natCast]
    rw [List.getElem?_eq_getElem hlt, List.getElem_idxOf hlt]
  · have h1 : (1 : Int) ≤ (t.names.length : Int) + 1 := by omega
    simp only [resolve?, push, h1, ite_true, Int.add_sub_cancel, Int.toNat_natCast]
    rw [List.getElem?_append_right (Nat.le_refl _), Nat.sub_self, List.getElem?_cons_zero]

/-- Interning appends at most one name. -/
theorem names_intern (t : Symbols) (name : String) :
    (t.intern name).2.names = if name ∈ t.names then t.names else t.names ++ [name] := by
  unfold intern
  by_cases h : name ∈ t.names
  · rw [dif_pos h, if_pos h]
  · rw [dif_neg h, if_neg h]
    rfl

theorem resolve?_of_intern (t : Symbols) (name : String) (s : Symbol) (n : String)
    (h : t.resolve? s = some n) : (t.intern name).2.resolve? s = some n := by
  simp only [resolve?, names_intern] at h ⊢
  split at h
  · rename_i h1
    rw [if_pos h1]
    split
    · exact h
    · obtain ⟨hlt, _⟩ := List.getElem?_eq_some_iff.mp h
      rw [List.getElem?_append_left hlt]
      exact h
  · cases h

end Symbols

end MiniLisp
