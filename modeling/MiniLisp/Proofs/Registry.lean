import MiniLisp.Proofs.SymbolTable
import MiniLisp.Registry

/-!
# Registries and tables

A registry that starts empty and is asked for names is at every step the table of these names: it
gives the same symbols, leads them back to the same names, and has the same size.
Main statement: `Registry.tracks_internAll`.
-/

namespace MiniLisp

/-- Both answer the next question alike, whatever it is. -/
structure Registry.Tracks (r : Registry) (t : Symbols) : Prop where
  intern : ∀ name, (r.intern name).1 = (t.intern name).1
  resolve : ∀ s, r.resolve? s = t.resolve? s
  size : r.size = t.size

namespace Registry

/-- The symbol of a name among names that are numbered from one on. -/
def symbolAmong (names : List String) (name : String) : Option Symbol :=
  if name ∈ names then some ⟨names.idxOf name + 1⟩ else none

def nameAmong (names : List String) (s : Symbol) : Option String :=
  if 1 ≤ s.id then names[(s.id - 1).toNat]? else none

section

variable {names : List String} {name : String}

theorem symbolAmong_concat (h : name ∉ names) (n : String) :
    symbolAmong (names ++ [name]) n
      = if name = n then some ⟨names.length + 1⟩ else symbolAmong names n := by
  unfold symbolAmong
  rw [List.idxOf_append]
  by_cases hn : name = n
  · subst hn
    rw [if_pos (List.mem_append_right names List.mem_cons_self), if_neg h, if_pos rfl,
      List.idxOf_cons_self, Nat.zero_add]
  · have hiff : n ∈ names ++ [name] ↔ n ∈ names := by
      rw [List.mem_append, List.mem_singleton, or_iff_left (Ne.symm hn)]
    rw [if_neg hn]
    by_cases hin : n ∈ names
    · rw [if_pos (hiff.mpr hin), if_pos hin, if_pos hin]
    · rw [if_neg (mt hiff.mp hin), if_neg hin]

theorem nameAmong_concat (s : Symbol) :
    nameAmong (names ++ [name]) s
      = if (names.length : Int) + 1 = s.id then some name else nameAmong names s := by
  unfold nameAmong
  by_cases hs : (names.length : Int) + 1 = s.id
  · have hidx : (s.id - 1).toNat = names.length := by omega
    rw [if_pos hs, if_pos (by omega), hidx, List.getElem?_concat_length]
  · rw [if_neg hs, List.getElem?_append]
    split
    · split
      · rfl
      · have hlt : names.length < (s.id - 1).toNat := by omega
        rw [List.getElem?_eq_none (Nat.le_of_lt hlt), List.getElem?_eq_none (Nat.sub_pos_of_lt hlt)]
    · rfl

end

/-- The registry holds exactly these names, with the identities from one on. -/
structure Holds (r : Registry) (names : List String) : Prop where
  symbol : ∀ name, r.symbol? name = symbolAmong names name
  resolve : ∀ s, r.resolve? s = nameAmong names s
  next : r.next = names.length + 1
  size : r.size = names.length

variable {r : Registry} {names : List String} {name : String}

theorem holds_empty : empty.Holds [] := by
  refine ⟨fun name => rfl, fun s => ?_, rfl, rfl⟩
  rw [nameAmong, List.getElem?_nil, ite_self]
  rfl

theorem intern_of_mem (h : r.Holds names) (hmem : name ∈ names) :
    r.intern name = (⟨names.idxOf name + 1⟩, r) := by
  rw [intern, h.symbol, symbolAmong, if_pos hmem]

theorem intern_of_notMem (h : r.Holds names) (hmem : name ∉ names) :
    (r.intern name).1 = ⟨names.length + 1⟩ ∧ (r.intern name).2.Holds (names ++ [name]) := by
  -- the name is a new key in one dictionary and the identity in the other: no entry is lost
  have habsent : r.symbol? name = none := by rw [h.symbol, symbolAmong, if_neg hmem]
  have hlength : (names ++ [name]).length = names.length + 1 := List.length_append
  rw [intern, habsent]
  refine ⟨congrArg Symbol.mk h.next, fun n => ?_, fun s => ?_, ?_, ?_⟩
  · rw [symbol?, valueOf?_putEntry, symbolAmong_concat hmem, ← h.symbol n, h.next]
    rfl
  · rw [resolve?, valueOf?_putEntry, nameAmong_concat, ← h.resolve s, h.next]
    rfl
  · rw [h.next, hlength]
    rfl
  · rw [size, length_putEntry _ habsent, hlength, ← h.size]
    rfl

variable {t : Symbols}

/-- One step: the registry gives the symbol that the table gives, and holds the names of the table
again. -/
theorem holds_intern (h : r.Holds t.names) (name : String) :
    (r.intern name).1 = (t.intern name).1 ∧ (r.intern name).2.Holds (t.intern name).2.names := by
  by_cases hmem : name ∈ t.names
  · rw [intern_of_mem h hmem, Symbols.intern, dif_pos hmem]
    exact ⟨rfl, h⟩
  · rw [Symbols.intern, dif_neg hmem]
    exact intern_of_notMem h hmem

theorem Holds.tracks (h : r.Holds t.names) : r.Tracks t :=
  ⟨fun name => (holds_intern h name).1, h.resolve, h.size⟩

theorem holds_internAll (h : r.Holds t.names) (names : List String) :
    (r.internAll names).1 = (t.internAll names).1 ∧
      (r.internAll names).2.Holds (t.internAll names).2.names := by
  induction names generalizing r t with
  | nil => exact ⟨rfl, h⟩
  | cons name names ih =>
    obtain ⟨hsymbol, hnext⟩ := holds_intern h name
    obtain ⟨hsymbols, hlast⟩ := ih hnext
    exact ⟨congr (congrArg List.cons hsymbol) hsymbols, hlast⟩

/-- Names that are all different, and none of which the registry holds, are held in their order. -/
theorem holds_internAll_of_nodup {more : List String} (h : r.Holds names)
    (hnodup : (names ++ more).Nodup) : (r.internAll more).2.Holds (names ++ more) := by
  induction more generalizing r names with
  | nil =>
    rw [List.append_nil]
    exact h
  | cons name more ih =>
    have hmem : name ∉ names := fun hin =>
      (List.nodup_append.mp hnodup).2.2 name hin name List.mem_cons_self rfl
    rw [List.append_cons] at hnodup ⊢
    exact ih (intern_of_notMem h hmem).2 hnodup

theorem holds_initial : initial.Holds Symbols.initial.names :=
  holds_internAll_of_nodup holds_empty Symbols.initial.nodup

/-- The reserved names that are interned into an empty registry give the reserved symbols, and from
then on registry and table give the same symbols and answer the next question alike, after whatever
names. -/
theorem tracks_internAll (names : List String) :
    (empty.internAll reservedNames).1 = reservedSymbols ∧
    (initial.internAll names).1 = (Symbols.initial.internAll names).1 ∧
    (initial.internAll names).2.Tracks (Symbols.initial.internAll names).2 := by
  obtain ⟨hsymbols, hlast⟩ := holds_internAll holds_initial names
  exact ⟨by decide, hsymbols, hlast.tracks⟩

end Registry

end MiniLisp
