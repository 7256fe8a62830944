import MiniLisp.Symbol

/-!
# Tables of symbols

A name has one symbol and a symbol has one name, at whatever moment they are asked for: interning a
name that a table knows changes nothing, and interning a new one adds this name with the next number
and nothing else. So after any sequence of names the numbers in use are the first ones.
Main statements: `Symbols.resolve?_intern_iff` and `Symbols.interning_is_bijection`.
-/

namespace MiniLisp.Symbols

/-- Every symbol keeps its name. -/
def Keeps (t t' : Symbols) : Prop :=
  ∀ s name, t.resolve? s = some name → t'.resolve? s = some name

theorem keeps_intern (t : Symbols) (name : String) : t.Keeps (t.intern name).2 :=
  fun s n h => t.resolve?_of_intern name s n h

theorem Keeps.refl (t : Symbols) : t.Keeps t := fun _ _ h => h

theorem Keeps.trans {t t' t'' : Symbols} (h : t.Keeps t') (h' : t'.Keeps t'') : t.Keeps t'' :=
  fun s name hs => h' s name (h s name hs)

theorem keeps_internAll (t : Symbols) (names : List String) : t.Keeps (t.internAll names).2 := by
  induction names generalizing t with
  | nil => exact .refl t
  | cons name names ih => exact (t.keeps_intern name).trans (ih _)

theorem Keeps.map_resolve? {t t' : Symbols} (h : t.Keeps t') {ss : List Symbol}
    {names : List String} (hs : ss.map t.resolve? = names.map some) :
    ss.map t'.resolve? = names.map some := by
  induction ss generalizing names with
  | nil => exact hs
  | cons s ss ih =>
    cases names with
    | nil => cases hs
    | cons name names =>
      rw [List.map_cons, List.map_cons, List.cons.injEq] at hs ⊢
      exact ⟨h s name hs.1, ih hs.2⟩

theorem resolve?_reserved (t : Symbols) (k : Nat) (h : k < reservedNames.length) :
    t.resolve? ⟨k + 1⟩ = some reservedNames[k] := by
  obtain ⟨more, hmore⟩ := t.reserved
  have hpos : (1 : Int) ≤ (k : Int) + 1 := by omega
  have hidx : ((k : Int) + 1 - 1).toNat = k := by omega
  simp only [resolve?, hpos, ite_true, hidx, ← hmore]
  rw [List.getElem?_append_left h, List.getElem?_eq_getElem h]

theorem intern_of_resolve? (t : Symbols) (s : Symbol) (name : String)
    (h : t.resolve? s = some name) : t.intern name = (s, t) := by
  unfold resolve? at h
  split at h
  · rename_i hpos
    obtain ⟨hlt, hname⟩ := List.getElem?_eq_some_iff.mp h
    have hmem : name ∈ t.names := hname ▸ List.getElem_mem hlt
    have hidx : t.names.idxOf name = (s.id - 1).toNat := by
      rw [← hname]
      exact t.nodup.idxOf_getElem _ hlt
    have hid : ((s.id - 1).toNat : Int) + 1 = s.id := by omega
    rw [intern, dif_pos hmem, hidx, hid]
  · cases h

theorem eq_of_resolve? {t : Symbols} {s u : Symbol} {name : String}
    (hs : t.resolve? s = some name) (hu : t.resolve? u = some name) : s = u := by
  have hpair := (t.intern_of_resolve? s name hs).symm.trans (t.intern_of_resolve? u name hu)
  exact congrArg Prod.fst hpair

/-- A name gives a symbol and leaves the table alone exactly if the symbol gives the name. -/
theorem intern_eq_iff {t : Symbols} {s : Symbol} {name : String} :
    t.intern name = (s, t) ↔ t.resolve? s = some name := by
  constructor
  · intro h
    have hname := t.resolve?_intern name
    rwa [h] at hname
  · exact t.intern_of_resolve? s name

theorem isSome_resolve?_iff {t : Symbols} {s : Symbol} :
    (t.resolve? s).isSome ↔ 1 ≤ s.id ∧ s.id ≤ t.size := by
  unfold resolve? size
  split
  · rw [Option.isSome_iff_ne_none, ne_eq, List.getElem?_eq_none_iff]
    omega
  · simp only [Option.isSome_none, Bool.false_eq_true, false_iff, not_and]
    omega

/-- Interning adds at most the one entry that it returns. -/
theorem resolve?_intern_iff {t : Symbols} {name n : String} {s : Symbol} :
    (t.intern name).2.resolve? s = some n ↔
      t.resolve? s = some n ∨ (s = (t.intern name).1 ∧ n = name) := by
  constructor
  · intro h
    by_cases hn : n = name
    · subst hn
      exact .inr ⟨eq_of_resolve? h (t.resolve?_intern n), rfl⟩
    · left
      unfold resolve? at h ⊢
      rw [names_intern] at h
      split at h
      · rename_i hpos
        rw [if_pos hpos]
        split at h
        · exact h
        · rw [List.getElem?_append] at h
          split at h
          · exact h
          · exact absurd (List.mem_singleton.mp (List.mem_of_getElem? h)) hn
      · cases h
  · rintro (h | ⟨rfl, rfl⟩)
    · exact t.resolve?_of_intern name s n h
    · exact t.resolve?_intern n

theorem mem_names_intern {t : Symbols} {name n : String} :
    n ∈ (t.intern name).2.names ↔ n = name ∨ n ∈ t.names := by
  rw [names_intern]
  split
  · rename_i hmem
    exact ⟨.inr, fun h => h.elim (fun heq => heq ▸ hmem) id⟩
  · rw [List.mem_append, List.mem_singleton, or_comm]

theorem intern_of_mem {t : Symbols} {name : String} (h : name ∈ t.names) :
    (t.intern name).2 = t := by
  rw [intern, dif_pos h]

theorem intern_of_notMem {t : Symbols} {name : String} (h : name ∉ t.names) :
    (t.intern name).1 = ⟨t.size + 1⟩ ∧ (t.intern name).2.size = t.size + 1 := by
  rw [intern, dif_neg h]
  exact ⟨rfl, List.length_append⟩

theorem map_resolve?_initial : reservedSymbols.map initial.resolve? = reservedNames.map some := by
  rfl

theorem isSome_resolve?_initial {s : Symbol} :
    (initial.resolve? s).isSome ↔ s ∈ reservedSymbols := by
  obtain ⟨id⟩ := s
  have hsize : initial.size = 7 := rfl
  rw [isSome_resolve?_iff, hsize]
  simp only [reservedSymbols, Symbol.quote, Symbol.quasiquote, Symbol.unquote,
    Symbol.unquoteSplice, Symbol.rest, Symbol.fn, Symbol.macroHead, List.mem_cons,
    List.not_mem_nil, Symbol.mk.injEq, or_false]
  omega

theorem map_resolve?_internAll (t : Symbols) (names : List String) :
    (t.internAll names).1.map (t.internAll names).2.resolve? = names.map some := by
  induction names generalizing t with
  | nil => rfl
  | cons name names ih =>
    rw [internAll, List.map_cons, List.map_cons, ih,
      keeps_internAll _ names _ name (t.resolve?_intern name)]

theorem resolve?_of_mem_internAll (t : Symbols) {names : List String} {n : String}
    (hn : n ∈ names) : ∃ s, (t.internAll names).2.resolve? s = some n := by
  have hmem : some n ∈ (t.internAll names).1.map (t.internAll names).2.resolve? := by
    rw [map_resolve?_internAll]
    exact List.mem_map_of_mem hn
  obtain ⟨s, -, hs⟩ := List.mem_map.mp hmem
  exact ⟨s, hs⟩

theorem mem_names_internAll {t : Symbols} {names : List String} {n : String} :
    n ∈ (t.internAll names).2.names ↔ n ∈ t.names ∨ n ∈ names := by
  induction names generalizing t with
  | nil => simp only [internAll, List.not_mem_nil, or_false]
  | cons name names ih =>
    rw [internAll, ih, mem_names_intern, List.mem_cons, or_assoc, or_left_comm]

theorem isSome_resolve?_internAll {t : Symbols} {names : List String} {s : Symbol} :
    ((t.internAll names).2.resolve? s).isSome ↔
      (t.resolve? s).isSome ∨ s ∈ (t.internAll names).1 := by
  induction names generalizing t with
  | nil => simp only [internAll, List.not_mem_nil, or_false]
  | cons name names ih =>
    have hstep : ((t.intern name).2.resolve? s).isSome ↔
        (t.resolve? s).isSome ∨ s = (t.intern name).1 := by
      simp only [Option.isSome_iff_exists, resolve?_intern_iff, exists_or, exists_and_left,
        exists_eq, and_true]
    rw [internAll, ih, hstep, List.mem_cons, or_assoc]

/-- Names that symbols had at some time lead back to them. -/
theorem eq_map_intern {t : Symbols} {ss : List Symbol} {names : List String}
    (h : ss.map t.resolve? = names.map some) : ss = names.map fun name => (t.intern name).1 := by
  induction ss generalizing names with
  | nil =>
    rw [List.map_nil, List.nil_eq, List.map_eq_nil_iff] at h
    rw [h, List.map_nil]
  | cons s ss ih =>
    cases names with
    | nil => cases h
    | cons name names =>
      rw [List.map_cons, List.map_cons, List.cons.injEq] at h
      rw [List.map_cons, t.intern_of_resolve? s name h.1, ← ih h.2]

theorem getElem?_eq_iff_of_resolve? {t : Symbols} {ss : List Symbol} {names : List String}
    (h : ss.map t.resolve? = names.map some) (i j : Nat) :
    ss[i]? = ss[j]? ↔ names[i]? = names[j]? := by
  constructor
  · intro hij
    have hnames : (names.map some)[i]? = (names.map some)[j]? := by
      rw [← h, List.getElem?_map, List.getElem?_map, hij]
    rw [List.getElem?_map, List.getElem?_map] at hnames
    exact (Option.map_inj_right fun _ _ => Option.some.inj).mp hnames
  · intro hij
    rw [eq_map_intern h, List.getElem?_map, List.getElem?_map, hij]

/-- The table of symbols is a bijection that only grows. After any names that are interned into a
fresh table, behind the ones that it starts with: each symbol that was given for a name has this
name now; two of them are the same exactly if the names are; they are those with the numbers from
one to the size of the table, the symbols that the table starts with being different ones; and other
symbols have no name and are shown as nameless. A name gives a symbol without a change of the table
exactly if the symbol gives the name. Interning a known name changes nothing; a new one gets the
next number, and this entry is the only one that is added in either direction. -/
theorem interning_is_bijection (names : List String) :
    let t := (initial.internAll names).2
    let asked := reservedNames ++ names
    let given := reservedSymbols ++ (initial.internAll names).1
    given.map t.resolve? = asked.map some ∧
    (∀ i j : Nat, given[i]? = given[j]? ↔ asked[i]? = asked[j]?) ∧
    reservedSymbols.Nodup ∧
    (∀ s, s ∈ given ↔ 1 ≤ s.id ∧ s.id ≤ t.size) ∧
    (∀ s : Symbol, ¬ (1 ≤ s.id ∧ s.id ≤ t.size) →
      t.resolve? s = none ∧ t.naming.nameOf s = namelessText) ∧
    (∀ s name, t.intern name = (s, t) ↔ t.resolve? s = some name) ∧
    (∀ name ∈ asked, (t.intern name).2 = t) ∧
    (∀ name ∉ asked, (t.intern name).2.size = t.size + 1 ∧ ∀ s n,
      ((t.intern name).2.resolve? s = some n ↔
        t.resolve? s = some n ∨ (s = ⟨t.size + 1⟩ ∧ n = name)) ∧
      ((t.intern name).2.intern n = (s, (t.intern name).2) ↔
        t.intern n = (s, t) ∨ (s = ⟨t.size + 1⟩ ∧ n = name))) := by
  intro t asked given
  have hnames : given.map t.resolve? = asked.map some := by
    rw [List.map_append, List.map_append, map_resolve?_internAll,
      (keeps_internAll initial names).map_resolve? map_resolve?_initial]
  have hgiven : ∀ s, s ∈ given ↔ (t.resolve? s).isSome := by
    intro s
    rw [isSome_resolve?_internAll, isSome_resolve?_initial, List.mem_append]
  have hasked : ∀ name, name ∈ asked ↔ name ∈ t.names := by
    intro name
    rw [mem_names_internAll, List.mem_append]
    rfl
  refine ⟨hnames, getElem?_eq_iff_of_resolve? hnames, by decide, ?_, ?_, ?_, ?_, ?_⟩
  · intro s
    rw [hgiven, isSome_resolve?_iff]
  · intro s hs
    have hnone : t.resolve? s = none := by
      rw [← isSome_resolve?_iff] at hs
      exact Option.not_isSome_iff_eq_none.mp hs
    refine ⟨hnone, ?_⟩
    rw [Naming.nameOf, naming, hnone]
    rfl
  · intro s name
    exact intern_eq_iff
  · intro name hname
    exact intern_of_mem ((hasked name).mp hname)
  · intro name hname
    obtain ⟨hnumber, hsize⟩ := intern_of_notMem (mt (hasked name).mpr hname)
    refine ⟨hsize, fun s n => ?_⟩
    rw [intern_eq_iff, intern_eq_iff, resolve?_intern_iff, hnumber]
    exact ⟨Iff.rfl, Iff.rfl⟩

/-- A name asked for twice, and one that the table starts with: two symbols are new. -/
theorem interning_is_bijection_repeated :
    let names := ["x", "quote", "x", "y"]
    let t := (initial.internAll names).2
    (initial.internAll names).1 = [⟨8⟩, Symbol.quote, ⟨8⟩, ⟨9⟩] ∧ t.size = 9 ∧
    ("x" ∈ reservedNames ++ names ∧ (t.intern "x").2 = t) ∧
    (¬ (1 ≤ (⟨10⟩ : Symbol).id ∧ (⟨10⟩ : Symbol).id ≤ t.size) ∧ t.resolve? ⟨10⟩ = none ∧
      t.naming.nameOf ⟨10⟩ = namelessText) ∧
    ("z" ∉ reservedNames ++ names ∧ (t.intern "z").2.size = t.size + 1 ∧
      (t.intern "z").2.resolve? ⟨t.size + 1⟩ = some "z") := by
  intro names t
  obtain ⟨_, _, _, _, houtside, _, hknown, hnew⟩ := interning_is_bijection names
  have hx : "x" ∈ reservedNames ++ names := by decide
  have hz : "z" ∉ reservedNames ++ names := by decide
  have hten : ¬ (1 ≤ (⟨10⟩ : Symbol).id ∧ (⟨10⟩ : Symbol).id ≤ t.size) := by decide
  obtain ⟨hsize, hentry⟩ := hnew "z" hz
  exact ⟨by decide, by decide, ⟨hx, hknown "x" hx⟩, ⟨hten, houtside ⟨10⟩ hten⟩,
    hz, hsize, (hentry ⟨t.size + 1⟩ "z").1.mpr (.inr ⟨rfl, rfl⟩)⟩

end MiniLisp.Symbols
