import MiniLisp.Proofs.Reader.Progress
import MiniLisp.Value.Printer

/-!
# Reading undoes printing

The text of a datum is read as one form, which equals the datum; only the sign of zero is lost.
Main statement: `reading_undoes_printing`.
-/

namespace MiniLisp

namespace Value

mutual

/-- The value as it comes back from its text: zero has lost its sign. -/
def asRead : Value → Value
  | .number x => .number (Number.unsignedZero x)
  | .list items => .list (asReadAll items)
  | v => v

def asReadAll : List Value → List Value
  | [] => []
  | v :: vs => asRead v :: asReadAll vs

end

theorem equalAll_asReadAll {vs : List Value} (h : ∀ v ∈ vs, v.equal v.asRead = true) :
    equalAll vs (asReadAll vs) = true := by
  induction vs with
  | nil => rfl
  | cons v vs ih =>
    have hv := h v List.mem_cons_self
    have hvs := ih fun w hw => h w (List.mem_cons_of_mem v hw)
    simp only [asReadAll, equalAll, hv, hvs, Bool.and_self]

theorem equal_asRead {t : Symbols} {v : Value} (h : v.IsData t) : v.equal v.asRead = true := by
  induction h with
  | bool b => simp only [asRead, equal, decide_true]
  | number x hx => simp only [asRead, equal, Number.beq_unsignedZero x hx]
  | string s => simp only [asRead, equal, decide_true]
  | symbol s name _ _ => simp only [asRead, equal, decide_true]
  | list items _ ih => simp only [asRead, equal, equalAll_asReadAll ih]

end Value

namespace Reader.Progress

theorem scan_plain {c : Char} (cs : List Char) (hc : isPlainChar c = true) :
    scan .string (c :: cs)
      = .found (.text (c :: cs.takeWhile isPlainChar)) (c :: cs.takeWhile isPlainChar).length := by
  simp only [isPlainChar, Bool.and_eq_true, bne_iff_ne, ne_eq] at hc
  show scanString (c :: cs) = _
  simp only [scanString, hc.1, hc.2, ite_false]

/-- A run of plain characters may be read one character at a time. -/
theorem run_plain {p : Progress} {cs : List Char} (hp : p.literal = some cs) {c : Char}
    (hc : isPlainChar c = true) (pos : Nat) (rest : List Char) :
    p.run (tokensFrom .string pos (c :: rest))
      = run { p with literal := some (cs ++ [c]) } (tokensFrom .string (pos + 1) rest) := by
  rw [tokensFrom_found pos (scan_plain rest hc), run_feed_ok _ (feed_text hp _ _)]
  cases rest with
  | nil => rfl
  | cons d ds =>
    by_cases hd : isPlainChar d = true
    · have htake : (d :: ds).takeWhile isPlainChar = d :: ds.takeWhile isPlainChar :=
        List.takeWhile_cons_of_pos hd
      rw [tokensFrom_found (pos + 1) (scan_plain ds hd), run_feed_ok _ (feed_text rfl _ _), htake]
      simp only [List.append_assoc, List.cons_append, List.nil_append, List.length_cons,
        List.drop_succ_cons, Nat.add_assoc, Nat.add_comm 1]
      rfl
    · have htake : (d :: ds).takeWhile isPlainChar = [] := List.takeWhile_cons_of_neg hd
      rw [htake]
      rfl

theorem run_escaped {p : Progress} {cs : List Char} (hp : p.literal = some cs) {c m : Char}
    (hm : Text.escapeMark? c = some m) (pos : Nat) (rest : List Char) :
    p.run (tokensFrom .string pos ('\\' :: m :: rest))
      = run { p with literal := some (cs ++ [c]) } (tokensFrom .string (pos + 2) rest) := by
  have hscan : scan .string ('\\' :: m :: rest) = .found (.text [c]) 2 := by
    show scanString ('\\' :: m :: rest) = _
    have hquote : ('\\' : Char) ≠ '\x22' := by decide
    simp only [scanString, hquote, ite_false, ite_true, Text.unescape?_escapeMark? c m hm]
  rw [tokensFrom_found pos hscan, run_feed_ok _ (feed_text hp _ _)]
  rfl

theorem run_string {p : Progress} {cs : List Char} (hp : p.literal = some cs) (more : List Char)
    (pos : Nat) (rest : List Char) :
    ∃ pos', p.run (tokensFrom .string pos (more.flatMap Text.escape ++ '\x22' :: rest))
      = run ({ p with literal := none }.deliver p.reader.stack
          (.string (String.ofList (cs ++ more)))) (tokensFrom .normal pos' rest) := by
  -- on the characters still to come: each stands for itself or is escaped
  induction more generalizing p cs pos with
  | nil =>
    refine ⟨pos + 1, ?_⟩
    rw [List.flatMap_nil, List.nil_append, tokensFrom_closeString, List.append_nil]
    refine run_feed_ok _ ?_
    rw [feed, hp]
    rfl
  | cons c more ih =>
    have hassoc : cs ++ c :: more = cs ++ [c] ++ more := by
      rw [List.append_assoc, List.singleton_append]
    rw [List.flatMap_cons, hassoc]
    cases hm : Text.escapeMark? c with
    | some m =>
      rw [show Text.escape c = ['\\', m] by rw [Text.escape, hm]]
      obtain ⟨pos', hread⟩ := ih (p := { p with literal := some (cs ++ [c]) }) rfl (pos + 2)
      exact ⟨pos', (run_escaped hp hm pos _).trans hread⟩
    | none =>
      have hplain : isPlainChar c = true := by
        obtain ⟨hquote, hback, _⟩ := (Text.escapeMark?_eq_none_iff c).mp hm
        simp only [isPlainChar, Bool.and_eq_true, bne_iff_ne, ne_eq]
        exact ⟨hback, hquote⟩
      rw [show Text.escape c = [c] by rw [Text.escape, hm]]
      obtain ⟨pos', hread⟩ := ih (p := { p with literal := some (cs ++ [c]) }) rfl (pos + 1)
      exact ⟨pos', (run_plain hp hplain pos _).trans hread⟩

end Reader.Progress

open Reader.Progress

/-- With the given table the text is read as the value, wherever it stands and whatever separate
text follows it. -/
def ReadsAs (t : Symbols) (text : List Char) (v : Value) : Prop :=
  ∀ (p : Reader.Progress) (pos : Nat) (rest : List Char), p.literal = none → p.reader.symbols = t →
    Separated rest → ∃ pos', p.run (tokensFrom .normal pos (text ++ rest))
      = (p.deliver p.reader.stack v).run (tokensFrom .normal pos' rest)

variable {t : Symbols}

theorem readsAs_atom {run : List Char} {v : Value} (hne : run ≠ [])
    (hall : ∀ c ∈ run, isAtomChar c = true)
    (hfeed : ∀ (p : Reader.Progress) (span : Span), p.reader.symbols = t →
      p.feedNormal ⟨classify run, span⟩ = .ok (p.deliver p.reader.stack v)) :
    ReadsAs t run v := by
  intro p pos rest hp ht hrest
  refine ⟨pos + run.length, ?_⟩
  rw [tokensFrom_atom pos hne hall hrest]
  refine run_feed_ok _ ?_
  rw [feed, hp]
  exact hfeed p _ ht

theorem readsAs_bool (b : Bool) : ReadsAs t (Value.boolText b) (.bool b) := by
  cases b with
  | true => exact readsAs_atom (by decide) (List.all_eq_true.mp rfl) fun _ _ _ => rfl
  | false => exact readsAs_atom (by decide) (List.all_eq_true.mp rfl) fun _ _ _ => rfl

theorem readsAs_number (x : Float) (h : x.isNaN = false) :
    ReadsAs t (Number.text x) (.number (Number.unsignedZero x)) := by
  obtain ⟨l, hread, hvalue⟩ := Number.literal?_text x h
  have hall : ∀ c ∈ Number.text x, isAtomChar c = true := fun c hc =>
    isAtomChar_of_isNumberChar (Number.numberChars_of_literal? hread c hc)
  refine readsAs_atom (Number.text_ne_nil x) hall fun p span _ => ?_
  rw [classify_literal hread, hvalue]
  rfl

theorem readsAs_symbol (s : Symbol) (name : String) (hs : t.resolve? s = some name)
    (hname : IsSymbolName name) : ReadsAs t (Value.symbolText t.naming s) (.symbol s) := by
  have htext : Value.symbolText t.naming s = name.toList := by
    rw [Value.symbolText, Naming.nameOf, Symbols.naming, hs]
    rfl
  obtain ⟨hne, hall, hclass⟩ := (isSymbolName_iff name).mp hname
  rw [htext]
  refine readsAs_atom hne hall fun p span ht => ?_
  rw [hclass, String.ofList_toList]
  simp only [feedNormal, ht, t.intern_of_resolve? s name hs]
  subst ht
  rfl

theorem readsAs_string (s : String) :
    ReadsAs t (Text.stringLiteral s.toList) (.string s) := by
  intro p pos rest hp _ _
  obtain ⟨r, literal, forms⟩ := p
  have hnone : literal = none := hp
  subst hnone
  obtain ⟨pos', hread⟩ := run_string (p := ⟨r, some [], forms⟩) rfl s.toList (pos + 1) rest
  refine ⟨pos', ?_⟩
  have hopen : Reader.Progress.feed ⟨r, none, forms⟩ ⟨.openString, pos, pos + 1⟩
      = .ok ⟨r, some [], forms⟩ := rfl
  rw [Text.stringLiteral, List.cons_append, List.cons_append, List.append_assoc,
    List.singleton_append, tokensFrom_openString, run_feed_ok _ hopen, hread, List.nil_append,
    String.ofList_toList]

/-- The texts of values with blanks between them, each delivered in turn. -/
theorem run_spaced {names : Naming} (vs : List Value)
    (hvs : ∀ v ∈ vs, ReadsAs t (v.chars names) v.asRead) (p : Reader.Progress) (pos : Nat)
    (rest : List Char) (hp : p.literal = none) (ht : p.reader.symbols = t)
    (hrest : Separated rest) :
    ∃ pos', p.run (tokensFrom .normal pos (Text.spaced (vs.map (Value.chars names)) ++ rest))
      = (p.deliverAll (Value.asReadAll vs)).run (tokensFrom .normal pos' rest) := by
  induction vs generalizing p pos with
  | nil => exact ⟨pos, rfl⟩
  | cons v vs ih =>
    have hv := hvs v List.mem_cons_self
    have htail : ∀ w ∈ vs, ReadsAs t (w.chars names) w.asRead :=
      fun w hw => hvs w (List.mem_cons_of_mem v hw)
    have hp' := (literal_deliver p p.reader.stack v.asRead).trans hp
    have ht' := (symbols_deliver p p.reader.stack v.asRead).trans ht
    cases vs with
    | nil => exact hv p pos rest hp ht hrest
    | cons w ws =>
      -- the blank after the first text ends it and is skipped
      obtain ⟨pos', hfirst⟩ := hv p pos
        (' ' :: (Text.spaced ((w :: ws).map (Value.chars names)) ++ rest)) hp ht
        (separated_cons (by decide))
      obtain ⟨pos'', hothers⟩ := ih htail _ (pos' + 1) hp' ht'
      refine ⟨pos'', ?_⟩
      rw [List.map_cons, List.map_cons, Text.spaced_cons_cons, ← List.map_cons, List.append_assoc,
        List.cons_append, hfirst, tokensFrom_blank, hothers]
      rfl

theorem readsAs_list {names : Naming} (vs : List Value)
    (hvs : ∀ v ∈ vs, ReadsAs t (v.chars names) v.asRead) :
    ReadsAs t (Value.chars names (.list vs)) (.list (Value.asReadAll vs)) := by
  intro p pos rest hp ht hrest
  obtain ⟨⟨symbols, stack⟩, literal, forms⟩ := p
  have hnone : literal = none := hp
  subst hnone
  obtain ⟨pos', hread⟩ := run_spaced vs hvs ⟨⟨symbols, .list [] :: stack⟩, none, forms⟩ (pos + 1)
    (')' :: rest) rfl ht (separated_cons (by decide))
  rw [deliverAll_list, List.append_nil] at hread
  refine ⟨pos' + 1, ?_⟩
  have hopen : Reader.Progress.feed ⟨⟨symbols, stack⟩, none, forms⟩ ⟨.openParen, pos, pos + 1⟩
      = .ok ⟨⟨symbols, .list [] :: stack⟩, none, forms⟩ := rfl
  have hclose : Reader.Progress.feed
      ⟨⟨symbols, .list (Value.asReadAll vs).reverse :: stack⟩, none, forms⟩
        ⟨.closeParen, pos', pos' + 1⟩
      = .ok (Reader.Progress.deliver ⟨⟨symbols, stack⟩, none, forms⟩ stack
          (.list (Value.asReadAll vs).reverse.reverse)) := rfl
  rw [List.reverse_reverse] at hclose
  rw [Value.chars_list, List.cons_append, List.cons_append, List.append_assoc,
    List.singleton_append, tokensFrom_open, run_feed_ok _ hopen, hread, tokensFrom_close,
    run_feed_ok _ hclose]

theorem readsAs_of_isData {v : Value} (h : v.IsData t) :
    ReadsAs t (v.chars t.naming) v.asRead := by
  induction h with
  | bool b => exact readsAs_bool b
  | number x hx => exact readsAs_number x hx
  | string s => exact readsAs_string s
  | symbol s name hs hname => exact readsAs_symbol s name hs hname
  | list items _ ih => exact readsAs_list items ih

/-- The texts of data with blanks between them are read as these data by an empty reader, which is
empty again afterwards. -/
theorem feed_spaced (vs : List Value) (h : ∀ v ∈ vs, v.IsData t) :
    (Reader.ofSymbols t).feed (String.ofList (Text.spaced (vs.map (Value.chars t.naming))))
      = ⟨.ok (Value.asReadAll vs), Reader.ofSymbols t, 0⟩ := by
  obtain ⟨pos', hread⟩ := run_spaced vs (fun v hv => readsAs_of_isData (h v hv))
    ⟨⟨t, []⟩, none, []⟩ 0 [] rfl rfl separated_nil
  rw [List.append_nil, deliverAll_nil, List.append_nil, tokensFrom_nil] at hread
  unfold Reader.feed tokens Reader.ofSymbols
  rw [String.toList_ofList, hread]
  show Reader.Reading.mk (Except.ok (Value.asReadAll vs).reverse.reverse) _ 0 = _
  rw [List.reverse_reverse]

theorem readAll_spaced (vs : List Value) (h : ∀ v ∈ vs, v.IsData t) :
    (Reader.ofSymbols t).readAll (String.ofList (Text.spaced (vs.map (Value.chars t.naming))))
      = ⟨.ok (Value.asReadAll vs), Reader.ofSymbols t, 0⟩ := by
  unfold Reader.readAll
  rw [feed_spaced vs h]
  rfl

theorem readAll_print (v : Value) (h : v.IsData t) :
    (Reader.ofSymbols t).readAll (v.print t.naming)
      = ⟨.ok [v.asRead], Reader.ofSymbols t, 0⟩ := by
  have hall : ∀ w ∈ [v], w.IsData t := by
    intro w hw
    rw [List.mem_singleton.mp hw]
    exact h
  exact readAll_spaced [v] hall

/-- Reading undoes printing. From the text of a datum an empty reader returns exactly one form,
which equals the datum, a number bit by bit but for the sign of zero. Whatever a reader returns, at
any time of its life, is data, and its forms, printed with blanks between them and read again, are
the forms of the first reading. -/
theorem reading_undoes_printing :
    (∀ (t : Symbols) (v : Value), v.IsData t →
      (Reader.ofSymbols t).readAll (v.print t.naming) = ⟨.ok [v.asRead], Reader.ofSymbols t, 0⟩ ∧
      v.equal v.asRead = true) ∧
    (∀ (r : Reader) (chunk : String) (forms : List Value), r.Reachable →
      (r.feed chunk).result = .ok forms → ∀ v ∈ forms, v.IsData (r.feed chunk).reader.symbols) ∧
    (∀ (r : Reader) (source : String) (forms : List Value), r.Reachable →
      (r.readAll source).result = .ok forms →
        ∀ t, t = (r.readAll source).reader.symbols → (∀ v ∈ forms, v.IsData t) ∧
        (Reader.ofSymbols t).readAll
            (String.ofList (Text.spaced (forms.map (Value.chars t.naming))))
          = ⟨.ok (Value.asReadAll forms), Reader.ofSymbols t, 0⟩ ∧
        Value.equalAll forms (Value.asReadAll forms) = true) := by
  refine ⟨?_, ?_, ?_⟩
  · intro t v h
    exact ⟨readAll_print v h, Value.equal_asRead h⟩
  · intro r chunk forms hr hforms
    exact Reader.isData_of_feed hr hforms
  · rintro r source forms hr hforms t rfl
    have hdata := Reader.isData_of_readAll hr hforms
    refine ⟨hdata, readAll_spaced forms hdata, ?_⟩
    exact Value.equalAll_asReadAll fun v hv => Value.equal_asRead (hdata v hv)

/-- The form `(quote -0 "a\"b")`. -/
def quotedZero : Value :=
  .list [.symbol Symbol.quote, .number (Number.ofMagnitude true 0), .string "a\"b"]

theorem isData_quotedZero : quotedZero.IsData Symbols.initial := by
  refine .list _ fun v hv => ?_
  simp only [List.mem_cons, List.not_mem_nil, or_false] at hv
  rcases hv with rfl | rfl | rfl
  · exact isMark_of_mem _ (by decide) _
  · exact .number _ (by rfl)
  · exact .string _

theorem reading_undoes_printing_quotedZero :
    quotedZero.IsData Symbols.initial ∧
    (Reader.ofSymbols Symbols.initial).Reachable ∧
    ((Reader.ofSymbols Symbols.initial).feed (quotedZero.print Symbols.initial.naming)).result
      = .ok [quotedZero.asRead] ∧
    ((Reader.ofSymbols Symbols.initial).readAll (quotedZero.print Symbols.initial.naming)).result
      = .ok [quotedZero.asRead] ∧
    quotedZero.equal quotedZero.asRead = true ∧
    (∀ v ∈ [quotedZero.asRead], v.IsData Symbols.initial) ∧
    Value.equalAll [quotedZero.asRead] (Value.asReadAll [quotedZero.asRead]) = true := by
  have hall : ∀ v ∈ [quotedZero], v.IsData Symbols.initial := by
    intro v hv
    rw [List.mem_singleton.mp hv]
    exact isData_quotedZero
  obtain ⟨hprint, hfeed, hread⟩ := reading_undoes_printing
  obtain ⟨hone, hequal⟩ := hprint Symbols.initial quotedZero isData_quotedZero
  have hfed := feed_spaced [quotedZero] hall
  have hreader := congrArg Reader.Reading.reader hone
  have hdata := hfeed _ _ _ (.empty Symbols.initial) (congrArg Reader.Reading.result hfed)
  have hagain := hread _ _ _ (.empty Symbols.initial) (congrArg Reader.Reading.result hone)
    Symbols.initial (congrArg Reader.symbols hreader).symm
  rw [hfed] at hdata
  exact ⟨isData_quotedZero, .empty Symbols.initial, congrArg Reader.Reading.result hfed,
    congrArg Reader.Reading.result hone, hequal, hdata, hagain.2.2⟩

end MiniLisp
