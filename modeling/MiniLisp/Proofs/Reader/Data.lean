import MiniLisp.Proofs.Reader.Holding
import MiniLisp.Proofs.Reader.Lexing

/-!
# What can be read

The values that have a text to be read from: booleans, numbers, strings, symbols whose name is read
as one symbol, and lists of these. Every form that a reader returns is one, whatever chunks it was
fed before, because its open frames hold nothing else.
Main statements: `isData_of_feed` and `isData_of_readAll`.
-/

namespace MiniLisp

/-- The value is built from booleans, numbers, strings and named symbols. -/
inductive Value.IsData (t : Symbols) : Value → Prop
  | bool (b : Bool) : IsData t (.bool b)
  | number (x : Float) (h : x.isNaN = false) : IsData t (.number x)
  | string (s : String) : IsData t (.string s)
  | symbol (s : Symbol) (name : String) (hs : t.resolve? s = some name)
      (hname : IsSymbolName name) : IsData t (.symbol s)
  | list (items : List Value) (h : ∀ v ∈ items, IsData t v) : IsData t (.list items)

theorem Value.IsData.mono {t t' : Symbols} {v : Value} (h : v.IsData t) (ht : t.Keeps t') :
    v.IsData t' := by
  induction h with
  | bool b => exact .bool b
  | number x h => exact .number x h
  | string s => exact .string s
  | symbol s name hs hname => exact .symbol s name (ht s name hs) hname
  | list items _ ih => exact .list items ih

/-- A mark of the reader: its name is in every table and is read as one symbol. -/
def Symbol.IsMark (s : Symbol) : Prop := ∀ t, (Value.symbol s).IsData t

theorem isMark_of_reserved (k : Nat) (h : k < reservedNames.length)
    (hrun : IsSymbolRun reservedNames[k].toList) : Symbol.IsMark ⟨k + 1⟩ := fun t =>
  .symbol _ _ (t.resolve?_reserved k h) ((isSymbolName_iff _).mpr hrun)

theorem isMark_of_mem (s : Symbol)
    (h : s ∈ [Symbol.quote, Symbol.quasiquote, Symbol.unquote, Symbol.unquoteSplice]) :
    s.IsMark := by
  simp only [List.mem_cons, List.not_mem_nil, or_false] at h
  rcases h with rfl | rfl | rfl | rfl
  · exact isMark_of_reserved 0 (by decide) ⟨by decide, List.all_eq_true.mp rfl, rfl⟩
  · exact isMark_of_reserved 1 (by decide) ⟨by decide, List.all_eq_true.mp rfl, rfl⟩
  · exact isMark_of_reserved 2 (by decide) ⟨by decide, List.all_eq_true.mp rfl, rfl⟩
  · exact isMark_of_reserved 3 (by decide) ⟨by decide, List.all_eq_true.mp rfl, rfl⟩

/-- What is read from sound lexemes is data. -/
theorem handed_isData : Handed Lexeme.Sound fun t v => v.IsData t where
  keeps ht hv := hv.mono ht
  bool _ b := .bool b
  number _ x hx := .number x hx
  string _ s := .string s
  symbol t name hname := .symbol _ name (t.resolve?_intern name) hname
  list _ items h := .list items h
  mark t s hs := isMark_of_mem s hs t

namespace Reader

/-- A reader that began empty and has been used in any way since; other users of its table may
have interned names in between. -/
inductive Reachable : Reader → Prop
  | empty (t : Symbols) : Reachable (ofSymbols t)
  | feed {r : Reader} (h : Reachable r) (chunk : String) : Reachable (r.feed chunk).reader
  | readAll {r : Reader} (h : Reachable r) (source : String) : Reachable (r.readAll source).reader
  | finish {r : Reader} (h : Reachable r) : Reachable r.finish.reader
  | reset {r : Reader} (h : Reachable r) : Reachable r.reset.reader
  | grow {r : Reader} (h : Reachable r) (t : Symbols) (ht : r.symbols.Keeps t) :
      Reachable { r with symbols := t }

theorem holds_of_reachable {r : Reader} (h : r.Reachable) : r.Holds fun t v => v.IsData t := by
  induction h with
  | empty t => exact holds_ofSymbols _ t
  | feed _ chunk ih => exact (handed_isData.feed ih (sound_tokensFrom _ _ _)).1
  | readAll _ source ih => exact (handed_isData.readAll ih (sound_tokensFrom _ _ _)).1
  | finish _ ih => exact holds_finish ih
  | reset _ _ => exact holds_ofSymbols _ _
  | grow _ t ht ih => exact fun frame hf => (ih frame hf).mono fun _ hv => hv.mono ht

/-- Every form that a reader returns is data. -/
theorem isData_of_feed {r : Reader} (h : r.Reachable) {chunk : String} {forms : List Value}
    (hf : (r.feed chunk).result = .ok forms) :
    ∀ v ∈ forms, v.IsData (r.feed chunk).reader.symbols :=
  (handed_isData.feed (holds_of_reachable h) (sound_tokensFrom _ _ _)).2 forms hf

theorem isData_of_readAll {r : Reader} (h : r.Reachable) {source : String} {forms : List Value}
    (hf : (r.readAll source).result = .ok forms) :
    ∀ v ∈ forms, v.IsData (r.readAll source).reader.symbols :=
  (handed_isData.readAll (holds_of_reachable h) (sound_tokensFrom _ _ _)).2 forms hf

end Reader

end MiniLisp
