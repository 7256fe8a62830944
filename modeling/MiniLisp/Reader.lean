import MiniLisp.ReadError
import MiniLisp.Token.Lexer
import MiniLisp.Value

/-!
# From tokens to forms

A reader keeps the frames of forms that have been begun but not completed, so that a form may be
spread over several chunks of text. A frame is an open list, or a mark that waits for the one form
it applies to. A chunk that fails leaves no frame open; the names it has interned stay.
-/

namespace MiniLisp

inductive OpenFrame where
  /-- A list with the elements read so far, the newest first. -/
  | list (items : List Value)
  /-- A mark that waits for its form. -/
  | awaiting (mark : Symbol)

/-- The state of a reader: the table of symbols, and the open frames, the innermost first. -/
structure Reader where
  symbols : Symbols
  stack : List OpenFrame

namespace Reader

def ofSymbols (symbols : Symbols) : Reader := ⟨symbols, []⟩

def pending (r : Reader) : Nat := r.stack.length

/-- Applies the waiting marks to a completed form and adds the result to the innermost open list;
with no open list the result is a form of its own. -/
def settle : List OpenFrame → Value → List OpenFrame × Option Value
  | .awaiting mark :: rest, v => settle rest (.list [.symbol mark, v])
  | .list items :: rest, v => (.list (v :: items) :: rest, none)
  | [], v => ([], some v)

/-- The state within a chunk: the reader, the decoded text of the string literal that is open, and
the forms completed so far, the newest first. -/
structure Progress where
  reader : Reader
  literal : Option (List Char)
  forms : List Value

namespace Progress

def enter (p : Progress) (frame : OpenFrame) : Progress :=
  { p with reader := { p.reader with stack := frame :: p.reader.stack } }

/-- Hands over a completed form, given the frames that are open around it. -/
def deliver (p : Progress) (stack : List OpenFrame) (v : Value) : Progress :=
  match settle stack v with
  | (stack, none) => { p with reader := { p.reader with stack := stack } }
  | (stack, some v) =>
    { p with reader := { p.reader with stack := stack }, forms := v :: p.forms }

def feedNormal (p : Progress) (t : Token) : Except ReadError Progress :=
  match t.lexeme with
  | .openParen => .ok (p.enter (.list []))
  | .quote => .ok (p.enter (.awaiting Symbol.quote))
  | .quasiquote => .ok (p.enter (.awaiting Symbol.quasiquote))
  | .unquote => .ok (p.enter (.awaiting Symbol.unquote))
  | .unquoteSplice => .ok (p.enter (.awaiting Symbol.unquoteSplice))
  | .closeParen => match p.reader.stack with
    | .list items :: rest => .ok (p.deliver rest (.list items.reverse))
    | _ => .error ⟨.unexpectedClose, some t.span⟩
  | .openString => .ok { p with literal := some [] }
  | .symbol name =>
    let (s, symbols) := p.reader.symbols.intern name
    .ok ({ p with reader := { p.reader with symbols := symbols } }.deliver p.reader.stack
      (.symbol s))
  | .boolean b => .ok (p.deliver p.reader.stack (.bool b))
  | .number x => .ok (p.deliver p.reader.stack (.number x))
  | .unknown _ => .error ⟨.unknownCharacter, some t.span⟩
  | .text _ | .closeString | .badEscape _ => .error ⟨.modeMismatch, some t.span⟩

/-- One token inside the string literal whose text so far is `cs`. -/
def feedString (p : Progress) (cs : List Char) (t : Token) : Except ReadError Progress :=
  match t.lexeme with
  | .text more => .ok { p with literal := some (cs ++ more) }
  | .closeString =>
    .ok ({ p with literal := none }.deliver p.reader.stack (.string (String.ofList cs)))
  | .badEscape _ => .error ⟨.unknownCharacter, some t.span⟩
  | _ => .error ⟨.modeMismatch, some t.span⟩

def feed (p : Progress) (t : Token) : Except ReadError Progress :=
  match p.literal with
  | none => p.feedNormal t
  | some cs => p.feedString cs t

/-- All tokens of a chunk, up to the first that fails; a string literal must end in its chunk. -/
def run (p : Progress) : List Token → Progress × Option ReadError
  | [] => (p, if p.literal.isSome then some ⟨.unterminatedString, none⟩ else none)
  | t :: ts => match p.feed t with
    | .ok q => q.run ts
    | .error e => (p, some e)

end Progress

/-- The result of a reading, the reader after it, and the number of open frames that were dropped
because it failed. -/
structure Reading (α : Type) where
  result : Except ReadError α
  reader : Reader
  discarded : Nat

def reset (r : Reader) : Reading Unit := ⟨.ok (), ofSymbols r.symbols, r.pending⟩

def fail (r : Reader) (e : ReadError) : Reading α := ⟨.error e, ofSymbols r.symbols, r.pending⟩

def feed (r : Reader) (chunk : String) : Reading (List Value) :=
  match (Progress.mk r none []).run (tokens chunk) with
  | (p, none) => ⟨.ok p.forms.reverse, p.reader, 0⟩
  | (p, some e) => p.reader.fail e

def finish (r : Reader) : Reading Unit :=
  if r.stack.isEmpty then ⟨.ok (), r, 0⟩ else r.fail ⟨.unexpectedEnd r.pending, none⟩

def readAll (r : Reader) (source : String) : Reading (List Value) :=
  let fed := r.feed source
  match fed.result with
  | .error e => ⟨.error e, fed.reader, fed.discarded⟩
  | .ok forms =>
    let done := fed.reader.finish
    ⟨done.result.map fun _ => forms, done.reader, done.discarded⟩

end Reader

end MiniLisp
