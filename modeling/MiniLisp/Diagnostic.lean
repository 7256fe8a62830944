import MiniLisp.Locate
import MiniLisp.ReadError
import MiniLisp.Text.Slice

/-!
# Diagnostics

A diagnostic is a message with excerpts: texts in which a part is marked. A read error is shown on
the line where it begins; an evaluation error is shown in each of its frames, the innermost first.
The plain rendering puts carets under the marked part.
-/

namespace MiniLisp

/-- A text, the positions of the marked part, and how the text was entered. -/
structure Excerpt where
  text : List Char
  start : Int
  stop : Int
  label : Option String

/-- A message with its excerpts; an internal one is no fault of the user. -/
structure Diagnostic where
  message : String
  excerpts : List Excerpt
  internal : Bool

namespace Excerpt

/-- A place in a printed form. -/
def ofLocated (l : Located) (label : Option String) : Excerpt := ⟨l.text, l.start, l.stop, label⟩

/-- The line of a source that holds the position `start`; the marked part ends with the line. -/
def ofLine (source : List Char) (start stop : Int) : Excerpt :=
  let pos := Text.clampPosition source.length start
  let head := ((source.take pos).reverse.takeWhile (· != '\n')).reverse
  let tail := (source.drop pos).takeWhile (· != '\n')
  let lineStart := pos - head.length
  let lineStop := pos + tail.length
  ⟨head ++ tail, start - lineStart, min (max stop start) lineStop - lineStart, none⟩

def highlighted (e : Excerpt) : List Char := Text.slice e.text e.start e.stop

/-- The marks under the text: at least one caret, after as many blanks as the start says. -/
def carets (e : Excerpt) : List Char :=
  List.replicate e.start.toNat ' ' ++ List.replicate (max (e.stop - e.start) 1).toNat '^'

/-- The label on a line of its own, the text, and the marks. -/
def lines (e : Excerpt) : List (List Char) :=
  let label := match e.label with
    | none => []
    | some l => if l.isEmpty then [] else [' ' :: l.toList]
  label ++ [' ' :: '|' :: ' ' :: e.text, ' ' :: '|' :: ' ' :: e.carets]

end Excerpt

namespace Diagnostic

def plain (message : String) (internal : Bool) : Diagnostic := ⟨message, [], internal⟩

/-- A message with the line of a source that holds the start of a span, if there is a span. -/
def ofSource (message : String) (internal : Bool) (source : String) (span : Option (Int × Int)) :
    Diagnostic :=
  match span with
  | none => plain message internal
  | some (start, stop) => ⟨message, [Excerpt.ofLine source.toList start stop], internal⟩

def title (d : Diagnostic) : String := if d.internal then "Internal error: " else "Error: "

def lines (d : Diagnostic) : List (List Char) :=
  (d.title ++ d.message).toList :: d.excerpts.flatMap Excerpt.lines

def format (d : Diagnostic) : String := String.ofList (['\n'].intercalate d.lines)

end Diagnostic

def ReadError.diagnose (e : ReadError) (source : String) : Diagnostic :=
  Diagnostic.ofSource e.cause.message e.cause.isInternal source
    (e.span.map fun s => ((s.start : Int), (s.stop : Int)))

namespace EvalError

def backtrace (e : EvalError) : List Frame := e.frames.reverse

def excerpts (names : Naming) (e : EvalError) : List Excerpt :=
  e.backtrace.map fun f => Excerpt.ofLocated (locate names f.form f.path) f.label

/-- The excerpts that a limit admits: all of them for zero, the first ones for a positive limit,
all but the last ones for a negative one. -/
def limited (limit : Int) (excerpts : List Excerpt) : List Excerpt :=
  if limit = 0 then excerpts else Text.slice excerpts 0 limit

def diagnose (names : Naming) (limit : Int) (e : EvalError) : Diagnostic :=
  ⟨e.cause.message, limited limit (e.excerpts names), e.cause.isInternal⟩

end EvalError

end MiniLisp
