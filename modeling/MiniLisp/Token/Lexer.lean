import MiniLisp.Number
import MiniLisp.Text.Blank
import MiniLisp.Text.Escape
import MiniLisp.Token

/-!
# From text to tokens

Between string literals, blanks and comments are skipped, brackets and marks are tokens of their
own, and the longest run of other characters is a boolean, a number or a symbol. Inside a string
literal the longest run of plain characters is a token, and so is each escape. A character that
fits nowhere is a token as well, so that every text has tokens. Main statement: each step takes at
least one character and no more than there are.
-/

namespace MiniLisp

/-- A character that separates tokens and has no meaning of its own. -/
def isLayout (c : Char) : Bool :=
  c == ' ' || c == '\t' || c == '\n' || c == '\r' || c == '\x0c'

/-- A character that has a meaning of its own between string literals. -/
def isDelimiter (c : Char) : Bool :=
  c == '(' || c == ')' || c == '\x22' || c == '\x27' || c == '\x60' || c == ',' || c == ';'

/-- A character of a boolean, a number or a symbol: one that shows and delimits nothing. -/
def isAtomChar (c : Char) : Bool :=
  !Text.isBlank c && !isDelimiter c && decide (0x20 ≤ c.toNat) && c != '\x7f'

def isCommentChar (c : Char) : Bool := c != '\n'

/-- A character that stands for itself inside a string literal. -/
def isPlainChar (c : Char) : Bool := c != '\\' && c != '\x22'

/-- What a run of atom characters is; a number must be numeric as a whole. -/
def classify (run : List Char) : Lexeme :=
  if run = ['#', 't'] then .boolean true
  else if run = ['#', 'f'] then .boolean false
  else match Number.literal? run with
    | some l => .number l.toFloat
    | none => .symbol (String.ofList run)

def singleMark (c : Char) : Lexeme :=
  if c = '(' then .openParen
  else if c = ')' then .closeParen
  else if c = '\x27' then .quote
  else if c = '\x60' then .quasiquote
  else if c = ',' then .unquote
  else if c = '\x22' then .openString
  else .unknown c

/-- What a text begins with: nothing more to find, characters to skip, or a lexeme; with the
number of characters. -/
inductive Scan where
  | stop
  | skip (width : Nat)
  | found (lexeme : Lexeme) (width : Nat)

def scanNormal : List Char → Scan
  | [] => .stop
  | c :: cs =>
    if isLayout c then .skip 1
    else if c = ';' then .skip (1 + (cs.takeWhile isCommentChar).length)
    else if isAtomChar c then
      let run := c :: cs.takeWhile isAtomChar
      .found (classify run) run.length
    else if c = ',' ∧ cs.head? = some '@' then .found .unquoteSplice 2
    else .found (singleMark c) 1

/-- What a text inside a string literal begins with; a backslash at the very end is no token. -/
def scanString : List Char → Scan
  | [] => .stop
  | c :: cs =>
    if c = '\x22' then .found .closeString 1
    else if c = '\\' then
      match cs with
      | [] => .stop
      | d :: _ => match Text.unescape? d with
        | some e => .found (.text [e]) 2
        | none => .found (.badEscape d) 2
    else
      let run := c :: cs.takeWhile isPlainChar
      .found (.text run) run.length

def scan : Mode → List Char → Scan
  | .normal, cs => scanNormal cs
  | .string, cs => scanString cs

def Scan.width : Scan → Nat
  | .stop => 0
  | .skip w => w
  | .found _ w => w

theorem length_takeWhile_le (p : α → Bool) (xs : List α) : (xs.takeWhile p).length ≤ xs.length :=
  (List.takeWhile_sublist p).length_le

theorem width_scanNormal (c : Char) (cs : List Char) :
    0 < (scanNormal (c :: cs)).width ∧ (scanNormal (c :: cs)).width ≤ (c :: cs).length := by
  have hc := length_takeWhile_le isCommentChar cs
  have ha := length_takeWhile_le isAtomChar cs
  simp only [scanNormal, List.length_cons]
  split
  · simp only [Scan.width]
    omega
  · split
    · simp only [Scan.width]
      omega
    · split
      · simp only [Scan.width]
        omega
      · split
        · rename_i h
          cases cs with
          | nil => simp only [List.head?_nil, reduceCtorEq, and_false] at h
          | cons d ds =>
            simp only [Scan.width, List.length_cons]
            omega
        · simp only [Scan.width]
          omega

theorem width_scanString (cs : List Char) (h : scanString cs ≠ .stop) :
    0 < (scanString cs).width ∧ (scanString cs).width ≤ cs.length := by
  cases cs with
  | nil => exact absurd rfl h
  | cons c cs =>
    have hp := length_takeWhile_le isPlainChar cs
    simp only [scanString, List.length_cons] at h ⊢
    split
    · simp only [Scan.width]
      omega
    · split
      · rename_i hq hb
        cases cs with
        | nil =>
          rw [if_neg hq, if_pos hb] at h
          exact absurd rfl h
        | cons d ds =>
          simp only [List.length_cons]
          split <;> simp only [Scan.width] <;> omega
      · simp only [Scan.width]
        omega

/-- A step that finds something takes at least one character and no more than there are. -/
theorem width_scan (mode : Mode) (cs : List Char) (h : scan mode cs ≠ .stop) :
    0 < (scan mode cs).width ∧ (scan mode cs).width ≤ cs.length := by
  cases mode with
  | normal =>
    cases cs with
    | nil => exact absurd rfl h
    | cons c cs => exact width_scanNormal c cs
  | string => exact width_scanString cs h

/-- The tokens of the rest of a text, where `pos` characters come before the rest. -/
def tokensFrom (mode : Mode) (pos : Nat) (cs : List Char) : List Token :=
  match _h : scan mode cs with
  | .stop => []
  | .skip w => tokensFrom mode (pos + w) (cs.drop w)
  | .found l w => ⟨l, pos, pos + w⟩ :: tokensFrom l.nextMode (pos + w) (cs.drop w)
termination_by cs.length
decreasing_by
  all_goals
    have hw := width_scan mode cs (by rw [_h]; exact Scan.noConfusion)
    rw [_h] at hw
    simp only [Scan.width] at hw
    rw [List.length_drop]
    omega

def tokens (source : String) : List Token := tokensFrom .normal 0 source.toList

def finalMode (ts : List Token) : Mode :=
  match ts.getLast? with
  | none => .normal
  | some t => t.lexeme.nextMode

end MiniLisp
