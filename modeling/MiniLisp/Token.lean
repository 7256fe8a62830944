/-!
# Tokens

A token is a lexeme with the span of text that it was found in. There are two modes, one between
string literals and one inside a string literal, and each lexeme belongs to one of them.
-/

namespace MiniLisp

/-- Where a text is being read: between string literals, or inside one. -/
inductive Mode where
  | normal
  | string
  deriving DecidableEq, Repr

/-- The characters from `start` up to, not including, `stop`. -/
structure Span where
  start : Nat
  stop : Nat
  deriving DecidableEq, Repr

inductive Lexeme where
  | openParen
  | closeParen
  | boolean (b : Bool)
  | number (x : Float)
  | symbol (name : String)
  | quote
  | quasiquote
  | unquote
  | unquoteSplice
  | openString
  | unknown (c : Char)
  /-- Part of a string literal, with its escapes decoded. -/
  | text (cs : List Char)
  | closeString
  /-- A backslash followed by a character that it does not escape. -/
  | badEscape (c : Char)

namespace Lexeme

def mode : Lexeme → Mode
  | .text _ | .closeString | .badEscape _ => .string
  | _ => .normal

def nextMode : Lexeme → Mode
  | .openString | .text _ | .badEscape _ => .string
  | _ => .normal

end Lexeme

structure Token where
  lexeme : Lexeme
  span : Span

end MiniLisp
