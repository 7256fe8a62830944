import MiniLisp.Token

/-!
# Errors of reading

Why a text could not be turned into forms, and where.
-/

namespace MiniLisp

inductive ReadCause where
  | unspecified
  | unknownCharacter
  | unexpectedClose
  | unterminatedString
  /-- The input ended while `depth` frames were open. -/
  | unexpectedEnd (depth : Nat)
  | modeMismatch
  deriving DecidableEq, Repr

namespace ReadCause

def message : ReadCause → String
  | .unspecified => "Read error."
  | .unknownCharacter => "Unexpected character."
  | .unexpectedClose => "Right paren without matching left paren."
  | .unterminatedString => "Unexpected end of input while parsing string."
  | .unexpectedEnd _ => "Unexpected end of input, form is not closed."
  | .modeMismatch => "Internal error: lexer mode mismatch."

def isInternal : ReadCause → Bool
  | .modeMismatch => true
  | _ => false

end ReadCause

structure ReadError where
  cause : ReadCause
  span : Option Span
  deriving DecidableEq, Repr

end MiniLisp
