/-!
# Escapes in string literals

Inside a string literal the double quote, the backslash, the line feed, the tab and the carriage
return are written as a backslash and one more character; every other character stands for itself.
Main statement: decoding an escape gives the character that was escaped.
-/

namespace MiniLisp.Text

/-- The character after the backslash in the escape of `c`, if `c` is escaped at all. -/
def escapeMark? (c : Char) : Option Char :=
  if c = '\x22' then some '\x22'
  else if c = '\\' then some '\\'
  else if c = '\n' then some 'n'
  else if c = '\t' then some 't'
  else if c = '\r' then some 'r'
  else none

/-- The character that a backslash followed by `c` stands for. -/
def unescape? (c : Char) : Option Char :=
  if c = '\x22' then some '\x22'
  else if c = '\\' then some '\\'
  else if c = 'n' then some '\n'
  else if c = 't' then some '\t'
  else if c = 'r' then some '\r'
  else none

def escape (c : Char) : List Char :=
  match escapeMark? c with
  | some m => ['\\', m]
  | none => [c]

def stringLiteral (cs : List Char) : List Char :=
  '\x22' :: cs.flatMap escape ++ ['\x22']

theorem unescape?_escapeMark? (c m : Char) (h : escapeMark? c = some m) :
    unescape? m = some c := by
  unfold escapeMark? at h
  split at h
  · rename_i hc
    cases h
    rw [hc]
    decide
  · split at h
    · rename_i hc
      cases h
      rw [hc]
      decide
    · split at h
      · rename_i hc
        cases h
        rw [hc]
        decide
      · split at h
        · rename_i hc
          cases h
          rw [hc]
          decide
        · split at h
          · rename_i hc
            cases h
            rw [hc]
            decide
          · cases h

/-- A character that is not escaped is neither a quote nor a backslash, nor does it end a line. -/
theorem escapeMark?_eq_none_iff (c : Char) :
    escapeMark? c = none ↔ c ≠ '\x22' ∧ c ≠ '\\' ∧ c ≠ '\n' ∧ c ≠ '\t' ∧ c ≠ '\r' := by
  unfold escapeMark?
  repeat' split
  all_goals simp_all only [reduceCtorEq, ne_eq, not_true_eq_false, false_and, and_false,
    not_false_eq_true, and_self]

end MiniLisp.Text
