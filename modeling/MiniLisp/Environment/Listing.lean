import MiniLisp.Environment
import MiniLisp.Value.Inspect

/-!
# Listings of environments

The bindings of a scope in braces, symbols by number; in short, the topmost scope alone with a hint
that there are more, or in full, all scopes from the topmost to the global one.
-/

namespace MiniLisp

def Scope.listEntry (entry : Symbol × Value) : List Char :=
  Value.inspectSymbol entry.1 ++ ':' :: ' ' :: entry.2.inspect

def Scope.listing (scope : Scope) : List Char :=
  '\x7b' :: [',', ' '].intercalate (scope.entries.map Scope.listEntry) ++ ['\x7d']

namespace Environment

/-- The topmost scope, with a hint at the others. -/
def summary (env : Environment) : List Char :=
  env.top.listing ++ if env.inner.isEmpty then [] else " -> ...".toList

def listing (env : Environment) : List Char :=
  "<Environment scopes: ".toList ++ " -> ".toList.intercalate (env.scopes.map Scope.listing) ++
    ['>']

end Environment

end MiniLisp
