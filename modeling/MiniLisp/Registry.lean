import MiniLisp.Entries
import MiniLisp.Symbol

/-!
# Registries of names

A table of symbols as it is looked up: a dictionary from names to symbols, one from identities to
names, and the identity that is given out next.
-/

namespace MiniLisp

structure Registry where
  symbols : List (String × Symbol)
  names : List (Int × String)
  next : Int

namespace Registry

def empty : Registry := ⟨[], [], 1⟩

def symbol? (r : Registry) (name : String) : Option Symbol := valueOf? name r.symbols

def resolve? (r : Registry) (s : Symbol) : Option String := valueOf? s.id r.names

def size (r : Registry) : Nat := r.symbols.length

/-- The symbol of a name: the one that is registered, or one with the next identity. -/
def intern (r : Registry) (name : String) : Symbol × Registry :=
  match r.symbol? name with
  | some s => (s, r)
  | none =>
    let s : Symbol := ⟨r.next⟩
    (s, ⟨putEntry name s r.symbols, putEntry s.id name r.names, r.next + 1⟩)

def internAll (r : Registry) : List String → List Symbol × Registry
  | [] => ([], r)
  | name :: names =>
    let (s, r) := r.intern name
    let (ss, r) := r.internAll names
    (s :: ss, r)

/-- The registry with which an interpreter starts. -/
def initial : Registry := (empty.internAll reservedNames).2

end Registry

end MiniLisp
