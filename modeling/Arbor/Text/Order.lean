/-!
The order of names: by code point, character by character.
-/

namespace Arbor.Text

/-- Whether the first text stands strictly before the second. -/
def charsBefore : List Char → List Char → Bool
  | _, [] => false
  | [], _ :: _ => true
  | c :: cs, d :: ds =>
    Nat.blt c.toNat d.toNat || (c.toNat == d.toNat && charsBefore cs ds)

def nameBefore (a b : String) : Bool :=
  charsBefore a.toList b.toList

def insertName (name : String) : List String → List String
  | [] => [name]
  | other :: rest =>
    if name = other then other :: rest
    else if nameBefore name other then name :: other :: rest
    else other :: insertName name rest

/-- The names in increasing order, each once. -/
def sortedNames (names : List String) : List String :=
  names.foldr insertName []

end Arbor.Text
