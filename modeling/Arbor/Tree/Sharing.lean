import Arbor.Tree.Basic
import Std.Data.HashSet

/-!
Which objects of a value are objects of other values.
-/

namespace Arbor.Tree

mutual

/-- Adds the identities of the nodes and sequences in a value, itself included, to those of `known`.
The parts of a known object are known. -/
def addIdents (known : Std.HashSet Ident) : Value → Std.HashSet Ident
  | .node id _ values => if known.contains id then known else addIdentsAll (known.insert id) values
  | .seq id items => if known.contains id then known else addIdentsAll (known.insert id) items
  | .prim _ | .absent | .pattern _ => known

def addIdentsAll (known : Std.HashSet Ident) : List Value → Std.HashSet Ident
  | [] => known
  | v :: vs => addIdentsAll (addIdents known v) vs

end

mutual

/-- A walk over the nodes and sequences of a value from the top: `true` for a known object, which is
not entered, and `false` for a new one, whose parts follow. -/
def sharing (known : Ident → Bool) : Value → List Bool
  | .node id _ values => if known id then [true] else false :: sharingAll known values
  | .seq id items => if known id then [true] else false :: sharingAll known items
  | .prim _ | .absent | .pattern _ => []

def sharingAll (known : Ident → Bool) : List Value → List Bool
  | [] => []
  | v :: vs => sharing known v ++ sharingAll known vs

end

/-- What a value shares with other values. -/
def sharingWith (others : List Value) (v : Value) : List Bool :=
  v.sharing (addIdentsAll ∅ others).contains

end Arbor.Tree
