import Arbor.Tree.Equality
import Arbor.World

/-!
Edits: what transforming a value gives.
-/

namespace Arbor

inductive Edit where
  | unchanged
  | replace (value : Value)
  /-- Any number of items in the place of one item of a sequence; anywhere else, a sequence. -/
  | splice (values : List Value)

namespace Edit

/-- The edit from a value to another one, which may be the same object. -/
def ofValue (old new : Value) : Edit :=
  if new.identical old then .unchanged else .replace new

/-- Whether the edit gives anything but the value itself. -/
def changes (e : Edit) (old : Value) : Bool :=
  match e with
  | .unchanged => false
  | .replace new => !new.identical old
  | .splice _ => true

/-- What stands in a sequence after the edit of an item. -/
def items (e : Edit) (old : Value) : List Value :=
  match e with
  | .unchanged => [old]
  | .replace new => [new]
  | .splice values => values

end Edit

def Effect.resolve {σ : Type} (old : Value) : Edit → Effect σ Value
  | .unchanged => return old
  | .replace new => return new
  | .splice values => return .seq (← fresh) values

end Arbor
