import Arbor.Float64.Decimal
import Arbor.Text.Literal

/-!
Primitive values, the leaves of trees, and the kinds they are of.
-/

namespace Arbor

/-- The primitive types that a field may be declared with. -/
inductive PrimitiveKind where
  | int
  | float
  | str
  | bytes
  | bool
  /-- Any value at all. -/
  | object
deriving DecidableEq

namespace PrimitiveKind

def name : PrimitiveKind → String
  | .int => "int"
  | .float => "float"
  | .str => "str"
  | .bytes => "bytes"
  | .bool => "bool"
  | .object => "object"

def all : List PrimitiveKind := [.int, .float, .str, .bytes, .bool, .object]

end PrimitiveKind

inductive Prim where
  | int (value : Int64)
  | float (value : Float64)
  | str (value : String)
  | bytes (value : List UInt8)
  | bool (value : Bool)
deriving DecidableEq

namespace Prim

/-- The one kind, other than `object`, that a primitive is of. -/
def kind : Prim → PrimitiveKind
  | .int _ => .int
  | .float _ => .float
  | .str _ => .str
  | .bytes _ => .bytes
  | .bool _ => .bool

/-- The literal that is read back as the primitive. -/
def chars : Prim → List Char
  | .int i => Text.intChars i.toInt
  | .float x => x.chars
  | .str s => Text.quoted s
  | .bytes b => Text.writeBytes b
  | .bool b => if b then ['t', 'r', 'u', 'e'] else ['f', 'a', 'l', 's', 'e']

end Prim

end Arbor
