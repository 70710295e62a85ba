import Arbor.Grammar
import Arbor.Prim

/-!
Node types, the fields that their instances have, and languages as families of node types under one
root.
-/

namespace Arbor

/-- What the declared type of a field means in its language. -/
inductive Target where
  /-- The node type at an index, or one derived from it. -/
  | node (index : Nat)
  | primitive (kind : PrimitiveKind)
deriving DecidableEq

def Target.text : Target → String
  | .node index => "node " ++ toString index
  | .primitive kind => "prim " ++ kind.name

structure Field where
  name : String
  typeName : String
  arity : Arity
  target : Target
deriving DecidableEq

def Field.text (f : Field) : String :=
  f.typeName ++ f.arity.mark ++ " " ++ f.name

structure NodeType where
  name : String
  /-- The number of the language that the type belongs to. -/
  language : Nat
  /-- Position in the language; the root is at 0. -/
  index : Nat
  kind : Kind
  /-- Index of the type it derives from; only the root has none. -/
  base : Option Nat
  /-- Its own index, then the indices of the types it derives from, up to the root. -/
  ancestry : List Nat
  fields : List Field
  /-- Whether building an instance checks the values of its fields. -/
  checked : Bool
deriving DecidableEq

namespace NodeType

def isAbstract (type : NodeType) : Bool :=
  type.kind == .abstract

def fieldNames (type : NodeType) : List String :=
  type.fields.map Field.name

def fieldIndex? (type : NodeType) (name : String) : Option Nat :=
  type.fields.findIdx? fun f => f.name == name

def field? (type : NodeType) (name : String) : Option Field :=
  type.fields.find? fun f => f.name == name

/-- Whether the type is the other one or derives from it. -/
def isSubtypeOf (type other : NodeType) : Bool :=
  type.language == other.language && type.ancestry.contains other.index

end NodeType

structure Language where
  /-- A number that no other language has. -/
  id : Nat
  /-- The types in order of generation, the root first. -/
  types : List NodeType
  checked : Bool
deriving DecidableEq

namespace Language

def get? (l : Language) (name : String) : Option NodeType :=
  l.types.find? fun type => type.name == name

def contains (l : Language) (name : String) : Bool :=
  (l.get? name).isSome

def size (l : Language) : Nat :=
  l.types.length

def base? (l : Language) (type : NodeType) : Option NodeType :=
  type.base.bind fun i => l.types[i]?

/-- A type and the types it derives from, following bases of smaller index. -/
def ancestors (l : Language) (type : NodeType) : List NodeType :=
  type ::
    match l.base? type with
    | some base => if base.index < type.index then l.ancestors base else []
    | none => []
termination_by type.index

def summary (l : Language) : String :=
  let names := l.types.map fun type => String.ofList (Text.quoted type.name)
  "Language \x7b id: LanguageId(_), types: [" ++ String.intercalate ", " names ++ "], checked: "
    ++ (if l.checked then "true" else "false") ++ " \x7d"

end Language

end Arbor
