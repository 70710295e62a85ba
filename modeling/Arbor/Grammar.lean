/-!
Grammars: ordered descriptions of node types. An entry names a type, the type it derives from and
its fields. Nothing is checked here; a grammar may be nonsense until a language is generated from
it.
-/

namespace Arbor

/-- How many values a field holds. -/
inductive Arity where
  | single
  | optional
  | sequence
deriving DecidableEq

def Arity.mark : Arity → String
  | .single => ""
  | .optional => "?"
  | .sequence => "*"

/-- Whether a type has instances of its own or only groups its subtypes. -/
inductive Kind where
  | abstract
  | concrete
deriving DecidableEq

def Kind.name : Kind → String
  | .abstract => "abstract"
  | .concrete => "concrete"

structure FieldSpec where
  name : String
  typeName : String
  arity : Arity
deriving DecidableEq

namespace FieldSpec

/-- A field from its type as written: one final `*` makes it a sequence, one final `?` optional. -/
def ofWritten (type name : String) : FieldSpec :=
  match type.toList.reverse with
  | '*' :: rest => ⟨name, String.ofList rest.reverse, .sequence⟩
  | '?' :: rest => ⟨name, String.ofList rest.reverse, .optional⟩
  | _ => ⟨name, type, .single⟩

def text (f : FieldSpec) : String :=
  f.typeName ++ f.arity.mark ++ " " ++ f.name

end FieldSpec

structure TypeSpec where
  name : String
  /-- The type it derives from; without one it derives from the root. -/
  base : Option String
  kind : Kind
  fields : List FieldSpec
deriving DecidableEq

namespace TypeSpec

def text (s : TypeSpec) : String :=
  let head := s.kind.name ++ " " ++ s.name
  let derived :=
    match s.base with
    | some base => head ++ " : " ++ base
    | none => head
  match s.kind with
  | .abstract => derived
  | .concrete => derived ++ "(" ++ String.intercalate ", " (s.fields.map FieldSpec.text) ++ ")"

end TypeSpec

/-- The entries, in order of declaration. -/
structure Grammar where
  entries : List TypeSpec := []
deriving DecidableEq

namespace Grammar

def define (g : Grammar) (entry : TypeSpec) : Grammar :=
  ⟨g.entries ++ [entry]⟩

def abstractType (g : Grammar) (name : String) (base : Option String) : Grammar :=
  g.define ⟨name, base, .abstract, []⟩

def concreteType (g : Grammar) (name : String) (base : Option String) (fields : List FieldSpec) :
    Grammar :=
  g.define ⟨name, base, .concrete, fields⟩

/-- An abstract type together with its alternatives. -/
def sum (g : Grammar) (name : String) (alternatives : List (String × List FieldSpec)) : Grammar :=
  alternatives.foldl (fun g (alternative, fields) => g.concreteType alternative (some name) fields)
    (g.abstractType name none)

def product (g : Grammar) (name : String) (fields : List FieldSpec) : Grammar :=
  g.concreteType name none fields

def get? (g : Grammar) (name : String) : Option TypeSpec :=
  g.entries.find? fun e => e.name == name

def size (g : Grammar) : Nat :=
  g.entries.length

def text (g : Grammar) : String :=
  String.join (g.entries.map fun e => e.text ++ "\n")

end Grammar

end Arbor
