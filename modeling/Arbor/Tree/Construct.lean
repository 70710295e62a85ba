import Arbor.Error
import Arbor.Tree.Display

/-!
Building nodes.

A node needs a concrete type and one value per field. In a checked language the values must also
conform to the declarations of their fields; pattern terms conform to any.
-/

namespace Arbor

variable {ι : Type}

def PrimitiveKind.accepts : PrimitiveKind → Tree ι → Bool
  | .object, _ => true
  | kind, .prim p => p.kind == kind
  | _, _ => false

namespace NodeType

/-! ## Validation -/

/-- Whether one value, not a sequence, is of the type that a field is declared with. -/
def acceptsElement (type : NodeType) (field : Field) (value : Tree ι) : Bool :=
  match field.target with
  | .primitive kind => kind.accepts value
  | .node index =>
    match value with
    | .node _ other _ => other.language == type.language && other.ancestry.contains index
    | _ => false

def checkElement (type : NodeType) (field : Field) (value : Tree ι) :
    Except ConstructionError Unit :=
  if field.target = .primitive .object then .ok ()
  else if value.isSeq then .error (.unexpectedSequence type.name field.name value.describe)
  else if type.acceptsElement field value then .ok ()
  else if value.isAbsent ∧ field.arity = .single then .error (.missingValue type.name field.name)
  else .error (.wrongType type.name field.name field.typeName value.describe)

/-- Checks the items of a sequence in order, pattern terms apart. -/
def checkItems (type : NodeType) (field : Field) : List (Tree ι) → Except ConstructionError Unit
  | [] => .ok ()
  | item :: rest => do
    if item.isPattern then checkItems type field rest
    else
      type.checkElement field item
      checkItems type field rest

def checkField (type : NodeType) (field : Field) (value : Tree ι) :
    Except ConstructionError Unit :=
  if value.isPattern then .ok ()
  else
    match field.arity with
    | .sequence =>
      match value with
      | .seq _ items => type.checkItems field items
      | _ => .error (.expectedSequence type.name field.name value.describe)
    | .optional => if value.isAbsent then .ok () else type.checkElement field value
    | .single => type.checkElement field value

def checkFields (type : NodeType) : List (Field × Tree ι) → Except ConstructionError Unit
  | [] => .ok ()
  | (field, value) :: rest => do
    type.checkField field value
    checkFields type rest

/-- Whether the values make an instance of the type. -/
def validate (type : NodeType) (values : List (Tree ι)) : Except ConstructionError Unit :=
  if type.isAbstract then .error (.abstractType type.name)
  else if values.length ≠ type.fields.length then
    .error (.fieldCount type.name type.fields.length values.length)
  else if type.checked then type.checkFields (type.fields.zip values)
  else .ok ()

/-! ## Construction -/

/-- A node from the values of its fields in order. -/
def construct (type : NodeType) (id : ι) (values : List (Tree ι)) :
    Except ConstructionError (Node ι) := do
  type.validate values
  return ⟨id, type, values⟩

/-- Puts named values into the slots of their fields. -/
def fillSlots (type : NodeType) :
    List (Option (Tree ι)) → List (String × Tree ι) →
      Except ConstructionError (List (Option (Tree ι)))
  | slots, [] => .ok slots
  | slots, (name, value) :: rest =>
    match type.fieldIndex? name with
    | none => .error (.unknownField type.name name)
    | some i =>
      match slots[i]? with
      | some (some _) => .error (.repeatedField type.name name)
      | _ => fillSlots type (slots.set i (some value)) rest

/-- The values of the slots, all of which have to be filled. -/
def readSlots (type : NodeType) :
    List Field → List (Option (Tree ι)) → Except ConstructionError (List (Tree ι))
  | field :: fields, slot :: slots =>
    match slot with
    | none => .error (.missingValue type.name field.name)
    | some value => do
      let values ← readSlots type fields slots
      return value :: values
  | _, _ => .ok []

/-- A node from named values, in any order, one for each field. -/
def constructNamed (type : NodeType) (id : ι) (named : List (String × Tree ι)) :
    Except ConstructionError (Node ι) := do
  let slots ← type.fillSlots (type.fields.map fun _ => none) named
  let values ← type.readSlots type.fields slots
  type.construct id values

end NodeType

/-- How the values of a node that is rebuilt are checked. -/
abbrev Tree.NodeCheck := NodeType → List Value → Except ConstructionError Unit

namespace Node

def withValues (n : Node ι) (id : ι) (values : List (Tree ι)) :
    Except ConstructionError (Node ι) :=
  n.type.construct id values

def replace (n : Node ι) (id : ι) (field : String) (value : Tree ι) :
    Except ConstructionError (Node ι) :=
  match n.type.fieldIndex? field with
  | none => .error (.unknownField n.type.name field)
  | some i => n.type.construct id (n.values.set i value)

end Node

end Arbor
