import Arbor.Phrase.Reader
import Arbor.Tree.Construct

/-!
From phrases to trees of a language.

Names are looked up and nodes are built as by hand, so a well-formed text may still describe no
tree. Arguments by position come first and fill the fields in order; the others go by name.
-/

namespace Arbor.Phrase

abbrev Builder := StateT Ident (Except ParseError)

def freshIdent : Builder Ident := fun next => .ok (next, next + 1)

/-- The values of the arguments, positional and named. -/
abbrev Arguments := List Value × List (String × Value)

/-- A pattern variable has one argument, a string, which may be named `id`. -/
def buildVar : List (Option String × Phrase) → Except ParseError Value
  | [(keyword, .literal (.str name))] =>
    if keyword = none ∨ keyword = some "id" then .ok (.pattern (.var name))
    else .error (.malformedPattern "PatVar expects a single string \x60id\x60")
  | _ => .error (.malformedPattern "PatVar expects a single string \x60id\x60")

def buildNode (type : NodeType) (id : Ident) (args : Arguments) :
    Except ParseError (Node Ident) :=
  let (values, named) := args
  if named.isEmpty then (type.construct id values).mapError .construction
  else if values.length > type.fields.length then
    .error (.construction
      (.fieldCount type.name type.fields.length (values.length + named.length)))
  else (type.constructNamed id (type.fieldNames.zip values ++ named)).mapError .construction

mutual

def build (l : Language) : Phrase → Builder Value
  | .literal p => pure (.prim p)
  | .absent => pure .absent
  | .tuple items => do
    let values ← buildAll l items
    return .seq (← freshIdent) values
  | .call name args =>
    if name = "PatVar" then liftM (buildVar args)
    else if name = "Wildcard" then
      if args.isEmpty then pure (.pattern .wildcard)
      else throw (.malformedPattern "Wildcard takes no arguments")
    else
      match l.get? name with
      | none => throw (.unknownType name)
      | some type => do
        let values ← buildArgs l type false args
        let node ← liftM (buildNode type (← freshIdent) values)
        return node.toTree

def buildAll (l : Language) : List Phrase → Builder (List Value)
  | [] => pure []
  | p :: ps => do
    let v ← build l p
    let vs ← buildAll l ps
    return v :: vs

/-- The values of arguments. `named` says whether one before them was given by keyword. -/
def buildArgs (l : Language) (type : NodeType) (named : Bool) :
    List (Option String × Phrase) → Builder Arguments
  | [] => pure ([], [])
  | (keyword, p) :: rest => do
    let v ← build l p
    match keyword with
    | some name =>
      let (values, more) ← buildArgs l type true rest
      return (values, (name, v) :: more)
    | none =>
      if named then throw (.positionalAfterKeyword type.name)
      else
        let (values, more) ← buildArgs l type false rest
        return (v :: values, more)

end

end Arbor.Phrase

namespace Arbor.Language

def parse (l : Language) (text : String) : Phrase.Builder Value :=
  match Phrase.read? text.toList with
  | some phrase => phrase.build l
  | none => throw .malformed

end Arbor.Language
