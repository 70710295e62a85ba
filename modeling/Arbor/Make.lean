import Arbor.Phrase.Build
import Arbor.World

/-!
Making values: construction with identities from the supply.
-/

namespace Arbor.Effect

variable {σ : Type}

def seq (items : List Value) : Effect σ Value := do
  return .seq (← fresh) items

def typeNamed (l : Language) (name : String) : Effect σ NodeType :=
  match l.get? name with
  | some type => return type
  | none => throw (.unknownType name)

def construct (type : NodeType) (values : List Value) : Effect σ Value := do
  let node ← ofExcept .construction (type.construct (← fresh) values)
  return node.toTree

def make (l : Language) (name : String) (values : List Value) : Effect σ Value := do
  construct (← typeNamed l name) values

def constructNamed (type : NodeType) (named : List (String × Value)) : Effect σ Value := do
  let node ← ofExcept .construction (type.constructNamed (← fresh) named)
  return node.toTree

def withValues (node : Node Ident) (values : List Value) : Effect σ Value := do
  let node ← ofExcept .construction (node.withValues (← fresh) values)
  return node.toTree

def replace (node : Node Ident) (field : String) (value : Value) : Effect σ Value := do
  let node ← ofExcept .construction (node.replace (← fresh) field value)
  return node.toTree

def parse (l : Language) (text : String) : Effect σ Value :=
  drawing .parse (l.parse text).run

end Arbor.Effect
