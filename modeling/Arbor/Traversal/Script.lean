import Arbor.Traversal.Context
import Arbor.Traversal.Edit
import Arbor.Tree.Construct

/-!
Scripts: what a handler does when its turn comes, one move after the other. A script may look at the
context and announce places, but it changes the context in no other way; it may visit any values;
and it ends with an answer or a failure.
-/

namespace Arbor

inductive Script (σ α : Type) where
  | answer (result : Except Error α)
  | look (next : Context → Script σ α)
  | read (next : World σ → Script σ α)
  | write (world : World σ) (next : Script σ α)
  | atField (name : String) (next : Script σ α)
  | atIndex (index : Nat) (next : Script σ α)
  | visit (value : Value) (next : Except Error Edit → Script σ α)
  /-- Visits the fields of a node in order and rebuilds it if one has changed. -/
  | descend (node : Node Ident) (next : Except Error (Node Ident) → Script σ α)
  /-- Visits the items of a sequence in order and rebuilds it if one has changed. -/
  | each (seq : Seq Ident) (next : Except Error (Seq Ident) → Script σ α)

namespace Script

variable {σ α β : Type}

def fail (e : Error) : Script σ α :=
  .answer (.error e)

def bind : Script σ α → (α → Script σ β) → Script σ β
  | .answer (.ok a), f => f a
  | .answer (.error e), _ => .answer (.error e)
  | .look next, f => .look fun cx => (next cx).bind f
  | .read next, f => .read fun w => (next w).bind f
  | .write w next, f => .write w (next.bind f)
  | .atField name next, f => .atField name (next.bind f)
  | .atIndex index next, f => .atIndex index (next.bind f)
  | .visit value next, f => .visit value fun r => (next r).bind f
  | .descend node next, f => .descend node fun r => (next r).bind f
  | .each seq next, f => .each seq fun r => (next r).bind f

instance : Monad (Script σ) where
  pure a := .answer (.ok a)
  bind := bind

def context : Script σ Context :=
  .look fun cx => pure cx

/-- Visits a value, and fails if that fails. -/
def visiting (value : Value) : Script σ Edit :=
  .visit value .answer

def descending (node : Node Ident) : Script σ (Node Ident) :=
  .descend node .answer

def ofEffect (a : Effect σ α) : Script σ α :=
  .read fun w =>
    let (result, after) := a.run w
    .write after (.answer result)

end Script

/-- What to do with the values of each sort. Sequences are always walked item by item. -/
structure Handlers (σ : Type) where
  node : Node Ident → Script σ Edit
  pattern : Pattern → Script σ Edit
  /-- For primitives and absence. -/
  leaf : Value → Script σ Edit
  /-- For the new values of a node of which a field has changed. -/
  check : Tree.NodeCheck := NodeType.validate

namespace Handlers

variable {σ : Type}

def rebuild (n : Node Ident) : Script σ Edit := do
  let after ← Script.descending n
  return Edit.ofValue n.toTree after.toTree

end Handlers

end Arbor
