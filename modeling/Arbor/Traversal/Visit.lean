import Arbor.Traversal.Script
import Arbor.Traversal.Walk

/-!
Walks that transform trees.

Visiting a value counts it, hands it to its handler and counts a change. A node or sequence is
rebuilt only if one of its parts has changed; all else is shared with the input. The values of a
rebuilt node are checked.

The height of a tree is a sufficient allowance for handlers that visit only what lies below them.
-/

namespace Arbor

/-- A new node instead of another one, with other values. -/
def Effect.rebuild {σ : Type} (check : Tree.NodeCheck) (node : Node Ident) (values : List Value) :
    Effect σ (Node Ident) := do
  Effect.ofExcept .construction (check node.type values)
  return ⟨← Effect.fresh, node.type, values⟩

namespace Walk

variable {σ : Type}

/-! ## Loops -/

/-- One field of a node. The values are copied when the first one has changed. -/
def descendStep (visit : Value → Walk σ Edit) (node : Node Ident) (part : Part)
    (values : Option (List Value)) : Walk σ (Option (List Value)) := do
  let edit ← visit part.value
  if edit.changes part.value then
    let new ← ofEffect (Effect.resolve part.value edit)
    return some ((values.getD node.values).set part.index new)
  else return values

/-- Visits the fields of a node, and rebuilds it if one has changed. -/
def descend (check : Tree.NodeCheck) (visit : Value → Walk σ Edit) (node : Node Ident) :
    Walk σ (Node Ident) := do
  match ← overParts (descendStep visit node) node.parts none with
  | some values => ofEffect (Effect.rebuild check node values)
  | none => return node

/-- One item of a sequence. The items before it are copied when it is the first that has changed,
and from then on every item contributes what its edit gives. -/
def eachStep (visit : Value → Walk σ Edit) (seq : Seq Ident) (part : Part)
    (items : Option (Array Value)) : Walk σ (Option (Array Value)) := do
  let edit ← visit part.value
  if items.isNone && !edit.changes part.value then return none
  else return some (items.getD (seq.items.take part.index).toArray ++ edit.items part.value)

/-- Visits the items of a sequence, and rebuilds it if one has changed. -/
def each (visit : Value → Walk σ Edit) (seq : Seq Ident) : Walk σ (Seq Ident) := do
  match ← overParts (eachStep visit seq) seq.parts none with
  | some items => return ⟨← ofEffect Effect.fresh, items.toList⟩
  | none => return seq

end Walk

/-! ## Scripts -/

/-- How a script gets to other values. -/
structure Ways (σ : Type) where
  visit : Value → Walk σ Edit
  descend : Node Ident → Walk σ (Node Ident)
  each : Seq Ident → Walk σ (Seq Ident)

def Script.play {σ α : Type} (ways : Ways σ) : Script σ α → Walk σ α
  | .answer result => fun s => (result, s)
  | .look next => do (next (← get).context).play ways
  | .read next => do (next (← get).world).play ways
  | .write world next => do
    modify fun s => { s with world := world }
    next.play ways
  | .atField name next => do
    Walk.onContext fun cx => cx.atField name
    next.play ways
  | .atIndex index next => do
    Walk.onContext fun cx => cx.atIndex index
    next.play ways
  | .visit value next => do (next (← Walk.observe (ways.visit value))).play ways
  | .descend node next => do (next (← Walk.observe (ways.descend node))).play ways
  | .each seq next => do (next (← Walk.observe (ways.each seq))).play ways

/-! ## Visits -/

namespace Handlers

variable {σ : Type}

/-- The edit of a value by its handler. -/
def handle (h : Handlers σ) (ways : Ways σ) (slot : Slot) : Value → Walk σ Edit
  | .node id type values =>
    let node : Node Ident := ⟨id, type, values⟩
    Walk.inNode node slot ((h.node node).play ways)
  | .seq id items => do
    let after ← Walk.inSeq slot.field (ways.each ⟨id, items⟩)
    return Edit.ofValue (.seq id items) after.toTree
  | .pattern term => (h.pattern term).play ways
  | .prim p => (h.leaf (.prim p)).play ways
  | .absent => (h.leaf .absent).play ways

/-- Nodes and sequences are rebuilt if need be. -/
def ways (h : Handlers σ) (visit : Value → Walk σ Edit) : Ways σ where
  visit := visit
  descend := Walk.descend h.check visit
  each := Walk.each visit

/-- Visits a value, with an allowance for the nesting of visits. -/
def visit (h : Handlers σ) : Nat → Value → Walk σ Edit
  | 0, _ => throw .tooDeep
  | allowance + 1, value => do
    let slot ← Walk.arrive
    let edit ← h.handle (h.ways (h.visit allowance)) slot value
    if edit.changes value then Walk.onContext Context.countChange
    return edit

/-- Visits a tree in a fresh context. The context is told also after a failure. -/
def walk (h : Handlers σ) (allowance : Nat) (tree : Value) (w : World σ) :
    (Except Error Edit × Context) × World σ :=
  let (result, after) := (h.visit allowance tree).run ⟨{}, w⟩
  ((result, after.context), after.world)

def process (h : Handlers σ) (allowance : Nat) (tree : Value) : Effect σ Value := do
  let edit ← fun w =>
    let ((result, _), after) := h.walk allowance tree w
    (result, after)
  Effect.resolve tree edit

end Handlers

end Arbor
