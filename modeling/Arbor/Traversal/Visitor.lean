import Arbor.Traversal.Walk

/-!
Visitors: walks that only read a tree.

The handlers of a visitor answer nothing and do not fail. They may keep a state of their own, look
at the context, announce places and visit any values.
-/

namespace Arbor

/-- What a handler of a visitor does when its turn comes, one move after the other. -/
inductive Tour (σ : Type) where
  | done
  | look (next : Context → Tour σ)
  | read (next : World σ → Tour σ)
  | write (world : World σ) (next : Tour σ)
  | atField (name : String) (next : Tour σ)
  | atIndex (index : Nat) (next : Tour σ)
  | visit (value : Value) (next : Tour σ)
  /-- Visits the fields of a node in order. -/
  | descend (node : Node Ident) (next : Tour σ)
  /-- Visits the items of a sequence in order. -/
  | each (seq : Seq Ident) (next : Tour σ)

/-- What to do with the values of each sort. Sequences are always walked item by item. -/
structure Visitor (σ : Type) where
  node : Node Ident → Tour σ := fun n => .descend n .done
  pattern : Pattern → Tour σ := fun _ => .done
  /-- For primitives and absence. -/
  leaf : Value → Tour σ := fun _ => .done

namespace Walk

variable {σ : Type}

def visitFields (visit : Value → Walk σ Unit) (node : Node Ident) : Walk σ Unit :=
  overParts (fun part _ => visit part.value) node.parts ()

def visitItems (visit : Value → Walk σ Unit) (seq : Seq Ident) : Walk σ Unit :=
  overParts (fun part _ => visit part.value) seq.parts ()

end Walk

def Tour.play {σ : Type} (visit : Value → Walk σ Unit) : Tour σ → Walk σ Unit
  | .done => return
  | .look next => do (next (← get).context).play visit
  | .read next => do (next (← get).world).play visit
  | .write world next => do
    modify fun s => { s with world := world }
    next.play visit
  | .atField name next => do
    Walk.onContext fun cx => cx.atField name
    next.play visit
  | .atIndex index next => do
    Walk.onContext fun cx => cx.atIndex index
    next.play visit
  | .visit value next => do
    visit value
    next.play visit
  | .descend node next => do
    Walk.visitFields visit node
    next.play visit
  | .each seq next => do
    Walk.visitItems visit seq
    next.play visit

namespace Visitor

variable {σ : Type}

def handle (v : Visitor σ) (visit : Value → Walk σ Unit) (slot : Slot) : Value → Walk σ Unit
  | .node id type values =>
    let node : Node Ident := ⟨id, type, values⟩
    Walk.inNode node slot ((v.node node).play visit)
  | .seq id items => Walk.inSeq slot.field (Walk.visitItems visit ⟨id, items⟩)
  | .pattern term => (v.pattern term).play visit
  | .prim p => (v.leaf (.prim p)).play visit
  | .absent => (v.leaf .absent).play visit

/-- Visits a value, with an allowance for the nesting of visits. -/
def visit (v : Visitor σ) : Nat → Value → Walk σ Unit
  | 0, _ => throw .tooDeep
  | allowance + 1, value => do
    let slot ← Walk.arrive
    v.handle (v.visit allowance) slot value

/-- Visits a tree in a fresh context. -/
def walk (v : Visitor σ) (allowance : Nat) (tree : Value) (w : World σ) :
    (Except Error Unit × Context) × World σ :=
  let (result, after) := (v.visit allowance tree).run ⟨{}, w⟩
  ((result, after.context), after.world)

end Visitor

end Arbor
