import Arbor.Traversal.Context
import Arbor.World

/-!
Walks: operations with effects that also know where they stand in a tree. All of them go through the
parts of a node or sequence in one way, announcing the place of each part before they look at it.

A walk has an allowance for how deep its visits may be nested. One that has used it up ends, and
nothing catches that.
-/

namespace Arbor

structure WalkState (σ : Type) where
  context : Context
  world : World σ

abbrev Walk (σ : Type) := ExceptT Error (StateM (WalkState σ))

/-- A part of a node or sequence, with its position among the parts. -/
structure Part where
  index : Nat
  place : Place
  value : Value

def Node.parts (n : Node Ident) : List Part :=
  n.fields.zipIdx.map fun (field, index) => ⟨index, .field field.1.name, field.2⟩

def Seq.parts (s : Seq Ident) : List Part :=
  s.items.zipIdx.map fun (item, index) => ⟨index, .item index, item⟩

namespace Walk

variable {σ α : Type}

def onContext (f : Context → Context) : Walk σ Unit :=
  modify fun s => { s with context := f s.context }

def ofEffect (a : Effect σ α) : Walk σ α := fun s =>
  let (result, world) := a.run s.world
  (result, { s with world := world })

/-- Runs a walk and makes its failure a result, unless its allowance is used up. -/
def observe (walk : Walk σ α) : Walk σ (Except Error α) := fun s =>
  match walk.run s with
  | (.error .tooDeep, after) => (.error .tooDeep, after)
  | (result, after) => (.ok result, after)

/-- Counts a value that is visited, and takes the place announced for it. -/
def arrive : Walk σ Slot := do
  let slot := (← get).context.slot
  onContext Context.arrive
  return slot

def inNode (node : Node Ident) (slot : Slot) (walk : Walk σ α) : Walk σ α := fun s =>
  let (result, after) := walk.run { s with context := s.context.enter node slot }
  (result, { after with context := after.context.leave })

def inSeq (field : Option String) (walk : Walk σ α) : Walk σ α := fun s =>
  let (result, after) := walk.run { s with context := { s.context with seqField := field } }
  (result, { after with context := { after.context with seqField := s.context.seqField } })

/-- Takes a step at each part in order, with something to carry from one to the next. -/
def overParts (step : Part → α → Walk σ α) : List Part → α → Walk σ α
  | [], carried => return carried
  | part :: rest, carried => do
    onContext fun cx => cx.announce part.place
    overParts step rest (← step part carried)

end Walk

end Arbor
