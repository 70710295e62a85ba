import Arbor.Reduction.Rule
import Arbor.Traversal.Visit

/-!
Reduction of trees by rules, bottom-up.

Every node is tried after its fields. In fixpoint mode the rules are tried again on each
replacement at its place, and the whole tree is walked again until nothing is replaced; the number
of replacements is then limited.
-/

namespace Arbor

structure Reducer (σ : Type) where
  rules : List (Rule σ)
  /-- Reduce replacements again until no rule applies. -/
  fixpoint : Bool := false
  /-- How many replacements a run in fixpoint mode may make. -/
  stepLimit : Nat := 1000

/-- The state of a run: the replacements so far, and the caller's state. -/
structure Progress (σ : Type) where
  steps : Nat
  user : σ

namespace Progress

variable {σ α : Type}

/-- An operation that does not touch the counter. -/
def lift (a : Effect σ α) : Effect (Progress σ) α := fun w =>
  let (result, after) := a.run { next := w.next, log := w.log, user := w.user.user }
  (result, { next := after.next, log := after.log, user := ⟨w.user.steps, after.user⟩ })

end Progress

namespace Reducer

variable {σ : Type}

def countStep (r : Reducer σ) : Effect (Progress σ) Unit := do
  modify fun w => { w with user := { w.user with steps := w.user.steps + 1 } }
  if r.fixpoint ∧ r.stepLimit < (← get).user.steps then throw (.stepLimitExceeded r.stepLimit)

def tryRules (r : Reducer σ) (node : Node Ident) : Effect (Progress σ) (Option Value) :=
  Progress.lift (Rule.firstReplacement node r.rules)

/-- Replaces a value by the rules as long as it is a node that they replace. The bound is on the
number of replacements; more than the step limit are never made. -/
def settle (r : Reducer σ) : Nat → Value → Effect (Progress σ) Value
  | 0, value => return value
  | bound + 1, value =>
    match value.node? with
    | none => return value
    | some node => do
      match ← r.tryRules node with
      | none => return value
      | some next =>
        r.countStep
        r.settle bound next

def reduceNode (r : Reducer σ) (node : Node Ident) : Effect (Progress σ) (Option Value) := do
  match ← r.tryRules node with
  | none => return none
  | some value =>
    r.countStep
    if r.fixpoint then return some (← r.settle (r.stepLimit + 1) value) else return some value

def handlers (r : Reducer σ) : Handlers (Progress σ) where
  node n := do
    let reduced ← Script.descending n
    match ← Script.ofEffect (r.reduceNode reduced) with
    | none => return Edit.ofValue n.toTree reduced.toTree
    | some value => return .replace value
  pattern _ := pure .unchanged
  leaf _ := pure .unchanged

def pass (r : Reducer σ) (number : Nat) (tree : Value) : Effect (Progress σ) Value := do
  let before := (← get).user.steps
  let (edit, cx) ← fun w =>
    let ((result, cx), after) := r.handlers.walk tree.height tree w
    (result.map fun edit => (edit, cx), after)
  let value ← Effect.resolve tree edit
  Effect.emit (.passed number cx.visited cx.changed ((← get).user.steps - before))
  return value

/-- Passes over a tree until one replaces nothing, at most `bound` of them. -/
def passes (r : Reducer σ) : Nat → Nat → Value → Effect (Progress σ) Value
  | 0, _, tree => return tree
  | bound + 1, number, tree => do
    let before := (← get).user.steps
    let value ← r.pass number tree
    if (← get).user.steps = before then return value else r.passes bound (number + 1) value

def run (r : Reducer σ) (tree : Value) : Effect (Progress σ) Value :=
  if r.fixpoint then r.passes (r.stepLimit + 1) 1 tree else r.pass 1 tree

/-- Reduces a tree and tells the number of replacements, also after a failure. -/
def process (r : Reducer σ) (tree : Value) (w : World σ) :
    (Except Error Value × Nat) × World σ :=
  let (result, after) :=
    (r.run tree).run { next := w.next, log := w.log, user := ⟨0, w.user⟩ }
  ((result, after.user.steps),
    { next := after.next, log := after.log, user := after.user.user })

end Reducer

end Arbor
