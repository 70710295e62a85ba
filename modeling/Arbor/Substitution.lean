import Arbor.Error
import Arbor.Text.Order
import Arbor.Tree.Construct

/-!
Substitutions from variables to values, and the instantiation of trees.

Instantiating a tree replaces its bound variables by their values and rebuilds only the nodes and
sequences above them: all other parts stay the same objects. The values put in are not searched for
variables again.
-/

namespace Arbor

/-- Bindings of variables, in the order of their names. -/
structure Substitution where
  bindings : List (String × Value) := []

namespace Substitution

def get? (s : Substitution) (name : String) : Option Value :=
  s.bindings.lookup name

def contains (s : Substitution) (name : String) : Bool :=
  (s.get? name).isSome

def size (s : Substitution) : Nat :=
  s.bindings.length

/-- Puts a binding at its place, instead of one for the same name. -/
def insertBinding (name : String) (value : Value) :
    List (String × Value) → List (String × Value)
  | [] => [(name, value)]
  | (other, bound) :: rest =>
    if name = other then (name, value) :: rest
    else if Text.nameBefore name other then (name, value) :: (other, bound) :: rest
    else (other, bound) :: insertBinding name value rest

def insert (s : Substitution) (name : String) (value : Value) : Substitution :=
  ⟨insertBinding name value s.bindings⟩

/-- The bindings of a list; the last one of a name counts. -/
def ofList (bindings : List (String × Value)) : Substitution :=
  bindings.foldl (fun s (name, value) => s.insert name value) {}

def text (s : Substitution) : String :=
  let bindings := s.bindings.map fun (name, value) => name ++ " = " ++ value.display
  "\x7b" ++ String.intercalate ", " bindings ++ "\x7d"

/-! ## Typed access -/

def value (s : Substitution) (name : String) : Except Error Value :=
  match s.get? name with
  | some v => .ok v
  | none => .error (.unbound name)

/-- The value of a variable as something more special. -/
def valueAs {α : Type} (s : Substitution) (view : Value → Option α) (expected name : String) :
    Except Error α := do
  let v ← s.value name
  match view v with
  | some a => .ok a
  | none => .error (.binding name expected v.describe)

def node (s : Substitution) (name : String) : Except Error (Node Ident) :=
  s.valueAs Tree.node? "a node" name

def int (s : Substitution) (name : String) : Except Error Int64 :=
  s.valueAs Tree.int? "an int" name

def str (s : Substitution) (name : String) : Except Error String :=
  s.valueAs Tree.str? "a str" name

end Substitution

/-! ## Instantiation -/

namespace Tree

mutual

/-- The instance of a tree, or nothing if it is the tree itself. The identities from the second
argument on are free, and those from the returned one on still are. -/
def instantiate (check : NodeCheck) (find : String → Option Value) :
    Value → Ident → Except ConstructionError (Option Value × Ident)
  | .node _ type values, next => do
    match ← instantiateAll check find values next with
    | (none, next) => return (none, next)
    | (some values, next) =>
      check type values
      return (some (.node next type values), next + 1)
  | .seq _ items, next => do
    match ← instantiateAll check find items next with
    | (none, next) => return (none, next)
    | (some items, next) => return (some (.seq next items), next + 1)
  | .pattern (.var x), next =>
    match find x with
    | some v => return (if v.var? = some x then none else some v, next)
    | none => return (none, next)
  | .pattern .wildcard, next | .prim _, next | .absent, next => return (none, next)

def instantiateAll (check : NodeCheck) (find : String → Option Value) :
    List Value → Ident → Except ConstructionError (Option (List Value) × Ident)
  | [], next => return (none, next)
  | v :: vs, next => do
    let (first, next) ← instantiate check find v next
    let (others, next) ← instantiateAll check find vs next
    match first, others with
    | none, none => return (none, next)
    | first, others => return (some (first.getD v :: others.getD vs), next)

end

mutual

/-- Instantiation fails only where a rebuilt node is refused. -/
theorem instantiate_unchecked (find : String → Option Value) (v : Value) (next : Ident) :
    ∃ r, instantiate (fun _ _ => .ok ()) find v next = .ok r := by
  match v with
  | .node _ _ values =>
    obtain ⟨⟨changed, n⟩, h⟩ := instantiateAll_unchecked find values next
    cases changed <;> exact ⟨_, by simp only [instantiate, h, bind, Except.bind]; rfl⟩
  | .seq _ items =>
    obtain ⟨⟨changed, n⟩, h⟩ := instantiateAll_unchecked find items next
    cases changed <;> exact ⟨_, by simp only [instantiate, h, bind, Except.bind]; rfl⟩
  | .pattern (.var x) =>
    cases h : find x <;> exact ⟨_, by simp only [instantiate, h]; rfl⟩
  | .pattern .wildcard | .prim _ | .absent => exact ⟨_, rfl⟩

theorem instantiateAll_unchecked (find : String → Option Value) (vs : List Value) (next : Ident) :
    ∃ r, instantiateAll (fun _ _ => .ok ()) find vs next = .ok r := by
  match vs with
  | [] => exact ⟨_, rfl⟩
  | v :: vs =>
    obtain ⟨⟨first, m⟩, h⟩ := instantiate_unchecked find v next
    obtain ⟨⟨others, n⟩, h'⟩ := instantiateAll_unchecked find vs m
    cases first <;> cases others <;>
      exact ⟨_, by simp only [instantiateAll, h, h', bind, Except.bind]; rfl⟩

end

/-- The instance of a tree whose rebuilt nodes are not checked. -/
def expand (find : String → Option Value) (v : Value) (next : Ident) : Value × Ident :=
  match instantiate (fun _ _ => .ok ()) find v next with
  | .ok (changed, next) => (changed.getD v, next)
  | .error _ => (v, next)

end Tree

namespace Substitution

/-- The instance of a template; rebuilt nodes have to be valid. -/
def apply (s : Substitution) (template : Value) (next : Ident) :
    Except ConstructionError (Value × Ident) := do
  let (changed, next) ← Tree.instantiate NodeType.validate s.get? template next
  return (changed.getD template, next)

def single (x : String) (t : Value) (name : String) : Option Value :=
  if name = x then some t else none

def expandBindings (find : String → Option Value) :
    List (String × Value) → Ident → List (String × Value) × Ident
  | [], next => ([], next)
  | (name, v) :: rest, next =>
    let (v, next) := v.expand find next
    let (rest, next) := expandBindings find rest next
    ((name, v) :: rest, next)

/-- Substitutes a new binding into all bound values, then adds it. -/
def bind (s : Substitution) (x : String) (t : Value) (next : Ident) : Substitution × Ident :=
  let (bindings, next) := expandBindings (single x t) s.bindings next
  (Substitution.insert ⟨bindings⟩ x t, next)

end Substitution

end Arbor
