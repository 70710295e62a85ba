import Arbor.Language.NodeType

/-!
Trees: nodes of a language, sequences, primitives, the absence of a value, and pattern terms.

Nodes and sequences carry a label. Values are the trees whose labels are identities, so that two
equal parts of a tree may be one object or two; the shape of a tree forgets the labels.
-/

namespace Arbor

/-- A pattern term: a named variable, or a wildcard that matches anything. -/
inductive Pattern where
  | var (name : String)
  | wildcard
deriving DecidableEq

/-- A tree whose nodes and sequences are labelled with `ι`. -/
inductive Tree (ι : Type) where
  | node (id : ι) (type : NodeType) (values : List (Tree ι))
  | seq (id : ι) (items : List (Tree ι))
  | prim (value : Prim)
  /-- The missing value of an optional field. -/
  | absent
  | pattern (term : Pattern)

/-- Tells objects apart. -/
abbrev Ident := Nat

/-- A tree of identified objects. -/
abbrev Value := Tree Ident

/-- A tree as a description only. -/
abbrev Shape := Tree Unit

structure Node (ι : Type) where
  id : ι
  type : NodeType
  values : List (Tree ι)

structure Seq (ι : Type) where
  id : ι
  items : List (Tree ι)

def Node.toTree {ι : Type} (n : Node ι) : Tree ι :=
  .node n.id n.type n.values

def Seq.toTree {ι : Type} (s : Seq ι) : Tree ι :=
  .seq s.id s.items

def Node.fields {ι : Type} (n : Node ι) : List (Field × Tree ι) :=
  n.type.fields.zip n.values

def Node.get? {ι : Type} (n : Node ι) (field : String) : Option (Tree ι) :=
  (n.type.fieldIndex? field).bind fun i => n.values[i]?

namespace Tree

variable {ι : Type}

/-! ## Views -/

def node? : Tree ι → Option (Node ι)
  | .node id type values => some ⟨id, type, values⟩
  | _ => none

def seq? : Tree ι → Option (Seq ι)
  | .seq id items => some ⟨id, items⟩
  | _ => none

def int? : Tree ι → Option Int64
  | .prim (.int i) => some i
  | _ => none

def str? : Tree ι → Option String
  | .prim (.str s) => some s
  | _ => none

def var? : Tree ι → Option String
  | .pattern (.var x) => some x
  | _ => none

def isPattern : Tree ι → Bool
  | .pattern _ => true
  | _ => false

def isSeq : Tree ι → Bool
  | .seq _ _ => true
  | _ => false

def isAbsent : Tree ι → Bool
  | .absent => true
  | _ => false

/-! ## Measures -/

mutual

/-- The number of values in a tree, itself included. -/
def size : Tree ι → Nat
  | .node _ _ values => sizeAll values + 1
  | .seq _ items => sizeAll items + 1
  | .prim _ | .absent | .pattern _ => 1

def sizeAll : List (Tree ι) → Nat
  | [] => 0
  | t :: ts => size t + sizeAll ts

end

mutual

/-- The number of values on the longest way down. -/
def height : Tree ι → Nat
  | .node _ _ values => heightAll values + 1
  | .seq _ items => heightAll items + 1
  | .prim _ | .absent | .pattern _ => 1

def heightAll : List (Tree ι) → Nat
  | [] => 0
  | t :: ts => Nat.max (height t) (heightAll ts)

end

/-! ## Variables -/

mutual

/-- The names of the variables in a tree, from left to right, each as often as it occurs. -/
def vars : Tree ι → List String
  | .node _ _ values => varsAll values
  | .seq _ items => varsAll items
  | .pattern (.var x) => [x]
  | .pattern .wildcard | .prim _ | .absent => []

def varsAll : List (Tree ι) → List String
  | [] => []
  | t :: ts => vars t ++ varsAll ts

end

mutual

/-- Whether a variable occurs in a tree. The search ends where it is found, so that a tree with many
shared parts is not walked as often as they are shared. -/
def occurs (x : String) : Tree ι → Bool
  | .node _ _ values => occursAny x values
  | .seq _ items => occursAny x items
  | .pattern (.var y) => y == x
  | .pattern .wildcard | .prim _ | .absent => false

def occursAny (x : String) : List (Tree ι) → Bool
  | [] => false
  | t :: ts => occurs x t || occursAny x ts

end

mutual

theorem occurs_iff (x : String) : (t : Tree ι) → (t.occurs x = true ↔ x ∈ t.vars)
  | .node _ _ values => by simp [occurs, vars, occursAny_iff x values]
  | .seq _ items => by simp [occurs, vars, occursAny_iff x items]
  | .pattern (.var y) => by simpa [occurs, vars] using eq_comm
  | .pattern .wildcard | .prim _ | .absent => by simp [occurs, vars]

theorem occursAny_iff (x : String) : (ts : List (Tree ι)) →
    (occursAny x ts = true ↔ x ∈ varsAll ts)
  | [] => by simp [occursAny, varsAll]
  | t :: ts => by simp [occursAny, varsAll, occurs_iff x t, occursAny_iff x ts]

end

/-! ## Shapes -/

mutual

def shape : Tree ι → Shape
  | .node _ type values => .node () type (shapeAll values)
  | .seq _ items => .seq () (shapeAll items)
  | .prim p => .prim p
  | .absent => .absent
  | .pattern p => .pattern p

def shapeAll : List (Tree ι) → List Shape
  | [] => []
  | t :: ts => shape t :: shapeAll ts

end

end Tree

end Arbor
