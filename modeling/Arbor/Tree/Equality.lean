import Arbor.Tree.Basic
import Std.Data.HashMap

/-!
Equality and identity of values.

Two values are equal when they agree part by part, whatever objects they are made of. Two nodes or
sequences are identical when they are one object; leaves have no identity of their own, so equal
leaves are identical. Comparing two values stops at identical parts.
-/

namespace Arbor

/-- Whether two types are one. The types of a language are told apart by their place in it. -/
def NodeType.same (s t : NodeType) : Bool :=
  s.language == t.language && s.index == t.index

/-- Whether two primitives are equal. Floating-point numbers are compared as numbers. -/
def Prim.same : Prim → Prim → Bool
  | .float x, .float y => x.same y
  | p, q => p == q

namespace Tree

variable {ι κ : Type}

/-! ## Plain comparison -/

mutual

/-- Whether two trees have the same shape, compared part by part. -/
def same : Tree ι → Tree κ → Bool
  | .node _ s vs, .node _ t ws => s == t && sameAll vs ws
  | .seq _ vs, .seq _ ws => sameAll vs ws
  | .prim p, .prim q => p == q
  | .absent, .absent => true
  | .pattern p, .pattern q => p == q
  | _, _ => false

def sameAll : List (Tree ι) → List (Tree κ) → Bool
  | [], [] => true
  | v :: vs, w :: ws => same v w && sameAll vs ws
  | _, _ => false

end

mutual

/-- Whether two trees are equal, compared part by part. -/
def equivalent : Tree ι → Tree κ → Bool
  | .node _ s vs, .node _ t ws => s.same t && equivalentAll vs ws
  | .seq _ vs, .seq _ ws => equivalentAll vs ws
  | .prim p, .prim q => p.same q
  | .absent, .absent => true
  | .pattern p, .pattern q => p == q
  | _, _ => false

def equivalentAll : List (Tree ι) → List (Tree κ) → Bool
  | [], [] => true
  | v :: vs, w :: ws => equivalent v w && equivalentAll vs ws
  | _, _ => false

end

/-! ## Identity -/

/-- Whether two values are one object, or equal leaves. -/
def identical : Value → Value → Bool
  | .node i _ _, .node j _ _ => i == j
  | .seq i _, .seq j _ => i == j
  | .prim p, .prim q => p == q
  | .absent, .absent => true
  | .pattern p, .pattern q => p == q
  | _, _ => false

mutual

/-- Equality of values, which looks into two objects only if they are not one. -/
def equal : Value → Value → Bool
  | .node i s vs, .node j t ws => i == j || (s.same t && equalAll vs ws)
  | .seq i vs, .seq j ws => i == j || equalAll vs ws
  | .prim p, .prim q => p.same q
  | .absent, .absent => true
  | .pattern p, .pattern q => p == q
  | _, _ => false

def equalAll : List Value → List Value → Bool
  | [], [] => true
  | v :: vs, w :: ws => equal v w && equalAll vs ws
  | _, _ => false

end

mutual

theorem same_iff : (t : Tree ι) → (u : Tree κ) → (same t u = true ↔ t.shape = u.shape)
  | .node _ _ vs, .node _ _ ws => by simp [same, shape, sameAll_iff vs ws]
  | .seq _ vs, .seq _ ws => by simp [same, shape, sameAll_iff vs ws]
  | .prim _, .prim _ => by simp [same, shape]
  | .absent, .absent => by simp [same, shape]
  | .pattern _, .pattern _ => by simp [same, shape]
  | .node .., .seq .. | .node .., .prim _ | .node .., .absent | .node .., .pattern _
  | .seq .., .node .. | .seq .., .prim _ | .seq .., .absent | .seq .., .pattern _
  | .prim _, .node .. | .prim _, .seq .. | .prim _, .absent | .prim _, .pattern _
  | .absent, .node .. | .absent, .seq .. | .absent, .prim _ | .absent, .pattern _
  | .pattern _, .node .. | .pattern _, .seq .. | .pattern _, .prim _ | .pattern _, .absent => by
    simp [same, shape]

theorem sameAll_iff : (vs : List (Tree ι)) → (ws : List (Tree κ)) →
    (sameAll vs ws = true ↔ shapeAll vs = shapeAll ws)
  | [], [] => by simp [sameAll, shapeAll]
  | v :: vs, w :: ws => by simp [sameAll, shapeAll, same_iff v w, sameAll_iff vs ws]
  | [], _ :: _ | _ :: _, [] => by simp [sameAll, shapeAll]

end

mutual

theorem shape_eq_self : (t : Shape) → t.shape = t
  | .node _ _ vs => by simp [shape, shapeAll_eq_self vs]
  | .seq _ vs => by simp [shape, shapeAll_eq_self vs]
  | .prim _ | .absent | .pattern _ => rfl

theorem shapeAll_eq_self : (ts : List Shape) → shapeAll ts = ts
  | [] => rfl
  | t :: ts => by simp [shapeAll, shape_eq_self t, shapeAll_eq_self ts]

end

instance : DecidableEq Shape := fun t u =>
  decidable_of_iff (same t u = true) (by rw [same_iff, shape_eq_self, shape_eq_self])

/-! ## Hashing -/

/-- What a text contributes to a hash. -/
def textFeed (s : String) : List Nat :=
  s.length :: s.toList.map Char.toNat

def primFeed : Prim → List Nat
  | .int i => [0, i.toBitVec.toNat]
  | .float x => [1, x.bits.toNat]
  | .str s => 2 :: textFeed s
  | .bytes b => 3 :: b.length :: b.map UInt8.toNat
  | .bool b => [4, b.toNat]

mutual

/-- What a tree contributes to a hash. Of a node type it is the language and the index. -/
def feed : Tree ι → List Nat
  | .node _ type values => 0 :: type.language :: type.index :: values.length :: feedAll values
  | .seq _ items => 1 :: items.length :: feedAll items
  | .prim p => 2 :: primFeed p
  | .absent => [3]
  | .pattern (.var x) => 4 :: textFeed x
  | .pattern .wildcard => [5]

def feedAll : List (Tree ι) → List Nat
  | [] => []
  | t :: ts => feed t ++ feedAll ts

end

/-- A tree as the key of a map. What objects it is made of does not count. -/
structure Key where
  shape : Shape

instance : BEq Key where
  beq a b := a.shape.equivalent b.shape

instance : Hashable Key where
  hash a := a.shape.feed.foldl (fun h n => mixHash h (hash n)) 7

def key (t : Tree ι) : Key :=
  ⟨t.shape⟩

/-- For each value the position of the first equal one, where the values before it are in a map
under their first positions. -/
def occurrencesFrom (seen : Std.HashMap Key Nat) (position : Nat) : List Value → List Nat
  | [] => []
  | v :: rest =>
    match seen[v.key]? with
    | some first => first :: occurrencesFrom seen (position + 1) rest
    | none => position :: occurrencesFrom (seen.insert v.key position) (position + 1) rest

/-- For each value the position of the first equal one. -/
def firstOccurrences (values : List Value) : List Nat :=
  occurrencesFrom ∅ 0 values

end Tree

end Arbor
