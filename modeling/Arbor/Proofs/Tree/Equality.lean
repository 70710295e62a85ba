import Mathlib.Data.List.Basic
import Arbor.Proofs.Float64.Comparison
import Arbor.Proofs.Tree.Identity

/-!
# Equality of values

Values are compared by a walk that does not look into one object twice. It gives what plain
comparison gives (`equal_eq_equivalent`), since an identity stands for one object only. Comparison
comes down to equality once all is forgotten that it does not look at (`Tree.essence`), and the hash
of a tree looks at nothing else either. So values can be the keys of hash maps.
-/

namespace Arbor

theorem Prim.same_iff {p q : Prim} : p.same q = true ↔ p = q := by
  cases p <;> cases q <;> simp [Prim.same, Float64.same_iff]

/-- What a type is told apart by. -/
def NodeType.essence (type : NodeType) : NodeType where
  name := ""
  language := type.language
  index := type.index
  kind := .abstract
  base := none
  ancestry := []
  fields := []
  checked := false

theorem NodeType.same_iff {s t : NodeType} : s.same t = true ↔ s.essence = t.essence := by
  simp [NodeType.same, NodeType.essence]

namespace Tree

variable {ι κ : Type}

/-! ## What comparison looks at -/

mutual

def essence : Tree ι → Shape
  | .node _ type values => .node () type.essence (essenceAll values)
  | .seq _ items => .seq () (essenceAll items)
  | .prim p => .prim p
  | .absent => .absent
  | .pattern p => .pattern p

def essenceAll : List (Tree ι) → List Shape
  | [] => []
  | t :: ts => essence t :: essenceAll ts

end

@[simp] theorem essenceAll_eq_map (ts : List (Tree ι)) : essenceAll ts = ts.map essence := by
  induction ts with
  | nil => rfl
  | cons t ts ih => rw [essenceAll, ih, List.map_cons]

theorem equivalentAll_iff {vs : List (Tree ι)} {ws : List (Tree κ)}
    (h : ∀ v ∈ vs, ∀ w : Tree κ, v.equivalent w = true ↔ v.essence = w.essence) :
    equivalentAll vs ws = true ↔ vs.map essence = ws.map essence := by
  induction vs generalizing ws with
  | nil => cases ws <;> simp [equivalentAll]
  | cons v vs ih =>
    cases ws with
    | nil => simp [equivalentAll]
    | cons w ws =>
      rw [List.forall_mem_cons] at h
      simp [equivalentAll, h.1 w, ih h.2]

theorem equivalent_iff {t : Tree ι} {u : Tree κ} :
    t.equivalent u = true ↔ t.essence = u.essence := by
  induction t using Tree.ind generalizing u with
  | node id type values ih =>
    cases u <;> simp [equivalent, essence, NodeType.same_iff, equivalentAll_iff ih]
  | seq id items ih => cases u <;> simp [equivalent, essence, equivalentAll_iff ih]
  | prim p => cases u <;> simp [equivalent, essence, Prim.same_iff]
  | absent => cases u <;> simp [equivalent, essence]
  | pattern p => cases u <;> simp [equivalent, essence]

theorem essence_shape (t : Tree ι) : t.shape.essence = t.essence := by
  induction t using Tree.ind with
  | node id type values ih => simpa [shape, essence] using ih
  | seq id items ih => simpa [shape, essence] using ih
  | prim p => rfl
  | absent => rfl
  | pattern p => rfl

@[simp] theorem feedAll_eq_flatMap (ts : List (Tree ι)) : feedAll ts = ts.flatMap feed := by
  induction ts with
  | nil => rfl
  | cons t ts ih => rw [feedAll, ih, List.flatMap_cons]

theorem feed_essence (t : Tree ι) : t.essence.feed = t.feed := by
  induction t using Tree.ind with
  | node id type values ih =>
    simp [essence, feed, NodeType.essence, List.flatMap_map, List.flatMap_congr ih]
  | seq id items ih => simp [essence, feed, List.flatMap_map, List.flatMap_congr ih]
  | prim p => rfl
  | absent => rfl
  | pattern p => cases p <;> rfl

theorem equivalent_of_shape {t : Tree ι} {u : Tree κ} (h : t.shape = u.shape) :
    t.equivalent u = true := by
  rw [equivalent_iff, ← essence_shape t, h, essence_shape]

/-! ## Identity -/

theorem equal_self (v : Value) : v.equal v = true := by
  cases v <;> simp [equal, Prim.same_iff]

theorem equal_of_identical {v w : Value} (h : v.identical w = true) : v.equal w = true := by
  cases v <;> cases w <;> simp_all [identical, equal, Prim.same_iff]

theorem equalAll_eq {vs ws : List Value}
    (h : ∀ v ∈ vs, ∀ w ∈ ws, v.equal w = v.equivalent w) :
    equalAll vs ws = equivalentAll vs ws := by
  induction vs generalizing ws with
  | nil => cases ws <;> rfl
  | cons v vs ih =>
    cases ws with
    | nil => rfl
    | cons w ws =>
      have tail := ih fun v hv w hw => h v (.tail _ hv) w (.tail _ hw)
      rw [equalAll, equivalentAll, h v (.head _) w (.head _), tail]

section

variable {heap : Heap} {v w : Value} (hv : v.On heap) (hw : w.On heap)

include hv hw

theorem equal_eq_of_identical (h : v.identical w = true) : v.equal w = v.equivalent w := by
  rw [equal_of_identical h, equivalent_of_shape (shape_eq_of_identical hv.honest hw h)]

/-- Where an identity stands for one object, it makes no difference not to look into identical
parts. -/
theorem equal_eq_equivalent : v.equal w = v.equivalent w := by
  induction v using Tree.ind generalizing w with
  | node id type values ih =>
    cases w with
    | node id' type' values' =>
      by_cases same : id = id'
      · exact equal_eq_of_identical hv hw (by simp [identical, same])
      · have inner := (forall_objects_node.mp hv).2
        have inner' := (forall_objects_node.mp hw).2
        have parts : equalAll values values' = equivalentAll values values' :=
          equalAll_eq fun u hu u' hu' => ih u hu (inner u hu) (inner' u' hu')
        simp [equal, equivalent, same, parts]
    | _ => rfl
  | seq id items ih =>
    cases w with
    | seq id' items' =>
      by_cases same : id = id'
      · exact equal_eq_of_identical hv hw (by simp [identical, same])
      · have inner := (forall_objects_seq.mp hv).2
        have inner' := (forall_objects_seq.mp hw).2
        have parts : equalAll items items' = equivalentAll items items' :=
          equalAll_eq fun u hu u' hu' => ih u hu (inner u hu) (inner' u' hu')
        simp [equal, equivalent, same, parts]
    | _ => rfl
  | prim p => cases w <;> rfl
  | absent => cases w <;> rfl
  | pattern p => cases w <;> rfl

theorem equal_iff : v.equal w = true ↔ v.essence = w.essence := by
  rw [equal_eq_equivalent hv hw, equivalent_iff]

end

/-! ## Keys of maps -/

theorem key_beq (t : Tree ι) (u : Tree κ) : (t.key == u.key) = t.equivalent u := by
  change t.shape.equivalent u.shape = t.equivalent u
  rw [Bool.eq_iff_iff, equivalent_iff, equivalent_iff, essence_shape, essence_shape]

theorem Key.beq_iff {a b : Key} : (a == b) = true ↔ a.shape.essence = b.shape.essence :=
  equivalent_iff

instance : EquivBEq Key where
  rfl := Key.beq_iff.mpr rfl
  symm h := Key.beq_iff.mpr (Key.beq_iff.mp h).symm
  trans h h' := Key.beq_iff.mpr ((Key.beq_iff.mp h).trans (Key.beq_iff.mp h'))

instance : LawfulHashable Key where
  hash_eq a b h := by
    have fed : a.shape.feed = b.shape.feed := by
      rw [← feed_essence, Key.beq_iff.mp h, feed_essence]
    simp only [hash, fed]

theorem findIdx?_snoc (done : List Value) (v : Value) (k : Key) :
    (done ++ [v]).findIdx? (fun u => u.key == k) =
      (done.findIdx? fun u => u.key == k).or (if v.key == k then some done.length else none) := by
  rw [List.findIdx?_append, List.findIdx?_cons]
  split <;> simp

theorem findIdx?_congr_key (vs : List Value) {k l : Key} (h : k == l) :
    (vs.findIdx? fun u => u.key == l) = vs.findIdx? fun u => u.key == k := by
  have same : (fun u : Value => u.key == l) = fun u => u.key == k := by
    funext u
    exact (BEq.congr_right h).symm
  rw [same]

theorem findIdx_own (done rest : List Value) (v : Value) :
    (done ++ v :: rest).findIdx (fun u => u.key == v.key) =
      (done.findIdx? fun u => u.key == v.key).getD done.length := by
  have found : (done ++ v :: rest).findIdx? (fun u => u.key == v.key) =
      some ((done.findIdx? fun u => u.key == v.key).getD done.length) := by
    rw [List.findIdx?_append, List.findIdx?_cons, if_pos BEq.rfl, Option.map_some, Nat.zero_add,
      Option.or_some]
  exact (List.findIdx?_eq_some_iff_findIdx_eq.mp found).2

theorem occurrencesFrom_eq {seen : Std.HashMap Key Nat} {done rest : List Value}
    (h : ∀ k, seen[k]? = done.findIdx? fun u => u.key == k) :
    occurrencesFrom seen done.length rest =
      rest.map fun v => (done ++ rest).findIdx fun u => u.key == v.key := by
  induction rest generalizing seen done with
  | nil => rfl
  | cons v rest ih =>
    have whole : done ++ v :: rest = (done ++ [v]) ++ rest := by simp
    have next : done.length + 1 = (done ++ [v]).length := by simp
    rw [occurrencesFrom, h, List.map_cons, findIdx_own]
    cases found : done.findIdx? fun u => u.key == v.key with
    | some first =>
      -- The key has been seen before, so a search for it does not come to the value.
      have kept : ∀ k, seen[k]? = (done ++ [v]).findIdx? fun u => u.key == k := by
        intro k
        rw [findIdx?_snoc, h]
        split
        · rename_i own
          rw [findIdx?_congr_key done own, found, Option.some_or]
        · rw [Option.or_none]
      dsimp only
      rw [next, ih kept, whole, Option.getD_some]
    | none =>
      have kept : ∀ k, (seen.insert v.key done.length)[k]? =
          (done ++ [v]).findIdx? fun u => u.key == k := by
        intro k
        rw [findIdx?_snoc, Std.HashMap.getElem?_insert, h]
        split
        · rename_i own
          rw [findIdx?_congr_key done own, found, Option.none_or]
        · rw [Option.or_none]
      dsimp only
      rw [next, ih kept, whole, Option.getD_none]

theorem findIdx_key_eq {heap : Heap} {values : List Value} {v : Value}
    (on : ∀ u ∈ values, u.On heap) (hv : v.On heap) :
    (values.findIdx fun u => u.key == v.key) = values.findIdx fun u => u.equal v := by
  induction values with
  | nil => rfl
  | cons u values ih =>
    rw [List.forall_mem_cons] at on
    rw [List.findIdx_cons, List.findIdx_cons, key_beq, equal_eq_equivalent on.1 hv, ih on.2]

/-- The values that a map takes for one are the equal ones. -/
theorem firstOccurrences_eq {heap : Heap} {values : List Value} (on : ∀ v ∈ values, v.On heap) :
    firstOccurrences values = values.map fun v => values.findIdx fun u => u.equal v := by
  have empty (k : Key) :
      (∅ : Std.HashMap Key Nat)[k]? = ([] : List Value).findIdx? fun u => u.key == k :=
    Std.HashMap.getElem?_empty
  have keyed : firstOccurrences values =
      values.map fun v => values.findIdx fun u => u.key == v.key :=
    occurrencesFrom_eq empty
  rw [keyed]
  exact List.map_congr_left fun v hv => findIdx_key_eq on (on v hv)

theorem getElem?_insert_key {heap : Heap} {α : Type} {v w : Value} (hv : v.On heap)
    (hw : w.On heap) (m : Std.HashMap Key α) (x : α) :
    (m.insert v.key x)[w.key]? = if v.equal w then some x else m[w.key]? := by
  rw [Std.HashMap.getElem?_insert, key_beq, equal_eq_equivalent hv hw]

/-- Equality of values is structural: it is plain comparison, an equivalence that holds between
identical values, and hashing agrees with it, so that a map takes for one exactly the equal
values. -/
theorem equal_structural {heap : Heap} {u v w : Value} (hu : u.On heap) (hv : v.On heap)
    (hw : w.On heap) :
    u.equal v = u.equivalent v ∧
    u.equal u = true ∧
    u.equal v = v.equal u ∧
    (u.equal v = true → v.equal w = true → u.equal w = true) ∧
    (u.identical v = true → u.equal v = true) ∧
    (u.equal v = true → u.feed = v.feed) ∧
    (∀ (α : Type) (m : Std.HashMap Key α) (x : α),
      (m.insert u.key x)[v.key]? = if u.equal v then some x else m[v.key]?) ∧
    ∀ values : List Value, (∀ t ∈ values, t.On heap) →
      firstOccurrences values = values.map fun t => values.findIdx fun s => s.equal t := by
  refine ⟨equal_eq_equivalent hu hv, equal_self u, ?_, ?_, equal_of_identical, ?_,
    fun α m x => getElem?_insert_key hu hv m x, fun values on => firstOccurrences_eq on⟩
  · rw [Bool.eq_iff_iff, equal_iff hu hv, equal_iff hv hu, eq_comm]
  · intro huv hvw
    rw [equal_iff hu hw]
    exact ((equal_iff hu hv).mp huv).trans ((equal_iff hv hw).mp hvw)
  · intro huv
    rw [← feed_essence, (equal_iff hu hv).mp huv, feed_essence]

def readingType (language : Nat) : NodeType where
  name := "Reading"
  language := language
  index := 1
  kind := .concrete
  base := some 0
  ancestry := [1, 0]
  fields := [⟨"value", "float", .single, .primitive .float⟩]
  checked := true

def reading (id : Ident) (language : Nat) (bits : UInt64) : Value :=
  .node id (readingType language) [.prim (.float (.ofBits bits))]

/-- Three lists of a NaN and a zero, of which any two share one reading at most, and a reading of
another language. -/
def readings : List Value :=
  [.seq 4 [reading 0 0 0x7ff8000000000001, reading 1 0 0],
    reading 7 1 0,
    .seq 5 [reading 0 0 0x7ff8000000000001, reading 2 0 0x8000000000000000],
    .seq 6 [reading 3 0 0xfff8000000000000, reading 1 0 0],
    reading 1 0 0]

def readingsHeap : Heap where
  bound := 8
  object i := ((objectsAll readings).lookup i).getD .absent

theorem equal_structural_readings :
    (∀ t ∈ readings, t.On readingsHeap) ∧
      firstOccurrences readings = [0, 1, 0, 0, 4] ∧
      ∀ (m : Std.HashMap Key Nat) (u v : Value), u ∈ readings → v ∈ readings →
        (m.insert u.key 0)[v.key]? = if u.equal v then some 0 else m[v.key]? := by
  have on : ∀ t ∈ readings, t.On readingsHeap := by decide
  refine ⟨on, ?_, fun m u v hu hv => ?_⟩
  · have first := on _ (.head _)
    obtain ⟨-, -, -, -, -, -, -, occurrences⟩ := equal_structural first first first
    rw [occurrences readings on]
    decide
  · obtain ⟨-, -, -, -, -, -, keyed, -⟩ := equal_structural (on u hu) (on v hv) (on v hv)
    exact keyed Nat m 0

end Tree

end Arbor
