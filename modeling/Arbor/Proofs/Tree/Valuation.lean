import Arbor.Tree.Equality

/-!
# Trees under valuations

A valuation says which shape every variable stands for, and `Tree.subst` is the shape of a tree
with its variables replaced accordingly. This is substitution without identities and without
sharing, which the proofs about instantiation and unification are stated in.

Agreement of two trees is equality up to wildcards: a wildcard on either side agrees with anything.
-/

namespace Arbor

/-- What every variable stands for. -/
abbrev Valuation := String → Shape

namespace Tree

variable {ι κ : Type}

/-! ## Induction -/

theorem ind {motive : Tree ι → Prop}
    (node : ∀ id type values, (∀ v ∈ values, motive v) → motive (.node id type values))
    (seq : ∀ id items, (∀ v ∈ items, motive v) → motive (.seq id items))
    (prim : ∀ p, motive (.prim p)) (absent : motive .absent)
    (pattern : ∀ p, motive (.pattern p)) (t : Tree ι) : motive t :=
  @Tree.rec ι motive (fun ts => ∀ v ∈ ts, motive v) node seq prim absent pattern
    (fun _ h => by cases h)
    (fun _ _ head tail => List.forall_mem_cons.mpr ⟨head, tail⟩) t

@[simp] theorem shapeAll_eq_map (ts : List (Tree ι)) : shapeAll ts = ts.map shape := by
  induction ts with
  | nil => rfl
  | cons t ts ih => rw [shapeAll, ih, List.map_cons]

@[simp] theorem varsAll_eq_flatMap (ts : List (Tree ι)) : varsAll ts = ts.flatMap vars := by
  induction ts with
  | nil => rfl
  | cons t ts ih => rw [varsAll, ih, List.flatMap_cons]

/-! ## Substitution -/

mutual

/-- The shape of a tree whose variables stand for the shapes of a valuation. -/
def subst (σ : Valuation) : Tree ι → Shape
  | .node _ type values => .node () type (substAll σ values)
  | .seq _ items => .seq () (substAll σ items)
  | .prim p => .prim p
  | .absent => .absent
  | .pattern (.var x) => σ x
  | .pattern .wildcard => .pattern .wildcard

def substAll (σ : Valuation) : List (Tree ι) → List Shape
  | [] => []
  | t :: ts => subst σ t :: substAll σ ts

end

@[simp] theorem substAll_eq_map (σ : Valuation) (ts : List (Tree ι)) :
    substAll σ ts = ts.map (subst σ) := by
  induction ts with
  | nil => rfl
  | cons t ts ih => rw [substAll, ih, List.map_cons]

/-- Every variable stands for itself. -/
def unbound : Valuation := fun x => .pattern (.var x)

/-- One variable stands for a tree and all others for themselves. -/
def binding (x : String) (t : Tree ι) : Valuation := fun y => if y = x then t.shape else unbound y

@[simp] theorem binding_self (x : String) (t : Tree ι) : binding x t x = t.shape :=
  if_pos rfl

theorem binding_of_ne {x y : String} (t : Tree ι) (h : y ≠ x) : binding x t y = unbound y :=
  if_neg h

theorem subst_congr {σ τ : Valuation} {t : Tree ι} (h : ∀ x ∈ t.vars, σ x = τ x) :
    t.subst σ = t.subst τ := by
  induction t using Tree.ind with
  | node id type values ih =>
    simp only [vars, varsAll_eq_flatMap, List.mem_flatMap] at h
    simp only [subst, substAll_eq_map]
    congr 1
    exact List.map_congr_left fun v hv => ih v hv fun x hx => h x ⟨v, hv, hx⟩
  | seq id items ih =>
    simp only [vars, varsAll_eq_flatMap, List.mem_flatMap] at h
    simp only [subst, substAll_eq_map]
    congr 1
    exact List.map_congr_left fun v hv => ih v hv fun x hx => h x ⟨v, hv, hx⟩
  | prim p => rfl
  | absent => rfl
  | pattern p =>
    cases p with
    | var x => exact h x (by simp [vars])
    | wildcard => rfl

theorem subst_unbound (t : Tree ι) : t.subst unbound = t.shape := by
  induction t using Tree.ind with
  | node id type values ih =>
    simp only [subst, shape, substAll_eq_map, shapeAll_eq_map]
    rw [List.map_congr_left ih]
  | seq id items ih =>
    simp only [subst, shape, substAll_eq_map, shapeAll_eq_map]
    rw [List.map_congr_left ih]
  | prim p => rfl
  | absent => rfl
  | pattern p => cases p <;> rfl

theorem subst_subst (σ τ : Valuation) (t : Tree ι) :
    (t.subst σ).subst τ = t.subst fun x => (σ x).subst τ := by
  induction t using Tree.ind with
  | node id type values ih =>
    simp only [subst, substAll_eq_map, List.map_map]
    congr 1
    exact List.map_congr_left ih
  | seq id items ih =>
    simp only [subst, substAll_eq_map, List.map_map]
    congr 1
    exact List.map_congr_left ih
  | prim p => rfl
  | absent => rfl
  | pattern p => cases p <;> rfl

/-- Substitution looks only at the shape of a tree. -/
theorem subst_shape (σ : Valuation) (t : Tree ι) : t.shape.subst σ = t.subst σ := by
  rw [← subst_unbound t, subst_subst]
  rfl

theorem mem_vars_subst {σ : Valuation} {t : Tree ι} {y : String} :
    y ∈ (t.subst σ).vars ↔ ∃ x ∈ t.vars, y ∈ (σ x).vars := by
  induction t using Tree.ind with
  | node id type values ih =>
    simp only [subst, vars, substAll_eq_map, varsAll_eq_flatMap, List.mem_flatMap, List.mem_map]
    grind
  | seq id items ih =>
    simp only [subst, vars, substAll_eq_map, varsAll_eq_flatMap, List.mem_flatMap, List.mem_map]
    grind
  | prim p => simp [subst, vars]
  | absent => simp [subst, vars]
  | pattern p => cases p <;> simp [subst, vars]

theorem subst_binding_of_notMem {x : String} {t : Tree κ} {u : Tree ι} (h : x ∉ u.vars) :
    u.subst (binding x t) = u.shape := by
  rw [← subst_unbound u]
  apply subst_congr
  intro y hy
  exact binding_of_ne t fun e => h (e ▸ hy)

/-! ## Parts of a tree -/

mutual

/-- Every node has a type and a number of values as `node` says, and every pattern term is as `term`
says. -/
def Every (node : NodeType → Nat → Prop) (term : Pattern → Prop) : Tree ι → Prop
  | .node _ type values => node type values.length ∧ EveryAll node term values
  | .seq _ items => EveryAll node term items
  | .prim _ | .absent => True
  | .pattern p => term p

def EveryAll (node : NodeType → Nat → Prop) (term : Pattern → Prop) : List (Tree ι) → Prop
  | [] => True
  | t :: ts => Every node term t ∧ EveryAll node term ts

end

@[simp] theorem everyAll_iff {node : NodeType → Nat → Prop} {term : Pattern → Prop}
    {ts : List (Tree ι)} : EveryAll node term ts ↔ ∀ t ∈ ts, t.Every node term := by
  induction ts with
  | nil => simp [EveryAll]
  | cons t ts ih => rw [EveryAll, ih, List.forall_mem_cons]

/-- Substitution keeps the nodes and the wildcards of a tree and brings in the parts of the
valuation. -/
theorem Every.subst_into {node : NodeType → Nat → Prop} {term term' : Pattern → Prop}
    {σ : Valuation} {t : Tree ι} (h : t.Every node term)
    (wildcard : term .wildcard → term' .wildcard) (hσ : ∀ x ∈ t.vars, (σ x).Every node term') :
    (t.subst σ).Every node term' := by
  induction t using Tree.ind with
  | node id type values ih =>
    simp only [Every, everyAll_iff] at h
    simp only [vars, varsAll_eq_flatMap, List.mem_flatMap] at hσ
    simp only [Tree.subst, Every, substAll_eq_map, everyAll_iff, List.length_map, List.mem_map]
    refine ⟨h.1, ?_⟩
    rintro _ ⟨v, hv, rfl⟩
    exact ih v hv (h.2 v hv) fun x hx => hσ x ⟨v, hv, hx⟩
  | seq id items ih =>
    simp only [Every, everyAll_iff] at h
    simp only [vars, varsAll_eq_flatMap, List.mem_flatMap] at hσ
    simp only [Tree.subst, Every, substAll_eq_map, everyAll_iff, List.mem_map]
    rintro _ ⟨v, hv, rfl⟩
    exact ih v hv (h v hv) fun x hx => hσ x ⟨v, hv, hx⟩
  | prim p => trivial
  | absent => trivial
  | pattern p =>
    cases p with
    | var x => exact hσ x (by simp [vars])
    | wildcard => exact wildcard h

theorem Every.subst {node : NodeType → Nat → Prop} {term : Pattern → Prop} {σ : Valuation}
    {t : Tree ι} (h : t.Every node term) (hσ : ∀ x ∈ t.vars, (σ x).Every node term) :
    (t.subst σ).Every node term :=
  h.subst_into id hσ

theorem Every.var {node : NodeType → Nat → Prop} {term : Pattern → Prop} {t : Tree ι}
    (h : t.Every node term) {x : String} (hx : x ∈ t.vars) : term (.var x) := by
  induction t using Tree.ind with
  | node id type values ih =>
    simp only [Every, everyAll_iff] at h
    simp only [vars, varsAll_eq_flatMap, List.mem_flatMap] at hx
    obtain ⟨v, hv, hx⟩ := hx
    exact ih v hv (h.2 v hv) hx
  | seq id items ih =>
    simp only [Every, everyAll_iff] at h
    simp only [vars, varsAll_eq_flatMap, List.mem_flatMap] at hx
    obtain ⟨v, hv, hx⟩ := hx
    exact ih v hv (h v hv) hx
  | prim p => simp [vars] at hx
  | absent => simp [vars] at hx
  | pattern p => cases p <;> simp_all [vars, Every]

theorem every_shape {node : NodeType → Nat → Prop} {term : Pattern → Prop} {t : Tree ι} :
    t.shape.Every node term ↔ t.Every node term := by
  induction t using Tree.ind with
  | node id type values ih =>
    simp only [shape, Every, shapeAll_eq_map, everyAll_iff, List.length_map, List.forall_mem_map]
    exact and_congr_right fun _ => forall₂_congr ih
  | seq id items ih =>
    simp only [shape, Every, shapeAll_eq_map, everyAll_iff, List.forall_mem_map]
    exact forall₂_congr ih
  | prim p => rfl
  | absent => rfl
  | pattern p => rfl

theorem Every.subst_binding {node : NodeType → Nat → Prop} {term : Pattern → Prop} {x : String}
    {t : Tree κ} {u : Tree ι} (hu : u.Every node term) (ht : t.Every node term) :
    (u.subst (binding x t)).Every node term := by
  apply hu.subst
  intro y hy
  rw [binding]
  split
  · exact every_shape.mpr ht
  · exact hu.var hy

def WildcardFree (t : Tree ι) : Prop :=
  t.Every (fun _ _ => True) (· ≠ .wildcard)

/-! ## Agreement -/

mutual

/-- Whether two trees are equal up to wildcards, which agree with anything. -/
def agrees : Tree ι → Tree κ → Bool
  | .pattern .wildcard, _ => true
  | _, .pattern .wildcard => true
  | .node _ s vs, .node _ t ws => s == t && agreesAll vs ws
  | .seq _ vs, .seq _ ws => agreesAll vs ws
  | .prim p, .prim q => p == q
  | .absent, .absent => true
  | .pattern (.var x), .pattern (.var y) => x == y
  | _, _ => false

def agreesAll : List (Tree ι) → List (Tree κ) → Bool
  | [], [] => true
  | v :: vs, w :: ws => agrees v w && agreesAll vs ws
  | _, _ => false

end

theorem agrees_wildcard (t : Tree ι) : t.agrees (.pattern .wildcard : Tree κ) = true := by
  cases t with
  | pattern p => cases p <;> rfl
  | _ => rfl

theorem agreesAll_iff {vs : List (Tree ι)} {ws : List (Tree κ)} :
    agreesAll vs ws = true ↔
      vs.length = ws.length ∧ ∀ e ∈ vs.zip ws, e.1.agrees e.2 = true := by
  induction vs generalizing ws with
  | nil => cases ws <;> simp [agreesAll]
  | cons v vs ih =>
    cases ws with
    | nil => simp [agreesAll]
    | cons w ws =>
      simp only [agreesAll, Bool.and_eq_true, ih, List.length_cons, Nat.add_right_cancel_iff,
        List.zip_cons_cons, List.forall_mem_cons]
      exact and_left_comm

theorem agreesAll_map {vs : List (Tree ι)} {ws : List (Tree κ)} {ι' κ' : Type}
    {f : Tree ι → Tree ι'} {g : Tree κ → Tree κ'}
    (h : ∀ v ∈ vs, ∀ w, (f v).agrees (g w) = v.agrees w) :
    agreesAll (vs.map f) (ws.map g) = agreesAll vs ws := by
  induction vs generalizing ws with
  | nil => cases ws <;> rfl
  | cons v vs ih =>
    cases ws with
    | nil => rfl
    | cons w ws =>
      rw [List.forall_mem_cons] at h
      simp only [List.map_cons, agreesAll, h.1 w, ih h.2]

theorem agrees_shape (t : Tree ι) (u : Tree κ) : t.shape.agrees u.shape = t.agrees u := by
  induction t using Tree.ind generalizing u with
  | node id type values ih =>
    cases u with
    | node id' type' values' => simp only [shape, agrees, shapeAll_eq_map, agreesAll_map ih]
    | pattern p => cases p <;> rfl
    | _ => rfl
  | seq id items ih =>
    cases u with
    | seq id' items' => simp only [shape, agrees, shapeAll_eq_map, agreesAll_map ih]
    | pattern p => cases p <;> rfl
    | _ => rfl
  | prim p =>
    cases u with
    | pattern p => cases p <;> rfl
    | _ => rfl
  | absent =>
    cases u with
    | pattern p => cases p <;> rfl
    | _ => rfl
  | pattern p =>
    cases p with
    | var x =>
      cases u with
      | pattern p => cases p <;> rfl
      | _ => rfl
    | wildcard => rfl

theorem agrees_self (t : Shape) : t.agrees t = true := by
  induction t using Tree.ind with
  | node id type values ih =>
    simp only [agrees, BEq.rfl, Bool.true_and, agreesAll_iff, true_and]
    intro e he
    obtain ⟨v, hv, rfl⟩ : ∃ v ∈ values, (v, v) = e := by
      simpa [List.zip_eq_zipWith, List.zipWith_self] using he
    exact ih v hv
  | seq id items ih =>
    simp only [agrees, agreesAll_iff, true_and]
    intro e he
    obtain ⟨v, hv, rfl⟩ : ∃ v ∈ items, (v, v) = e := by
      simpa [List.zip_eq_zipWith, List.zipWith_self] using he
    exact ih v hv
  | prim p => simp [agrees]
  | absent => rfl
  | pattern p => cases p <;> simp [agrees]

theorem agreesAll_eq_sameAll {vs : List (Tree ι)} {ws : List (Tree κ)}
    (h : ∀ v ∈ vs, ∀ w ∈ ws, v.agrees w = v.same w) : agreesAll vs ws = sameAll vs ws := by
  induction vs generalizing ws with
  | nil => cases ws <;> rfl
  | cons v vs ih =>
    cases ws with
    | nil => rfl
    | cons w ws =>
      have tail := ih fun v hv w hw => h v (.tail _ hv) w (.tail _ hw)
      rw [agreesAll, sameAll, h v (.head _) w (.head _), tail]

theorem agrees_pattern {t : Tree ι} {p : Pattern} (ht : t.WildcardFree)
    (hp : (.pattern p : Tree κ).WildcardFree) :
    t.agrees (.pattern p : Tree κ) = t.same (.pattern p : Tree κ) := by
  cases p with
  | wildcard => exact absurd rfl hp
  | var y =>
    cases t with
    | pattern q =>
      cases q with
      | wildcard => exact absurd rfl ht
      | var x =>
        rw [Bool.eq_iff_iff]
        simp [agrees, same]
    | _ => rfl

/-- Without wildcards agreement is equality. -/
theorem agrees_eq_same {t : Tree ι} {u : Tree κ} (ht : t.WildcardFree) (hu : u.WildcardFree) :
    t.agrees u = t.same u := by
  induction t using Tree.ind generalizing u with
  | node id type values ih =>
    cases u with
    | node id' type' values' =>
      simp only [WildcardFree, Every, true_and, everyAll_iff] at ht hu ih
      rw [agrees, same, agreesAll_eq_sameAll fun v hv w hw => ih v hv (ht v hv) (hu w hw)]
    | pattern p => exact agrees_pattern ht hu
    | _ => rfl
  | seq id items ih =>
    cases u with
    | seq id' items' =>
      simp only [WildcardFree, Every, everyAll_iff] at ht hu ih
      rw [agrees, same, agreesAll_eq_sameAll fun v hv w hw => ih v hv (ht v hv) (hu w hw)]
    | pattern p => exact agrees_pattern ht hu
    | _ => rfl
  | prim p =>
    cases u with
    | pattern p => exact agrees_pattern ht hu
    | _ => rfl
  | absent =>
    cases u with
    | pattern p => exact agrees_pattern ht hu
    | _ => rfl
  | pattern p =>
    cases p with
    | wildcard => exact absurd rfl ht
    | var x =>
      cases u with
      | pattern q => exact agrees_pattern ht hu
      | _ => rfl

end Tree

end Arbor
