import Arbor.Proofs.Traversal.Positions
import Arbor.Proofs.Unify.Congruence

/-!
# What an instance shares with its template

The part of an instance at an address is what instantiation makes of the part of the template there
(`instantiate_at`). That is the same object if no variable in it is bound to anything but itself
(`Tree.Settled`), the bound value if it is a variable, and a new object otherwise.
-/

namespace Arbor

open Arbor.Tree

namespace Tree

section

variable {ι : Type}

theorem ind_children {motive : Tree ι → Prop} (leaf : ∀ t, t.isLeaf = true → motive t)
    (composite : ∀ t, t.isLeaf = false → (∀ u ∈ t.children, motive u) → motive t) (t : Tree ι) :
    motive t := by
  induction t using Tree.ind with
  | node id type values ih => exact composite _ rfl ih
  | seq id items ih => exact composite _ rfl ih
  | prim p => exact leaf _ rfl
  | absent => exact leaf _ rfl
  | pattern p => exact leaf _ rfl

theorem vars_composite {t : Tree ι} (composite : t.isLeaf = false) :
    t.vars = t.children.flatMap vars := by
  cases t with
  | node id type values => exact varsAll_eq_flatMap values
  | seq id items => exact varsAll_eq_flatMap items
  | _ => cases composite

/-- What is bound among the variables of the tree is bound to itself. -/
def Settled (find : String → Option Value) (t : Tree ι) : Prop :=
  ∀ x ∈ t.vars, ∀ v, find x = some v → v = .pattern (.var x)

theorem settled_composite {find : String → Option Value} {t : Tree ι}
    (composite : t.isLeaf = false) : t.Settled find ↔ ∀ u ∈ t.children, u.Settled find := by
  rw [Settled, vars_composite composite, List.forall_mem_flatMap]
  rfl

theorem settled_var {find : String → Option Value} {x : String} :
    (Tree.pattern (.var x) : Tree ι).Settled find ↔
      ∀ v, find x = some v → v = .pattern (.var x) := by
  simp [Settled, vars]

end

/-! ## Inversion of instantiation -/

section

variable {check : NodeCheck} {find : String → Option Value} {v : Value} {next n : Ident}
  {r : Option Value}

theorem instantiate_leaf (leaf : v.isLeaf = true)
    (h : instantiate check find v next = .ok (r, n)) :
    n = next ∧ (r = none ∧ v.Settled find ∨
      ∃ x u, v = .pattern (.var x) ∧ find x = some u ∧ u ≠ v ∧ r = some u) := by
  cases v with
  | node => cases leaf
  | seq => cases leaf
  | prim p =>
    cases h
    exact ⟨rfl, .inl ⟨rfl, by simp [Settled, vars]⟩⟩
  | absent =>
    cases h
    exact ⟨rfl, .inl ⟨rfl, by simp [Settled, vars]⟩⟩
  | pattern p =>
    cases p with
    | wildcard =>
      cases h
      exact ⟨rfl, .inl ⟨rfl, by simp [Settled, vars]⟩⟩
    | var x =>
      rw [instantiate] at h
      rw [settled_var]
      cases found : find x with
      | none =>
        rw [found] at h
        cases h
        exact ⟨rfl, .inl ⟨rfl, fun u hu => by cases hu⟩⟩
      | some u =>
        rw [found] at h
        cases h
        refine ⟨rfl, ?_⟩
        split
        · rename_i own
          refine .inl ⟨rfl, fun v hv => ?_⟩
          cases hv
          exact eq_var_of_var? own
        · rename_i proper
          refine .inr ⟨x, u, rfl, found, fun own => ?_, rfl⟩
          subst own
          exact proper rfl

/-- A node or a sequence is rebuilt if one of its parts changes, under an identity of its own. -/
theorem instantiate_composite (composite : v.isLeaf = false)
    (h : instantiate check find v next = .ok (r, n)) :
    ∃ parts m, instantiateAll check find v.children next = .ok (parts, m) ∧ m ≤ n ∧
      r.map children = parts ∧ ∀ w, r = some w → v.Below m → w.identical v = false := by
  cases v with
  | node id type values =>
    simp only [instantiate, bind, Except.bind] at h
    split at h
    · cases h
    · rename_i p inner
      obtain ⟨parts, m⟩ := p
      refine ⟨parts, m, inner, ?_⟩
      cases parts with
      | none =>
        cases h
        exact ⟨Nat.le_refl _, rfl, fun w hw => by cases hw⟩
      | some parts =>
        dsimp only at h
        split at h
        · cases h
        · cases h
          refine ⟨Nat.le_succ _, rfl, fun w hw below => ?_⟩
          cases hw
          exact beq_false_of_ne (Nat.ne_of_gt (forall_objects_node.mp below).1)
  | seq id items =>
    simp only [instantiate, bind, Except.bind] at h
    split at h
    · cases h
    · rename_i p inner
      obtain ⟨parts, m⟩ := p
      refine ⟨parts, m, inner, ?_⟩
      cases parts with
      | none =>
        cases h
        exact ⟨Nat.le_refl _, rfl, fun w hw => by cases hw⟩
      | some parts =>
        cases h
        refine ⟨Nat.le_succ _, rfl, fun w hw below => ?_⟩
        cases hw
        exact beq_false_of_ne (Nat.ne_of_gt (forall_objects_seq.mp below).1)
  | _ => cases composite

theorem instantiateAll_cons {vs : List Value} {rs : Option (List Value)}
    (h : instantiateAll check find (v :: vs) next = .ok (rs, n)) :
    ∃ first m others, instantiate check find v next = .ok (first, m) ∧
      instantiateAll check find vs m = .ok (others, n) ∧
      rs.getD (v :: vs) = first.getD v :: others.getD vs ∧
      (rs = none ↔ first = none ∧ others = none) := by
  simp only [instantiateAll, bind, Except.bind] at h
  split at h
  · cases h
  · rename_i p head
    split at h
    · cases h
    · rename_i q tail
      obtain ⟨first, m⟩ := p
      obtain ⟨others, m'⟩ := q
      cases first <;> cases others <;> cases h <;> exact ⟨_, _, _, head, tail, rfl, by simp⟩

end

/-! ## Runs -/

section

variable {check : NodeCheck} {find : String → Option Value}

theorem instantiateAll_settled {vs : List Value} {next n : Ident} {rs : Option (List Value)}
    (each : ∀ v ∈ vs, ∀ {next n : Ident} {r : Option Value},
      instantiate check find v next = .ok (r, n) → next ≤ n ∧ (r = none ↔ v.Settled find))
    (h : instantiateAll check find vs next = .ok (rs, n)) :
    next ≤ n ∧ (rs = none ↔ ∀ v ∈ vs, v.Settled find) := by
  induction vs generalizing next rs with
  | nil =>
    cases h
    simp
  | cons v vs ih =>
    rw [List.forall_mem_cons] at each
    obtain ⟨first, m, others, head, tail, -, kept⟩ := instantiateAll_cons h
    obtain ⟨le, settled⟩ := each.1 head
    obtain ⟨le', settled'⟩ := ih each.2 tail
    rw [List.forall_mem_cons, kept, settled, settled']
    exact ⟨Nat.le_trans le le', Iff.rfl⟩

/-- A tree is its own instance if and only if it is settled. -/
theorem instantiate_settled (v : Value) {next n : Ident} {r : Option Value}
    (h : instantiate check find v next = .ok (r, n)) :
    next ≤ n ∧ (r = none ↔ v.Settled find) := by
  induction v using ind_children generalizing next n r with
  | leaf v leaf =>
    obtain ⟨rfl, ⟨rfl, settled⟩ | ⟨x, u, rfl, found, proper, rfl⟩⟩ := instantiate_leaf leaf h
    · exact ⟨Nat.le_refl _, by simpa using settled⟩
    · refine ⟨Nat.le_refl _, by simp, fun settled => ?_⟩
      exact absurd (settled_var.mp settled u found) proper
  | composite v composite ih =>
    obtain ⟨parts, m, inner, le, rebuilt, -⟩ := instantiate_composite composite h
    obtain ⟨le', settled⟩ := instantiateAll_settled ih inner
    rw [settled_composite composite, ← settled, ← rebuilt, Option.map_eq_none_iff]
    exact ⟨Nat.le_trans le' le, Iff.rfl⟩

theorem instantiateAll_at {vs : List Value} {next n : Ident} {rs : Option (List Value)}
    (h : instantiateAll check find vs next = .ok (rs, n)) {i : Nat} {v : Value}
    (lies : vs[i]? = some v) :
    ∃ m m' r, next ≤ m ∧ instantiate check find v m = .ok (r, m') ∧
      (rs.getD vs)[i]? = some (r.getD v) := by
  induction vs generalizing next rs i with
  | nil => cases lies
  | cons u vs ih =>
    obtain ⟨first, m, others, head, tail, whole, -⟩ := instantiateAll_cons h
    rw [whole]
    cases i with
    | zero =>
      cases lies
      exact ⟨next, m, first, Nat.le_refl _, head, rfl⟩
    | succ i =>
      obtain ⟨m₁, m₂, r, le, made, lies⟩ := ih tail lies
      exact ⟨m₁, m₂, r, Nat.le_trans (instantiate_settled u head).1 le, made, lies⟩

/-- The part of an instance at an address of the template is the instance of the part there. -/
theorem instantiate_at {t u : Value} {a : Address} {next n : Ident} {r : Option Value}
    (h : instantiate check find t next = .ok (r, n)) (lies : t.at? a = some u) :
    ∃ m m' c, next ≤ m ∧ instantiate check find u m = .ok (c, m') ∧
      (r.getD t).at? a = some (c.getD u) := by
  induction a generalizing t next n r with
  | nil =>
    cases lies
    exact ⟨next, n, r, Nat.le_refl _, h, rfl⟩
  | cons i a ih =>
    obtain ⟨part, hpart, lies⟩ := Option.bind_eq_some_iff.mp lies
    have composite : t.isLeaf = false := by
      cases t <;> first | rfl | cases hpart
    obtain ⟨parts, m, inner, -, rebuilt, -⟩ := instantiate_composite composite h
    obtain ⟨m₁, m₂, c, le, made, hpart'⟩ := instantiateAll_at inner hpart
    obtain ⟨m₃, m₄, c', le', made', lies'⟩ := ih made lies
    refine ⟨m₃, m₄, c', Nat.le_trans le le', made', ?_⟩
    have children : (r.getD t).children = parts.getD t.children := by
      rw [← rebuilt]
      cases r <;> rfl
    rw [at?, children, hpart']
    exact lies'

theorem Below.mono {v : Value} {bound bound' : Ident} (h : v.Below bound) (le : bound ≤ bound') :
    v.Below bound' :=
  fun o ho => Nat.lt_of_lt_of_le (h o ho) le

theorem below_at {t u : Value} {bound : Ident} (below : t.Below bound) {a : Address}
    (lies : t.at? a = some u) : u.Below bound := by
  refine of_at? (fun t below u hu => ?_) below lies
  cases t with
  | node id type values => exact (forall_objects_node.mp below).2 u hu
  | seq id items => exact (forall_objects_seq.mp below).2 u hu
  | _ => cases hu

/-- What is put in or made new is not what stood there. -/
theorem not_identical_of_instantiate {v w : Value} {next n : Ident} (below : v.Below next)
    (h : instantiate check find v next = .ok (some w, n)) : w.identical v = false := by
  cases kind : v.isLeaf with
  | true =>
    obtain ⟨-, ⟨none, -⟩ | ⟨x, u, -, -, proper, same⟩⟩ := instantiate_leaf kind h
    · cases none
    · cases same
      rw [identical_leaf kind, Bool.eq_false_iff]
      exact fun same => proper (eq_of_same_leaf kind same)
  | false =>
    obtain ⟨parts, m, inner, -, -, fresh⟩ := instantiate_composite kind h
    have le := (instantiateAll_settled (fun v _ _ _ _ => instantiate_settled v) inner).1
    exact fresh w rfl (below.mono le)

end

end Tree

namespace Substitution

variable {s : Substitution} {t r : Value} {next n : Ident}

theorem mem_vars_apply (h : s.apply t next = .ok (r, n)) (x : String) :
    x ∈ r.vars ↔ x ∈ t.vars ∧ s.get? x = none ∨
      ∃ y ∈ t.vars, ∃ v, s.get? y = some v ∧ x ∈ v.vars := by
  rw [← vars_shape, shape_apply h, mem_vars_subst]
  have each (y : String) : x ∈ (s.valuation y).vars ↔
      x = y ∧ s.get? y = none ∨ ∃ v, s.get? y = some v ∧ x ∈ v.vars := by
    cases found : s.get? y with
    | none => simp [valuation, standing_none found, unbound, vars]
    | some v => simp [valuation, standing_some found, vars_shape]
  simp only [each]
  grind

/-- A part of an instance is the part of the template if that is settled, and a new one
otherwise. -/
theorem apply_at (below : t.Below next) (h : s.apply t next = .ok (r, n)) {a : Address} {u : Value}
    (lies : t.at? a = some u) :
    ∃ w, r.at? a = some w ∧ (w.identical u = true ↔ u.Settled s.get?) ∧
      (u.Settled s.get? → w = u) := by
  obtain ⟨changed, made, rfl⟩ := apply_ok h
  obtain ⟨m, m', part, le, made, lies'⟩ := instantiate_at made lies
  have settled := (instantiate_settled u made).2
  refine ⟨_, lies', ?_⟩
  cases part with
  | none =>
    have kept := settled.mp rfl
    exact ⟨⟨fun _ => kept, fun _ => identical_self u⟩, fun _ => rfl⟩
  | some w =>
    have moved : ¬ u.Settled s.get? := fun kept => by cases settled.mpr kept
    have fresh := not_identical_of_instantiate ((below_at below lies).mono le) made
    exact ⟨⟨fun same => by simp [fresh] at same, fun kept => absurd kept moved⟩,
      fun kept => absurd kept moved⟩

theorem apply_at_var (h : s.apply t next = .ok (r, n)) {a : Address} {x : String} {v : Value}
    (lies : t.at? a = some (.pattern (.var x))) (bound : s.get? x = some v) :
    r.at? a = some v := by
  obtain ⟨changed, made, rfl⟩ := apply_ok h
  obtain ⟨m, m', part, le, made, lies'⟩ := instantiate_at made lies
  rw [lies']
  obtain ⟨-, ⟨rfl, settled⟩ | ⟨y, u, same, found, -, rfl⟩⟩ := instantiate_leaf rfl made
  · rw [settled_var.mp settled v bound]
    rfl
  · cases same
    rw [bound] at found
    cases found
    rfl

/-- An instance shares all it can with its template: the settled parts stay the same objects, and
the bound variables give way to the very values bound to them. -/
theorem apply_shares (below : t.Below next) (h : s.apply t next = .ok (r, n)) :
    (r.identical t = true ↔ t.Settled s.get?) ∧
    (∀ a u, t.at? a = some u → ∃ w, r.at? a = some w ∧
      (w.identical u = true ↔ u.Settled s.get?) ∧ (u.Settled s.get? → w = u)) ∧
    (∀ a x v, t.at? a = some (.pattern (.var x)) → s.get? x = some v → r.at? a = some v) ∧
    r.shape = t.subst s.valuation ∧
    ∀ x, x ∈ r.vars ↔ x ∈ t.vars ∧ s.get? x = none ∨
      ∃ y ∈ t.vars, ∃ v, s.get? y = some v ∧ x ∈ v.vars := by
  refine ⟨?_, fun a u => apply_at below h, fun a x v => apply_at_var h, shape_apply h,
    mem_vars_apply h⟩
  have root : t.at? [] = some t := rfl
  obtain ⟨w, lies, same, -⟩ := apply_at below h root
  cases lies
  exact same

def blockType : NodeType := .plain "Block" 1 [⟨"items", "object", .sequence, .primitive .object⟩]

def block (id : Ident) (items : List Value) : Value :=
  .node id blockType [.seq (id + 1) items]

/-- The value bound to the variable mentions it. -/
def growing : Substitution :=
  .ofList [("x", block 6 [.pattern (.var "x"), .pattern (.var "z")]), ("y", .pattern (.var "y"))]

def hollow : Value :=
  block 0 [.pattern (.var "x"), block 2 [.pattern (.var "y")], block 4 [.pattern (.var "w")]]

def filled : Value :=
  .node 9 blockType [.seq 8 [block 6 [.pattern (.var "x"), .pattern (.var "z")],
    block 2 [.pattern (.var "y")], block 4 [.pattern (.var "w")]]]

theorem apply_shares_hollow :
    hollow.Below 8 ∧ growing.apply hollow 8 = .ok (filled, 10) ∧
      filled.identical hollow = false ∧
      filled.at? [0, 0] = growing.get? "x" ∧
      filled.at? [0, 1] = hollow.at? [0, 1] ∧
      "x" ∈ filled.vars ∧ "y" ∈ filled.vars ∧ "z" ∈ filled.vars ∧ "w" ∈ filled.vars := by
  have below : hollow.Below 8 := by decide
  have made : growing.apply hollow 8 = .ok (filled, 10) := by cbv
  obtain ⟨root, parts, bound, -, mem_vars⟩ := apply_shares below made
  refine ⟨below, made, ?_, bound [0, 0] "x" _ rfl rfl, ?_, (mem_vars _).mpr (.inr ?_),
    (mem_vars _).mpr (.inr ?_), (mem_vars _).mpr (.inr ?_), (mem_vars _).mpr (.inl ?_)⟩
  · rw [Bool.eq_false_iff, Ne, root]
    intro settled
    cases settled "x" (by decide) _ rfl
  · have settled : (block 2 [.pattern (.var "y")]).Settled growing.get? := by
      intro x hx v found
      obtain rfl : x = "y" := by simpa [block, vars, varsAll] using hx
      cases found
      rfl
    obtain ⟨w, lies, -, same⟩ := parts [0, 1] _ rfl
    rw [lies, same settled]
    rfl
  · exact ⟨"x", by decide, _, rfl, by decide⟩
  · exact ⟨"y", by decide, _, rfl, by decide⟩
  · exact ⟨"x", by decide, _, rfl, by decide⟩
  · exact ⟨by decide, rfl⟩

end Substitution

end Arbor
