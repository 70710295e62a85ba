import Mathlib
import Arbor.Proofs.Traversal.Reconstruction
import Arbor.Proofs.Unify.Idempotence

/-!
# Identities in solutions

Instantiation and unification make new objects, and give them identities that nothing else has. So
the instances of honest values are honest, and a solution of equations between honest values binds
variables to honest values only (`solve_honest`). The supply of identities is never set back.
-/

namespace Arbor

open Arbor.Tree

variable {heap : Heap}

/-! ## Instances -/

namespace Tree

mutual

/-- What is made new is above the heap. -/
theorem instantiate_honest {check : NodeCheck} {find : String → Option Value}
    (found : ∀ x u, find x = some u → u.Honest heap) (v : Value) (own : v.Honest heap)
    {next n : Ident} (new : heap.bound ≤ next) {r : Option Value}
    (h : instantiate check find v next = .ok (r, n)) : next ≤ n ∧ (r.getD v).Honest heap := by
  match v with
  | .node id type values =>
    simp only [instantiate, bind, Except.bind] at h
    split at h
    · cases h
    · rename_i p hp
      obtain ⟨changed, m⟩ := p
      obtain ⟨le, parts⟩ :=
        instantiateAll_honest found values (forall_objects_node.mp own).2 new hp
      cases changed with
      | none =>
        cases h
        exact ⟨le, own⟩
      | some changed =>
        dsimp only at h
        split at h
        · cases h
        · cases h
          exact ⟨Nat.le_succ_of_le le, honest_node (Nat.le_trans new le) parts⟩
  | .seq id items =>
    simp only [instantiate, bind, Except.bind] at h
    split at h
    · cases h
    · rename_i p hp
      obtain ⟨changed, m⟩ := p
      obtain ⟨le, parts⟩ := instantiateAll_honest found items (forall_objects_seq.mp own).2 new hp
      cases changed with
      | none =>
        cases h
        exact ⟨le, own⟩
      | some changed =>
        cases h
        exact ⟨Nat.le_succ_of_le le, honest_seq (Nat.le_trans new le) parts⟩
  | .pattern (.var x) =>
    rw [instantiate] at h
    cases hx : find x with
    | none =>
      rw [hx] at h
      cases h
      exact ⟨Nat.le_refl _, own⟩
    | some u =>
      rw [hx] at h
      cases h
      refine ⟨Nat.le_refl _, ?_⟩
      split
      · exact own
      · exact found x u hx
  | .pattern .wildcard | .prim _ | .absent =>
    cases h
    exact ⟨Nat.le_refl _, own⟩

theorem instantiateAll_honest {check : NodeCheck} {find : String → Option Value}
    (found : ∀ x u, find x = some u → u.Honest heap) (vs : List Value)
    (own : ∀ v ∈ vs, v.Honest heap) {next n : Ident} (new : heap.bound ≤ next)
    {r : Option (List Value)} (h : instantiateAll check find vs next = .ok (r, n)) :
    next ≤ n ∧ ∀ v ∈ r.getD vs, v.Honest heap := by
  match vs with
  | [] =>
    cases h
    exact ⟨Nat.le_refl _, List.forall_mem_nil _⟩
  | v :: vs =>
    rw [List.forall_mem_cons] at own
    simp only [instantiateAll, bind, Except.bind] at h
    split at h
    · cases h
    · rename_i p hp
      split at h
      · cases h
      · rename_i q hq
        obtain ⟨le, head⟩ := instantiate_honest found v own.1 new hp
        obtain ⟨le', tail⟩ := instantiateAll_honest found vs own.2 (Nat.le_trans new le) hq
        obtain ⟨first, m⟩ := p
        obtain ⟨others, m'⟩ := q
        cases first <;> cases others <;> cases h <;>
          exact ⟨Nat.le_trans le le', List.forall_mem_cons.mpr ⟨head, tail⟩⟩

end

theorem expand_honest {find : String → Option Value}
    (found : ∀ x u, find x = some u → u.Honest heap) {v : Value} (own : v.Honest heap)
    {next : Ident} (new : heap.bound ≤ next) :
    next ≤ (v.expand find next).2 ∧ (v.expand find next).1.Honest heap := by
  unfold expand
  split
  · rename_i h
    exact instantiate_honest found v own new h
  · exact ⟨Nat.le_refl _, own⟩

end Tree

namespace Substitution

/-- The variables are bound to honest values. -/
def Honest (heap : Heap) (s : Substitution) : Prop :=
  ∀ b ∈ s.bindings, b.2.Honest heap

theorem Honest.get? {s : Substitution} (h : s.Honest heap) :
    ∀ x u, s.get? x = some u → u.Honest heap := by
  intro x u found
  obtain ⟨before, after, bindings, -⟩ := List.lookup_eq_some_iff.mp found
  exact h (x, u) (bindings ▸ List.mem_append_right before List.mem_cons_self)

theorem Honest.insert {s : Substitution} (h : s.Honest heap) (x : String) {t : Value}
    (honest : t.Honest heap) : (s.insert x t).Honest heap := by
  have inserted (bindings : List (String × Value)) (own : ∀ b ∈ bindings, b.2.Honest heap) :
      ∀ b ∈ insertBinding x t bindings, b.2.Honest heap := by
    induction bindings with
    | nil => exact List.forall_mem_singleton.mpr honest
    | cons b rest ih =>
      rw [List.forall_mem_cons] at own
      unfold insertBinding
      split
      · exact List.forall_mem_cons.mpr ⟨honest, own.2⟩
      split
      · exact List.forall_mem_cons.mpr ⟨honest, List.forall_mem_cons.mpr own⟩
      · exact List.forall_mem_cons.mpr ⟨own.1, ih own.2⟩
  exact inserted s.bindings h

theorem honest_single {x : String} {t : Value} (honest : t.Honest heap) :
    ∀ y u, single x t y = some u → u.Honest heap := by
  intro y u found
  unfold single at found
  split at found
  · cases found
    exact honest
  · cases found

theorem expandBindings_honest {find : String → Option Value}
    (found : ∀ x u, find x = some u → u.Honest heap) {bindings : List (String × Value)}
    (own : ∀ b ∈ bindings, b.2.Honest heap) {next : Ident} (new : heap.bound ≤ next) :
    next ≤ (expandBindings find bindings next).2 ∧
      ∀ b ∈ (expandBindings find bindings next).1, b.2.Honest heap := by
  induction bindings generalizing next with
  | nil => exact ⟨Nat.le_refl _, List.forall_mem_nil _⟩
  | cons b rest ih =>
    rw [List.forall_mem_cons] at own
    obtain ⟨le, head⟩ := expand_honest found own.1 new
    obtain ⟨le', tail⟩ := ih own.2 (Nat.le_trans new le)
    exact ⟨Nat.le_trans le le', List.forall_mem_cons.mpr ⟨head, tail⟩⟩

theorem apply_honest {s : Substitution} (bound : s.Honest heap) {template v : Value}
    (own : template.Honest heap) {next n : Ident} (new : heap.bound ≤ next)
    (h : s.apply template next = .ok (v, n)) : next ≤ n ∧ v.Honest heap := by
  unfold apply at h
  cases made : instantiate NodeType.validate s.get? template next with
  | error e =>
    rw [made] at h
    cases h
  | ok p =>
    rw [made] at h
    cases h
    exact instantiate_honest bound.get? template own new made

theorem bind_honest {s : Substitution} (h : s.Honest heap) (x : String) {t : Value}
    (honest : t.Honest heap) {next : Ident} (new : heap.bound ≤ next) :
    next ≤ (s.bind x t next).2 ∧ (s.bind x t next).1.Honest heap := by
  obtain ⟨le, expanded⟩ := expandBindings_honest (honest_single (x := x) honest) h new
  exact ⟨le, Honest.insert (s := ⟨_⟩) expanded x honest⟩

end Substitution

/-! ## Solutions -/

namespace Unify

/-- Both sides are honest. -/
abbrev HonestEquation (heap : Heap) (e : Equation) : Prop :=
  e.1.Honest heap ∧ e.2.Honest heap

theorem Asks.honest_split {l r : Value} {eqs : List Equation} (asks : Asks l r (.split eqs))
    (h : HonestEquation heap (l, r)) : ∀ e ∈ eqs, HonestEquation heap e := by
  have zip {vs ws : List Value} (hv : ∀ v ∈ vs, v.Honest heap) (hw : ∀ w ∈ ws, w.Honest heap)
      (e : Equation) (he : e ∈ vs.zip ws) : HonestEquation heap e :=
    ⟨hv _ (List.of_mem_zip he).1, hw _ (List.of_mem_zip he).2⟩
  cases asks with
  | wildLeft => exact List.forall_mem_nil _
  | wildRight => exact List.forall_mem_nil _
  | equal _ => exact List.forall_mem_nil _
  | node _ => exact zip (forall_objects_node.mp h.1).2 (forall_objects_node.mp h.2).2
  | seq _ => exact zip (forall_objects_seq.mp h.1).2 (forall_objects_seq.mp h.2).2

theorem Asks.honest_bind {l r t : Value} {x : String} (asks : Asks l r (.bind x t))
    (h : HonestEquation heap (l, r)) : t.Honest heap := by
  cases asks with
  | bindLeft _ => exact h.2
  | bindRight _ => exact h.1

theorem expandEquations_honest {find : String → Option Value}
    (found : ∀ x u, find x = some u → u.Honest heap) {eqs : List Equation}
    (own : ∀ e ∈ eqs, HonestEquation heap e) {next : Ident} (new : heap.bound ≤ next) :
    next ≤ (expandEquations find eqs next).2 ∧
      ∀ e ∈ (expandEquations find eqs next).1, HonestEquation heap e := by
  induction eqs generalizing next with
  | nil => exact ⟨Nat.le_refl _, List.forall_mem_nil _⟩
  | cons e rest ih =>
    rw [List.forall_mem_cons] at own
    obtain ⟨le, left⟩ := expand_honest found own.1.1 new
    obtain ⟨le', right⟩ := expand_honest found own.1.2 (Nat.le_trans new le)
    obtain ⟨le'', others⟩ := ih own.2 (Nat.le_trans new (Nat.le_trans le le'))
    exact ⟨Nat.le_trans le (Nat.le_trans le' le''),
      List.forall_mem_cons.mpr ⟨⟨left, right⟩, others⟩⟩

theorem solve_honest (pending : List Equation) (found : Substitution) (next : Ident)
    (own : ∀ e ∈ pending, HonestEquation heap e) (bound : found.Honest heap)
    (new : heap.bound ≤ next) :
    next ≤ (solve pending found next).next ∧
      ∀ s, (solve pending found next).result = .ok s → s.Honest heap := by
  induction pending, found, next using solve.induct with
  | case1 found next =>
    rw [solve_nil]
    refine ⟨Nat.le_refl _, ?_⟩
    rintro _ ⟨⟩
    exact bound
  | case2 found next l r rest e step =>
    rw [solve_error step]
    exact ⟨Nat.le_refl _, fun _ solved => by cases solved⟩
  | case3 found next l r rest eqs step ih =>
    rw [List.forall_mem_cons] at own
    rw [solve_split step]
    have parts := (matchStep_asks step).honest_split own.1
    refine ih (List.forall_mem_append.mpr ⟨fun e he => parts e (List.mem_reverse.mp he), own.2⟩)
      bound new
  | case4 found next l r rest x t step pending found' ih =>
    rw [List.forall_mem_cons] at own
    have honest := (matchStep_asks step).honest_bind own.1
    obtain ⟨le, others⟩ :=
      expandEquations_honest (Substitution.honest_single (x := x) honest) own.2 new
    obtain ⟨le', values⟩ := Substitution.bind_honest bound x honest (Nat.le_trans new le)
    obtain ⟨le'', solved⟩ := ih others values (Nat.le_trans new (Nat.le_trans le le'))
    rw [solve_bind_eq step]
    exact ⟨Nat.le_trans le (Nat.le_trans le' le''), solved⟩

end Unify

end Arbor
