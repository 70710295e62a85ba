import Arbor.Proofs.Tree.Valuation
import Arbor.Unify.Solve

/-!
# Instantiation as substitution

Instantiating a tree shares what it can and draws identities for what it rebuilds. Up to shapes it
is substitution: `shape_expand` for unchecked instances, `shape_apply` for checked ones. Pushing a
binding through equations and through other bindings is then composition of valuations.
-/

namespace Arbor

open Arbor.Tree

/-- The valuation that a lookup of variables describes; unbound variables stand for themselves. -/
def standing (find : String → Option Value) : Valuation := fun x =>
  ((find x).map shape).getD (unbound x)

theorem standing_none {find : String → Option Value} {x : String} (h : find x = none) :
    standing find x = unbound x := by
  simp [standing, h]

theorem standing_some {find : String → Option Value} {x : String} {v : Value}
    (h : find x = some v) : standing find x = v.shape := by
  simp [standing, h]

theorem every_standing {node : NodeType → Nat → Prop} {term : Pattern → Prop}
    {find : String → Option Value} {x : String} (own : term (.var x))
    (h : ∀ v, find x = some v → v.Every node term) : (standing find x).Every node term := by
  cases hx : find x with
  | none =>
    rw [standing_none hx]
    exact own
  | some v =>
    rw [standing_some hx]
    exact every_shape.mpr (h v hx)

theorem standing_single (x : String) (t : Value) :
    standing (Substitution.single x t) = binding x t := by
  funext y
  by_cases h : y = x <;> simp [standing, Substitution.single, binding, h]

namespace Tree

theorem eq_var_of_var? {ι : Type} {t : Tree ι} {x : String} (h : t.var? = some x) :
    t = .pattern (.var x) := by
  unfold var? at h
  split at h
  · cases h
    rfl
  · cases h

mutual

theorem shape_instantiate {check : NodeCheck} {find : String → Option Value} (v : Value)
    {next n : Ident} {r : Option Value} (h : instantiate check find v next = .ok (r, n)) :
    (r.getD v).shape = v.subst (standing find) := by
  match v with
  | .node id type values =>
    simp only [instantiate, bind, Except.bind] at h
    split at h
    · cases h
    · rename_i p hp
      obtain ⟨changed, m⟩ := p
      have ih := shape_instantiateAll values hp
      cases changed with
      | none =>
        cases h
        simpa [shape, subst] using ih
      | some changed =>
        dsimp only at h
        split at h
        · cases h
        · cases h
          simpa [shape, subst] using ih
  | .seq id items =>
    simp only [instantiate, bind, Except.bind] at h
    split at h
    · cases h
    · rename_i p hp
      obtain ⟨changed, m⟩ := p
      have ih := shape_instantiateAll items hp
      cases changed <;> cases h <;> simpa [shape, subst] using ih
  | .pattern (.var x) =>
    rw [instantiate] at h
    cases hx : find x with
    | none =>
      rw [hx] at h
      cases h
      exact (standing_none hx).symm
    | some u =>
      rw [hx] at h
      cases h
      rw [subst, standing_some hx]
      split
      · rename_i hu
        rw [eq_var_of_var? hu]
        rfl
      · rfl
  | .pattern .wildcard | .prim _ | .absent =>
    cases h
    rfl

theorem shape_instantiateAll {check : NodeCheck} {find : String → Option Value}
    (vs : List Value) {next n : Ident} {r : Option (List Value)}
    (h : instantiateAll check find vs next = .ok (r, n)) :
    (r.getD vs).map shape = vs.map (subst (standing find)) := by
  match vs with
  | [] =>
    cases h
    rfl
  | v :: vs =>
    simp only [instantiateAll, bind, Except.bind] at h
    split at h
    · cases h
    · rename_i p hp
      split at h
      · cases h
      · rename_i q hq
        have head := shape_instantiate v hp
        have tail := shape_instantiateAll vs hq
        obtain ⟨first, m⟩ := p
        obtain ⟨others, m'⟩ := q
        cases first <;> cases others <;> cases h <;> simp_all

end

theorem shape_expand (find : String → Option Value) (v : Value) (next : Ident) :
    (v.expand find next).1.shape = v.subst (standing find) := by
  obtain ⟨⟨r, n⟩, h⟩ := instantiate_unchecked find v next
  rw [expand, h]
  exact shape_instantiate v h

mutual

/-- A tree without bound variables is its own instance, and no identity is drawn for it. -/
theorem instantiate_of_unbound {check : NodeCheck} {find : String → Option Value} (v : Value)
    (h : ∀ x ∈ v.vars, find x = none) (next : Ident) :
    instantiate check find v next = .ok (none, next) := by
  match v with
  | .node id type values =>
    rw [instantiate, instantiateAll_of_unbound values h next]
    rfl
  | .seq id items =>
    rw [instantiate, instantiateAll_of_unbound items h next]
    rfl
  | .pattern (.var x) =>
    rw [instantiate, h x (by simp [vars])]
    rfl
  | .pattern .wildcard | .prim _ | .absent => rfl

theorem instantiateAll_of_unbound {check : NodeCheck} {find : String → Option Value}
    (vs : List Value) (h : ∀ x ∈ varsAll vs, find x = none) (next : Ident) :
    instantiateAll check find vs next = .ok (none, next) := by
  match vs with
  | [] => rfl
  | v :: vs =>
    rw [varsAll, List.forall_mem_append] at h
    simp only [instantiateAll, instantiate_of_unbound v h.1 next, bind, Except.bind,
      instantiateAll_of_unbound vs h.2 next]
    rfl

end

theorem expand_of_unbound {find : String → Option Value} {v : Value}
    (h : ∀ x ∈ v.vars, find x = none) (next : Ident) : v.expand find next = (v, next) := by
  rw [expand, instantiate_of_unbound v h next]
  rfl

end Tree

namespace Substitution

def valuation (s : Substitution) : Valuation := standing s.get?

theorem apply_ok {s : Substitution} {t r : Value} {next n : Ident}
    (h : s.apply t next = .ok (r, n)) :
    ∃ changed, instantiate NodeType.validate s.get? t next = .ok (changed, n) ∧
      r = changed.getD t := by
  simp only [apply, Bind.bind, Except.bind] at h
  split at h
  · cases h
  · rename_i p hp
    obtain ⟨changed, m⟩ := p
    cases h
    exact ⟨changed, hp, rfl⟩

theorem shape_apply {s : Substitution} {t r : Value} {next n : Ident}
    (h : s.apply t next = .ok (r, n)) : r.shape = t.subst s.valuation := by
  obtain ⟨changed, instantiated, rfl⟩ := apply_ok h
  exact shape_instantiate t instantiated

/-! ## Bindings -/

theorem lookup_cons (x y : String) (t : Value) (bindings : List (String × Value)) :
    ((x, t) :: bindings).lookup y = if y = x then some t else bindings.lookup y := by
  by_cases h : y = x
  · simp [h]
  · simp [List.lookup_cons, beq_false_of_ne h, h]

theorem lookup_insertBinding (x y : String) (t : Value) (bindings : List (String × Value)) :
    (insertBinding x t bindings).lookup y = if y = x then some t else bindings.lookup y := by
  induction bindings with
  | nil => exact lookup_cons x y t []
  | cons b rest ih =>
    obtain ⟨other, bound⟩ := b
    unfold insertBinding
    split
    · rename_i h
      subst h
      simp only [lookup_cons]
      split <;> rfl
    · rename_i hne
      split
      · rw [lookup_cons]
      · simp only [lookup_cons, ih]
        by_cases h : y = other
        · simp [h, Ne.symm hne]
        · simp [h]

theorem get?_insert (s : Substitution) (x y : String) (t : Value) :
    (s.insert x t).get? y = if y = x then some t else s.get? y :=
  lookup_insertBinding x y t s.bindings

theorem lookup_expandBindings (find : String → Option Value) (y : String)
    (bindings : List (String × Value)) (next : Ident) :
    ((expandBindings find bindings next).1.lookup y).map shape =
      (bindings.lookup y).map (subst (standing find)) := by
  induction bindings generalizing next with
  | nil => rfl
  | cons b rest ih =>
    obtain ⟨other, bound⟩ := b
    simp only [expandBindings, lookup_cons]
    split
    · simp [shape_expand]
    · exact ih _

/-- Binding a variable substitutes it in what is bound and binds it. -/
theorem shape_get?_bind (s : Substitution) (x y : String) (t : Value) (next : Ident) :
    ((s.bind x t next).1.get? y).map shape =
      if y = x then some t.shape else (s.get? y).map (subst (binding x t)) := by
  have get : (s.bind x t next).1.get? y =
      if y = x then some t else (expandBindings (single x t) s.bindings next).1.lookup y :=
    get?_insert ⟨_⟩ x y t
  rw [get]
  split
  · rfl
  · rw [lookup_expandBindings, standing_single]
    rfl

theorem get?_bind_eq_none {s : Substitution} {x y : String} {t : Value} {next : Ident} :
    (s.bind x t next).1.get? y = none ↔ y ≠ x ∧ s.get? y = none := by
  rw [← Option.map_eq_none_iff (f := shape), shape_get?_bind]
  split <;> simp_all

/-- Binding an unbound variable is composition with the binding. -/
theorem valuation_bind {s : Substitution} {x : String} (t : Value) (next : Ident)
    (fresh : s.get? x = none) :
    (s.bind x t next).1.valuation = fun y => (s.valuation y).subst (binding x t) := by
  funext y
  rw [valuation, standing, shape_get?_bind]
  by_cases h : y = x
  · subst h
    rw [valuation, standing_none fresh]
    simp [unbound, subst, binding]
  · rw [if_neg h, valuation, standing]
    cases s.get? y with
    | none => simp [unbound, subst, binding, h]
    | some v => simp [subst_shape]

end Substitution

namespace Unify

/-- An equation up to identities. -/
def outline (e : Equation) : Shape × Shape := (e.1.shape, e.2.shape)

theorem map_outline_expandEquations (find : String → Option Value) (eqs : List Equation)
    (next : Ident) :
    (expandEquations find eqs next).1.map outline =
      (eqs.map outline).map fun e => (e.1.subst (standing find), e.2.subst (standing find)) := by
  induction eqs generalizing next with
  | nil => rfl
  | cons e eqs ih =>
    simp only [expandEquations, List.map_cons, ih, outline, shape_expand, subst_shape]

theorem forall_expandEquations {P : Shape → Shape → Prop} (find : String → Option Value)
    (eqs : List Equation) (next : Ident) :
    (∀ e ∈ (expandEquations find eqs next).1, P e.1.shape e.2.shape) ↔
      ∀ e ∈ eqs, P (e.1.subst (standing find)) (e.2.subst (standing find)) := by
  have outlines : (∀ e ∈ (expandEquations find eqs next).1, P e.1.shape e.2.shape) ↔
      ∀ e ∈ (expandEquations find eqs next).1.map outline, P e.1 e.2 := by
    rw [List.forall_mem_map]
    rfl
  rw [outlines, map_outline_expandEquations, List.forall_mem_map, List.forall_mem_map]
  simp only [outline, subst_shape]

end Unify

end Arbor
