import Arbor.Proofs.Unify.Congruence
import Arbor.Proofs.Unify.Correctness

/-!
# Solutions are idempotent

While equations are solved, no variable of a bound value and no variable of a pending equation is
bound (`Resolved`), because a new binding is pushed through both. At the end no bound value has a
bound variable, so that an instance has nothing left to instantiate (`expand_expand`). As no
variable is bound twice, the bindings that were made in a run are those of its solution, once each
(`names_solve`).
-/

namespace Arbor

open Arbor.Tree

namespace Substitution

/-! ## Bound variables -/

def names (s : Substitution) : List String :=
  s.bindings.map Prod.fst

theorem mem_names {s : Substitution} {x : String} : x ∈ s.names ↔ s.get? x ≠ none := by
  rw [Ne, get?, List.lookup_eq_none_iff, names, List.mem_map]
  simp only [bne_iff_ne]
  grind

theorem names_expandBindings (find : String → Option Value) (bs : List (String × Value))
    (next : Ident) : (expandBindings find bs next).1.map Prod.fst = bs.map Prod.fst := by
  induction bs generalizing next with
  | nil => rfl
  | cons b bs ih => simp only [expandBindings, List.map_cons, ih]

theorem names_insertBinding {x : String} (t : Value) {bs : List (String × Value)}
    (h : x ∉ bs.map Prod.fst) :
    ((insertBinding x t bs).map Prod.fst).Perm (x :: bs.map Prod.fst) := by
  induction bs with
  | nil => exact .refl _
  | cons b bs ih =>
    obtain ⟨y, v⟩ := b
    simp only [List.map_cons, List.mem_cons, not_or] at h
    rw [insertBinding, if_neg h.1]
    split
    · exact .refl _
    · exact ((ih h.2).cons y).trans (.swap x y _)

theorem names_bind {s : Substitution} {x : String} (t : Value) (next : Ident)
    (h : s.get? x = none) : (s.bind x t next).1.names.Perm (x :: s.names) := by
  have kept := names_expandBindings (single x t) s.bindings next
  have notMem : x ∉ s.bindings.map Prod.fst := fun hx => mem_names.mp hx h
  rw [names, names, ← kept]
  exact names_insertBinding t (kept ▸ notMem)

theorem lookup_expandBindings_eq_some {find : String → Option Value} {y : String}
    {bs : List (String × Value)} {next : Ident} {v : Value}
    (h : (expandBindings find bs next).1.lookup y = some v) :
    ∃ u n, bs.lookup y = some u ∧ v = (u.expand find n).1 := by
  induction bs generalizing next with
  | nil => cases h
  | cons b bs ih =>
    obtain ⟨z, u⟩ := b
    simp only [expandBindings, lookup_cons] at h ⊢
    split at h
    · rename_i hz
      cases h
      exact ⟨u, next, if_pos hz, rfl⟩
    · rename_i hz
      rw [if_neg hz]
      exact ih h

/-- A bound value is the new one, or an instance of one bound before. -/
theorem get?_bind_eq_some {s : Substitution} {x y : String} {t v : Value} {next : Ident}
    (h : (s.bind x t next).1.get? y = some v) :
    y = x ∧ v = t ∨ y ≠ x ∧ ∃ u n, s.get? y = some u ∧ v = (u.expand (single x t) n).1 := by
  have get : (s.bind x t next).1.get? y =
      if y = x then some t else (expandBindings (single x t) s.bindings next).1.lookup y :=
    get?_insert ⟨_⟩ x y t
  rw [get] at h
  split at h
  · rename_i hy
    cases h
    exact .inl ⟨hy, rfl⟩
  · rename_i hy
    exact .inr ⟨hy, lookup_expandBindings_eq_some h⟩

/-! ## Instances of instances -/

def Idempotent (s : Substitution) : Prop :=
  ∀ x v, s.get? x = some v → ∀ y ∈ v.vars, s.get? y = none

theorem Idempotent.get?_of_mem_vars {s : Substitution} (h : s.Idempotent) {t r : Value}
    (shape : r.shape = t.subst s.valuation) : ∀ y ∈ r.vars, s.get? y = none := by
  intro y hy
  rw [← vars_shape, shape] at hy
  obtain ⟨x, -, hy⟩ := mem_vars_subst.mp hy
  cases hx : s.get? x with
  | none =>
    rw [valuation, standing_none hx, unbound, vars, List.mem_singleton] at hy
    rwa [hy]
  | some v =>
    rw [valuation, standing_some hx, vars_shape] at hy
    exact h x v hx y hy

theorem Idempotent.expand_expand {s : Substitution} (h : s.Idempotent) (t : Value) (m n : Ident) :
    (t.expand s.get? m).1.expand s.get? n = ((t.expand s.get? m).1, n) :=
  expand_of_unbound (h.get?_of_mem_vars (shape_expand s.get? t m)) n

theorem Idempotent.apply_apply {s : Substitution} (h : s.Idempotent) {t r : Value} {m m' : Ident}
    (applied : s.apply t m = .ok (r, m')) (n : Ident) : s.apply r n = .ok (r, n) := by
  rw [apply, instantiate_of_unbound r (h.get?_of_mem_vars (shape_apply applied)) n]
  rfl

end Substitution

namespace Unify

/-! ## Runs -/

/-- The variables of what is found and pending are among `V`, and those of pending equations and of
bound values are not bound. -/
structure Resolved (V : List String) (pending : List Equation) (found : Substitution) : Prop where
  pending : ∀ y ∈ eqVars pending, y ∈ V ∧ found.get? y = none
  name : ∀ x v, found.get? x = some v → x ∈ V
  value : ∀ x v, found.get? x = some v → ∀ y ∈ v.vars, y ∈ V ∧ found.get? y = none
  distinct : found.names.Nodup

theorem Resolved.split {V : List String} {l r : Value} {eqs rest : List Equation}
    {found : Substitution} (h : Resolved V ((l, r) :: rest) found)
    (step : matchStep l r = .ok (.split eqs)) : Resolved V (eqs.reverse ++ rest) found :=
  ⟨fun y hy => h.pending y (eqVars_split step hy), h.name, h.value, h.distinct⟩

theorem Resolved.bind {V : List String} {l r t : Value} {x : String} {rest : List Equation}
    {found : Substitution} (h : Resolved V ((l, r) :: rest) found)
    (step : matchStep l r = .ok (.bind x t)) (next m : Ident) :
    Resolved V (restAfter x t rest next).1 (found.bind x t m).1 := by
  obtain ⟨hx, ht⟩ := mem_eqVars_of_bind step rest
  have still {y : String} (free : y ∈ V ∧ found.get? y = none) (hne : y ≠ x) :
      y ∈ V ∧ (found.bind x t m).1.get? y = none :=
    ⟨free.1, Substitution.get?_bind_eq_none.mpr ⟨hne, free.2⟩⟩
  have inValue : ∀ y ∈ t.vars, y ∈ V ∧ (found.bind x t m).1.get? y = none := fun y hy =>
    still (h.pending y (ht y hy).1) (ht y hy).2
  refine ⟨fun y hy => ?_, fun z v hz => ?_, fun z v hz y hy => ?_, ?_⟩
  · obtain ⟨hy, hne⟩ := eqVars_bind step y hy
    exact still (h.pending y hy) hne
  · obtain ⟨rfl, -⟩ | ⟨-, u, -, hu, -⟩ := Substitution.get?_bind_eq_some hz
    · exact (h.pending z hx).1
    · exact h.name z u hu
  · obtain ⟨-, rfl⟩ | ⟨-, u, n, hu, rfl⟩ := Substitution.get?_bind_eq_some hz
    · exact inValue y hy
    · obtain ⟨hy, hne⟩ | hy := vars_expand x t u n y hy
      · exact still (h.value z u hu y hy) hne
      · exact inValue y hy
  · have fresh := (h.pending x hx).2
    rw [(Substitution.names_bind t m fresh).nodup_iff]
    exact List.nodup_cons.mpr ⟨fun mem => Substitution.mem_names.mp mem fresh, h.distinct⟩

theorem resolved_solve {V : List String} (pending : List Equation) (found : Substitution)
    (next : Ident) (resolved : Resolved V pending found) {s : Substitution}
    (h : (solve pending found next).result = .ok s) : Resolved V [] s := by
  induction pending, found, next using solve.induct with
  | case1 found next =>
    rw [solve_nil] at h
    cases h
    exact resolved
  | case2 found next l r rest e step =>
    rw [solve_error step] at h
    cases h
  | case3 found next l r rest eqs step ih =>
    rw [solve_split step] at h
    exact ih (resolved.split step) h
  | case4 found next l r rest x t step pending bound ih =>
    exact ih (resolved.bind step next pending.2) ((solve_bind step rest found next).1 ▸ h)

/-- What is bound at the end was bound before the run or in the course of it, and once only. -/
theorem names_solve {V : List String} (pending : List Equation) (found : Substitution)
    (next : Ident) (resolved : Resolved V pending found) {s : Substitution}
    (h : (solve pending found next).result = .ok s) :
    s.names.Perm ((solve pending found next).trace.map Prod.fst ++ found.names) := by
  induction pending, found, next using solve.induct with
  | case1 found next =>
    rw [solve_nil] at h ⊢
    cases h
    exact .refl _
  | case2 found next l r rest e step =>
    rw [solve_error step] at h
    cases h
  | case3 found next l r rest eqs step ih =>
    rw [solve_split step] at h ⊢
    exact ih (resolved.split step) h
  | case4 found next l r rest x t step pending bound ih =>
    obtain ⟨result, trace⟩ := solve_bind step rest found next
    have fresh : found.get? x = none :=
      (resolved.pending x (mem_eqVars_of_bind step rest).1).2
    have names := ih (resolved.bind step next pending.2) (result ▸ h)
    rw [trace, List.map_cons]
    exact names.trans
      (((Substitution.names_bind t pending.2 fresh).append_left _).trans List.perm_middle)

/-! ## Lists of equations -/

theorem solveAll_resolved {equations : List Equation} {next : Ident} {s : Substitution}
    (h : (solveAll equations next).result = .ok s) :
    Resolved (eqVars equations) [] s ∧
      ((solveAll equations next).trace.map Prod.fst).Perm s.names := by
  have start : Resolved (eqVars equations) equations.reverse {} := by
    refine ⟨fun y hy => ⟨?_, rfl⟩, nofun, nofun, .nil⟩
    simpa [mem_eqVars] using hy
  refine ⟨resolved_solve _ _ _ start h, ?_⟩
  simpa [solveAll, Substitution.names] using (names_solve _ _ _ start h).symm

theorem run_unifyAll_ok {σ : Type} {w w' : World σ} {equations : List Equation} {s : Substitution}
    (h : (Effect.unifyAll equations).run w = (.ok s, w')) :
    (solveAll equations w.next).result = .ok s ∧
      w'.log = ((solveAll equations w.next).trace.map fun (name, value) =>
        Record.bound name value).reverse ++ w.log := by
  refine ⟨result_unifyAll_ok.mp (congrArg Prod.fst h), ?_⟩
  rw [run_unifyAll, Prod.mk.injEq] at h
  obtain ⟨-, rfl⟩ := h
  rfl

/-- The substitutions that unification finds are idempotent. No bound variable occurs in a bound
value, and both are made of variables of the equations. A run makes one record for each binding,
since it binds no variable twice. Instantiating an instance leaves it as it is, also by checked
instantiation. -/
theorem unification_idempotent {σ : Type} (equations : List Equation) (w w' : World σ)
    (s : Substitution) (h : (Effect.unifyAll equations).run w = (.ok s, w')) :
    (∀ x v, s.get? x = some v → ∀ y ∈ v.vars, s.get? y = none) ∧
    (∀ x v, s.get? x = some v → x ∈ eqVars equations ∧ v.vars ⊆ eqVars equations) ∧
    (∃ made : List (String × Value),
      w'.log = (made.map fun (name, value) => Record.bound name value).reverse ++ w.log ∧
      (made.map Prod.fst).Nodup ∧ (made.map Prod.fst).Perm (s.bindings.map Prod.fst)) ∧
    (∀ (t : Value) (m n : Ident),
      (t.expand s.get? m).1.expand s.get? n = ((t.expand s.get? m).1, n)) ∧
    ∀ (t r : Value) (m m' n : Ident), s.apply t m = .ok (r, m') → s.apply r n = .ok (r, n) := by
  obtain ⟨solved, log⟩ := run_unifyAll_ok h
  obtain ⟨resolved, names⟩ := solveAll_resolved solved
  have idempotent : s.Idempotent := fun x v hx y hy => (resolved.value x v hx y hy).2
  refine ⟨idempotent, fun x v hx => ⟨resolved.name x v hx, fun y hy => ?_⟩,
    ⟨_, log, names.nodup_iff.mpr resolved.distinct, names⟩,
    idempotent.expand_expand, fun t r m m' n applied => idempotent.apply_apply applied n⟩
  exact (resolved.value x v hx y hy).1

/-- A value that is bound first and has a variable that is bound later. -/
theorem unification_idempotent_later :
    let x : Value := .pattern (.var "X")
    let y : Value := .pattern (.var "Y")
    let equations : List Equation :=
      [(.seq 0 [y, x], .seq 1 [.prim (.int 2), .seq 2 [y, .prim (.int 1)]])]
    let s : Substitution :=
      ⟨[("X", .seq 3 [.prim (.int 2), .prim (.int 1)]), ("Y", .prim (.int 2))]⟩
    let w : World Unit := { next := 3, user := () }
    (∃ w', (Effect.unifyAll equations).run w = (.ok s, w')) ∧
      (∀ x v, s.get? x = some v → ∀ y ∈ v.vars, s.get? y = none) ∧
      ∀ (t : Value) (m n : Ident),
        (t.expand s.get? m).1.expand s.get? n = ((t.expand s.get? m).1, n) := by
  intro x y equations s w
  have solved : (solveAll equations 3).result = .ok s := by
    rw [solveAll, List.reverse_singleton, solve_split rfl]
    refine (solve_bind (x := "X") rfl _ _ _).1.trans ?_
    refine (solve_bind (x := "Y") rfl _ _ _).1.trans ?_
    exact congrArg Solution.result (solve_nil _ _)
  obtain ⟨w', h⟩ : ∃ w', (Effect.unifyAll equations).run w = (.ok s, w') :=
    ⟨_, (run_unifyAll w equations).trans
      (Prod.ext (congrArg (Except.mapError Error.mismatch) solved) rfl)⟩
  obtain ⟨unbound, -, -, expand, -⟩ := unification_idempotent equations w w' s h
  exact ⟨⟨w', h⟩, unbound, expand⟩

end Unify

end Arbor
