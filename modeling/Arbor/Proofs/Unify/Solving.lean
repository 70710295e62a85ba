import Arbor.Proofs.Unify.Expansion

/-!
# Runs of the solver

`matchStep_asks` says once what an equation can come down to, and `solve_split` and `solve_bind` how
a run goes on. From these: the solution is the composition of the bindings in the order in which
they were made (`valuation_solve`), and what holds of all nodes and pattern terms of the equations
holds of those in the solution (`solve_every`).
-/

namespace Arbor.Unify

open Arbor.Tree

/-! ## Steps -/

/-- What an equation that does not fail asks for. -/
inductive Asks : Value → Value → Step → Prop
  | wildLeft (r : Value) : Asks (.pattern .wildcard) r (.split [])
  | wildRight (l : Value) : Asks l (.pattern .wildcard) (.split [])
  | equal {l r : Value} : l.shape = r.shape → Asks l r (.split [])
  | bindLeft {x : String} {t : Value} : x ∉ t.vars → Asks (.pattern (.var x)) t (.bind x t)
  | bindRight {x : String} {t : Value} : x ∉ t.vars → Asks t (.pattern (.var x)) (.bind x t)
  | node {i j : Ident} {type : NodeType} {vs ws : List Value} :
      vs.length = ws.length → Asks (.node i type vs) (.node j type ws) (.split (vs.zip ws))
  | seq {i j : Ident} {vs ws : List Value} :
      vs.length = ws.length → Asks (.seq i vs) (.seq j ws) (.split (vs.zip ws))

theorem matchStep_wildcard (l : Value) :
    matchStep l (.pattern .wildcard) = .ok (.split []) := by
  cases l with
  | pattern p => cases p <;> rfl
  | _ => rfl

theorem matchStep_prim (p q : Prim) :
    matchStep (.prim p) (.prim q) = if p = q then .ok (.split [])
      else .error (.constant (Tree.prim p : Value).display (Tree.prim q : Value).display) := by
  simp [matchStep, same]

theorem bindStep_var (x y : String) :
    bindStep x (.pattern (.var y)) =
      .ok (if x = y then .split [] else .bind x (.pattern (.var y))) := by
  by_cases h : x = y
  · simp [bindStep, var?, h]
  · simp [bindStep, var?, occurs, h, Ne.symm h]

theorem bindStep_ok {x : String} {t : Value} {step : Step} (h : bindStep x t = .ok step) :
    (t = .pattern (.var x) ∧ step = .split []) ∨ (x ∉ t.vars ∧ step = .bind x t) := by
  unfold bindStep at h
  split at h
  · rename_i hv
    cases h
    exact .inl ⟨eq_var_of_var? hv, rfl⟩
  · split at h
    · cases h
    · rename_i hx
      cases h
      exact .inr ⟨fun hm => hx ((occurs_iff x t).mpr hm), rfl⟩

theorem matchStep_asks {l r : Value} {step : Step} (h : matchStep l r = .ok step) :
    Asks l r step := by
  unfold matchStep at h
  split at h
  · cases h
    exact .wildLeft _
  · cases h
    exact .wildRight _
  · obtain ⟨rfl, rfl⟩ | ⟨hx, rfl⟩ := bindStep_ok h
    · exact .equal rfl
    · exact .bindLeft hx
  · obtain ⟨rfl, rfl⟩ | ⟨hx, rfl⟩ := bindStep_ok h
    · exact .equal rfl
    · exact .bindRight hx
  · split at h
    · rename_i hs
      cases h
      rw [hs.1]
      exact .node hs.2
    · cases h
  · cases h
  · cases h
  · split at h
    · rename_i hl
      cases h
      exact .seq hl
    · cases h
  · cases h
  · cases h
  · split at h
    · rename_i hs
      cases h
      exact .equal ((same_iff l r).mp hs)
    · cases h

/-- The parts of an equation that hold up to wildcards make it hold up to wildcards. -/
theorem Asks.agrees {l r : Value} {eqs : List Equation} {σ : Valuation}
    (asks : Asks l r (.split eqs))
    (h : ∀ e ∈ eqs, (e.1.subst σ).agrees (e.2.subst σ) = true) :
    (l.subst σ).agrees (r.subst σ) = true := by
  have zip {vs ws : List Value} (len : vs.length = ws.length)
      (h : ∀ e ∈ vs.zip ws, (e.1.subst σ).agrees (e.2.subst σ) = true) :
      agreesAll (vs.map (Tree.subst σ)) (ws.map (Tree.subst σ)) = true := by
    rw [agreesAll_iff, List.length_map, List.length_map, List.zip_map, List.forall_mem_map]
    exact ⟨len, h⟩
  cases asks with
  | wildLeft => rfl
  | wildRight => exact agrees_wildcard _
  | equal e => rw [← subst_shape σ l, e, subst_shape, agrees_self]
  | node len => simp [Tree.subst, Tree.agrees, zip len h]
  | seq len => simp [Tree.subst, Tree.agrees, zip len h]

/-- Without wildcards, what solves an equation solves its parts. -/
theorem Asks.solves {l r : Value} {eqs : List Equation} {σ : Valuation}
    (asks : Asks l r (.split eqs)) (hl : l.WildcardFree) (hr : r.WildcardFree)
    (h : l.subst σ = r.subst σ) : ∀ e ∈ eqs, e.1.subst σ = e.2.subst σ := by
  have zip {vs ws : List Value} (h : vs.map (Tree.subst σ) = ws.map (Tree.subst σ)) :
      ∀ e ∈ vs.zip ws, e.1.subst σ = e.2.subst σ := by
    intro e he
    have mem : (e.1.subst σ, e.2.subst σ) ∈
        (vs.map (Tree.subst σ)).zip (ws.map (Tree.subst σ)) := by
      rw [List.zip_map]
      exact List.mem_map_of_mem he
    rw [h, List.zip_eq_zipWith, List.zipWith_self, List.mem_map] at mem
    obtain ⟨_, -, heq⟩ := mem
    exact (congrArg Prod.fst heq).symm.trans (congrArg Prod.snd heq)
  cases asks with
  | wildLeft => exact absurd rfl hl
  | wildRight => exact absurd rfl hr
  | equal e => simp
  | node len =>
    simp only [Tree.subst, substAll_eq_map, Tree.node.injEq, true_and] at h
    exact zip h
  | seq len =>
    simp only [Tree.subst, substAll_eq_map, Tree.seq.injEq, true_and] at h
    exact zip h

theorem Asks.binds {l r t : Value} {x : String} {σ : Valuation} (asks : Asks l r (.bind x t)) :
    x ∉ t.vars ∧ (l.subst σ = r.subst σ ↔ σ x = t.subst σ) := by
  cases asks with
  | bindLeft hx => exact ⟨hx, Iff.rfl⟩
  | bindRight hx => exact ⟨hx, eq_comm⟩

/-! ## Failures -/

theorem size_le_sizeAll {ι : Type} {t : Tree ι} {ts : List (Tree ι)} (h : t ∈ ts) :
    t.size ≤ sizeAll ts := by
  induction h with
  | head => simp [sizeAll]
  | tail _ _ ih =>
    rw [sizeAll]
    omega

theorem size_subst_le (σ : Valuation) {x : String} {t : Value} (h : x ∈ t.vars) :
    (σ x).size ≤ (t.subst σ).size := by
  induction t using Tree.ind with
  | node id type values ih =>
    simp only [vars, varsAll_eq_flatMap, List.mem_flatMap] at h
    obtain ⟨v, hv, hx⟩ := h
    have := ih v hv hx
    have := size_le_sizeAll (List.mem_map_of_mem (f := Tree.subst σ) hv)
    simp only [Tree.subst, substAll_eq_map, size]
    omega
  | seq id items ih =>
    simp only [vars, varsAll_eq_flatMap, List.mem_flatMap] at h
    obtain ⟨v, hv, hx⟩ := h
    have := ih v hv hx
    have := size_le_sizeAll (List.mem_map_of_mem (f := Tree.subst σ) hv)
    simp only [Tree.subst, substAll_eq_map, size]
    omega
  | prim p => simp [vars] at h
  | absent => simp [vars] at h
  | pattern p =>
    cases p with
    | var y =>
      simp only [vars, List.mem_singleton] at h
      rw [h]
      exact Nat.le_refl _
    | wildcard => simp [vars] at h

/-- A tree that properly contains a variable is larger than what the variable stands for. -/
theorem size_lt_size_subst (σ : Valuation) {x : String} {t : Value} (hx : x ∈ t.vars)
    (hne : t.var? ≠ some x) : (σ x).size < (t.subst σ).size := by
  -- A part of `t` already has the size of what `x` stands for.
  have inside {vs : List Value} (h : x ∈ vs.flatMap vars) :
      (σ x).size ≤ sizeAll (vs.map (Tree.subst σ)) := by
    obtain ⟨v, hv, hx⟩ := List.mem_flatMap.mp h
    have := size_subst_le σ hx
    have := size_le_sizeAll (List.mem_map_of_mem (f := Tree.subst σ) hv)
    omega
  cases t with
  | node id type values =>
    simp only [vars, varsAll_eq_flatMap] at hx
    simp only [Tree.subst, substAll_eq_map, size]
    exact Nat.lt_succ_of_le (inside hx)
  | seq id items =>
    simp only [vars, varsAll_eq_flatMap] at hx
    simp only [Tree.subst, substAll_eq_map, size]
    exact Nat.lt_succ_of_le (inside hx)
  | prim p => simp [vars] at hx
  | absent => simp [vars] at hx
  | pattern p => cases p <;> simp_all [vars, var?]

/-- No variable stands for a tree that properly contains it. -/
theorem subst_ne_of_occurs (σ : Valuation) {x : String} {t : Value} (hx : x ∈ t.vars)
    (hne : t.var? ≠ some x) : σ x ≠ t.subst σ :=
  fun heq => Nat.ne_of_lt (size_lt_size_subst σ hx hne) (congrArg Tree.size heq)

theorem bindStep_error {x : String} {t : Value} {e : MatchFailure} (h : bindStep x t = .error e)
    (σ : Valuation) : σ x ≠ t.subst σ := by
  unfold bindStep at h
  split at h
  · cases h
  · rename_i hne
    split at h
    · rename_i hx
      exact subst_ne_of_occurs σ ((occurs_iff x t).mp hx) hne
    · cases h

/-- Without wildcards, an equation that fails has no solution. -/
theorem matchStep_error {l r : Value} {e : MatchFailure} (h : matchStep l r = .error e)
    (σ : Valuation) : l.subst σ ≠ r.subst σ := by
  intro heq
  unfold matchStep at h
  split at h
  · cases h
  · cases h
  · exact bindStep_error h σ heq
  · exact bindStep_error h σ heq.symm
  · split at h
    · cases h
    · rename_i hne
      simp only [Tree.subst, substAll_eq_map, Tree.node.injEq, true_and] at heq
      have := congrArg List.length heq.2
      simp only [List.length_map] at this
      exact hne ⟨heq.1, this⟩
  · cases r with
    | pattern p => cases p <;> simp_all
    | _ => simp_all [Tree.subst]
  · cases l with
    | pattern p => cases p <;> simp_all
    | _ => simp_all [Tree.subst]
  · split at h
    · cases h
    · rename_i hne
      simp only [Tree.subst, substAll_eq_map, Tree.seq.injEq, true_and] at heq
      have := congrArg List.length heq
      simp only [List.length_map] at this
      exact hne this
  · cases r with
    | pattern p => cases p <;> simp_all
    | _ => simp_all [Tree.subst]
  · cases l with
    | pattern p => cases p <;> simp_all
    | _ => simp_all [Tree.subst]
  · split at h
    · cases h
    · cases l with
      | pattern p => cases p <;> simp_all
      | _ =>
        cases r with
        | pattern p => cases p <;> simp_all
        | _ => simp_all [Tree.subst, same]

/-! ## Runs -/

theorem solve_nil (found : Substitution) (next : Ident) :
    solve [] found next = ⟨.ok found, [], next⟩ := by
  rw [solve]

theorem solve_error {l r : Value} {e : MatchFailure} (h : matchStep l r = .error e)
    (rest : List Equation) (found : Substitution) (next : Ident) :
    solve ((l, r) :: rest) found next = ⟨.error e, [], next⟩ := by
  rw [solve]
  split <;> simp_all

theorem solve_split {l r : Value} {eqs : List Equation} (h : matchStep l r = .ok (.split eqs))
    (rest : List Equation) (found : Substitution) (next : Ident) :
    solve ((l, r) :: rest) found next = solve (eqs.reverse ++ rest) found next := by
  rw [solve]
  split <;> simp_all

/-- The equations that are left after a variable has been bound. -/
abbrev restAfter (x : String) (t : Value) (rest : List Equation) (next : Ident) :
    List Equation × Ident :=
  expandEquations (Substitution.single x t) rest next

theorem solve_bind_eq {l r t : Value} {x : String} (h : matchStep l r = .ok (.bind x t))
    (rest : List Equation) (found : Substitution) (next : Ident) :
    solve ((l, r) :: rest) found next =
      let pending := restAfter x t rest next
      let bound := found.bind x t pending.2
      let solution := solve pending.1 bound.1 bound.2
      { solution with trace := (x, t) :: solution.trace } := by
  rw [solve]
  split <;> simp_all

theorem solve_bind {l r t : Value} {x : String} (h : matchStep l r = .ok (.bind x t))
    (rest : List Equation) (found : Substitution) (next : Ident) :
    let pending := restAfter x t rest next
    let bound := found.bind x t pending.2
    (solve ((l, r) :: rest) found next).result = (solve pending.1 bound.1 bound.2).result ∧
      (solve ((l, r) :: rest) found next).trace =
        (x, t) :: (solve pending.1 bound.1 bound.2).trace := by
  rw [solve_bind_eq h]
  exact ⟨rfl, rfl⟩

/-- Bindings substituted one after the other. -/
def inOrder : List (String × Value) → Valuation
  | [] => unbound
  | (x, t) :: rest => fun y => (binding x t y).subst (inOrder rest)

theorem subst_inOrder {ι : Type} (x : String) (t : Value) (rest : List (String × Value))
    (v : Tree ι) :
    v.subst (inOrder ((x, t) :: rest)) = (v.subst (binding x t)).subst (inOrder rest) :=
  (subst_subst _ _ v).symm

theorem eqVars_split {l r : Value} {eqs rest : List Equation}
    (h : matchStep l r = .ok (.split eqs)) :
    eqVars (eqs.reverse ++ rest) ⊆ eqVars ((l, r) :: rest) := by
  intro y hy
  obtain ⟨e, he, hy⟩ := mem_eqVars.mp hy
  simp only [eqVars, List.flatMap_cons, List.mem_append]
  rcases List.mem_append.mp he with he | he
  · have mem := (matchStep_split h).1 (mem_eqVars.mpr ⟨e, List.mem_reverse.mp he, hy⟩)
    exact .inl (List.mem_append.mp mem)
  · exact .inr (mem_eqVars.mpr ⟨e, he, hy⟩)

theorem eqVars_bind {l r t : Value} {x : String} {rest : List Equation} {next : Ident}
    (h : matchStep l r = .ok (.bind x t)) :
    ∀ y ∈ eqVars (restAfter x t rest next).1, y ∈ eqVars ((l, r) :: rest) ∧ y ≠ x := by
  obtain ⟨-, hx, ht⟩ := matchStep_bind h
  intro y hy
  simp only [eqVars, List.flatMap_cons, List.mem_append]
  rcases eqVars_expandEquations x t rest next y hy with ⟨hy, hne⟩ | hy
  · exact ⟨.inr hy, hne⟩
  · exact ⟨.inl (List.mem_append.mp (ht hy)), fun e => hx (e ▸ hy)⟩

theorem mem_eqVars_of_bind {l r t : Value} {x : String} (step : matchStep l r = .ok (.bind x t))
    (rest : List Equation) :
    x ∈ eqVars ((l, r) :: rest) ∧ ∀ y ∈ t.vars, y ∈ eqVars ((l, r) :: rest) ∧ y ≠ x := by
  obtain ⟨hx, hxt, ht⟩ := matchStep_bind step
  simp only [eqVars, List.flatMap_cons]
  exact ⟨List.mem_append_left _ hx,
    fun y hy => ⟨List.mem_append_left _ (ht hy), fun e => hxt (e ▸ hy)⟩⟩

/-- A solution is the composition of what was found before and the bindings of the run, provided
that no variable of the equations was bound before. -/
theorem valuation_solve (pending : List Equation) (found : Substitution) (next : Ident)
    (fresh : ∀ y ∈ eqVars pending, found.get? y = none) {s : Substitution}
    (h : (solve pending found next).result = .ok s) :
    s.valuation = fun y =>
      (found.valuation y).subst (inOrder (solve pending found next).trace) := by
  induction pending, found, next using solve.induct with
  | case1 found next =>
    rw [solve_nil] at h ⊢
    cases h
    funext y
    rw [inOrder, subst_unbound, shape_eq_self]
  | case2 found next l r rest e step =>
    rw [solve_error step] at h
    cases h
  | case3 found next l r rest eqs step ih =>
    rw [solve_split step] at h ⊢
    exact ih (fun y hy => fresh y (eqVars_split step hy)) h
  | case4 found next l r rest x t step pending bound ih =>
    obtain ⟨result, trace⟩ := solve_bind step rest found next
    have hx : found.get? x = none := by
      apply fresh
      obtain ⟨hx, -⟩ := matchStep_bind step
      simp only [eqVars, List.flatMap_cons, List.mem_append] at hx ⊢
      exact .inl hx
    rw [trace, ih _ (result ▸ h), Substitution.valuation_bind t _ hx]
    · funext y
      rw [subst_inOrder]
    · intro y hy
      obtain ⟨hy, hne⟩ := eqVars_bind step y hy
      exact Substitution.get?_bind_eq_none.mpr ⟨hne, fresh y hy⟩

/-! ## Parts of the solution -/

variable {node : NodeType → Nat → Prop} {term : Pattern → Prop}

theorem Asks.every_split {l r : Value} {eqs : List Equation} (asks : Asks l r (.split eqs))
    (hl : l.Every node term) (hr : r.Every node term) :
    ∀ e ∈ eqs, e.1.Every node term ∧ e.2.Every node term := by
  have zip {vs ws : List Value} (hv : ∀ v ∈ vs, v.Every node term)
      (hw : ∀ w ∈ ws, w.Every node term) (e : Equation) (he : e ∈ vs.zip ws) :
      e.1.Every node term ∧ e.2.Every node term :=
    ⟨hv _ (List.of_mem_zip he).1, hw _ (List.of_mem_zip he).2⟩
  cases asks with
  | wildLeft => simp
  | wildRight => simp
  | equal _ => simp
  | node _ =>
    simp only [Every, everyAll_iff] at hl hr
    exact zip hl.2 hr.2
  | seq _ =>
    simp only [Every, everyAll_iff] at hl hr
    exact zip hl hr

theorem Asks.every_bind {l r t : Value} {x : String} (asks : Asks l r (.bind x t))
    (hl : l.Every node term) (hr : r.Every node term) : t.Every node term := by
  cases asks with
  | bindLeft _ => exact hr
  | bindRight _ => exact hl

theorem every_restAfter {x : String} {t : Value} {rest : List Equation} (ht : t.Every node term)
    (h : ∀ e ∈ rest, e.1.Every node term ∧ e.2.Every node term) (next : Ident) :
    ∀ e ∈ (restAfter x t rest next).1, e.1.Every node term ∧ e.2.Every node term := by
  have parts := (forall_expandEquations (P := fun l r => l.Every node term ∧ r.Every node term)
    (Substitution.single x t) rest next).mpr
  simp only [every_shape, standing_single] at parts
  exact parts fun e he => ⟨(h e he).1.subst_binding ht, (h e he).2.subst_binding ht⟩

theorem every_bind {s : Substitution} {x : String} {t : Value} {next : Ident}
    (ht : t.Every node term) (h : ∀ y v, s.get? y = some v → v.Every node term) (y : String)
    (v : Value) (hv : (s.bind x t next).1.get? y = some v) : v.Every node term := by
  have shapes := s.shape_get?_bind x y t next
  rw [hv, Option.map_some] at shapes
  rw [← every_shape]
  split at shapes
  · rw [Option.some.inj shapes]
    exact every_shape.mpr ht
  · obtain ⟨u, hu, e⟩ := Option.map_eq_some_iff.mp shapes.symm
    rw [← e]
    exact (h y u hu).subst_binding ht

/-- What holds of the nodes and pattern terms of all equations holds of those in the solution. -/
theorem solve_every (pending : List Equation) (found : Substitution) (next : Ident)
    {s : Substitution} (h : (solve pending found next).result = .ok s)
    (every : ∀ e ∈ pending, e.1.Every node term ∧ e.2.Every node term)
    (everyFound : ∀ y v, found.get? y = some v → v.Every node term) :
    ∀ y v, s.get? y = some v → v.Every node term := by
  induction pending, found, next using solve.induct with
  | case1 found next =>
    rw [solve_nil] at h
    cases h
    exact everyFound
  | case2 found next l r rest e step =>
    rw [solve_error step] at h
    cases h
  | case3 found next l r rest eqs step ih =>
    rw [solve_split step] at h
    rw [List.forall_mem_cons] at every
    refine ih h ?_ everyFound
    rw [List.forall_mem_append]
    refine ⟨fun e he => ?_, every.2⟩
    exact (matchStep_asks step).every_split every.1.1 every.1.2 e (List.mem_reverse.mp he)
  | case4 found next l r rest x t step pending bound ih =>
    obtain ⟨result, -⟩ := solve_bind step rest found next
    rw [List.forall_mem_cons] at every
    have ht := (matchStep_asks step).every_bind every.1.1 every.1.2
    exact ih (result ▸ h) (every_restAfter ht every.2 next) (every_bind ht everyFound)

end Arbor.Unify
