import Arbor.Substitution
import Arbor.Unify.Step

/-!
Why unification ends. A step that splits an equation leaves no new variables and less to compare; a
step that binds a variable leaves an equation system without it, whatever its size.
-/

namespace Arbor.Unify

/-! ## Counting variables -/

/-- The number of different names in a list. -/
def distinctCount : List String → Nat
  | [] => 0
  | x :: xs => (if x ∈ xs then 0 else 1) + distinctCount xs

theorem distinctCount_filter {x : String} {xs : List String} (h : x ∈ xs) :
    distinctCount (xs.filter (· ≠ x)) + 1 = distinctCount xs := by
  induction xs with
  | nil => cases h
  | cons y ys ih =>
    by_cases hy : y = x
    · subst hy
      by_cases hm : y ∈ ys
      · simpa [distinctCount, hm] using ih hm
      · have : ys.filter (fun z => !decide (z = y)) = ys := by
          rw [List.filter_eq_self]
          intro z hz
          have : z ≠ y := fun e => hm (e ▸ hz)
          simp [this]
        simp [distinctCount, hm, this, Nat.add_comm]
    · have hx : x ∈ ys := by
        cases h with
        | head => exact absurd rfl hy
        | tail _ h => exact h
      have := ih hx
      by_cases hm : y ∈ ys <;> simp [distinctCount, hy, hm] at this ⊢ <;> omega

theorem distinctCount_mono {xs ys : List String} (h : xs ⊆ ys) :
    distinctCount xs ≤ distinctCount ys := by
  induction xs generalizing ys with
  | nil => simp [distinctCount]
  | cons x xs ih =>
    have hx : x ∈ ys := h (List.mem_cons_self ..)
    have hxs : xs ⊆ ys := fun z hz => h (List.mem_cons_of_mem _ hz)
    by_cases hm : x ∈ xs
    · simpa [distinctCount, hm] using ih hxs
    · have : xs ⊆ ys.filter (· ≠ x) := by
        intro z hz
        have : z ≠ x := fun e => hm (e ▸ hz)
        simp [hxs hz, this]
      have := ih this
      have := distinctCount_filter hx
      simp only [distinctCount, hm, if_false]
      omega

theorem distinctCount_lt {x : String} {xs ys : List String} (h : xs ⊆ ys) (hy : x ∈ ys)
    (hx : x ∉ xs) : distinctCount xs < distinctCount ys := by
  have : xs ⊆ ys.filter (· ≠ x) := by
    intro z hz
    have : z ≠ x := fun e => hx (e ▸ hz)
    simp [h hz, this]
  have := distinctCount_mono this
  have := distinctCount_filter hy
  omega

/-! ## Equations -/

def eqVars (eqs : List Equation) : List String :=
  eqs.flatMap fun e => e.1.vars ++ e.2.vars

def eqSize : List Equation → Nat
  | [] => 0
  | e :: eqs => e.1.size + e.2.size + eqSize eqs

theorem eqSize_append (eqs more : List Equation) :
    eqSize (eqs ++ more) = eqSize eqs + eqSize more := by
  induction eqs with
  | nil => simp [eqSize]
  | cons e eqs ih => simp [eqSize, ih, Nat.add_assoc]

theorem eqSize_reverse (eqs : List Equation) : eqSize eqs.reverse = eqSize eqs := by
  induction eqs with
  | nil => rfl
  | cons e eqs ih =>
    simp only [List.reverse_cons, eqSize_append, eqSize, ih]
    omega

theorem mem_eqVars {x : String} {eqs : List Equation} :
    x ∈ eqVars eqs ↔ ∃ e ∈ eqs, x ∈ e.1.vars ∨ x ∈ e.2.vars := by
  simp [eqVars]

theorem eqVars_zip (vs ws : List Value) :
    eqVars (vs.zip ws) ⊆ Tree.varsAll vs ++ Tree.varsAll ws := by
  induction vs generalizing ws with
  | nil => simp [eqVars]
  | cons v vs ih =>
    cases ws with
    | nil => simp [eqVars]
    | cons w ws =>
      intro x hx
      have ih := @ih ws x
      simp only [eqVars, List.zip_cons_cons, List.flatMap_cons, List.mem_append, Tree.varsAll]
        at hx ih ⊢
      grind

theorem eqSize_zip (vs ws : List Value) :
    eqSize (vs.zip ws) ≤ Tree.sizeAll vs + Tree.sizeAll ws := by
  induction vs generalizing ws with
  | nil => simp [eqSize]
  | cons v vs ih =>
    cases ws with
    | nil => simp [eqSize]
    | cons w ws =>
      have := ih ws
      simp only [eqSize, List.zip_cons_cons, Tree.sizeAll] at this ⊢
      omega

theorem size_pos {ι : Type} (t : Tree ι) : 0 < t.size := by
  cases t <;> simp [Tree.size]

/-! ## Steps -/

theorem vars_of_var? {t : Value} {x : String} (h : t.var? = some x) : t.vars = [x] := by
  unfold Tree.var? at h
  split at h
  · cases h
    rfl
  · cases h

theorem bindStep_bind {x y : String} {t u : Value} (h : bindStep x t = .ok (.bind y u)) :
    y = x ∧ u = t ∧ x ∉ t.vars := by
  unfold bindStep at h
  split at h
  · cases h
  · split at h
    · cases h
    · rename_i hne
      cases h
      exact ⟨rfl, rfl, fun hx => hne ((Tree.occurs_iff x t).mpr hx)⟩

theorem bindStep_split {x : String} {t : Value} {eqs : List Equation}
    (h : bindStep x t = .ok (.split eqs)) : eqs = [] := by
  unfold bindStep at h
  split at h
  · cases h
    rfl
  · split at h <;> cases h

/-- Splitting an equation brings no new variable and makes it smaller. -/
theorem matchStep_split {l r : Value} {eqs : List Equation}
    (h : matchStep l r = .ok (.split eqs)) :
    eqVars eqs ⊆ l.vars ++ r.vars ∧ eqSize eqs < l.size + r.size := by
  have empty : eqs = [] → eqVars eqs ⊆ l.vars ++ r.vars ∧ eqSize eqs < l.size + r.size := by
    rintro rfl
    have := size_pos l
    exact ⟨by simp [eqVars], by simp [eqSize]; omega⟩
  have zip_size : ∀ vs ws : List Value,
      eqSize (vs.zip ws) < (Tree.sizeAll vs + 1) + (Tree.sizeAll ws + 1) := by
    intro vs ws
    have := eqSize_zip vs ws
    omega
  unfold matchStep at h
  split at h
  · cases h
    exact empty rfl
  · cases h
    exact empty rfl
  · exact empty (bindStep_split h)
  · exact empty (bindStep_split h)
  · split at h
    · cases h
      exact ⟨by simpa [Tree.vars] using eqVars_zip _ _, zip_size _ _⟩
    · cases h
  · cases h
  · cases h
  · split at h
    · cases h
      exact ⟨by simpa [Tree.vars] using eqVars_zip _ _, zip_size _ _⟩
    · cases h
  · cases h
  · cases h
  · split at h
    · cases h
      exact empty rfl
    · cases h

/-- A step binds a variable of the equation to a side of it that does not contain the variable. -/
theorem matchStep_bind {l r : Value} {x : String} {t : Value}
    (h : matchStep l r = .ok (.bind x t)) :
    x ∈ l.vars ++ r.vars ∧ x ∉ t.vars ∧ t.vars ⊆ l.vars ++ r.vars := by
  unfold matchStep at h
  split at h
  · cases h
  · cases h
  · obtain ⟨rfl, rfl, hx⟩ := bindStep_bind h
    exact ⟨by simp [Tree.vars], hx, by simp⟩
  · obtain ⟨rfl, rfl, hx⟩ := bindStep_bind h
    exact ⟨by simp [Tree.vars], hx, by simp⟩
  · split at h <;> cases h
  · cases h
  · cases h
  · split at h <;> cases h
  · cases h
  · cases h
  · split at h <;> cases h

/-! ## Expanding a binding -/

mutual

/-- Expanding a binding removes its variable and brings at most the variables of its value. -/
theorem vars_instantiate (x : String) (t : Value) (v : Value) (next : Ident) {r : Option Value}
    {n : Ident}
    (h : Tree.instantiate (fun _ _ => .ok ()) (Substitution.single x t) v next = .ok (r, n)) :
    ∀ y ∈ (r.getD v).vars, (y ∈ v.vars ∧ y ≠ x) ∨ y ∈ t.vars := by
  match v with
  | .node id type values =>
    simp only [Tree.instantiate, bind, Except.bind] at h
    split at h
    · cases h
    · rename_i p hp
      obtain ⟨q, m⟩ := p
      have ih := varsAll_instantiateAll x t values next hp
      cases q <;> cases h <;> simpa [Tree.vars] using ih
  | .seq id items =>
    simp only [Tree.instantiate, bind, Except.bind] at h
    split at h
    · cases h
    · rename_i p hp
      obtain ⟨q, m⟩ := p
      have ih := varsAll_instantiateAll x t items next hp
      cases q <;> cases h <;> simpa [Tree.vars] using ih
  | .pattern (.var z) =>
    simp only [Tree.instantiate, Substitution.single] at h
    by_cases hz : z = x
    · subst hz
      simp only [if_true] at h
      cases h
      intro y hy
      split at hy
      · rename_i hv
        right
        simpa [vars_of_var? hv, Tree.vars] using hy
      · right
        simpa using hy
    · simp only [hz, if_false] at h
      cases h
      intro y hy
      left
      simp only [Option.getD_none, Tree.vars, List.mem_singleton] at hy
      simp [Tree.vars, hy, hz]
  | .pattern .wildcard | .prim _ | .absent =>
    simp only [Tree.instantiate] at h
    cases h
    simp [Tree.vars]

theorem varsAll_instantiateAll (x : String) (t : Value) (vs : List Value) (next : Ident)
    {r : Option (List Value)} {n : Ident}
    (h : Tree.instantiateAll (fun _ _ => .ok ()) (Substitution.single x t) vs next = .ok (r, n)) :
    ∀ y ∈ Tree.varsAll (r.getD vs), (y ∈ Tree.varsAll vs ∧ y ≠ x) ∨ y ∈ t.vars := by
  match vs with
  | [] =>
    simp only [Tree.instantiateAll] at h
    cases h
    simp [Tree.varsAll]
  | v :: vs =>
    simp only [Tree.instantiateAll, bind, Except.bind] at h
    split at h
    · cases h
    · rename_i p hp
      split at h
      · cases h
      · rename_i q hq
        have head := vars_instantiate x t v next hp
        have tail := varsAll_instantiateAll x t vs p.2 hq
        obtain ⟨a, m⟩ := p
        obtain ⟨b, m'⟩ := q
        have both : ∀ y ∈ (a.getD v).vars ++ Tree.varsAll (b.getD vs),
            (y ∈ v.vars ++ Tree.varsAll vs ∧ y ≠ x) ∨ y ∈ t.vars := by
          intro y hy
          simp only [List.mem_append] at hy ⊢
          rcases hy with hy | hy
          · have := head y hy
            grind
          · have := tail y hy
            grind
        cases a <;> cases b <;> cases h <;> simpa [Tree.varsAll] using both

end

theorem vars_expand (x : String) (t v : Value) (next : Ident) :
    ∀ y ∈ (v.expand (Substitution.single x t) next).1.vars,
      (y ∈ v.vars ∧ y ≠ x) ∨ y ∈ t.vars := by
  unfold Tree.expand
  split
  · rename_i h
    exact vars_instantiate x t v next h
  · rename_i h
    obtain ⟨r, hr⟩ := Tree.instantiate_unchecked (Substitution.single x t) v next
    rw [hr] at h
    cases h

end Arbor.Unify
