import Arbor.Proofs.Runs
import Arbor.Proofs.Unify.Solving

/-!
# Unification computes most general solutions

A solution of equations makes both sides of each of them agree (`solve_agrees`). On equations
without wildcards a run succeeds as soon as some valuation solves them, and every such valuation
factors through the solution (`solve_complete`).
-/

namespace Arbor.Unify

open Arbor.Tree

/-! ## Soundness -/

theorem solve_agrees (pending : List Equation) (found : Substitution) (next : Ident)
    {s : Substitution} (h : (solve pending found next).result = .ok s) :
    ∀ e ∈ pending, (e.1.subst (inOrder (solve pending found next).trace)).agrees
      (e.2.subst (inOrder (solve pending found next).trace)) = true := by
  induction pending, found, next using solve.induct with
  | case1 found next => simp
  | case2 found next l r rest e step =>
    rw [solve_error step] at h
    cases h
  | case3 found next l r rest eqs step ih =>
    rw [solve_split step] at h ⊢
    have parts := ih h
    rw [List.forall_mem_append] at parts
    refine List.forall_mem_cons.mpr ⟨(matchStep_asks step).agrees ?_, parts.2⟩
    exact fun e he => parts.1 e (List.mem_reverse.mpr he)
  | case4 found next l r rest x t step pending bound ih =>
    obtain ⟨result, trace⟩ := solve_bind step rest found next
    have others := ih (result ▸ h)
    rw [trace]
    generalize (solve pending.1 bound.1 bound.2).trace = later at others
    have hx : x ∉ t.vars := (matchStep_asks step).binds (σ := unbound).1
    -- The bound variable and its value become the same tree at once.
    have head : l.subst (inOrder ((x, t) :: later)) = r.subst (inOrder ((x, t) :: later)) := by
      refine (matchStep_asks step).binds.2.mpr ?_
      rw [subst_inOrder, subst_binding_of_notMem hx]
      exact congrArg (Tree.subst _) (binding_self x t)
    refine List.forall_mem_cons.mpr ⟨by rw [head, agrees_self], ?_⟩
    simp only [subst_inOrder, ← standing_single]
    refine (forall_expandEquations (P := fun l r =>
      (l.subst (inOrder later)).agrees (r.subst (inOrder later)) = true) _ rest next).mp ?_
    simpa only [subst_shape] using others

/-! ## Completeness -/

/-- What a variable is bound to may be substituted for it without changing a valuation that solves
the binding. -/
theorem subst_binding_of_solves {ι : Type} {x : String} {t : Value} {τ : Valuation}
    (h : τ x = t.subst τ) (v : Tree ι) : (v.subst (binding x t)).subst τ = v.subst τ := by
  rw [subst_subst]
  apply subst_congr
  intro y _
  by_cases hy : y = x
  · rw [hy, binding_self, subst_shape, h]
  · rw [binding_of_ne t hy]
    rfl

theorem solve_complete (pending : List Equation) (found : Substitution) (next : Ident)
    {τ : Valuation} (free : ∀ e ∈ pending, e.1.WildcardFree ∧ e.2.WildcardFree)
    (solves : ∀ e ∈ pending, e.1.subst τ = e.2.subst τ) :
    (∃ s, (solve pending found next).result = .ok s) ∧
      ∀ y, (inOrder (solve pending found next).trace y).subst τ = τ y := by
  induction pending, found, next using solve.induct with
  | case1 found next =>
    rw [solve_nil]
    exact ⟨⟨found, rfl⟩, fun _ => rfl⟩
  | case2 found next l r rest e step =>
    exact absurd (solves (l, r) (.head _)) (matchStep_error step τ)
  | case3 found next l r rest eqs step ih =>
    rw [solve_split step]
    rw [List.forall_mem_cons] at free solves
    have asks := matchStep_asks step
    apply ih
    · rw [List.forall_mem_append]
      refine ⟨fun e he => ?_, free.2⟩
      exact asks.every_split free.1.1 free.1.2 e (List.mem_reverse.mp he)
    · rw [List.forall_mem_append]
      refine ⟨fun e he => ?_, solves.2⟩
      exact asks.solves free.1.1 free.1.2 solves.1 e (List.mem_reverse.mp he)
  | case4 found next l r rest x t step pending bound ih =>
    obtain ⟨result, trace⟩ := solve_bind step rest found next
    rw [List.forall_mem_cons] at free solves
    have asks := matchStep_asks step
    have hx : τ x = t.subst τ := asks.binds.2.mp solves.1
    have absorbs (v : Value) := subst_binding_of_solves hx v
    obtain ⟨succeeds, factors⟩ := ih
      (every_restAfter (asks.every_bind free.1.1 free.1.2) free.2 next) (by
        have parts := (forall_expandEquations (P := fun l r => l.subst τ = r.subst τ)
          (Substitution.single x t) rest next).mpr
        simp only [standing_single, absorbs, subst_shape] at parts
        exact parts solves.2)
    rw [result, trace]
    refine ⟨succeeds, fun y => ?_⟩
    rw [inOrder, subst_subst, subst_congr fun z _ => factors z]
    exact absorbs (.pattern (.var y))

/-! ## Lists of equations -/

theorem solveAll_valuation {equations : List Equation} {next : Ident} {s : Substitution}
    (h : (solveAll equations next).result = .ok s) :
    s.valuation = inOrder (solveAll equations next).trace := by
  rw [solveAll] at h ⊢
  rw [valuation_solve _ _ _ (fun _ _ => rfl) h]
  rfl

theorem solveAll_agrees {equations : List Equation} {next : Ident} {s : Substitution}
    (h : (solveAll equations next).result = .ok s) {l r : Value} (mem : (l, r) ∈ equations) :
    (l.subst s.valuation).agrees (r.subst s.valuation) = true := by
  rw [solveAll_valuation h]
  exact solve_agrees equations.reverse {} next h (l, r) (List.mem_reverse.mpr mem)

theorem solveAll_wildcardFree {equations : List Equation} {next : Ident} {s : Substitution}
    (h : (solveAll equations next).result = .ok s)
    (free : ∀ e ∈ equations, e.1.WildcardFree ∧ e.2.WildcardFree) (x : String) :
    (s.valuation x).WildcardFree := by
  apply every_standing (nofun : Pattern.var x ≠ .wildcard)
  exact solve_every equations.reverse {} next h
    (fun e he => free e (List.mem_reverse.mp he)) (by simp [Substitution.get?]) x

theorem run_unifyAll {σ : Type} (w : World σ) (equations : List Equation) :
    (Effect.unifyAll equations).run w =
      let solution := solveAll equations w.next
      let records := solution.trace.map fun (name, value) => Record.bound name value
      (solution.result.mapError .mismatch,
        { w with next := solution.next, log := records.reverse ++ w.log }) := by
  have solved : (Effect.solveEquations equations).run w =
      (.ok (solveAll equations w.next).result, _) := rfl
  rw [Effect.unifyAll, run_bind_of_ok solved]
  dsimp only
  cases (solveAll equations w.next).result <;> rfl

theorem run_unify {σ : Type} (w : World σ) (a b : Value) :
    ((Effect.unify a b).run w).1 = (solveAll [(a, b)] w.next).result.mapError .mismatch :=
  congrArg Prod.fst (run_unifyAll w [(a, b)])

theorem result_unifyAll_ok {σ : Type} {w : World σ} {equations : List Equation}
    {s : Substitution} :
    ((Effect.unifyAll equations).run w).1 = .ok s ↔ (solveAll equations w.next).result = .ok s := by
  rw [run_unifyAll]
  dsimp only
  cases (solveAll equations w.next).result with
  | error e => exact ⟨nofun, nofun⟩
  | ok s' =>
    constructor
    · rintro ⟨⟩
      rfl
    · rintro ⟨⟩
      rfl

theorem run_unify_ok {σ : Type} {w : World σ} {a b : Value} {s : Substitution} :
    ((Effect.unify a b).run w).1 = .ok s ↔ (solveAll [(a, b)] w.next).result = .ok s :=
  result_unifyAll_ok

/-- Unification is sound: a solution makes the two sides of every equation agree up to wildcards,
and be equal if there are no wildcards. Where checked instances of two unified trees exist, they
agree too. -/
theorem unification_sound :
    (∀ (equations : List Equation) (next : Ident) (s : Substitution),
      (solveAll equations next).result = .ok s → ∀ l r, (l, r) ∈ equations → ∀ m n,
        (l.expand s.get? m).1.agrees (r.expand s.get? n).1 = true ∧
        ((∀ e ∈ equations, e.1.WildcardFree ∧ e.2.WildcardFree) →
          (l.expand s.get? m).1.same (r.expand s.get? n).1 = true)) ∧
    ∀ (σ : Type) (w : World σ) (a b : Value) (s : Substitution),
      ((Effect.unify a b).run w).1 = .ok s →
        ∀ m n a' b' m' n', s.apply a m = .ok (a', m') → s.apply b n = .ok (b', n') →
          a'.agrees b' = true := by
  constructor
  · intro equations next s h l r mem m n
    have agree := solveAll_agrees h mem
    constructor
    · rwa [← agrees_shape, shape_expand, shape_expand]
    · intro free
      have wild (v : Value) (hv : v.WildcardFree) : (v.subst s.valuation).WildcardFree :=
        Every.subst hv fun x _ => solveAll_wildcardFree h free x
      rw [same_iff, shape_expand, shape_expand]
      rw [agrees_eq_same (wild l (free _ mem).1) (wild r (free _ mem).2), same_iff] at agree
      rwa [shape_eq_self, shape_eq_self] at agree
  · intro σ w a b s h m n a' b' m' n' ha hb
    rw [← agrees_shape, Substitution.shape_apply ha, Substitution.shape_apply hb]
    exact solveAll_agrees (run_unify_ok.mp h) (.head _)

/-- Two sequences whose second items decide what the first ones are. -/
theorem unification_sound_chain :
    let l : Value := .seq 0 [.pattern (.var "X"), .pattern (.var "Y")]
    let r : Value := .seq 1 [.pattern (.var "Y"), .prim (.int 1)]
    let s : Substitution := ⟨[("X", .prim (.int 1)), ("Y", .prim (.int 1))]⟩
    (solveAll [(l, r)] 2).result = .ok s ∧
      (l.expand s.get? 2).1.same (r.expand s.get? 2).1 = true ∧
      ∃ l' r', s.apply l 2 = .ok (l', 3) ∧ s.apply r 2 = .ok (r', 3) ∧ l'.agrees r' = true := by
  intro l r s
  have solved : (solveAll [(l, r)] 2).result = .ok s := by
    rw [solveAll, List.reverse_singleton, solve_split (l := l) (r := r) rfl]
    refine (solve_bind (x := "Y") rfl _ _ _).1.trans ?_
    refine (solve_bind (x := "X") rfl _ _ _).1.trans ?_
    exact congrArg Solution.result (solve_nil _ _)
  have free : ∀ e ∈ [(l, r)], e.1.WildcardFree ∧ e.2.WildcardFree := by
    simp [l, r, WildcardFree, Every]
  refine ⟨solved, (unification_sound.1 _ 2 s solved l r (.head _) 2 2).2 free, _, _, rfl, rfl, ?_⟩
  exact unification_sound.2 Unit { next := 2, user := () } l r s (run_unify_ok.mpr solved)
    2 2 _ _ 3 3 rfl rfl

/-- A substitution solves equations if it makes the two sides of each of them equal. -/
def Solves (equations : List Equation) (t : Substitution) : Prop :=
  ∀ l r, (l, r) ∈ equations → ∀ m n, (l.expand t.get? m).1.same (r.expand t.get? n).1 = true

theorem Solves.subst {equations : List Equation} {t : Substitution} (h : Solves equations t) :
    ∀ e ∈ equations, e.1.subst t.valuation = e.2.subst t.valuation := by
  intro e he
  have := h e.1 e.2 he 0 0
  rwa [same_iff, shape_expand, shape_expand] at this

/-- Unification is complete and most general on equations without wildcards: it succeeds if they
have a solution at all, and every solution factors through the one that it finds. -/
theorem unification_mostGeneral (equations : List Equation) (next : Ident)
    (free : ∀ e ∈ equations, e.1.WildcardFree ∧ e.2.WildcardFree) :
    ((∃ t, Solves equations t) → ∃ s, (solveAll equations next).result = .ok s ∧
      ∀ t, Solves equations t → ∀ (x : String) (n : Ident),
        (((s.get? x).getD (.pattern (.var x))).expand t.get? n).1.same
          ((t.get? x).getD (.pattern (.var x))) = true) ∧
    ∀ e, (solveAll equations next).result = .error e → ¬ ∃ t, Solves equations t := by
  have run (t : Substitution) (h : Solves equations t) :=
    solve_complete equations.reverse {} next (fun e he => free e (List.mem_reverse.mp he))
      (fun e he => h.subst e (List.mem_reverse.mp he))
  have shapes (s : Substitution) (x : String) :
      ((s.get? x).getD (.pattern (.var x))).shape = s.valuation x := by
    cases hx : s.get? x with
    | none => rw [Substitution.valuation, standing_none hx]; rfl
    | some v => rw [Substitution.valuation, standing_some hx]; rfl
  constructor
  · rintro ⟨t, ht⟩
    obtain ⟨s, hs⟩ := (run t ht).1
    refine ⟨s, hs, fun t ht x n => ?_⟩
    rw [same_iff, shape_expand, shapes, ← subst_shape, shapes, solveAll_valuation hs]
    exact (run t ht).2 x
  · rintro e he ⟨t, ht⟩
    obtain ⟨s, hs⟩ := (run t ht).1
    rw [solveAll, hs] at he
    cases he

/-- Two sequences with a solution that is more special than the one found. -/
theorem unification_mostGeneral_pair :
    let l : Value := .seq 0 [.pattern (.var "X"), .prim (.int 2)]
    let r : Value := .seq 1 [.pattern (.var "Y"), .pattern (.var "Z")]
    let t : Substitution :=
      ⟨[("X", .prim (.int 1)), ("Y", .prim (.int 1)), ("Z", .prim (.int 2))]⟩
    (∀ e ∈ [(l, r)], e.1.WildcardFree ∧ e.2.WildcardFree) ∧ Solves [(l, r)] t ∧
      ∃ s, (solveAll [(l, r)] 2).result = .ok s ∧ ∀ x n,
        (((s.get? x).getD (.pattern (.var x))).expand t.get? n).1.same
          ((t.get? x).getD (.pattern (.var x))) = true := by
  intro l r t
  have free : ∀ e ∈ [(l, r)], e.1.WildcardFree ∧ e.2.WildcardFree := by
    simp [l, r, WildcardFree, Every]
  have solves : Solves [(l, r)] t := by
    intro l' r' mem m n
    cases List.mem_singleton.mp mem
    rfl
  obtain ⟨s, solved, factors⟩ := (unification_mostGeneral [(l, r)] 2 free).1 ⟨t, solves⟩
  exact ⟨free, solves, s, solved, factors t solves⟩

end Arbor.Unify
