import Arbor.Proofs.Unify.Correctness

/-!
# Solving ends

The solver as a loop: a turn takes the first pending equation and either ends the loop or leaves it
with other equations. Turns that bind a variable can make the pending equations larger, by any
amount, but they leave fewer variables in them (`turn_descends`). So the loop makes finitely many
turns from wherever it stands (`turns_wellFounded`), and it ends with what `solve` gives
(`exists_run`).
-/

namespace Arbor.Unify

open Arbor.Tree

/-- Where the loop stands. -/
structure Loop where
  pending : List Equation
  found : Substitution
  /-- The bindings in the order in which they were made. -/
  trace : List (String × Value)
  next : Ident

inductive Turn where
  | continues (state : Loop)
  | ends (solution : Solution)

namespace Loop

def start (equations : List Equation) (next : Ident) : Loop :=
  ⟨equations.reverse, {}, [], next⟩

def turn (s : Loop) : Turn :=
  match s.pending with
  | [] => .ends ⟨.ok s.found, s.trace, s.next⟩
  | (l, r) :: rest =>
    match matchStep l r with
    | .error e => .ends ⟨.error e, s.trace, s.next⟩
    | .ok (.split eqs) => .continues { s with pending := eqs.reverse ++ rest }
    | .ok (.bind x t) =>
      let pending := restAfter x t rest s.next
      let bound := s.found.bind x t pending.2
      .continues ⟨pending.1, bound.1, s.trace ++ [(x, t)], bound.2⟩

/-- What the loop has ended with after a number of turns. -/
def run : Nat → Loop → Option Solution
  | 0, _ => none
  | n + 1, s =>
    match s.turn with
    | .continues s' => run n s'
    | .ends solution => some solution

/-! ## Turns -/

/-- What a turn after which the loop goes on has done. -/
theorem turn_continues {s s' : Loop} (h : s.turn = .continues s') :
    ∃ l r rest, s.pending = (l, r) :: rest ∧
      ((∃ eqs, matchStep l r = .ok (.split eqs) ∧ s' = { s with pending := eqs.reverse ++ rest }) ∨
        ∃ x t, matchStep l r = .ok (.bind x t) ∧
          s' = ⟨(restAfter x t rest s.next).1,
            (s.found.bind x t (restAfter x t rest s.next).2).1, s.trace ++ [(x, t)],
            (s.found.bind x t (restAfter x t rest s.next).2).2⟩) := by
  unfold turn at h
  split at h
  · cases h
  · rename_i l r rest pending
    refine ⟨l, r, rest, pending, ?_⟩
    split at h
    · cases h
    · rename_i eqs step
      cases h
      exact .inl ⟨eqs, step, rfl⟩
    · rename_i x t step
      cases h
      exact .inr ⟨x, t, step, rfl⟩

/-- The variables that are left, and how much there is to compare. -/
def weight (s : Loop) : Nat × Nat :=
  (distinctCount (eqVars s.pending), eqSize s.pending)

theorem turn_descends {s s' : Loop} (h : s.turn = .continues s') :
    Prod.Lex (· < ·) (· < ·) s'.weight s.weight := by
  obtain ⟨l, r, rest, pending, ⟨eqs, step, rfl⟩ | ⟨x, t, step, rfl⟩⟩ := turn_continues h
  · rw [weight, weight, pending]
    apply Prod.Lex.right'
    · exact distinctCount_mono (eqVars_split step)
    · have smaller := (matchStep_split step).2
      simp only [eqSize_append, eqSize_reverse, eqSize]
      omega
  · rw [weight, weight, pending]
    apply Prod.Lex.left
    refine distinctCount_lt (x := x) (fun y hy => (eqVars_bind step y hy).1) ?_
      fun hx => (eqVars_bind step x hx).2 rfl
    simp only [eqVars, List.flatMap_cons, List.mem_append]
    exact .inl (List.mem_append.mp (matchStep_bind step).1)

theorem turns_wellFounded : WellFounded fun s' s : Loop => s.turn = .continues s' :=
  Subrelation.wf turn_descends (InvImage.wf weight (Prod.lex Nat.lt_wfRel Nat.lt_wfRel).wf)

/-! ## Runs -/

/-- What solving the pending equations ends with. -/
def solution (s : Loop) : Solution :=
  let solved := solve s.pending s.found s.next
  { solved with trace := s.trace ++ solved.trace }

theorem solution_of_continues {s s' : Loop} (h : s.turn = .continues s') :
    s'.solution = s.solution := by
  obtain ⟨l, r, rest, pending, ⟨eqs, step, rfl⟩ | ⟨x, t, step, rfl⟩⟩ := turn_continues h
  · simp only [solution, pending, solve_split step]
  · simp only [solution, pending, solve_bind_eq step, List.append_assoc, List.singleton_append]

theorem solution_of_ends {s : Loop} {final : Solution} (h : s.turn = .ends final) :
    final = s.solution := by
  unfold turn at h
  split at h
  · rename_i pending
    cases h
    simp only [solution, pending, solve_nil, List.append_nil]
  · rename_i l r rest pending
    split at h
    · rename_i e step
      cases h
      simp only [solution, pending, solve_error step, List.append_nil]
    · cases h
    · cases h

theorem exists_run (s : Loop) : ∃ n, ∀ k, s.run (n + k) = some s.solution := by
  induction s using turns_wellFounded.induction with
  | _ s ih =>
    cases turn : s.turn with
    | continues s' =>
      obtain ⟨n, runs⟩ := ih s' turn
      refine ⟨n + 1, fun k => ?_⟩
      rw [Nat.add_right_comm, run, turn, ← solution_of_continues turn]
      exact runs k
    | ends final =>
      refine ⟨1, fun k => ?_⟩
      rw [Nat.add_comm, run, turn, ← solution_of_ends turn]

/-! ## Growth -/

/-- A variable that is bound to a large value and still stands elsewhere. -/
theorem exists_growing_turn (k : Nat) :
    ∃ equations next s', (start equations next).turn = .continues s' ∧ s'.trace ≠ [] ∧
      eqSize equations + k ≤ eqSize s'.pending := by
  let x : Value := .pattern (.var "X")
  let t : Value := .seq 0 (List.replicate (k + 2) .absent)
  have free : t.occurs "X" = false := by
    rw [Bool.eq_false_iff, Ne, occurs_iff]
    simp [t, vars]
  have step : matchStep x t = .ok (.bind "X" t) := by
    change bindStep "X" t = _
    simp [bindStep, free, t, var?]
  have length (n : Nat) : sizeAll (List.replicate n (.absent : Value)) = n := by
    induction n with
    | zero => rfl
    | succ n ih => simp [List.replicate_succ, sizeAll, size, ih, Nat.add_comm]
  refine ⟨[(x, x), (x, t)], 1, ⟨[(t, t)], ⟨[("X", t)]⟩, [("X", t)], 1⟩, ?_, by simp, ?_⟩
  · simp only [turn, start, List.reverse_cons, List.reverse_nil, List.nil_append,
      List.singleton_append, step]
    rfl
  · simp only [eqSize, x, t, size, length]
    omega

end Loop

/-- Unification ends on all equations: the loop makes finitely many turns from wherever it stands,
and from the given equations it ends with the substitution or the failure that unification gives.
Yet a turn that binds a variable can enlarge the pending equations by any amount. -/
theorem unification_terminates :
    (WellFounded fun s' s : Loop => s.turn = .continues s') ∧
    (∀ (σ : Type) (w : World σ) (equations : List Equation), ∃ n solution,
      (∀ k, (Loop.start equations w.next).run (n + k) = some solution) ∧
        ((Effect.unifyAll equations).run w).1 = solution.result.mapError .mismatch) ∧
    ∀ k, ∃ equations next s', (Loop.start equations next).turn = .continues s' ∧
      s'.trace ≠ [] ∧ eqSize equations + k ≤ eqSize s'.pending := by
  refine ⟨Loop.turns_wellFounded, fun σ w equations => ?_, Loop.exists_growing_turn⟩
  obtain ⟨n, runs⟩ := (Loop.start equations w.next).exists_run
  exact ⟨n, solveAll equations w.next, runs, congrArg Prod.fst (run_unifyAll w equations)⟩

end Arbor.Unify
