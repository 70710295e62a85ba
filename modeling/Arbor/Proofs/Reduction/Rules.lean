import Arbor.Proofs.Unify.Congruence
import Arbor.Reduction.Rule

/-!
# What rules decide

A rule is functional if its action decides by the substitution alone. What it decides for a value
then depends on the shape of the value only (`apply_congr`), and rules that have left a node alone
once always do (`declines_of_none`). A rule is proper if it never makes a node that lacks a value
for a field or has one too many; then no replacement of a full node has such a node
(`firstReplacement_full`). Rules with templates are functional, and proper if pattern and template
are full.
-/

namespace Arbor

open Arbor.Tree

/-- An outcome up to identities. -/
inductive Verdict where
  | replace (shape : Shape)
  | defer
  | keep

def Outcome.verdict : Outcome → Verdict
  | .replace value => .replace value.shape
  | .defer => .defer
  | .keep => .keep

/-- The values that the outcome puts in have the property. -/
def Outcome.All (P : Value → Prop) : Outcome → Prop
  | .replace value => P value
  | .defer | .keep => True

namespace Rule

variable {σ : Type}

/-- Equal substitutions get equal outcomes, in whatever worlds. -/
def Functional (r : Rule σ) : Prop :=
  ∀ s s' w w', s.outline = s'.outline →
    ((r.action s).run w).1.map Outcome.verdict = ((r.action s').run w').1.map Outcome.verdict

/-- The nodes of the pattern have one value for each field, and so have those of every replacement
that is made from such values. -/
structure Proper (r : Rule σ) : Prop where
  pattern : r.pattern.Full
  action : ∀ s w v w', (∀ x u, s.get? x = some u → u.Full) →
    (r.action s).run w = (.ok (.replace v), w') → v.Full

/-! ## Matching -/

theorem run_unify? (left right : Value) (w : World σ) :
    ∃ w', (Effect.unify? left right).run w =
      (.ok (Unify.solveAll [(left, right)] w.next).result.toOption, w') :=
  ⟨_, rfl⟩

theorem unify?_congr (pattern : Value) {v v' : Value} (h : v.shape = v'.shape)
    (next next' : Ident) :
    (Unify.solveAll [(pattern, v)] next).result.toOption.map Substitution.outline =
      (Unify.solveAll [(pattern, v')] next').result.toOption.map Substitution.outline := by
  apply Unify.solve_congr
  · simp [Unify.outline, h]
  · rfl

theorem apply_congr {r : Rule σ} (functional : r.Functional) {v v' : Value}
    (h : v.shape = v'.shape) (w w' : World σ) :
    ((r.apply v).run w).1.map (Option.map Outcome.verdict) =
      ((r.apply v').run w').1.map (Option.map Outcome.verdict) := by
  obtain ⟨after, left⟩ := run_unify? r.pattern v w
  obtain ⟨after', right⟩ := run_unify? r.pattern v' w'
  have solutions := unify?_congr r.pattern h w.next w'.next
  rw [apply, run_bind_of_ok left, apply, run_bind_of_ok right]
  rcases option_cases_of_map_eq solutions with ⟨found, found'⟩ | ⟨s, s', found, found', same⟩
  · rw [found, found']
    rfl
  · rw [found, found']
    have decided := functional s s' after after' same
    dsimp only
    rw [run_bind, run_bind]
    generalize (r.action s).run after = left at decided
    generalize (r.action s').run after' = right at decided
    obtain ⟨result, _⟩ := left
    obtain ⟨result', _⟩ := right
    rcases cases_of_map_eq decided with ⟨e, rfl, rfl⟩ | ⟨o, o', rfl, rfl, same⟩
    · rfl
    · exact congrArg (fun verdict => Except.ok (some verdict)) same

/-- An answer other than a replacement is the answer in all worlds. -/
theorem apply_stays {r : Rule σ} (functional : r.Functional) {v : Value} {o : Option Outcome}
    (plain : ∀ u, o ≠ some (.replace u)) {w : World σ} (h : ((r.apply v).run w).1 = .ok o)
    (w' : World σ) : ((r.apply v).run w').1 = .ok o := by
  have same := apply_congr functional (rfl : v.shape = v.shape) w w'
  rw [h] at same
  rcases cases_of_map_eq same with ⟨e, left, -⟩ | ⟨a, o', left, right, verdicts⟩
  · cases left
  · cases left
    rw [right]
    rcases o with _ | u | _ | _ <;> rcases o' with _ | u' | _ | _ <;> simp_all [Outcome.verdict]

/-! ## Declining -/

/-- Trying the rules in order on the node, in whatever world, ends without a replacement: each rule
does not match or defers, until one keeps the node or none is left. -/
inductive Declines (n : Node Ident) : List (Rule σ) → Prop
  | nil : Declines n []
  | unmatched {r : Rule σ} {rest : List (Rule σ)} :
      (∀ w, ((r.apply n.toTree).run w).1 = .ok none) → Declines n rest → Declines n (r :: rest)
  | deferred {r : Rule σ} {rest : List (Rule σ)} :
      (∀ w, ((r.apply n.toTree).run w).1 = .ok (some .defer)) → Declines n rest →
        Declines n (r :: rest)
  | kept {r : Rule σ} {rest : List (Rule σ)} :
      (∀ w, ((r.apply n.toTree).run w).1 = .ok (some .keep)) → Declines n (r :: rest)

theorem Declines.firstReplacement {n : Node Ident} {rules : List (Rule σ)}
    (h : Declines n rules) (w : World σ) :
    ∃ w', (Rule.firstReplacement n rules).run w = (.ok none, w') := by
  induction h generalizing w with
  | nil => exact ⟨w, rfl⟩
  | unmatched applied _ ih =>
    rw [Rule.firstReplacement, run_bind_of_ok (Prod.ext (applied w) rfl)]
    exact ih _
  | deferred applied _ ih =>
    rw [Rule.firstReplacement, run_bind_of_ok (Prod.ext (applied w) rfl)]
    exact ih _
  | kept applied =>
    rw [Rule.firstReplacement, run_bind_of_ok (Prod.ext (applied w) rfl)]
    exact ⟨_, rfl⟩

/-- A node that functional rules leave alone once they always leave alone. -/
theorem declines_of_none {rules : List (Rule σ)} (functional : ∀ r ∈ rules, r.Functional)
    {n : Node Ident} {w w' : World σ} (h : (firstReplacement n rules).run w = (.ok none, w')) :
    Declines n rules := by
  induction rules generalizing w with
  | nil => exact .nil
  | cons r rest ih =>
    rw [List.forall_mem_cons] at functional
    rw [firstReplacement] at h
    obtain ⟨o, w₁, applied, h⟩ := run_bind_eq_ok h
    have always := fun plain => apply_stays functional.1 (o := o) plain (congrArg Prod.fst applied)
    cases o with
    | none => exact .unmatched (always (by simp)) (ih functional.2 h)
    | some o =>
      cases o with
      | defer => exact .deferred (always (by simp)) (ih functional.2 h)
      | keep => exact .kept (always (by simp))
      | replace v => cases h

/-! ## Fullness -/

theorem apply_full {r : Rule σ} (proper : r.Proper) {v v' : Value} (full : v.Full)
    {w w' : World σ} (h : (r.apply v).run w = (.ok (some (.replace v')), w')) : v'.Full := by
  obtain ⟨after, solved⟩ := run_unify? r.pattern v w
  rw [apply, run_bind_of_ok solved] at h
  cases found : (Unify.solveAll [(r.pattern, v)] w.next).result with
  | error e =>
    rw [found] at h
    cases h
  | ok s =>
    rw [found] at h
    obtain ⟨o, w₁, action, h⟩ := run_bind_eq_ok h
    cases h
    refine proper.action s after v' w' ?_ action
    intro x u hu
    rw [full_iff_every]
    apply Unify.solve_every _ _ _ found _ _ x u hu
    · simp [← full_iff_every, proper.pattern, full]
    · simp [Substitution.get?]

/-- What holds of the replacements of every rule holds of the first one. -/
theorem firstReplacement_yields {P : Value → Prop} {n : Node Ident} {rules : List (Rule σ)}
    (each : ∀ r ∈ rules, Yields (fun found => ∀ o, found = some o → o.All P) (r.apply n.toTree)) :
    Yields (fun found => ∀ v, found = some v → P v) (firstReplacement n rules) := by
  induction rules with
  | nil => exact yields_pure nofun
  | cons r rest ih =>
    rw [List.forall_mem_cons] at each
    refine each.1.bind fun found outcome => ?_
    match found with
    | none => exact ih each.2
    | some .defer => exact (yields_any _).bind fun _ _ => ih each.2
    | some .keep => exact yields_pure nofun
    | some (.replace value) =>
      refine (yields_any _).bind fun _ _ => yields_pure ?_
      rintro _ ⟨⟩
      exact outcome _ rfl

theorem firstReplacement_full {rules : List (Rule σ)} (proper : ∀ r ∈ rules, r.Proper)
    {n : Node Ident} (full : n.toTree.Full) {v : Value} {w w' : World σ}
    (h : (firstReplacement n rules).run w = (.ok (some v), w')) : v.Full := by
  refine firstReplacement_yields (fun r hr => ?_) (some v) w w' h v rfl
  rintro _ w w' applied o rfl
  cases o with
  | replace v' => exact apply_full (proper r hr) full applied
  | defer => trivial
  | keep => trivial

/-! ## Templates -/

theorem run_instantiate (s : Substitution) (template : Value) (w : World σ) :
    (Effect.instantiate s template).run w =
      match s.apply template w.next with
      | .ok (v, next) => (.ok v, { w with next := next })
      | .error e => (.error (.construction e), w) := by
  have current : (get : Effect σ (World σ)).run w = (.ok w, w) := rfl
  rw [Effect.instantiate, Effect.drawing, run_bind_of_ok current]
  cases s.apply template w.next <;> rfl

theorem functional_ofTemplate (name : Option String) (pattern template : Value) :
    (ofTemplate name pattern template : Rule σ).Functional := by
  intro s s' w w' h
  simp only [ofTemplate]
  rw [run_bind, run_bind, run_instantiate, run_instantiate]
  rcases cases_of_map_eq (Substitution.apply_congr h template w.next w'.next) with
    ⟨e, left, right⟩ | ⟨⟨v, m⟩, ⟨v', m'⟩, left, right, same⟩
  · rw [left, right]
  · rw [left, right]
    exact congrArg (fun shape => Except.ok (Verdict.replace shape)) same

theorem proper_ofTemplate (name : Option String) {pattern template : Value} (hp : pattern.Full)
    (ht : template.Full) : (ofTemplate name pattern template : Rule σ).Proper where
  pattern := hp
  action s w v w' bound h := by
    obtain ⟨u, w₁, instantiated, h⟩ := run_bind_eq_ok h
    cases h
    rw [run_instantiate] at instantiated
    split at instantiated
    · rename_i applied
      cases instantiated
      rw [full_iff_every, ← every_shape, Substitution.shape_apply applied]
      apply Every.subst (full_iff_every.mp ht)
      intro x _
      exact every_standing trivial fun u hu => full_iff_every.mp (bound x u hu)
    · cases instantiated

end Rule

end Arbor
