import Arbor.Proofs.Tree.Captures
import Arbor.Proofs.Unify.Idempotence
import Mathlib.Data.List.Zip

/-!
# Unification with a ground tree is matching

If one side of every equation is ground, solving them is matching the other sides against them: the
run succeeds if and only if each tree has the form of its pattern and what the patterns capture is
consistent, and every variable is bound to a part that it has captured (`solve_answers`). It does
not matter on which side the patterns stand (`solve_swap`).
-/

namespace Arbor

open Arbor.Tree

theorem Tree.Ground.expand {t : Value} (h : t.Ground) (find : String → Option Value)
    (next : Ident) : t.expand find next = (t, next) :=
  expand_of_unbound (fun x hx => absurd hx (h.notMem_vars x)) next

theorem Substitution.get?_bind_of_ground {s : Substitution}
    (ground : ∀ y v, s.get? y = some v → v.Ground) (x y : String) (t : Value) (next : Ident) :
    (s.bind x t next).1.get? y = if y = x then some t else s.get? y := by
  cases h : (s.bind x t next).1.get? y with
  | none =>
    obtain ⟨hne, unbound⟩ := get?_bind_eq_none.mp h
    rw [if_neg hne, unbound]
  | some v =>
    obtain ⟨rfl, rfl⟩ | ⟨hne, u, n, hu, rfl⟩ := get?_bind_eq_some h
    · rw [if_pos rfl]
    · rw [if_neg hne, hu, (ground y u hu).expand]

namespace Unify

/-! ## Steps -/

theorem captures_of_split {p t : Value} (ground : t.Ground) {eqs : List Equation}
    (step : matchStep p t = .ok (.split eqs)) : captures p t = gather eqs := by
  cases matchStep_asks step with
  | wildLeft => rfl
  | wildRight => exact ground.elim
  | equal same =>
    have groundLeft : p.Ground := every_shape.mp (same ▸ every_shape.mpr ground)
    rw [captures_of_ground p groundLeft, if_pos ((same_iff p t).mpr same)]
    rfl
  | node len =>
    rw [captures, if_pos rfl]
    exact capturesAll_eq_gather len
  | seq len => exact capturesAll_eq_gather len

theorem ground_split {p t : Value} {eqs rest : List Equation}
    (ground : ∀ e ∈ (p, t) :: rest, e.2.Ground) (step : matchStep p t = .ok (.split eqs)) :
    ∀ e ∈ eqs.reverse ++ rest, e.2.Ground := by
  rw [List.forall_mem_cons] at ground
  rw [List.forall_mem_append]
  refine ⟨fun e he => ?_, ground.2⟩
  rw [List.mem_reverse] at he
  cases matchStep_asks step with
  | wildLeft => cases he
  | wildRight => cases he
  | equal => cases he
  | node => exact ground.1.of_node _ (List.of_mem_zip he).2
  | seq => exact ground.1.of_seq _ (List.of_mem_zip he).2

theorem eq_of_bind {p t u : Value} {x : String} (ground : t.Ground)
    (step : matchStep p t = .ok (.bind x u)) : p = .pattern (.var x) ∧ u = t := by
  cases matchStep_asks step with
  | bindLeft => exact ⟨rfl, rfl⟩
  | bindRight => exact ground.elim

theorem matchStep_var_of_ground {t : Value} (ground : t.Ground) (x : String) :
    matchStep (.pattern (.var x)) t = .ok (.bind x t) ∧
      matchStep t (.pattern (.var x)) = .ok (.bind x t) := by
  have occurs : t.occurs x = false := by
    rw [Bool.eq_false_iff, Ne, occurs_iff]
    exact ground.notMem_vars x
  have notVar : t.var? ≠ some x := by
    intro h
    rw [eq_var_of_var? h] at ground
    exact ground
  have binds : bindStep x t = .ok (.bind x t) := by
    simp [bindStep, occurs, notVar]
  cases t with
  | pattern q => exact ground.elim
  | _ => exact ⟨binds, binds⟩

theorem captures_of_error {p t : Value} (ground : t.Ground) {e : MatchFailure}
    (step : matchStep p t = .error e) : captures p t = none := by
  have lengths {ps ts : List Value} (h : ps.length ≠ ts.length) : capturesAll ps ts = none :=
    Option.eq_none_iff_forall_ne_some.mpr fun _ parts => h (length_of_capturesAll parts)
  cases p with
  | node id s ps => cases t with
    | node id' s' ts =>
      rw [captures]
      rw [matchStep] at step
      split at step
      · cases step
      · rename_i differ
        split
        · rename_i same
          exact lengths fun len => differ ⟨same, len⟩
        · rfl
    | pattern q => exact ground.elim
    | _ => rfl
  | seq id ps => cases t with
    | seq id' ts =>
      rw [matchStep] at step
      split at step
      · cases step
      · rename_i differ
        exact lengths differ
    | pattern q => exact ground.elim
    | _ => rfl
  | prim q => cases t with
    | prim r =>
      rw [matchStep_prim] at step
      split at step
      · cases step
      · rename_i differ
        rw [captures, if_neg differ]
    | pattern q => exact ground.elim
    | _ => rfl
  | absent => cases t with
    | absent => cases step
    | pattern q => exact ground.elim
    | _ => rfl
  | pattern q => cases q with
    | wildcard => cases step
    | var x =>
      rw [(matchStep_var_of_ground ground x).1] at step
      cases step

/-! ## Runs -/

theorem gather_restAfter {x : String} {t : Value} (rest : List Equation)
    (ground : ∀ e ∈ rest, e.2.Ground) (next : Ident) :
    gather (restAfter x t rest next).1 =
      (gather rest).bind fun parts => gather (parts.map fun b => (binding x t b.1, b.2)) := by
  induction rest generalizing next with
  | nil => rfl
  | cons e rest ih =>
    obtain ⟨p, u⟩ := e
    rw [List.forall_mem_cons] at ground
    have head (n : Ident) : captures (p.expand (Substitution.single x t) n).1 u =
        (captures p u).bind fun parts => gather (parts.map fun b => (binding x t b.1, b.2)) := by
      rw [← captures_shape, shape_expand, captures_subst, standing_single]
    simp only [restAfter, expandEquations, ground.1.expand, gather, head, ih ground.2]
    cases captures p u with
    | none => rfl
    | some first => cases gather rest with
      | none => simp
      | some others => simp [gather_append]

theorem ground_restAfter {x : String} {t : Value} (rest : List Equation)
    (ground : ∀ e ∈ rest, e.2.Ground) (next : Ident) :
    ∀ e ∈ (restAfter x t rest next).1, e.2.Ground := by
  induction rest generalizing next with
  | nil => exact nofun
  | cons e rest ih =>
    rw [List.forall_mem_cons] at ground
    simp only [restAfter, expandEquations, ground.1.expand, List.forall_mem_cons]
    exact ⟨ground.1, ih ground.2 _⟩

/-- The variables that have captured something are bound to one of their parts, and the others are
as before. -/
structure Extends (found : Substitution) (parts : List (String × Value)) (s : Substitution) :
    Prop where
  captured : ∀ x u, (x, u) ∈ parts → ∃ v, s.get? x = some v ∧ (x, v) ∈ parts
  kept : ∀ x, (∀ u, (x, u) ∉ parts) → s.get? x = found.get? x

/-- What a run gives for equations that capture something, or do not match. -/
inductive Answers (found : Substitution) :
    Option (List (String × Value)) → Except MatchFailure Substitution → Prop
  | matched {parts : List (String × Value)} {s : Substitution} :
      Consistent parts → Extends found parts s → Answers found (some parts) (.ok s)
  | clash {parts : List (String × Value)} (e : MatchFailure) :
      ¬ Consistent parts → Answers found (some parts) (.error e)
  | mismatch (e : MatchFailure) : Answers found none (.error e)

theorem consistent_of_mem_iff {parts parts' : List (String × Value)}
    (h : ∀ b, b ∈ parts ↔ b ∈ parts') (consistent : Consistent parts) : Consistent parts' :=
  fun x u v hu hv => consistent x u v ((h _).mpr hu) ((h _).mpr hv)

theorem Answers.perm {found : Substitution} {goals goals' : List Equation}
    (perm : goals.Perm goals') {result : Except MatchFailure Substitution}
    (h : Answers found (gather goals) result) : Answers found (gather goals') result := by
  cases gathered : gather goals with
  | none =>
    have none' : gather goals' = none := by
      refine Option.eq_none_iff_forall_ne_some.mpr fun parts' gathered' => ?_
      obtain ⟨parts, gathered'', -⟩ := gather_perm perm.symm gathered'
      rw [gathered] at gathered''
      cases gathered''
    rw [none']
    rwa [gathered] at h
  | some parts =>
    obtain ⟨parts', gathered', permParts⟩ := gather_perm perm gathered
    have mem (b : String × Value) : b ∈ parts ↔ b ∈ parts' := permParts.mem_iff
    rw [gathered] at h
    rw [gathered']
    cases h with
    | matched consistent ext =>
      refine .matched (consistent_of_mem_iff mem consistent) ⟨fun x u hu => ?_, fun x hx => ?_⟩
      · obtain ⟨v, get, hv⟩ := ext.captured x u ((mem _).mpr hu)
        exact ⟨v, get, (mem _).mp hv⟩
      · exact ext.kept x fun u hu => hx u ((mem _).mp hu)
    | clash e inconsistent =>
      exact .clash e fun consistent =>
        inconsistent (consistent_of_mem_iff (fun b => (mem b).symm) consistent)

theorem mem_cons_of_ne {x y : String} (hy : y ≠ x) {t u : Value}
    {parts : List (String × Value)} :
    (y, u) ∈ (x, t) :: parts ↔ (y, u) ∈ parts.filter (·.1 != x) := by
  simp [hy]

theorem consistent_cons {x : String} {t : Value} {parts : List (String × Value)} :
    Consistent ((x, t) :: parts) ↔
      (∀ u, (x, u) ∈ parts → t.same u = true) ∧ Consistent (parts.filter (·.1 != x)) := by
  constructor
  · intro consistent
    refine ⟨fun u hu => consistent x t u (.head _) (.tail _ hu), fun y u v hu hv => ?_⟩
    exact consistent y u v (.tail _ (List.mem_filter.mp hu).1) (.tail _ (List.mem_filter.mp hv).1)
  · rintro ⟨same, consistent⟩ y u v hu hv
    by_cases hy : y = x
    · subst hy
      have shape {w : Value} (hw : (y, w) ∈ (y, t) :: parts) : t.shape = w.shape := by
        rcases List.mem_cons.mp hw with e | hw
        · cases e
          rfl
        · exact (same_iff t w).mp (same w hw)
      exact (same_iff u v).mpr ((shape hu).symm.trans (shape hv))
    · exact consistent y u v ((mem_cons_of_ne hy).mp hu) ((mem_cons_of_ne hy).mp hv)

theorem Extends.bind {found s : Substitution} {x : String} {t : Value} {m : Ident}
    {parts : List (String × Value)} (groundFound : ∀ y v, found.get? y = some v → v.Ground)
    (h : Extends (found.bind x t m).1 (parts.filter (·.1 != x)) s) :
    Extends found ((x, t) :: parts) s := by
  have get (y : String) := Substitution.get?_bind_of_ground groundFound x y t m
  constructor
  · intro y u hu
    by_cases hy : y = x
    · subst hy
      refine ⟨t, ?_, .head _⟩
      rw [h.kept y fun u hu => by simp at hu, get, if_pos rfl]
    · obtain ⟨v, bound, hv⟩ := h.captured y u ((mem_cons_of_ne hy).mp hu)
      exact ⟨v, bound, (mem_cons_of_ne hy).mpr hv⟩
  · intro y hy
    have hne : y ≠ x := by
      rintro rfl
      exact hy t (.head _)
    rw [h.kept y fun u hu => hy u ((mem_cons_of_ne hne).mpr hu), get, if_neg hne]

/-- What a run gives after the first variable has been bound to the part that it has captured. -/
theorem Answers.bind {found : Substitution} {x : String} {t : Value} {m : Ident}
    {gathered : Option (List (String × Value))} {result : Except MatchFailure Substitution}
    (ground : t.Ground) (groundFound : ∀ y v, found.get? y = some v → v.Ground)
    (h : Answers (found.bind x t m).1
      (gathered.bind fun parts => gather (parts.map fun b => (binding x t b.1, b.2))) result) :
    Answers found (gathered.map ((x, t) :: ·)) result := by
  cases gathered with
  | none =>
    cases h with
    | mismatch e => exact .mismatch e
  | some parts =>
    rw [Option.bind_some, gather_binding ground] at h
    split at h
    · rename_i all
      have same : ∀ u, (x, u) ∈ parts → t.same u = true := fun u hu => by
        simpa using List.all_eq_true.mp all (x, u) hu
      cases h with
      | matched consistent ext =>
        exact .matched (consistent_cons.mpr ⟨same, consistent⟩) (ext.bind groundFound)
      | clash e inconsistent =>
        exact .clash e fun consistent => inconsistent (consistent_cons.mp consistent).2
    · rename_i differ
      cases h with
      | mismatch e =>
        refine .clash e fun consistent => differ (List.all_eq_true.mpr fun b hb => ?_)
        by_cases hx : b.1 = x
        · simpa [hx] using (consistent_cons.mp consistent).1 b.2 (hx ▸ hb)
        · simp [hx]

/-- Solving equations with ground right sides is matching. -/
theorem solve_answers (pending : List Equation) (found : Substitution) (next : Ident)
    (ground : ∀ e ∈ pending, e.2.Ground)
    (groundFound : ∀ y v, found.get? y = some v → v.Ground) :
    Answers found (gather pending) (solve pending found next).result := by
  induction pending, found, next using solve.induct with
  | case1 found next =>
    rw [solve_nil]
    refine .matched (fun x u v hu => ?_) ⟨fun x u hu => ?_, fun _ _ => rfl⟩
    · cases hu
    · cases hu
  | case2 found next l r rest e step =>
    rw [solve_error step, gather, captures_of_error (ground _ (.head _)) step]
    exact .mismatch e
  | case3 found next l r rest eqs step ih =>
    have parts : gather ((l, r) :: rest) = gather (eqs ++ rest) := by
      rw [gather_append, gather, captures_of_split (ground _ (.head _)) step]
    rw [solve_split step, parts]
    exact (ih (ground_split ground step) groundFound).perm
      ((List.reverse_perm eqs).append_right rest)
  | case4 found next l r rest x t step pending bound ih =>
    rw [List.forall_mem_cons] at ground
    obtain ⟨rfl, rfl⟩ := eq_of_bind ground.1 step
    have parts : gather ((.pattern (.var x), t) :: rest) = (gather rest).map ((x, t) :: ·) := by
      cases rest' : gather rest <;> simp [gather, captures, rest']
    rw [parts, (solve_bind step rest found next).1]
    refine Answers.bind (m := pending.2) ground.1 groundFound ?_
    rw [← gather_restAfter rest ground.2 next]
    refine ih (ground_restAfter rest ground.2 next) fun y v hy => ?_
    rw [Substitution.get?_bind_of_ground groundFound] at hy
    split at hy
    · cases hy
      exact ground.1
    · exact groundFound y v hy

/-! ## Sides -/

def Step.swap : Step → Step
  | .split eqs => .split (eqs.map Prod.swap)
  | .bind x t => .bind x t

theorem matchStep_swap {p t : Value} (ground : t.Ground) :
    (matchStep t p).toOption = (matchStep p t).toOption.map Step.swap := by
  have zip (vs ws : List Value) : (vs.zip ws).map Prod.swap = ws.zip vs := List.zip_swap vs ws
  cases p with
  | node id s ps => cases t with
    | node id' s' ts =>
      simp only [matchStep, eq_comm (a := s'), eq_comm (a := ts.length)]
      split <;> simp [Except.toOption, Step.swap, zip]
    | pattern q => exact ground.elim
    | _ => rfl
  | seq id ps => cases t with
    | seq id' ts =>
      simp only [matchStep, eq_comm (a := ts.length)]
      split <;> simp [Except.toOption, Step.swap, zip]
    | pattern q => exact ground.elim
    | _ => rfl
  | prim q => cases t with
    | prim r =>
      simp only [matchStep_prim, eq_comm (a := r)]
      split <;> rfl
    | pattern q => exact ground.elim
    | _ => rfl
  | absent => cases t with
    | pattern q => exact ground.elim
    | _ => rfl
  | pattern q => cases q with
    | wildcard => cases t with
      | pattern q => exact ground.elim
      | _ => rfl
    | var x =>
      rw [(matchStep_var_of_ground ground x).1, (matchStep_var_of_ground ground x).2]
      rfl

theorem matchStep_swap_ok {p t : Value} (ground : t.Ground) {step : Step}
    (h : matchStep p t = .ok step) : matchStep t p = .ok step.swap := by
  have swap := matchStep_swap ground (p := p)
  rw [h] at swap
  cases h' : matchStep t p with
  | error e =>
    rw [h'] at swap
    cases swap
  | ok step' =>
    rw [h'] at swap
    exact congrArg _ (Option.some.inj swap)

theorem matchStep_swap_error {p t : Value} (ground : t.Ground) {e : MatchFailure}
    (h : matchStep p t = .error e) : ∃ e', matchStep t p = .error e' := by
  have swap := matchStep_swap ground (p := p)
  rw [h] at swap
  cases h' : matchStep t p with
  | error e' => exact ⟨e', rfl⟩
  | ok step' =>
    rw [h'] at swap
    cases swap

theorem restAfter_swap {x : String} {t : Value} (rest : List Equation)
    (ground : ∀ e ∈ rest, e.2.Ground) (next : Ident) :
    restAfter x t (rest.map Prod.swap) next =
      ((restAfter x t rest next).1.map Prod.swap, (restAfter x t rest next).2) := by
  induction rest generalizing next with
  | nil => rfl
  | cons e rest ih =>
    obtain ⟨p, u⟩ := e
    rw [List.forall_mem_cons] at ground
    have others (n : Ident) := ih ground.2 n
    simp only [restAfter] at others
    simp only [restAfter, List.map_cons, Prod.swap_prod_mk, expandEquations, ground.1.expand,
      others]

/-- It does not matter on which side the ground trees are. -/
theorem solve_swap (pending : List Equation) (found : Substitution) (next : Ident)
    (ground : ∀ e ∈ pending, e.2.Ground) :
    (solve (pending.map Prod.swap) found next).result.toOption =
      (solve pending found next).result.toOption := by
  induction pending, found, next using solve.induct with
  | case1 found next => rfl
  | case2 found next l r rest e step =>
    obtain ⟨e', step'⟩ := matchStep_swap_error (ground _ (.head _)) step
    rw [List.map_cons, Prod.swap_prod_mk, solve_error step, solve_error step']
    rfl
  | case3 found next l r rest eqs step ih =>
    have step' := matchStep_swap_ok (ground _ (.head _)) step
    rw [List.map_cons, Prod.swap_prod_mk, solve_split step, solve_split step',
      ← ih (ground_split ground step), List.map_append, List.map_reverse]
  | case4 found next l r rest x t step pending bound ih =>
    rw [List.forall_mem_cons] at ground
    rw [List.map_cons, Prod.swap_prod_mk, (solve_bind step rest found next).1,
      (solve_bind (matchStep_swap_ok ground.1 step) _ found next).1, restAfter_swap rest ground.2]
    exact ih (ground_restAfter rest ground.2 next)

/-! ## Two trees -/

theorem solve_pair_answers {p t : Value} (ground : t.Ground) (next : Ident) :
    Answers {} (captures p t) (solve [(p, t)] {} next).result := by
  have single : gather [(p, t)] = captures p t := by simp [gather]
  rw [← single]
  exact solve_answers [(p, t)] {} next (by simpa using ground) nofun

theorem solve_pair_isSome {p t : Value} (ground : t.Ground) (next : Ident) :
    (solve [(p, t)] {} next).result.toOption.isSome = true ↔ t.IsInstance p := by
  have answers := solve_pair_answers ground (p := p) next
  generalize (solve [(p, t)] {} next).result = result at answers
  generalize captured : captures p t = parts at answers
  cases answers with
  | matched consistent => simpa [IsInstance, captured, Except.toOption] using consistent
  | clash e inconsistent => simpa [IsInstance, captured, Except.toOption] using inconsistent
  | mismatch e => simp [IsInstance, captured, Except.toOption]

theorem Extends.mem {parts : List (String × Value)} {s : Substitution} (h : Extends {} parts s)
    {x : String} {v : Value} (bound : s.get? x = some v) : (x, v) ∈ parts := by
  by_cases captured : ∃ u, (x, u) ∈ parts
  · obtain ⟨u, hu⟩ := captured
    obtain ⟨v', bound', mem⟩ := h.captured x u hu
    rw [bound] at bound'
    cases bound'
    exact mem
  · rw [h.kept x fun u hu => captured ⟨u, hu⟩] at bound
    cases bound

/-- The variables of the pattern are bound, each to a part of the tree at one of its places, which
is equal to those at its other places. -/
def BindsParts (p t : Value) (s : Substitution) : Prop :=
  ∃ parts, captures p t = some parts ∧ (∀ x, s.contains x = true ↔ x ∈ p.vars) ∧
    ∀ x v, s.get? x = some v → (x, v) ∈ parts ∧ ∀ u, (x, u) ∈ parts → u.same v = true

theorem solve_pair_binds {p t : Value} (ground : t.Ground) {next : Ident} {s : Substitution}
    (h : (solve [(p, t)] {} next).result.toOption = some s) : BindsParts p t s := by
  have answers := solve_pair_answers ground (p := p) next
  generalize (solve [(p, t)] {} next).result = result at answers h
  generalize captured : captures p t = parts at answers
  cases answers with
  | clash => cases h
  | mismatch => cases h
  | matched consistent ext =>
    cases h
    refine ⟨_, captured, fun x => ?_, fun x v hx => ⟨ext.mem hx, fun u hu => ?_⟩⟩
    · rw [Substitution.contains, Option.isSome_iff_exists, ← names_of_captures p t captured,
        List.mem_map]
      constructor
      · rintro ⟨v, hv⟩
        exact ⟨(x, v), ext.mem hv, rfl⟩
      · rintro ⟨⟨x, u⟩, hu, rfl⟩
        obtain ⟨v, hv, -⟩ := ext.captured x u hu
        exact ⟨v, hv⟩
    · exact consistent x u v hu (ext.mem hx)

/-- Against a ground tree, unification is matching, with the tree on either side: it succeeds if and
only if the tree is an instance of the pattern, and then it binds the variables of the pattern to
the parts of the tree at their places. -/
theorem unification_matching {σ : Type} (w : World σ) (p t : Value) (ground : t.Ground) :
    ∀ attempt ∈ [Effect.unify? p t, Effect.unify? t p], ∃ found w',
      attempt.run w = (.ok found, w') ∧ (found.isSome = true ↔ t.IsInstance p) ∧
        ∀ s, found = some s → BindsParts p t s := by
  have direct : ((solveAll [(p, t)] w.next).result.toOption.isSome = true ↔ t.IsInstance p) ∧
      ∀ s, (solveAll [(p, t)] w.next).result.toOption = some s → BindsParts p t s :=
    ⟨solve_pair_isSome ground w.next, fun s => solve_pair_binds ground⟩
  have swap : (solveAll [(t, p)] w.next).result.toOption =
      (solveAll [(p, t)] w.next).result.toOption :=
    solve_swap [(p, t)] {} w.next (by simpa using ground)
  intro attempt mem
  simp only [List.mem_cons, List.not_mem_nil, or_false] at mem
  rcases mem with rfl | rfl
  · exact ⟨_, _, rfl, direct⟩
  · exact ⟨_, _, rfl, swap ▸ direct⟩

/-- A variable at two places, with equal parts that are not one object. -/
theorem unification_matching_repeated :
    let p : Value := .seq 0 [.pattern (.var "X"), .pattern .wildcard, .pattern (.var "X")]
    let t : Value := .seq 1 [.seq 2 [.absent], .prim (.int 5), .seq 3 [.absent]]
    let w : World Unit := { next := 4, user := () }
    t.Ground ∧ t.IsInstance p ∧ ∃ s w', (Effect.unify? t p).run w = (.ok (some s), w') ∧
      ∀ x, s.contains x = true ↔ x = "X" := by
  intro p t w
  have ground : t.Ground := by simp [t, Ground, Every]
  have isInstance : t.IsInstance p := by
    refine ⟨_, rfl, fun x u v hu hv => ?_⟩
    simp only [List.nil_append, List.append_nil, List.cons_append, List.mem_cons, Prod.mk.injEq,
      List.not_mem_nil, or_false] at hu hv
    rcases hu with ⟨-, rfl⟩ | ⟨-, rfl⟩ <;> rcases hv with ⟨-, rfl⟩ | ⟨-, rfl⟩ <;> rfl
  obtain ⟨found, w', run, succeeds, binds⟩ :=
    unification_matching w p t ground (Effect.unify? t p) (.tail _ (.head _))
  obtain ⟨s, rfl⟩ := Option.isSome_iff_exists.mp (succeeds.mpr isInstance)
  obtain ⟨-, -, names, -⟩ := binds s rfl
  exact ⟨ground, isInstance, s, w', run, fun x => by simp [names, p, vars]⟩

end Unify

end Arbor
