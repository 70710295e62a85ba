import Arbor.Proofs.Tree.Nodes

/-!
# Matching a tree against a pattern

`captures` compares a tree with a pattern part by part and collects what stands at the places of the
variables. A tree is an instance of a pattern if it has the form of the pattern and what stands at
the places of one variable is equal.

Matching against an instance of a pattern is matching against the pattern and then what was captured
against the values of its variables (`captures_subst`).
-/

namespace Arbor.Tree

variable {ι κ : Type}

mutual

/-- The parts of a tree at the places of the variables of a pattern, from left to right, if the tree
has the form of the pattern. -/
def captures : Tree ι → Tree κ → Option (List (String × Tree κ))
  | .pattern .wildcard, _ => some []
  | .pattern (.var x), t => some [(x, t)]
  | .node _ s ps, .node _ t ts => if s = t then capturesAll ps ts else none
  | .seq _ ps, .seq _ ts => capturesAll ps ts
  | .prim p, .prim q => if p = q then some [] else none
  | .absent, .absent => some []
  | _, _ => none

def capturesAll : List (Tree ι) → List (Tree κ) → Option (List (String × Tree κ))
  | [], [] => some []
  | p :: ps, t :: ts => do return (← captures p t) ++ (← capturesAll ps ts)
  | _, _ => none

end

/-- What stands at the places of one variable is equal. -/
def Consistent (parts : List (String × Tree κ)) : Prop :=
  ∀ x u v, (x, u) ∈ parts → (x, v) ∈ parts → u.same v = true

def IsInstance (t : Tree κ) (p : Tree ι) : Prop :=
  ∃ parts, captures p t = some parts ∧ Consistent parts

/-- A tree without variables and wildcards. -/
def Ground (t : Tree ι) : Prop :=
  t.Every (fun _ _ => True) fun _ => False

/-! ## Ground trees -/

theorem Ground.notMem_vars {t : Tree ι} (h : t.Ground) (x : String) : x ∉ t.vars :=
  Every.var h

theorem Ground.of_node {id : ι} {type : NodeType} {values : List (Tree ι)}
    (h : (Tree.node id type values).Ground) : ∀ v ∈ values, v.Ground :=
  everyAll_iff.mp h.2

theorem Ground.of_seq {id : ι} {items : List (Tree ι)} (h : (Tree.seq id items).Ground) :
    ∀ v ∈ items, v.Ground :=
  everyAll_iff.mp h

/-! ## Several patterns -/

/-- What is captured by patterns, each in a tree of its own. -/
def gather : List (Tree ι × Tree κ) → Option (List (String × Tree κ))
  | [] => some []
  | (p, t) :: goals => do return (← captures p t) ++ (← gather goals)

theorem gather_cons_eq_some {p : Tree ι} {t : Tree κ} {goals : List (Tree ι × Tree κ)}
    {parts : List (String × Tree κ)} :
    gather ((p, t) :: goals) = some parts ↔
      ∃ first others, captures p t = some first ∧ gather goals = some others ∧
        first ++ others = parts := by
  simp [gather, Option.bind_eq_some_iff]

theorem gather_append (goals more : List (Tree ι × Tree κ)) :
    gather (goals ++ more) = do return (← gather goals) ++ (← gather more) := by
  induction goals with
  | nil => simp [gather]
  | cons g goals ih =>
    obtain ⟨p, t⟩ := g
    rw [List.cons_append, gather, gather, ih]
    cases captures p t <;> cases gather goals <;> cases gather more <;> simp

theorem capturesAll_cons_eq_some {p : Tree ι} {ps : List (Tree ι)} {t : Tree κ}
    {ts : List (Tree κ)} {parts : List (String × Tree κ)} :
    capturesAll (p :: ps) (t :: ts) = some parts ↔
      ∃ first others, captures p t = some first ∧ capturesAll ps ts = some others ∧
        first ++ others = parts := by
  simp [capturesAll, Option.bind_eq_some_iff]

theorem capturesAll_eq_gather {ps : List (Tree ι)} {ts : List (Tree κ)}
    (h : ps.length = ts.length) : capturesAll ps ts = gather (ps.zip ts) := by
  induction ps generalizing ts with
  | nil => cases ts with
    | nil => rfl
    | cons t ts => cases h
  | cons p ps ih => cases ts with
    | nil => cases h
    | cons t ts => rw [capturesAll, List.zip_cons_cons, gather, ih (Nat.succ.inj h)]

theorem length_of_capturesAll {ps : List (Tree ι)} {ts : List (Tree κ)}
    {parts : List (String × Tree κ)} (h : capturesAll ps ts = some parts) :
    ps.length = ts.length := by
  induction ps generalizing ts parts with
  | nil => cases ts with
    | nil => rfl
    | cons t ts => cases h
  | cons p ps ih => cases ts with
    | nil => cases h
    | cons t ts =>
      obtain ⟨-, others, -, hothers, -⟩ := capturesAll_cons_eq_some.mp h
      rw [List.length_cons, List.length_cons, ih hothers]

theorem gather_perm {goals goals' : List (Tree ι × Tree κ)} (h : goals.Perm goals')
    {parts : List (String × Tree κ)} (gathered : gather goals = some parts) :
    ∃ parts', gather goals' = some parts' ∧ parts.Perm parts' := by
  induction h generalizing parts with
  | nil => exact ⟨parts, gathered, .refl _⟩
  | cons g _ ih =>
    obtain ⟨first, others, hfirst, hothers, rfl⟩ := gather_cons_eq_some.mp gathered
    obtain ⟨others', hothers', perm⟩ := ih hothers
    exact ⟨_, gather_cons_eq_some.mpr ⟨first, others', hfirst, hothers', rfl⟩,
      perm.append_left first⟩
  | swap g g' goals =>
    obtain ⟨first, _, hfirst, hrest, rfl⟩ := gather_cons_eq_some.mp gathered
    obtain ⟨second, others, hsecond, hothers, rfl⟩ := gather_cons_eq_some.mp hrest
    refine ⟨_, gather_cons_eq_some.mpr ⟨second, _, hsecond,
      gather_cons_eq_some.mpr ⟨first, others, hfirst, hothers, rfl⟩, rfl⟩, ?_⟩
    simpa only [List.append_assoc] using
      (@List.perm_append_comm _ first second).append_right others
  | trans _ _ ih ih' =>
    obtain ⟨middle, hmiddle, perm⟩ := ih gathered
    obtain ⟨parts', hparts', perm'⟩ := ih' hmiddle
    exact ⟨parts', hparts', perm.trans perm'⟩

/-! ## Variables -/

mutual

theorem names_of_captures (p : Tree ι) (t : Tree κ) {parts : List (String × Tree κ)}
    (h : captures p t = some parts) : parts.map Prod.fst = p.vars := by
  match p with
  | .node _ _ ps => cases t with
    | node id type ts =>
      rw [captures] at h
      split at h
      · exact names_of_capturesAll ps ts h
      · cases h
    | _ => cases h
  | .seq _ ps => cases t with
    | seq id ts => exact names_of_capturesAll ps ts h
    | _ => cases h
  | .prim q => cases t with
    | prim r =>
      rw [captures] at h
      split at h
      · cases h
        rfl
      · cases h
    | _ => cases h
  | .absent => cases t with
    | absent =>
      cases h
      rfl
    | _ => cases h
  | .pattern (.var x) | .pattern .wildcard =>
    cases h
    rfl

theorem names_of_capturesAll (ps : List (Tree ι)) (ts : List (Tree κ))
    {parts : List (String × Tree κ)} (h : capturesAll ps ts = some parts) :
    parts.map Prod.fst = varsAll ps := by
  match ps, ts with
  | [], [] =>
    cases h
    rfl
  | [], _ :: _ | _ :: _, [] => cases h
  | p :: ps, t :: ts =>
    obtain ⟨first, others, hfirst, hothers, rfl⟩ := capturesAll_cons_eq_some.mp h
    rw [List.map_append, varsAll, names_of_captures p t hfirst, names_of_capturesAll ps ts hothers]

end

/-! ## Instances of patterns -/

mutual

theorem captures_of_ground (p : Tree ι) (ground : p.Ground) (u : Tree κ) :
    captures p u = if p.same u then some [] else none := by
  match p with
  | .node _ s ps => cases u with
    | node id t us =>
      rw [captures, same, capturesAll_of_ground ps ground.of_node us]
      by_cases h : s = t <;> simp [h]
    | _ => rfl
  | .seq _ ps => cases u with
    | seq id us => exact capturesAll_of_ground ps ground.of_seq us
    | _ => rfl
  | .prim q => cases u with
    | prim r => simp [captures, same]
    | _ => rfl
  | .absent => cases u <;> rfl
  | .pattern q => exact ground.elim

theorem capturesAll_of_ground (ps : List (Tree ι)) (ground : ∀ p ∈ ps, p.Ground)
    (us : List (Tree κ)) : capturesAll ps us = if sameAll ps us then some [] else none := by
  match ps, us with
  | [], [] => rfl
  | [], _ :: _ | _ :: _, [] => rfl
  | p :: ps, u :: us =>
    rw [List.forall_mem_cons] at ground
    rw [capturesAll, sameAll, captures_of_ground p ground.1 u, capturesAll_of_ground ps ground.2 us]
    by_cases h : p.same u <;> by_cases h' : sameAll ps us <;> simp [h, h']

end

mutual

/-- To match an instance of a pattern is to match the pattern, and then the values of its variables
against what was captured. -/
theorem captures_subst (σ : Valuation) (p : Tree ι) (u : Tree κ) :
    captures (p.subst σ) u =
      (captures p u).bind fun parts => gather (parts.map fun b => (σ b.1, b.2)) := by
  match p with
  | .node _ s ps => cases u with
    | node id t us =>
      rw [subst, captures, captures, capturesAll_subst σ ps us]
      split <;> rfl
    | _ => rfl
  | .seq _ ps => cases u with
    | seq id us => exact capturesAll_subst σ ps us
    | _ => rfl
  | .prim q => cases u with
    | prim r =>
      rw [subst, captures, captures]
      split <;> rfl
    | _ => rfl
  | .absent => cases u <;> rfl
  | .pattern (.var x) => simp [subst, captures, gather]
  | .pattern .wildcard => rfl

theorem capturesAll_subst (σ : Valuation) (ps : List (Tree ι)) (us : List (Tree κ)) :
    capturesAll (substAll σ ps) us =
      (capturesAll ps us).bind fun parts => gather (parts.map fun b => (σ b.1, b.2)) := by
  match ps, us with
  | [], [] => rfl
  | [], _ :: _ | _ :: _, [] => rfl
  | p :: ps, u :: us =>
    rw [substAll, capturesAll, capturesAll, captures_subst σ p u, capturesAll_subst σ ps us]
    cases captures p u with
    | none => rfl
    | some first => cases capturesAll ps us with
      | none => simp
      | some others => simp [gather_append]

end

theorem gather_unbound (parts : List (String × Tree κ)) :
    gather (parts.map fun b => (unbound b.1, b.2)) = some parts := by
  induction parts with
  | nil => rfl
  | cons b parts ih =>
    rw [List.map_cons, gather, ih]
    rfl

theorem captures_shape (p : Tree ι) (u : Tree κ) : captures p.shape u = captures p u := by
  rw [← subst_unbound, captures_subst]
  simp only [gather_unbound, Option.bind_fun_some]

/-- A binding of a variable to a ground tree leaves the captures of the other variables, if the tree
is equal to what the variable has captured. -/
theorem gather_binding {x : String} {t : Tree ι} (ground : t.Ground)
    (parts : List (String × Tree κ)) :
    gather (parts.map fun b => (binding x t b.1, b.2)) =
      if parts.all fun b => b.1 != x || t.same b.2 then some (parts.filter (·.1 != x))
      else none := by
  induction parts with
  | nil => rfl
  | cons b parts ih =>
    obtain ⟨y, u⟩ := b
    rw [List.map_cons, gather, ih, List.all_cons]
    by_cases hy : y = x
    · subst hy
      rw [binding_self, captures_shape, captures_of_ground t ground, bne_self_eq_false,
        Bool.false_or]
      cases t.same u with
      | true =>
        rw [Bool.true_and]
        simp
      | false => rfl
    · rw [binding_of_ne t hy, unbound, captures]
      by_cases all : (parts.all fun b => b.1 != x || t.same b.2) = true <;> simp [hy, all]

/-! ## Parts of a tree -/

mutual

/-- What patterns capture in trees with the property has it. -/
theorem Hereditary.captures {P : Tree κ → Prop} (hereditary : Hereditary P)
    (p : Tree ι) (t : Tree κ) (own : P t) {parts : List (String × Tree κ)}
    (h : captures p t = some parts) : ∀ q ∈ parts, P q.2 := by
  match p with
  | .node _ _ ps => cases t with
    | node id type ts =>
      rw [Tree.captures] at h
      split at h
      · exact hereditary.capturesAll ps ts (hereditary.values own) h
      · cases h
    | _ => cases h
  | .seq _ ps => cases t with
    | seq id ts => exact hereditary.capturesAll ps ts (hereditary.seq.mp own) h
    | _ => cases h
  | .prim q => cases t with
    | prim r =>
      rw [Tree.captures] at h
      split at h
      · cases h
        exact List.forall_mem_nil _
      · cases h
    | _ => cases h
  | .absent => cases t with
    | absent =>
      cases h
      exact List.forall_mem_nil _
    | _ => cases h
  | .pattern (.var x) =>
    cases h
    exact List.forall_mem_singleton.mpr own
  | .pattern .wildcard =>
    cases h
    exact List.forall_mem_nil _

theorem Hereditary.capturesAll {P : Tree κ → Prop} (hereditary : Hereditary P)
    (ps : List (Tree ι)) (ts : List (Tree κ)) (own : ∀ t ∈ ts, P t)
    {parts : List (String × Tree κ)} (h : capturesAll ps ts = some parts) :
    ∀ q ∈ parts, P q.2 := by
  match ps, ts with
  | [], [] =>
    cases h
    exact List.forall_mem_nil _
  | [], _ :: _ | _ :: _, [] => cases h
  | p :: ps, t :: ts =>
    rw [List.forall_mem_cons] at own
    obtain ⟨first, others, hfirst, hothers, rfl⟩ := capturesAll_cons_eq_some.mp h
    exact List.forall_mem_append.mpr
      ⟨hereditary.captures p t own.1 hfirst, hereditary.capturesAll ps ts own.2 hothers⟩

end

end Arbor.Tree
