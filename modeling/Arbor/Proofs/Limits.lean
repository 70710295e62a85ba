import Arbor.Proofs.Runs

/-!
# Runs under a limit

An operation that counts what it does may be cut off where the count passes a limit. It is set
beside one that counts alike and is not cut off there (`Cap.Limits`): up to the limit the two have
one outcome, and a run that is cut off stops with the first count beyond the limit, which the other
run then passes too. Sequences keep this, and so do loops with a bound on their turns, if every turn
but the last counts something and the bound is not below the limit. Such a loop is also one without
a bound that ends by itself (`Ends`).
-/

namespace Arbor

variable {ε τ τ' α β : Type}

/-- A limit on a count, how a run fails that passes it, and how one may fail within it. -/
structure Cap (ε : Type) where
  limit : Nat
  exceeded : ε
  Raised : ε → Prop

def Grows (count : τ → Nat) (w w' : τ) : Prop :=
  count w ≤ count w'

instance (count : τ → Nat) : Std.Refl (Grows count) where
  refl w := Nat.le_refl (count w)

instance (count : τ → Nat) : Trans (Grows count) (Grows count) (Grows count) where
  trans := Nat.le_trans

/-- Runs an operation on another state, and puts the state that it leaves into the own one. -/
def around (before : τ → τ') (after : τ → τ' → τ) (a : ExceptT ε (StateM τ') α) :
    ExceptT ε (StateM τ) α := fun w =>
  let (result, w') := a.run (before w)
  (result, after w w')

namespace Cap

/-- The outcomes of a run with the limit and of one that goes on beyond it. -/
inductive Cut (c : Cap ε) (count : τ → Nat) : Except ε α × τ → Except ε α × τ → Prop
  | same {x : Except ε α} {w : τ} (within : count w ≤ c.limit)
      (raised : ∀ e, x = .error e → c.Raised e) : Cut c count (x, w) (x, w)
  | off {w : τ} {long : Except ε α × τ} (first : count w = c.limit + 1)
      (beyond : c.limit < count long.2) : Cut c count (.error c.exceeded, w) long

/-- From every state within the limit, the first operation is the second one cut off. -/
structure Limits (c : Cap ε) (count : τ → Nat) (short long : ExceptT ε (StateM τ) α) : Prop where
  grows : Leads (Grows count) long
  runs : ∀ w, count w ≤ c.limit → c.Cut count (short.run w) (long.run w)

variable {c : Cap ε} {count : τ → Nat}

theorem limits_self {a : ExceptT ε (StateM τ) α} (keeps : ∀ w, count (a.run w).2 = count w)
    (raises : Raises c.Raised a) : c.Limits count a a where
  grows w := Nat.le_of_eq (keeps w).symm
  runs w within := .same ((keeps w).symm ▸ within) (raises w)

theorem limits_pure (x : α) : c.Limits count (pure x) (pure x) :=
  limits_self (fun _ => rfl) (raises_pure x)

theorem limits_get : c.Limits count (get : ExceptT ε (StateM τ) τ) get :=
  limits_self (fun _ => rfl) (raises_of_ok fun _ => ⟨_, _, rfl⟩)

theorem Limits.bind {a b : ExceptT ε (StateM τ) α} {f g : α → ExceptT ε (StateM τ) β}
    (first : c.Limits count a b) (second : ∀ x, c.Limits count (f x) (g x)) :
    c.Limits count (a >>= f) (b >>= g) where
  grows := first.grows.bind fun x => (second x).grows
  runs w within := by
    have cut := first.runs w within
    rw [run_bind, run_bind]
    generalize a.run w = short at cut
    generalize b.run w = long at cut
    cases cut with
    | @same x w' within' raised =>
      cases x with
      | error e => exact .same within' fun e' failed => raised e' (by cases failed; rfl)
      | ok x => exact (second x).runs w' within'
    | off first beyond =>
      apply Cut.off first
      rcases long with ⟨_ | x, w'⟩
      · exact beyond
      · exact Nat.lt_of_lt_of_le beyond ((second x).grows w')

theorem Limits.around {count' : τ' → Nat} {a b : ExceptT ε (StateM τ') α}
    (h : c.Limits count' a b) (before : τ → τ') (after : τ → τ' → τ)
    (enters : ∀ w, count' (before w) = count w) (leaves : ∀ w w', count (after w w') = count' w') :
    c.Limits count (around before after a) (Arbor.around before after b) where
  grows w := by
    have grown := h.grows (before w)
    rw [Grows, enters, ← leaves w] at grown
    exact grown
  runs w within := by
    have cut := h.runs (before w) ((enters w).symm ▸ within)
    change c.Cut count ((a.run (before w)).1, after w (a.run (before w)).2)
      ((b.run (before w)).1, after w (b.run (before w)).2)
    generalize a.run (before w) = short at cut
    generalize b.run (before w) = long at cut
    cases cut with
    | same within' raised => exact .same ((leaves w _).symm ▸ within') raised
    | off first beyond =>
      exact .off ((leaves w _).trans first) (Nat.lt_of_lt_of_eq beyond (leaves w _).symm)

end Cap

/-! ## Loops -/

/-- The loop repeats the body, which tells where to go on or what to answer, at most as often as its
bound says. -/
structure Repeats (loop : Nat → α → ExceptT ε (StateM τ) β)
    (body : α → ExceptT ε (StateM τ) (α ⊕ β)) : Prop where
  zero : ∀ x, ∃ y, loop 0 x = pure y
  succ : ∀ bound x, loop (bound + 1) x = body x >>= Sum.elim (loop bound) pure

/-- A loop without a bound, from a place and a state on, has ended with an outcome after a number of
turns. -/
inductive Ends (body : α → ExceptT ε (StateM τ) (α ⊕ β)) :
    Nat → α → τ → Except ε β × τ → Prop
  | fails {x : α} {e : ε} {w w' : τ} :
      (body x).run w = (.error e, w') → Ends body 1 x w (.error e, w')
  | answers {x : α} {y : β} {w w' : τ} :
      (body x).run w = (.ok (.inr y), w') → Ends body 1 x w (.ok y, w')
  | again {turns : Nat} {x x' : α} {w w' : τ} {outcome : Except ε β × τ} :
      (body x).run w = (.ok (.inl x'), w') → Ends body turns x' w' outcome →
        Ends body (turns + 1) x w outcome

/-- A turn that is not the last one has counted something. -/
def Advances (count : τ → Nat) (body : α → ExceptT ε (StateM τ) (α ⊕ β)) : Prop :=
  ∀ x w x' w', (body x).run w = (.ok (.inl x'), w') → count w < count w'

variable {loop loop' : Nat → α → ExceptT ε (StateM τ) β}
  {body body' : α → ExceptT ε (StateM τ) (α ⊕ β)} {count : τ → Nat}

theorem Repeats.grows (h : Repeats loop body) (each : ∀ x, Leads (Grows count) (body x))
    (bound : Nat) (x : α) : Leads (Grows count) (loop bound x) := by
  induction bound generalizing x with
  | zero =>
    obtain ⟨y, stopped⟩ := h.zero x
    rw [stopped]
    exact leads_pure y
  | succ bound ih =>
    rw [h.succ]
    apply (each x).bind
    intro next
    cases next with
    | inl x' => exact ih x'
    | inr y => exact leads_pure y

namespace Cap

variable {c : Cap ε} (each : ∀ x, c.Limits count (body x) (body' x))
  (advances : Advances count body)

include each advances

/-- The shorter loop is the longer one cut off, whatever their bounds above the limit are. -/
theorem Limits.repeats (short : Repeats loop body) (long : Repeats loop' body') (bound bound' : Nat)
    (x : α) {w : τ} (within : count w ≤ c.limit) (enough : c.limit < count w + bound)
    (enough' : c.limit < count w + bound') :
    c.Cut count ((loop bound x).run w) ((loop' bound' x).run w) := by
  -- On the turns that are left to the shorter loop: one that goes on has counted something, so both
  -- bounds are still enough.
  induction bound generalizing bound' x w with
  | zero => omega
  | succ bound ih =>
    obtain ⟨bound', rfl⟩ : ∃ n, bound' = n + 1 := ⟨bound' - 1, by omega⟩
    have cut := (each x).runs w within
    have advance := advances x w
    have grown := long.grows (fun x => (each x).grows) bound'
    rw [short.succ, long.succ, run_bind, run_bind]
    generalize (body x).run w = first at cut advance
    generalize (body' x).run w = first' at cut
    cases cut with
    | @same result w' within' raised =>
      match result with
      | .error e => exact .same within' fun e' failed => raised e' (by cases failed; rfl)
      | .ok (.inl x') =>
        have := advance x' w' rfl
        exact ih bound' x' within' (by omega) (by omega)
      | .ok (.inr y) => exact .same within' fun e failed => by cases failed
    | off passed beyond =>
      apply Cut.off passed
      match first' with
      | (.error e, w') => exact beyond
      | (.ok (.inl x'), w') => exact Nat.lt_of_lt_of_le beyond (grown x' w')
      | (.ok (.inr y), w') => exact beyond

/-- A loop whose bound is above the limit ends as it would without a bound, and before the turns
and what was counted earlier have passed the limit by more than one. -/
theorem Limits.ends (h : Repeats loop body) (bound : Nat) (x : α) {w : τ}
    (within : count w ≤ c.limit) (enough : c.limit < count w + bound) :
    ∃ turns, count w + turns ≤ c.limit + 1 ∧ Ends body turns x w ((loop bound x).run w) := by
  induction bound generalizing x w with
  | zero => omega
  | succ bound ih =>
    have cut := (each x).runs w within
    rw [h.succ, run_bind]
    match ran : (body x).run w with
    | (.error e, w') => exact ⟨1, by omega, .fails ran⟩
    | (.ok (.inr y), w') => exact ⟨1, by omega, .answers ran⟩
    | (.ok (.inl x'), w') =>
      have counted := advances x w x' w' ran
      have within' : count w' ≤ c.limit := by
        rw [ran] at cut
        generalize (body' x).run w = long at cut
        cases cut
        assumption
      obtain ⟨turns, few, ends⟩ := ih x' within' (by omega)
      exact ⟨turns + 1, by omega, .again ran ends⟩

end Cap

end Arbor
