/-!
# Runs of effects

Effects and walks are both failures over a state. A run of two of them in sequence is a run of the
first and, if it gives a result, a run of the second from where the first left off. So what is said
of runs is said of the parts of a sequence: which result they give (`Gives`), what every result is
like (`Yields`), how they fail (`Raises`), where they lead even if they fail (`Leads`), and that two
of them go side by side (`Tracks`).
-/

namespace Arbor

variable {ε τ α β : Type}

theorem run_bind (a : ExceptT ε (StateM τ) α) (f : α → ExceptT ε (StateM τ) β) (w : τ) :
    (a >>= f).run w =
      match a.run w with
      | (.ok x, w') => (f x).run w'
      | (.error e, w') => (.error e, w') := by
  change (match a.run w with | (r, w') => ExceptT.bindCont f r w') = _
  rcases a.run w with ⟨_ | _, w'⟩ <;> rfl

theorem run_bind_of_ok {a : ExceptT ε (StateM τ) α} {x : α} {w w' : τ}
    (h : a.run w = (.ok x, w')) (f : α → ExceptT ε (StateM τ) β) :
    (a >>= f).run w = (f x).run w' := by
  rw [run_bind, h]

theorem run_bind_eq_ok {a : ExceptT ε (StateM τ) α} {f : α → ExceptT ε (StateM τ) β} {y : β}
    {w w'' : τ} (h : (a >>= f).run w = (.ok y, w'')) :
    ∃ x w', a.run w = (.ok x, w') ∧ (f x).run w' = (.ok y, w'') := by
  rw [run_bind] at h
  rcases ha : a.run w with ⟨_ | x, w'⟩
  · rw [ha] at h
    cases h
  · rw [ha] at h
    exact ⟨x, w', rfl, h⟩

/-- The operation gives the result from every state, and keeps what `keep` tells of it. -/
def Gives {κ : Type} (keep : τ → κ) (a : ExceptT ε (StateM τ) α) (x : α) : Prop :=
  ∀ w, ∃ w', a.run w = (.ok x, w') ∧ keep w' = keep w

theorem gives_pure {κ : Type} {keep : τ → κ} (x : α) :
    Gives keep (pure x : ExceptT ε (StateM τ) α) x :=
  fun w => ⟨w, rfl, rfl⟩

theorem Gives.bind {κ : Type} {keep : τ → κ} {a : ExceptT ε (StateM τ) α} {x : α}
    {f : α → ExceptT ε (StateM τ) β} {y : β} (first : Gives keep a x)
    (second : Gives keep (f x) y) : Gives keep (a >>= f) y := by
  intro w
  obtain ⟨w₁, run, kept⟩ := first w
  obtain ⟨w₂, run', kept'⟩ := second w₁
  exact ⟨w₂, (run_bind_of_ok run f).trans run', kept'.trans kept⟩

/-- Every result that the operation gives has the property. -/
def Yields (P : α → Prop) (a : ExceptT ε (StateM τ) α) : Prop :=
  ∀ x w w', a.run w = (.ok x, w') → P x

theorem yields_pure {P : α → Prop} {x : α} (h : P x) :
    Yields P (pure x : ExceptT ε (StateM τ) α) := by
  intro _ w w' run
  cases run
  exact h

theorem yields_any (a : ExceptT ε (StateM τ) α) : Yields (fun _ => True) a :=
  fun _ _ _ _ => trivial

theorem Yields.bind {P : α → Prop} {Q : β → Prop} {a : ExceptT ε (StateM τ) α}
    {f : α → ExceptT ε (StateM τ) β} (first : Yields P a)
    (second : ∀ x, P x → Yields Q (f x)) : Yields Q (a >>= f) := by
  intro y w w'' run
  obtain ⟨x, w', run, run'⟩ := run_bind_eq_ok run
  exact second x (first x w w' run) y w' w'' run'

/-- Every failure of the operation has the property. -/
def Raises (P : ε → Prop) (a : ExceptT ε (StateM τ) α) : Prop :=
  ∀ w e, (a.run w).1 = .error e → P e

theorem raises_of_ok {P : ε → Prop} {a : ExceptT ε (StateM τ) α}
    (h : ∀ w, ∃ x w', a.run w = (.ok x, w')) : Raises P a := by
  intro w e failed
  obtain ⟨x, w', ran⟩ := h w
  rw [ran] at failed
  cases failed

theorem raises_pure {P : ε → Prop} (x : α) : Raises P (pure x : ExceptT ε (StateM τ) α) :=
  raises_of_ok fun _ => ⟨_, _, rfl⟩

theorem Raises.bind {P : ε → Prop} {a : ExceptT ε (StateM τ) α} {f : α → ExceptT ε (StateM τ) β}
    (first : Raises P a) (second : ∀ x, Raises P (f x)) : Raises P (a >>= f) := by
  intro w e failed
  have raised := first w e
  rw [run_bind] at failed
  revert raised failed
  rcases a.run w with ⟨_ | x, w'⟩
  · exact fun failed raised => raised (by cases failed; rfl)
  · exact fun failed _ => second x w' e failed

/-- Every run of the operation, also one that fails, leads to a related state. -/
def Leads (R : τ → τ → Prop) (a : ExceptT ε (StateM τ) α) : Prop :=
  ∀ w, R w (a.run w).2

theorem leads_pure {R : τ → τ → Prop} [Std.Refl R] (x : α) :
    Leads R (pure x : ExceptT ε (StateM τ) α) :=
  fun w => Std.Refl.refl w

theorem Leads.bind {R : τ → τ → Prop} [Trans R R R] {a : ExceptT ε (StateM τ) α}
    {f : α → ExceptT ε (StateM τ) β} (first : Leads R a) (second : ∀ x, Leads R (f x)) :
    Leads R (a >>= f) := by
  intro w
  have led := first w
  rw [run_bind]
  revert led
  rcases a.run w with ⟨_ | x, w'⟩
  · exact id
  · exact fun led => Trans.trans led (second x w')

/-- Two results that agree under a map are one failure or two results with one image. -/
theorem cases_of_map_eq {γ : Type} {x y : Except ε α} {f : α → γ} (h : x.map f = y.map f) :
    (∃ e, x = .error e ∧ y = .error e) ∨ ∃ a b, x = .ok a ∧ y = .ok b ∧ f a = f b := by
  cases x with
  | error e =>
    cases y with
    | error e' =>
      cases h
      exact .inl ⟨e, rfl, rfl⟩
    | ok b => cases h
  | ok a =>
    cases y with
    | error e => cases h
    | ok b => exact .inr ⟨a, b, rfl, rfl, Except.ok.inj h⟩

theorem option_cases_of_map_eq {γ : Type} {x y : Option α} {f : α → γ} (h : x.map f = y.map f) :
    x = none ∧ y = none ∨ ∃ a b, x = some a ∧ y = some b ∧ f a = f b := by
  cases x with
  | none =>
    cases y with
    | none => exact .inl ⟨rfl, rfl⟩
    | some b => cases h
  | some a =>
    cases y with
    | none => cases h
    | some b => exact .inr ⟨a, b, rfl, rfl, Option.some.inj h⟩

/-! ## Two runs side by side -/

/-- One failure twice, or two results that are related. -/
inductive Results (P : α → β → Prop) : Except ε α → Except ε β → Prop
  | ok {a : α} {b : β} : P a b → Results P (.ok a) (.ok b)
  | error (e : ε) : Results P (.error e) (.error e)

/-- From related states, the two operations give related results and end in related states. -/
def Tracks {τ' : Type} (S : τ → τ' → Prop) (P : α → β → Prop) (a : ExceptT ε (StateM τ) α)
    (b : ExceptT ε (StateM τ') β) : Prop :=
  ∀ w w', S w w' → Results P (a.run w).1 (b.run w').1 ∧ S (a.run w).2 (b.run w').2

section Tracks

variable {τ' α' β' : Type} {S : τ → τ' → Prop} {P : α → α' → Prop} {Q : β → β' → Prop}
  {a : ExceptT ε (StateM τ) α} {b : ExceptT ε (StateM τ') α'}

theorem Results.mono {P' : α → α' → Prop} {x : Except ε α} {y : Except ε α'} (h : Results P x y)
    (implies : ∀ a a', P a a' → P' a a') : Results P' x y := by
  cases h with
  | ok related => exact .ok (implies _ _ related)
  | error e => exact .error e

theorem Results.map {f : α → β} {P' : β → α' → Prop} {x : Except ε α} {y : Except ε α'}
    (h : Results (fun a a' => P' (f a) a') x y) : Results P' (x.map f) y := by
  cases h with
  | ok related => exact .ok related
  | error e => exact .error e

/-- Results that are compared with one third result. -/
theorem Results.join {Q : β → α' → Prop} {x : Except ε α} {y : Except ε β} {z : Except ε α'}
    (first : Results P x z) (second : Results Q y z) :
    Results (fun a b => ∃ c, P a c ∧ Q b c) x y := by
  cases first with
  | error e =>
    cases second
    exact .error e
  | ok h =>
    cases second with
    | ok h' => exact .ok ⟨_, h, h'⟩

theorem Results.eq {x y : Except ε α} (h : Results Eq x y) : x = y := by
  cases h with
  | ok same => rw [same]
  | error e => rfl

theorem tracks_pure {x : α} {y : α'} (h : P x y) :
    Tracks S P (pure x : ExceptT ε (StateM τ) α) (pure y) :=
  fun _ _ related => ⟨.ok h, related⟩

theorem Tracks.bind {f : α → ExceptT ε (StateM τ) β} {g : α' → ExceptT ε (StateM τ') β'}
    (first : Tracks S P a b) (second : ∀ x y, P x y → Tracks S Q (f x) (g y)) :
    Tracks S Q (a >>= f) (b >>= g) := by
  intro w w' related
  obtain ⟨results, states⟩ := first w w' related
  rw [run_bind, run_bind]
  revert results states
  rcases a.run w with ⟨result, v⟩
  rcases b.run w' with ⟨result', v'⟩
  intro results states
  cases results with
  | ok both => exact second _ _ both v v' states
  | error e => exact ⟨.error e, states⟩

theorem Tracks.mono {P' : α → α' → Prop} (h : Tracks S P a b) (implies : ∀ x y, P x y → P' x y) :
    Tracks S P' a b :=
  fun w w' related => ⟨(h w w' related).1.mono implies, (h w w' related).2⟩

end Tracks

end Arbor
