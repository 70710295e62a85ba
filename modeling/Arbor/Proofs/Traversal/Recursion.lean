import Arbor.Proofs.Traversal.Walking
import Arbor.Proofs.Tree.Identity
import Arbor.Proofs.Unify.Expansion

/-!
# Recursions as walks

Looking for a variable, listing the variables of a tree and instantiating a tree are recursions on
trees. Each of them is what a walk does that takes care of patterns only. A visitor that follows a
recursion on the caller's state computes it (`Visitor.Follows`), so there are visitors for the two
searches (`walk_seeking`, `walk_collecting`). Instantiation makes the same objects, with the same
identities, as a walk that replaces bound variables, and fails where that fails
(`process_expanding`); so do its unchecked and its checked form (`process_expand`, `process_apply`).
-/

namespace Arbor

open Walk

variable {σ α β : Type}

/-! ## Searches -/

/-- The walk succeeds, and all that it does to the world is to update the caller's state. -/
def Walk.Updates (walk : Walk σ α) (f : σ → σ) : Prop :=
  ∀ s, ∃ x s', walk.run s = (.ok x, s') ∧ s'.world = { s.world with user := f s.world.user }

namespace Walk

theorem updates_pure (x : α) : Updates (pure x : Walk σ α) id :=
  fun s => ⟨x, s, rfl, rfl⟩

theorem updates_onContext (f : Context → Context) : Updates (onContext f : Walk σ Unit) id :=
  fun s => ⟨(), { s with context := f s.context }, rfl, rfl⟩

theorem Updates.bind {a : Walk σ α} {g : α → Walk σ β} {f f' : σ → σ} (first : Updates a f)
    (second : ∀ x, Updates (g x) f') : Updates (a >>= g) (f' ∘ f) := by
  intro s
  obtain ⟨x, s₁, ran, world⟩ := first s
  obtain ⟨y, s₂, ran', world'⟩ := second x s₁
  refine ⟨y, s₂, (run_bind_of_ok ran g).trans ran', ?_⟩
  rw [world', world]
  rfl

theorem Updates.congr {a : Walk σ α} {f g : σ → σ} (h : Updates a f) (same : ∀ u, f u = g u) :
    Updates a g :=
  funext same ▸ h

theorem Moves.updates {outer inner : Walk σ α} (h : Moves outer inner) {f : σ → σ}
    (given : Updates inner f) : Updates outer f := by
  intro s
  obtain ⟨s₀, world, result, after⟩ := h s
  obtain ⟨x, s₁, ran, updated⟩ := given s₀
  rw [ran] at result after
  exact ⟨x, (outer.run s).2, Prod.ext result rfl, after.trans (world ▸ updated)⟩

theorem collect_updates {f : Value → Walk σ α} {act : Value → σ → σ} {parts : List Part}
    (h : ∀ part ∈ parts, Updates (f part.value) (act part.value)) :
    Updates (collect f parts) fun u => (parts.map Part.value).foldl (fun u v => act v u) u := by
  induction parts with
  | nil => exact updates_pure []
  | cons part parts ih =>
    rw [List.forall_mem_cons] at h
    exact (updates_onContext _).bind fun _ => h.1.bind fun x =>
      (ih h.2).bind fun xs => updates_pure (x :: xs)

variable {visit : Value → Walk σ Unit} {act : Value → σ → σ}

theorem visitFields_updates {node : Node Ident} (full : node.toTree.Full)
    (h : ∀ v ∈ node.values, Updates (visit v) (act v)) :
    Updates (visitFields visit node) fun u => node.values.foldl (fun u v => act v u) u := by
  rw [visitFields, overParts_unit, ← Node.values_of_parts (Tree.full_node.mp full).1]
  exact (collect_updates fun part member => h _ (Node.value_mem_of_part member)).bind
    fun _ => updates_pure ()

theorem visitItems_updates (seq : Seq Ident) (h : ∀ v ∈ seq.items, Updates (visit v) (act v)) :
    Updates (visitItems visit seq) fun u => seq.items.foldl (fun u v => act v u) u := by
  rw [visitItems, overParts_unit, ← Seq.values_of_parts seq]
  exact (collect_updates fun part member => h _ (Seq.value_mem_of_part member)).bind
    fun _ => updates_pure ()

end Walk

namespace Visitor

/-- Each handler updates the caller's state as the recursion does, if the visits below it do. -/
structure Follows (x : Visitor σ) (act : Value → σ → σ) : Prop where
  node {visit : Value → Walk σ Unit} (n : Node Ident) (full : n.toTree.Full) :
    (∀ v ∈ n.values, Updates (visit v) (act v)) →
      Updates ((x.node n).play visit) (act n.toTree)
  seq (q : Seq Ident) (u : σ) : act q.toTree u = q.items.foldl (fun u v => act v u) u
  pattern (visit : Value → Walk σ Unit) (term : Pattern) :
    Updates ((x.pattern term).play visit) (act (.pattern term))
  prim (visit : Value → Walk σ Unit) (p : Prim) :
    Updates ((x.leaf (.prim p)).play visit) (act (.prim p))
  absent (visit : Value → Walk σ Unit) : Updates ((x.leaf .absent).play visit) (act .absent)

theorem Follows.visit {x : Visitor σ} {act : Value → σ → σ} (follows : x.Follows act)
    {tree : Value} (full : tree.Full) {allowance : Nat} (deep : tree.height ≤ allowance) :
    Updates (x.visit allowance tree) (act tree) := by
  induction allowance generalizing tree with
  | zero => exact absurd tree.height_pos (Nat.not_lt.mpr deep)
  | succ allowance ih =>
    have arrived : Updates (arrive : Walk σ Slot) id :=
      fun s => ⟨s.context.slot, { s with context := s.context.arrive }, rfl, rfl⟩
    refine arrived.bind fun slot => ?_
    cases tree with
    | node id type values =>
      refine (moves_inNode _ _ _).updates (follows.node ⟨id, type, values⟩ full fun v member => ?_)
      exact ih ((Tree.full_node.mp full).2 v member) (Tree.height_le_of_mem deep member)
    | seq id items =>
      have inner : ∀ v ∈ items, Updates (x.visit allowance v) (act v) := fun v member =>
        ih (Tree.full_seq.mp full v member) (Tree.height_le_of_mem deep member)
      have walked := (moves_inSeq slot.field _).updates (visitItems_updates ⟨id, items⟩ inner)
      rwa [← funext (follows.seq ⟨id, items⟩)] at walked
    | pattern term => exact follows.pattern _ term
    | prim p => exact follows.prim _ p
    | absent => exact follows.absent _

theorem Follows.walk {x : Visitor σ} {act : Value → σ → σ} (follows : x.Follows act)
    {tree : Value} (full : tree.Full) {allowance : Nat} (deep : tree.height ≤ allowance)
    (w : World σ) :
    ∃ cx, x.walk allowance tree w = ((.ok (), cx), { w with user := act tree w.user }) := by
  obtain ⟨_, after, ran, world⟩ := follows.visit full deep ⟨{}, w⟩
  refine ⟨after.context, ?_⟩
  rw [Visitor.walk, ran, ← world]

/-- Looks for a variable, and does not go into nodes any more once it is found. -/
def seeking (x : String) : Visitor Bool where
  node n := .read fun w => if w.user then .done else .descend n .done
  pattern term := .read fun w => .write { w with user := w.user || term = .var x } .done

/-- Lists the variables. -/
def collecting : Visitor (List String) where
  pattern
    | .var x => .read fun w => .write { w with user := w.user ++ [x] } .done
    | .wildcard => .done

theorem updates_read_write (visit : Value → Walk σ Unit) (f : σ → σ) :
    Updates ((Tour.read fun w => .write { w with user := f w.user } .done).play visit) f :=
  fun s => ⟨(), { s with world := { s.world with user := f s.world.user } }, rfl, rfl⟩

theorem foldl_or (x : String) (found : Bool) (vs : List Value) :
    vs.foldl (fun found v => found || v.occurs x) found = (found || Tree.occursAny x vs) := by
  induction vs generalizing found with
  | nil => rw [List.foldl_nil, Tree.occursAny, Bool.or_false]
  | cons v vs ih => rw [List.foldl_cons, ih, Tree.occursAny, Bool.or_assoc]

theorem foldl_append_vars (names : List String) (vs : List Value) :
    vs.foldl (fun names v => names ++ v.vars) names = names ++ Tree.varsAll vs := by
  induction vs generalizing names with
  | nil => rw [List.foldl_nil, Tree.varsAll, List.append_nil]
  | cons v vs ih => rw [List.foldl_cons, ih, Tree.varsAll, List.append_assoc]

theorem seeking_follows (x : String) :
    (seeking x).Follows fun v found => found || v.occurs x where
  node {visit} n full inner s := by
    have read : (((seeking x).node n).play visit).run s =
        ((if s.world.user then Tour.done else .descend n .done).play visit).run s := rfl
    rw [read]
    cases found : s.world.user with
    | true =>
      refine ⟨(), s, rfl, ?_⟩
      change s.world = { s.world with user := true }
      rw [← found]
    | false =>
      obtain ⟨_, s', ran, world⟩ := visitFields_updates full inner s
      refine ⟨(), s', run_bind_of_ok ran _, ?_⟩
      rw [world]
      simp only [foldl_or, found]
      rfl
  seq q found := (foldl_or x found q.items).symm
  pattern visit term := by
    refine (updates_read_write visit fun found => found || term = .var x).congr fun found => ?_
    cases term with
    | var y => simp [Tree.occurs, Bool.beq_eq_decide_eq]
    | wildcard => simp [Tree.occurs]
  prim visit p := (updates_pure ()).congr fun found => (Bool.or_false found).symm
  absent visit := (updates_pure ()).congr fun found => (Bool.or_false found).symm

theorem collecting_follows : collecting.Follows fun v names => names ++ v.vars where
  node n full inner := by
    refine ((visitFields_updates full inner).bind fun _ => updates_pure ()).congr fun names => ?_
    exact foldl_append_vars names n.values
  seq q names := (foldl_append_vars names q.items).symm
  pattern visit term := by
    cases term with
    | var x => exact updates_read_write visit fun names => names ++ [x]
    | wildcard => exact (updates_pure ()).congr fun names => (List.append_nil names).symm
  prim visit p := (updates_pure ()).congr fun names => (List.append_nil names).symm
  absent visit := (updates_pure ()).congr fun names => (List.append_nil names).symm

end Visitor

section Searches

variable {tree : Value} (full : tree.Full) {allowance : Nat} (deep : tree.height ≤ allowance)

include full deep

theorem walk_seeking (x : String) (w : World Bool) :
    ∃ cx, (Visitor.seeking x).walk allowance tree w =
      ((.ok (), cx), { w with user := w.user || tree.occurs x }) :=
  (Visitor.seeking_follows x).walk full deep w

theorem walk_collecting (w : World (List String)) :
    ∃ cx, Visitor.collecting.walk allowance tree w =
      ((.ok (), cx), { w with user := w.user ++ tree.vars }) :=
  Visitor.collecting_follows.walk full deep w

end Searches

/-! ## Instantiation -/

/-- Replaces bound variables. -/
def Handlers.expanding (check : Tree.NodeCheck) (find : String → Option Value) : Handlers σ where
  node := rebuild
  pattern
    | .var x =>
      match find x with
      | some v => pure (.replace v)
      | none => pure .unchanged
    | .wildcard => pure .unchanged
  leaf _ := pure .unchanged
  check := check

/-- The walk takes as many identities as the recursion, and their results are related; or both fail
for the same reason. -/
def Walk.Performs (walk : Walk σ α) (P : β → α → Prop) (s : WalkState σ) :
    Except ConstructionError (β × Ident) → Prop
  | .ok (y, next) => s.world.next ≤ next ∧ ∃ x cx,
      walk.run s = (.ok x, ⟨cx, { s.world with next := next }⟩) ∧ P y x
  | .error e => ∃ s', walk.run s = (.error (.construction e), s')

namespace Walk

section

variable {γ δ : Type} {P : β → α → Prop} {Q : δ → γ → Prop} {s : WalkState σ}

theorem performs_pure {x : α} {y : β} (h : P y x) :
    Performs (pure x) P s (.ok (y, s.world.next)) :=
  ⟨Nat.le_refl _, x, s.context, rfl, h⟩

theorem Performs.bind {a : Walk σ α} {f : α → Walk σ γ}
    {r : Except ConstructionError (β × Ident)}
    {g : β × Ident → Except ConstructionError (δ × Ident)} (first : Performs a P s r)
    (second : ∀ y x next cx, s.world.next ≤ next → P y x →
      Performs (f x) Q ⟨cx, { s.world with next := next }⟩ (g (y, next))) :
    Performs (a >>= f) Q s (r >>= g) := by
  match r, first with
  | .error e, ⟨s', ran⟩ =>
    refine ⟨s', ?_⟩
    rw [run_bind, ran]
  | .ok (y, next), ⟨more, x, cx, ran, related⟩ =>
    have rest := second y x next cx more related
    change Performs (a >>= f) Q s (g (y, next))
    match g (y, next), rest with
    | .error e, ⟨s', ran'⟩ => exact ⟨s', (run_bind_of_ok ran f).trans ran'⟩
    | .ok (y', next'), ⟨more', x', cx', ran', related'⟩ =>
      exact ⟨Nat.le_trans more more', x', cx', (run_bind_of_ok ran f).trans ran', related'⟩

theorem Performs.map {a : Walk σ α} {f : α → γ} {Q : β → γ → Prop}
    {r : Except ConstructionError (β × Ident)} (h : Performs a P s r)
    (related : ∀ y x, P y x → Q y (f x)) :
    Performs (a >>= fun x => pure (f x)) Q s r := by
  have done := h.bind (g := pure) fun y x next cx _ here => performs_pure (related y x here)
  rwa [bind_pure] at done

theorem Performs.announced {a : Walk σ α} {r : Except ConstructionError (β × Ident)}
    (f : Context → Context) (h : Performs a P { s with context := f s.context } r) :
    Performs (onContext f >>= fun _ => a) P s r := by
  have placed : (onContext f : Walk σ Unit).run s = (.ok (), { s with context := f s.context }) :=
    rfl
  unfold Performs at h ⊢
  rwa [run_bind_of_ok placed]

theorem Moves.performs {outer inner : Walk σ α} (h : Moves outer inner)
    {r : Except ConstructionError (β × Ident)}
    (given : ∀ s₀ : WalkState σ, s₀.world = s.world → Performs inner P s₀ r) :
    Performs outer P s r := by
  obtain ⟨s₀, world, result, after⟩ := h s
  have done := given s₀ world
  match r, done with
  | .error e, ⟨s', ran⟩ =>
    rw [ran] at result
    exact ⟨(outer.run s).2, Prod.ext result rfl⟩
  | .ok (y, next), ⟨more, x, cx, ran, related⟩ =>
    rw [ran] at result after
    rw [world] at more after
    refine ⟨more, x, (outer.run s).2.context, Prod.ext result ?_, related⟩
    exact congrArg (WalkState.mk (outer.run s).2.context) after

theorem Performs.visit {h : Handlers σ} {allowance : Nat} {value : Value} {P : β → Edit → Prop}
    {r : Except ConstructionError (β × Ident)}
    (given : Performs (h.handle (h.ways (h.visit allowance)) s.context.slot value) P
      { s with context := s.context.arrive } r) :
    Performs (h.visit (allowance + 1) value) P s r := by
  unfold Performs at given ⊢
  rw [Handlers.run_visit]
  match r, given with
  | .error e, ⟨s', ran⟩ =>
    rw [ran]
    exact ⟨s', rfl⟩
  | .ok (y, next), ⟨more, edit, cx, ran, related⟩ =>
    rw [ran]
    refine ⟨more, edit, if edit.changes value then cx.countChange else cx, ?_, related⟩
    dsimp only
    split <;> rfl

end

end Walk

/-! ### Parts -/

/-- The edit comes to what instantiation says about the value. -/
def Edit.Amounts (old : Value) : Option Value → Edit → Prop
  | none, e => e.changes old = false ∧ e.items old = [old]
  | some new, e => e = .replace new ∧ e.changes old = true

theorem Edit.Amounts.resolve {old : Value} {change : Option Value} {e : Edit}
    (h : Edit.Amounts old change e) :
    (Effect.resolve old e : Effect σ Value) = pure (change.getD old) := by
  cases change with
  | some new =>
    obtain ⟨rfl, -⟩ := h
    rfl
  | none =>
    obtain ⟨same, item⟩ := h
    cases e with
    | unchanged => rfl
    | replace new =>
      cases item
      rfl
    | splice values => cases same

namespace Tree

/-- What instantiation says about values, from what it says about the first and about the others. -/
def regroup (v : Value) (vs : List Value) : Option Value → Option (List Value) →
    Option (List Value)
  | none, none => none
  | first, others => some (first.getD v :: others.getD vs)

theorem getD_regroup (v : Value) (vs : List Value) (first : Option Value)
    (others : Option (List Value)) :
    (regroup v vs first others).getD (v :: vs) = first.getD v :: others.getD vs := by
  cases first <;> cases others <;> rfl

theorem isSome_regroup (v : Value) (vs : List Value) (first : Option Value)
    (others : Option (List Value)) :
    (regroup v vs first others).isSome = (first.isSome || others.isSome) := by
  cases first <;> cases others <;> rfl

theorem instantiateAll_eq_bind (check : NodeCheck) (find : String → Option Value) (v : Value)
    (vs : List Value) (next : Ident) :
    instantiateAll check find (v :: vs) next =
      instantiate check find v next >>= fun r =>
        instantiateAll check find vs r.2 >>= fun rs => pure (regroup v vs r.1 rs.1, rs.2) := by
  rw [instantiateAll]
  refine bind_congr fun r => bind_congr fun rs => ?_
  obtain ⟨first, m⟩ := r
  obtain ⟨others, n⟩ := rs
  cases first <;> cases others <;> rfl

end Tree

/-- What instantiation says about values is made up of what the results say about each of them. -/
inductive Regrouped (P : Value → Option Value → α → Prop) :
    List Value → Option (List Value) → List α → Prop
  | nil : Regrouped P [] none []
  | cons {v : Value} {vs : List Value} {first : Option Value} {others : Option (List Value)} {x : α}
      {xs : List α} : P v first x → Regrouped P vs others xs →
        Regrouped P (v :: vs) (Tree.regroup v vs first others) (x :: xs)

namespace Regrouped

theorem fields {vs : List Value} {changed : Option (List Value)} {news : List (Option Value)}
    (h : Regrouped (fun _ change new => new = change) vs changed news) :
    news.any Option.isSome = changed.isSome ∧ overlay news vs = changed.getD vs := by
  induction h with
  | nil => exact ⟨rfl, rfl⟩
  | cons here _ ih =>
    rw [List.any_cons, overlay, Tree.isSome_regroup, Tree.getD_regroup, here, ih.1, ih.2]
    exact ⟨rfl, rfl⟩

theorem items {vs : List Value} {changed : Option (List Value)} {edits : List Edit}
    (h : Regrouped Edit.Amounts vs changed edits) :
    anyChange (edits.zip vs) = changed.isSome ∧ spliced (edits.zip vs) = changed.getD vs ∧
      (edits.zip vs).flatMap (fun p => p.1.items p.2) = changed.getD vs := by
  induction h with
  | nil => exact ⟨rfl, rfl, rfl⟩
  | @cons v vs first others e edits here _ ih =>
    obtain ⟨any, kept, given⟩ := ih
    rw [Tree.isSome_regroup, Tree.getD_regroup, List.zip_cons_cons, anyChange, List.any_cons,
      spliced, List.flatMap_cons]
    cases first with
    | none =>
      obtain ⟨same, item⟩ := here
      rw [same, item, kept, given]
      exact ⟨any, rfl, rfl⟩
    | some new =>
      obtain ⟨rfl, changes⟩ := here
      rw [changes, given]
      exact ⟨rfl, rfl, rfl⟩

end Regrouped

section Expansion

variable {check : Tree.NodeCheck} {find : String → Option Value} {bound : Ident}

theorem Walk.exchange_performs {visit : Value → Walk σ Edit} {old : Value} {s : WalkState σ}
    {r : Except ConstructionError (Option Value × Ident)}
    (h : Performs (visit old) (Edit.Amounts old) s r) :
    Performs (exchange visit old) (fun change new => new = change) s r := by
  have settled := h.bind (g := pure) (f := fun e => settle e old)
    (Q := fun change new => new = change) fun change e next cx _ amounts => ?_
  · rwa [bind_pure] at settled
  · have result : (settle e old : Walk σ (Option Value)) = pure change := by
      cases change with
      | none =>
        rw [settle, amounts.1]
        rfl
      | some new =>
        obtain ⟨rfl, changes⟩ := amounts
        rw [settle, changes]
        rfl
    rw [result]
    exact performs_pure rfl

/-- From where the supply has come to, the walk does what instantiating the value does. -/
def Walk.Instantiates (check : Tree.NodeCheck) (find : String → Option Value) (bound : Ident)
    (P : Value → Option Value → α → Prop) (f : Value → Walk σ α) (v : Value) : Prop :=
  ∀ s : WalkState σ, bound ≤ s.world.next →
    Performs (f v) (P v) s (v.instantiate check find s.world.next)

theorem Walk.collect_performs {P : Value → Option Value → α → Prop} {f : Value → Walk σ α}
    {parts : List Part} (h : ∀ part ∈ parts, Instantiates check find bound P f part.value)
    {s : WalkState σ} (supply : bound ≤ s.world.next) :
    Performs (collect f parts) (Regrouped P (parts.map Part.value)) s
      (Tree.instantiateAll check find (parts.map Part.value) s.world.next) := by
  induction parts generalizing s with
  | nil => exact performs_pure .nil
  | cons part parts ih =>
    rw [List.forall_mem_cons] at h
    rw [List.map_cons, Tree.instantiateAll_eq_bind]
    have visited := h.1 { s with context := s.context.announce part.place } supply
    refine Performs.announced _ (visited.bind fun first x m cx more here => ?_)
    refine (ih h.2 (Nat.le_trans supply more)).bind fun others xs n cx' _ rest => ?_
    exact performs_pure (.cons here rest)

/-- The new value is the old one, or it is another object and what instantiation says. -/
def Tree.Remade (old : Value) (change : Option Value) (new : Value) : Prop :=
  change = none ∧ new = old ∨ change = some new ∧ new.identical old = false

theorem Tree.Remade.amounts {old new : Value} {change : Option Value}
    (h : old.Remade change new) : Edit.Amounts old change (Edit.ofValue old new) := by
  rcases h with ⟨rfl, rfl⟩ | ⟨rfl, other⟩
  · rw [Edit.ofValue_self]
    exact ⟨rfl, rfl⟩
  · rw [Edit.ofValue_of_other other]
    exact ⟨rfl, by rw [Edit.changes, other, Bool.not_false]⟩

namespace Walk

variable {visit : Value → Walk σ Edit} {s : WalkState σ}

theorem rebuild_performs {node : Node Ident} (old : node.id < bound)
    (supply : bound ≤ s.world.next) (values : List Value) :
    Performs (ofEffect (Effect.rebuild check node values))
      (fun change after => node.toTree.Remade change after.toTree) s
      (check node.type values >>= fun _ =>
        pure (some (.node s.world.next node.type values), s.world.next + 1)) := by
  have ran := run_rebuild check node values s.world
  have rebuilt : (ofEffect (Effect.rebuild check node values)).run s =
      (((Effect.rebuild check node values).run s.world).1,
        { s with world := ((Effect.rebuild check node values).run s.world).2 }) := rfl
  rw [ran] at rebuilt
  cases checked : check node.type values with
  | error e =>
    rw [checked] at rebuilt
    exact ⟨s, rebuilt⟩
  | ok _ =>
    rw [checked] at rebuilt
    exact ⟨Nat.le_succ _, _, s.context, rebuilt, .inr ⟨rfl, beq_newer old supply⟩⟩

theorem descend_performs (node : Node Ident) (full : node.toTree.Full) (old : node.id < bound)
    (h : ∀ v ∈ node.values, Instantiates check find bound Edit.Amounts visit v)
    (supply : bound ≤ s.world.next) :
    Performs (descend check visit node)
      (fun change after => node.toTree.Remade change after.toTree) s
      (node.toTree.instantiate check find s.world.next) := by
  have exchanged : ∀ part ∈ node.parts, Instantiates check find bound
      (fun _ change new => new = change) (exchange visit) part.value :=
    fun part member s supply => exchange_performs (h _ (Node.value_mem_of_part member) s supply)
  have gathered := collect_performs exchanged supply
  rw [Node.values_of_parts (Tree.full_node.mp full).1] at gathered
  rw [descend_eq]
  refine gathered.bind fun changed news next cx more regrouped => ?_
  obtain ⟨any, overlaid⟩ := regrouped.fields
  rw [nodeAfter, any, overlaid]
  have supply' : bound ≤ next := Nat.le_trans supply more
  cases changed with
  | none => exact performs_pure (.inl ⟨rfl, rfl⟩)
  | some values =>
    exact rebuild_performs (s := ⟨cx, { s.world with next := next }⟩) old supply' values

theorem each_performs (seq : Seq Ident) (old : seq.id < bound)
    (h : ∀ v ∈ seq.items, Instantiates check find bound Edit.Amounts visit v)
    (supply : bound ≤ s.world.next) :
    Performs (each visit seq) (fun change after => seq.toTree.Remade change after.toTree) s
      (seq.toTree.instantiate check find s.world.next) := by
  have visited : ∀ part ∈ seq.parts, Instantiates check find bound Edit.Amounts visit part.value :=
    fun part member => h _ (Seq.value_mem_of_part member)
  have gathered := collect_performs visited supply
  rw [Seq.values_of_parts] at gathered
  rw [each_eq]
  refine gathered.bind fun changed edits next cx more regrouped => ?_
  obtain ⟨any, items, -⟩ := regrouped.items
  rw [seqAfter, any, items]
  cases changed with
  | none => exact performs_pure (.inl ⟨rfl, rfl⟩)
  | some items =>
    exact ⟨Nat.le_succ _, _, cx, rfl, .inr ⟨rfl, beq_newer old (Nat.le_trans supply more)⟩⟩

end Walk

namespace Handlers

theorem pattern_performs (term : Pattern) (ways : Ways σ) (s : WalkState σ) :
    Performs (((expanding check find).pattern term).play ways) (Edit.Amounts (.pattern term)) s
      (Tree.instantiate check find (.pattern term) s.world.next) := by
  cases term with
  | wildcard => exact performs_pure ⟨rfl, rfl⟩
  | var x =>
    rw [Tree.instantiate]
    change Performs ((match find x with
      | some v => pure (.replace v)
      | none => pure .unchanged : Script σ Edit).play ways) _ _ _
    cases find x with
    | none => exact performs_pure ⟨rfl, rfl⟩
    | some v =>
      refine performs_pure ?_
      -- A variable that stands for itself is replaced by what is no other value.
      by_cases itself : v.var? = some x
      · rw [if_pos itself, Tree.eq_var_of_var? itself]
        exact ⟨by simp [Edit.changes, Tree.identical], rfl⟩
      · rw [if_neg itself]
        refine ⟨rfl, ?_⟩
        cases v with
        | pattern term => cases term <;> simp_all [Edit.changes, Tree.identical, Tree.var?]
        | _ => rfl

/-- Visiting a value with handlers that replace bound variables is instantiating it. -/
theorem visit_instantiates {tree : Value} (full : tree.Full) (below : tree.Below bound)
    {allowance : Nat} (deep : tree.height ≤ allowance) :
    Instantiates check find bound Edit.Amounts
      ((expanding check find : Handlers σ).visit allowance) tree := by
  induction allowance generalizing tree with
  | zero => exact absurd tree.height_pos (Nat.not_lt.mpr deep)
  | succ allowance ih =>
    intro s supply
    refine Performs.visit ?_
    cases tree with
    | node id type values =>
      obtain ⟨own, inner⟩ := Tree.forall_objects_node.mp below
      let node : Node Ident := ⟨id, type, values⟩
      refine (moves_inNode _ _ _).performs fun s₀ world => ?_
      have descended := descend_performs (s := s₀) node full own (fun v member =>
        ih ((Tree.full_node.mp full).2 v member) (inner v member)
          (Tree.height_le_of_mem deep member)) (world.symm ▸ supply)
      rw [world] at descended
      change Performs ((rebuild node).play _) _ _ _
      rw [play_rebuild]
      exact descended.map fun change after remade => remade.amounts
    | seq id items =>
      obtain ⟨own, inner⟩ := Tree.forall_objects_seq.mp below
      refine Performs.map ((moves_inSeq _ _).performs fun s₀ world => ?_)
        fun change after remade => Tree.Remade.amounts remade
      have walked := each_performs (s := s₀) ⟨id, items⟩ own (fun v member =>
        ih (Tree.full_seq.mp full v member) (inner v member)
          (Tree.height_le_of_mem deep member)) (world.symm ▸ supply)
      rw [world] at walked
      exact walked
    | pattern term => exact pattern_performs term _ _
    | prim p => exact performs_pure ⟨rfl, rfl⟩
    | absent => exact performs_pure ⟨rfl, rfl⟩

section Process

variable {tree : Value} (full : tree.Full) {w : World σ} (below : tree.Below w.next)
  {allowance : Nat} (deep : tree.height ≤ allowance)

include full below deep

/-- The instance of a tree is what walking through it gives. -/
theorem process_expanding (check : Tree.NodeCheck) (find : String → Option Value) :
    match tree.instantiate check find w.next with
    | .ok (change, next) =>
      ((expanding check find).process allowance tree).run w =
        (.ok (change.getD tree), { w with next := next })
    | .error e =>
      (((expanding check find).process allowance tree).run w).1 = .error (.construction e) := by
  have visited : Performs _ _ _ (tree.instantiate check find w.next) :=
    visit_instantiates full below deep ⟨{}, w⟩ (Nat.le_refl _)
  rw [run_process]
  match tree.instantiate check find w.next, visited with
  | .error e, ⟨s, ran⟩ => simp only [ran]
  | .ok (change, next), ⟨_, edit, cx, ran, amounts⟩ =>
    simp only [ran, amounts.resolve]
    rfl

theorem process_expand (find : String → Option Value) :
    ((expanding (fun _ _ => .ok ()) find).process allowance tree).run w =
      (.ok (tree.expand find w.next).1, { w with next := (tree.expand find w.next).2 }) := by
  have processed := process_expanding full below deep (fun _ _ => .ok ()) find
  obtain ⟨⟨change, next⟩, instantiated⟩ := tree.instantiate_unchecked find w.next
  rw [instantiated] at processed
  rw [processed, Tree.expand, instantiated]

theorem process_apply (s : Substitution) :
    match s.apply tree w.next with
    | .ok (result, next) =>
      ((expanding NodeType.validate s.get?).process allowance tree).run w =
        (.ok result, { w with next := next })
    | .error e =>
      (((expanding NodeType.validate s.get?).process allowance tree).run w).1 =
        .error (.construction e) := by
  have processed := process_expanding full below deep NodeType.validate s.get?
  rw [Substitution.apply]
  cases instantiated : tree.instantiate NodeType.validate s.get? w.next with
  | error e =>
    rw [instantiated] at processed
    exact processed
  | ok r =>
    rw [instantiated] at processed
    exact processed

end Process

end Handlers

end Expansion

end Arbor
