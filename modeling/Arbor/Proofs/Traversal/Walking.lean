import Arbor.Proofs.Runs
import Arbor.Proofs.Traversal.Loops
import Arbor.Proofs.Tree.Nodes

/-!
# Walks step by step

What a walk that succeeds has done, said once for all handlers: the fields of a node or the items of
a sequence are visited one after the other (`Visited`), and then it is rebuilt, or left as it is if
nothing has changed (`descend_ok`, `each_ok`). A property that trees have from their parts passes
from the edits to what is rebuilt (`descend_yields`, `each_yields`). Conversely, if every visit is
certain to leave its value alone, so is the walk (`descend_gives`, `each_gives`).

A relation between walks that sequences keep passes from the visits to the loops over parts
(`Compatible`), and one that also survives the moves of handlers passes to whole visits, of
transforming handlers and of visitors alike (`Congruent`). So an allowance that has been enough for
a visit stays enough, and the outcome is that of a visit without any bound (`visit_extends`).

Playing a script is a morphism into walks (`Script.play_bind`), so a handler is read as the walk
that it describes.
-/

namespace Arbor

variable {σ α β : Type}

/-! ## Parts -/

theorem Node.value_mem_of_part {n : Node Ident} {part : Part} (h : part ∈ n.parts) :
    part.value ∈ n.values := by
  obtain ⟨field, member, rfl⟩ := List.mem_map.mp h
  exact (List.of_mem_zip (List.fst_mem_of_mem_zipIdx member)).2

theorem Seq.value_mem_of_part {q : Seq Ident} {part : Part} (h : part ∈ q.parts) :
    part.value ∈ q.items := by
  obtain ⟨item, member, rfl⟩ := List.mem_map.mp h
  exact List.fst_mem_of_mem_zipIdx member

theorem Node.map_value_parts (n : Node Ident) : n.parts.map Part.value = n.fields.map Prod.snd := by
  calc n.parts.map Part.value
      = n.fields.zipIdx.map (Prod.snd ∘ Prod.fst) := List.map_map ..
    _ = (n.fields.zipIdx.map Prod.fst).map Prod.snd := (List.map_map ..).symm
    _ = n.fields.map Prod.snd := by rw [List.zipIdx_map_fst]

theorem Node.values_of_parts {n : Node Ident} (len : n.values.length = n.type.fields.length) :
    n.parts.map Part.value = n.values := by
  rw [n.map_value_parts, fields, List.map_snd_zip (Nat.le_of_eq len)]

theorem Seq.values_of_parts (q : Seq Ident) : q.parts.map Part.value = q.items := by
  rw [parts, List.map_map]
  exact List.zipIdx_map_fst 0 q.items

/-! ## Edits -/

/-- The values that the edit puts in have the property. -/
def Edit.All (P : Value → Prop) : Edit → Prop
  | .unchanged => True
  | .replace value => P value
  | .splice values => ∀ v ∈ values, P v

theorem identical_self (v : Value) : v.identical v = true := by
  cases v <;> simp [Tree.identical]

/-- An identity that is still free is none of the old ones. -/
theorem beq_newer {bound id next : Ident} (old : id < bound) (free : bound ≤ next) :
    (next == id) = false :=
  beq_false_of_ne (Nat.ne_of_gt (Nat.lt_of_lt_of_le old free))

theorem Edit.ofValue_self (v : Value) : Edit.ofValue v v = .unchanged := by
  rw [Edit.ofValue, if_pos (identical_self v)]

theorem Edit.ofValue_of_other {old new : Value} (other : new.identical old = false) :
    Edit.ofValue old new = .replace new := by
  rw [Edit.ofValue, other]
  rfl

theorem Edit.all_ofValue {P : Value → Prop} {old new : Value} (h : P new) :
    (Edit.ofValue old new).All P := by
  unfold Edit.ofValue
  split
  · trivial
  · exact h

theorem Edit.All.items {P : Value → Prop} {e : Edit} {old : Value} (h : e.All P) (own : P old) :
    ∀ v ∈ e.items old, P v := by
  cases e with
  | unchanged => exact List.forall_mem_singleton.mpr own
  | replace value => exact List.forall_mem_singleton.mpr h
  | splice values => exact h

theorem resolve_yields {P : Value → Prop} (hereditary : Tree.Hereditary P) {old : Value}
    {edit : Edit} (own : P old) (h : edit.All P) :
    Yields P (Effect.resolve old edit : Effect σ Value) := by
  cases edit with
  | unchanged => exact yields_pure own
  | replace value => exact yields_pure h
  | splice values => exact (yields_any _).bind fun _ _ => yields_pure (hereditary.seq.mpr h)

theorem resolve_ok {old v : Value} {edit : Edit} {w w' : World σ}
    (h : (Effect.resolve old edit).run w = (.ok v, w')) :
    w'.user = w.user ∧ (edit = .unchanged → v = old) ∧
      (old.Full → edit.All Tree.Full → v.Full) := by
  refine ⟨?_, ?_, fun own full => resolve_yields Tree.hereditary_full own full v w w' h⟩
  · cases edit <;> cases h <;> rfl
  · rintro rfl
    cases h
    rfl

theorem run_rebuild (check : Tree.NodeCheck) (node : Node Ident) (values : List Value)
    (w : World σ) :
    (Effect.rebuild check node values).run w =
      match check node.type values with
      | .ok () => (.ok ⟨w.next, node.type, values⟩, { w with next := w.next + 1 })
      | .error e => (.error (.construction e), w) := by
  rw [Effect.rebuild]
  cases check node.type values <;> rfl

theorem rebuild_ok {check : Tree.NodeCheck} {node after : Node Ident} {values : List Value}
    {w w' : World σ} (h : (Effect.rebuild check node values).run w = (.ok after, w')) :
    check node.type values = .ok () ∧ after = ⟨w.next, node.type, values⟩ ∧
      w' = { w with next := w.next + 1 } := by
  rw [run_rebuild] at h
  cases checked : check node.type values with
  | error e =>
    rw [checked] at h
    cases h
  | ok _ =>
    rw [checked] at h
    cases h
    exact ⟨rfl, rfl, rfl⟩

namespace Walk

/-! ## What is rebuilt -/

theorem length_overlay (news : List (Option Value)) (olds : List Value) :
    (overlay news olds).length = olds.length := by
  induction news generalizing olds with
  | nil => rfl
  | cons new news ih =>
    cases olds with
    | nil => rfl
    | cons old olds => exact congrArg Nat.succ (ih olds)

theorem overlay_none {news : List (Option Value)} (h : ∀ new ∈ news, new = none)
    (olds : List Value) : overlay news olds = olds := by
  induction news generalizing olds with
  | nil => rfl
  | cons new news ih =>
    cases olds with
    | nil => rfl
    | cons old olds =>
      rw [List.forall_mem_cons] at h
      rw [overlay, h.1, ih h.2]
      rfl

theorem all_overlay {P : Value → Prop} {news : List (Option Value)} {olds : List Value}
    (put : ∀ new ∈ news, ∀ v, new = some v → P v) (own : ∀ v ∈ olds, P v) :
    ∀ v ∈ overlay news olds, P v := by
  induction news generalizing olds with
  | nil => exact own
  | cons new news ih =>
    cases olds with
    | nil => exact own
    | cons old olds =>
      rw [List.forall_mem_cons] at put own
      refine List.forall_mem_cons.mpr ⟨?_, ih put.2 own.2⟩
      cases new with
      | none => exact own.1
      | some v => exact put.1 v rfl

theorem all_spliced {P : Value → Prop} {edits : List (Edit × Value)}
    (h : ∀ p ∈ edits, p.1.All P ∧ P p.2) : ∀ v ∈ spliced edits, P v := by
  induction edits with
  | nil => exact List.forall_mem_nil _
  | cons p edits ih =>
    rw [List.forall_mem_cons] at h
    rw [spliced]
    split
    · refine List.forall_mem_append.mpr ⟨h.1.1.items h.1.2, ?_⟩
      rw [List.forall_mem_flatMap]
      exact fun q hq => (h.2 q hq).1.items (h.2 q hq).2
    · exact List.forall_mem_cons.mpr ⟨h.1.2, ih h.2⟩

theorem spliced_of_calm {edits : List Edit} {olds : List Value}
    (calm : anyChange (edits.zip olds) = false) (len : edits.length = olds.length) :
    spliced (edits.zip olds) = olds := by
  induction edits generalizing olds with
  | nil =>
    cases olds with
    | nil => rfl
    | cons old olds => cases len
  | cons edit edits ih =>
    cases olds with
    | nil => cases len
    | cons old olds =>
      rw [List.zip_cons_cons, anyChange, List.any_cons, Bool.or_eq_false_iff] at calm
      rw [List.zip_cons_cons, spliced, calm.1, if_neg Bool.false_ne_true,
        ih calm.2 (Nat.succ.inj len)]

theorem anyChange_unchanged {edits : List Edit} (h : ∀ e ∈ edits, e = .unchanged)
    (olds : List Value) : anyChange (edits.zip olds) = false := by
  rw [anyChange, List.any_eq_false]
  rintro ⟨edit, old⟩ member
  rw [h edit (List.of_mem_zip member).1]
  exact Bool.false_ne_true

theorem nodeAfter_unchanged {news : List (Option Value)} (h : ∀ new ∈ news, new = none)
    (check : Tree.NodeCheck) (node : Node Ident) :
    (nodeAfter check node news : Walk σ (Node Ident)) = pure node := by
  have none : news.any Option.isSome = false := by
    rw [List.any_eq_false]
    intro new member
    rw [h new member]
    exact Bool.false_ne_true
  rw [nodeAfter, none]
  rfl

theorem seqAfter_unchanged {edits : List Edit} (h : ∀ e ∈ edits, e = .unchanged)
    (seq : Seq Ident) : (seqAfter seq edits : Walk σ (Seq Ident)) = pure seq := by
  rw [seqAfter, anyChange_unchanged h]
  rfl

theorem ofEffect_ok {a : Effect σ α} {x : α} {s s' : WalkState σ}
    (h : (ofEffect a).run s = (.ok x, s')) :
    a.run s.world = (.ok x, s'.world) ∧ s'.context = s.context := by
  change ((a.run s.world).1, { s with world := (a.run s.world).2 }) = _ at h
  rw [Prod.mk.injEq] at h
  obtain ⟨result, rfl⟩ := h
  exact ⟨Prod.ext result rfl, rfl⟩

theorem nodeAfter_ok {check : Tree.NodeCheck} {node after : Node Ident}
    {news : List (Option Value)} {s s' : WalkState σ}
    (h : (nodeAfter check node news).run s = (.ok after, s')) :
    after = node ∧ s' = s ∧ (∀ new ∈ news, new = none) ∨
      (¬∀ new ∈ news, new = none) ∧ check node.type (overlay news node.values) = .ok () ∧
        after = ⟨s.world.next, node.type, overlay news node.values⟩ ∧
        s' = { s with world := { s.world with next := s.world.next + 1 } } := by
  by_cases calm : ∀ new ∈ news, new = none
  · rw [nodeAfter_unchanged calm] at h
    cases h
    exact .inl ⟨rfl, rfl, calm⟩
  · have changed : news.any Option.isSome = true := by
      simpa [List.any_eq_true, Option.isSome_iff_ne_none] using calm
    rw [nodeAfter, changed, if_pos rfl] at h
    obtain ⟨built, context⟩ := ofEffect_ok h
    obtain ⟨checked, rfl, world⟩ := rebuild_ok built
    refine .inr ⟨calm, checked, rfl, ?_⟩
    cases s'
    cases context
    cases world
    rfl

theorem seqAfter_ok {seq after : Seq Ident} {edits : List Edit} {s s' : WalkState σ}
    (h : (seqAfter seq edits).run s = (.ok after, s')) :
    after = seq ∧ s' = s ∧ anyChange (edits.zip seq.items) = false ∨
      anyChange (edits.zip seq.items) = true ∧
        after = ⟨s.world.next, spliced (edits.zip seq.items)⟩ ∧
        s' = { s with world := { s.world with next := s.world.next + 1 } } := by
  rw [seqAfter] at h
  cases changed : anyChange (edits.zip seq.items) with
  | false =>
    rw [changed] at h
    cases h
    exact .inl ⟨rfl, rfl, rfl⟩
  | true =>
    rw [changed] at h
    cases h
    exact .inr ⟨rfl, rfl, rfl⟩

/-! ## Visits in sequence -/

/-- Values looked at one after the other, each from a state in which the caller's own is as the one
before has left it. -/
inductive Visited (f : Value → Walk σ α) :
    List Value → List α → WalkState σ → WalkState σ → Prop
  | nil {s s' : WalkState σ} : s'.world.user = s.world.user → Visited f [] [] s s'
  | cons {v : Value} {vs : List Value} {x : α} {xs : List α} {s s₀ s₁ s₂ : WalkState σ} :
      s₀.world.user = s.world.user → (f v).run s₀ = (.ok x, s₁) → Visited f vs xs s₁ s₂ →
        Visited f (v :: vs) (x :: xs) s s₂

theorem Visited.start {f : Value → Walk σ α} {vs : List Value} {xs : List α}
    {s s' t : WalkState σ} (h : Visited f vs xs s s') (user : s.world.user = t.world.user) :
    Visited f vs xs t s' := by
  cases h with
  | nil same => exact .nil (same.trans user)
  | cons same first rest => exact .cons (same.trans user) first rest

theorem Visited.finish {f : Value → Walk σ α} {vs : List Value} {xs : List α}
    {s s' t : WalkState σ} (h : Visited f vs xs s s') (user : t.world.user = s'.world.user) :
    Visited f vs xs s t := by
  induction h with
  | nil same => exact .nil (user.trans same)
  | cons same first _ ih => exact .cons same first (ih user)

theorem collect_ok {f : Value → Walk σ α} {parts : List Part} {xs : List α} {s s' : WalkState σ}
    (h : (collect f parts).run s = (.ok xs, s')) :
    Visited f (parts.map Part.value) xs s s' := by
  induction parts generalizing s xs with
  | nil =>
    cases h
    exact .nil rfl
  | cons part parts ih =>
    rw [collect] at h
    obtain ⟨_, s₀, placed, h⟩ := run_bind_eq_ok h
    cases placed
    obtain ⟨x, s₁, first, h⟩ := run_bind_eq_ok h
    obtain ⟨rest, s₂, others, answer⟩ := run_bind_eq_ok h
    cases answer
    refine .cons ?_ first (ih others)
    rfl

section Edits

variable {visit : Value → Walk σ Edit}

theorem settle_ok {edit : Edit} {old : Value} {new : Option Value} {s s' : WalkState σ}
    (h : (settle edit old).run s = (.ok new, s')) :
    new = none ∧ s' = s ∧ edit.changes old = false ∨
      ∃ v, new = some v ∧ (Effect.resolve old edit).run s.world = (.ok v, s'.world) ∧
        s'.context = s.context ∧ edit.changes old = true := by
  rw [settle] at h
  cases changed : edit.changes old with
  | false =>
    rw [changed] at h
    cases h
    exact .inl ⟨rfl, rfl, rfl⟩
  | true =>
    rw [changed] at h
    obtain ⟨v, s₂, resolved, answer⟩ := run_bind_eq_ok h
    cases answer
    obtain ⟨resolved, context⟩ := ofEffect_ok resolved
    exact .inr ⟨v, rfl, resolved, context, rfl⟩

theorem exchange_ok {old : Value} {new : Option Value} {s s' : WalkState σ}
    (h : (exchange visit old).run s = (.ok new, s')) :
    ∃ edit s₁, (visit old).run s = (.ok edit, s₁) ∧ s'.world.user = s₁.world.user ∧
      (edit = .unchanged → new = none) ∧
      (old.Full → edit.All Tree.Full → ∀ v, new = some v → v.Full) := by
  obtain ⟨edit, s₁, visited, settled⟩ := run_bind_eq_ok h
  refine ⟨edit, s₁, visited, ?_⟩
  rcases settle_ok settled with ⟨rfl, rfl, -⟩ | ⟨v, rfl, resolved, -, changed⟩
  · exact ⟨rfl, fun _ => rfl, fun _ _ _ none => by cases none⟩
  · obtain ⟨user, -, full⟩ := resolve_ok resolved
    refine ⟨user, ?_, ?_⟩
    · rintro rfl
      cases changed
    · rintro own fulls _ ⟨⟩
      exact full own fulls

theorem Visited.edits {values : List Value} {news : List (Option Value)} {s s' : WalkState σ}
    (h : Visited (exchange visit) values news s s') :
    ∃ edits, Visited visit values edits s s' ∧
      ((∀ e ∈ edits, e = .unchanged) → ∀ new ∈ news, new = none) ∧
      ((∀ v ∈ values, v.Full) → (∀ e ∈ edits, e.All Tree.Full) →
        ∀ new ∈ news, ∀ v, new = some v → v.Full) := by
  induction h with
  | nil same =>
    exact ⟨[], .nil same, fun _ => List.forall_mem_nil _, fun _ _ => List.forall_mem_nil _⟩
  | cons same first _ ih =>
    obtain ⟨edit, s₁, visited, user, calm, full⟩ := exchange_ok first
    obtain ⟨edits, rest, calms, fulls⟩ := ih
    refine ⟨edit :: edits, .cons same visited (rest.start user), ?_, ?_⟩
    · simp only [List.forall_mem_cons]
      exact fun unchanged => ⟨calm unchanged.1, calms unchanged.2⟩
    · simp only [List.forall_mem_cons]
      exact fun own put => ⟨full own.1 put.1, fulls own.2 put.2⟩

/-- A node whose fields have been visited is full if the edits are, and is the node itself if they
change nothing. Rebuilding it does not touch the caller's state. -/
theorem descend_ok {check : Tree.NodeCheck} {node after : Node Ident} (full : node.toTree.Full)
    {s s' : WalkState σ} (h : (descend check visit node).run s = (.ok after, s')) :
    ∃ edits, Visited visit node.values edits s s' ∧
      ((∀ e ∈ edits, e.All Tree.Full) → after.toTree.Full) ∧
      ((∀ e ∈ edits, e = .unchanged) → after = node) := by
  rw [descend_eq] at h
  obtain ⟨news, s₁, gathered, h⟩ := run_bind_eq_ok h
  have gathered := collect_ok gathered
  obtain ⟨len, inner⟩ := Tree.full_node.mp full
  rw [Node.values_of_parts len] at gathered
  obtain ⟨edits, visited, calms, fulls⟩ := gathered.edits
  rcases nodeAfter_ok h with ⟨rfl, rfl, -⟩ | ⟨changed, -, rfl, rfl⟩
  · exact ⟨edits, visited, fun _ => full, fun _ => rfl⟩
  · refine ⟨edits, visited.finish rfl, fun put => ?_, fun calm => (changed (calms calm)).elim⟩
    exact Tree.full_node.mpr ⟨(length_overlay _ _).trans len, all_overlay (fulls inner put) inner⟩

theorem each_ok {seq after : Seq Ident} (full : seq.toTree.Full) {s s' : WalkState σ}
    (h : (each visit seq).run s = (.ok after, s')) :
    ∃ edits, Visited visit seq.items edits s s' ∧
      ((∀ e ∈ edits, e.All Tree.Full) → after.toTree.Full) ∧
      ((∀ e ∈ edits, e = .unchanged) → after = seq) := by
  rw [each_eq] at h
  obtain ⟨edits, s₁, gathered, h⟩ := run_bind_eq_ok h
  have visited := collect_ok gathered
  rw [Seq.values_of_parts] at visited
  rcases seqAfter_ok h with ⟨rfl, rfl, -⟩ | ⟨changed, rfl, rfl⟩
  · exact ⟨edits, visited, fun _ => full, fun _ => rfl⟩
  · refine ⟨edits, visited.finish rfl, fun put => Tree.full_seq.mpr (all_spliced ?_),
      fun calm => ?_⟩
    · rintro ⟨edit, value⟩ member
      obtain ⟨left, right⟩ := List.of_mem_zip member
      exact ⟨put edit left, Tree.full_seq.mp full value right⟩
    · rw [anyChange_unchanged calm] at changed
      cases changed

/-! ## Properties of results -/

theorem yields_ofEffect {Q : α → Prop} {a : Effect σ α} (h : Yields Q a) :
    Yields Q (ofEffect a) :=
  fun x _ _ run => h x _ _ (ofEffect_ok run).1

theorem collect_yields {Q : α → Prop} {f : Value → Walk σ α} {parts : List Part}
    (h : ∀ part ∈ parts, Yields Q (f part.value)) :
    Yields (fun xs => ∀ x ∈ xs, Q x) (collect f parts) := by
  induction parts with
  | nil => exact yields_pure (List.forall_mem_nil _)
  | cons part parts ih =>
    rw [List.forall_mem_cons] at h
    refine (yields_any _).bind fun _ _ => h.1.bind fun x first => ?_
    exact (ih h.2).bind fun xs rest => yields_pure (List.forall_mem_cons.mpr ⟨first, rest⟩)

section Hereditary

variable {P : Value → Prop} (hereditary : Tree.Hereditary P)

include hereditary

theorem exchange_yields {old : Value} (own : P old) (h : Yields (Edit.All P) (visit old)) :
    Yields (fun new => ∀ v, new = some v → P v) (exchange visit old) := by
  refine h.bind fun edit put => ?_
  intro new s s' run
  rcases settle_ok run with ⟨rfl, -, -⟩ | ⟨v, rfl, resolved, -⟩
  · exact fun _ none => by cases none
  · rintro _ ⟨⟩
    exact resolve_yields hereditary own put v _ _ resolved

theorem descend_yields (node : Node Ident) (own : P node.toTree)
    (h : ∀ v ∈ node.values, Yields (Edit.All P) (visit v)) :
    Yields (fun after => P after.toTree) (descend NodeType.validate visit node) := by
  have parts := hereditary.values own
  rw [descend_eq]
  refine (collect_yields fun part member => exchange_yields hereditary
    (parts _ (Node.value_mem_of_part member)) (h _ (Node.value_mem_of_part member))).bind
    fun news put => ?_
  intro after s s' run
  rcases nodeAfter_ok run with ⟨rfl, -, -⟩ | ⟨-, valid, rfl, -⟩
  · exact own
  · exact hereditary.node valid (all_overlay put parts)

theorem each_yields (seq : Seq Ident) (own : P seq.toTree)
    (h : ∀ v ∈ seq.items, Yields (Edit.All P) (visit v)) :
    Yields (fun after => P after.toTree) (each visit seq) := by
  have items := hereditary.seq.mp own
  rw [each_eq]
  refine (collect_yields fun part member => h _ (Seq.value_mem_of_part member)).bind
    fun edits put => ?_
  intro after s s' run
  rcases seqAfter_ok run with ⟨rfl, -, -⟩ | ⟨-, rfl, -⟩
  · exact own
  · refine hereditary.seq.mpr (all_spliced ?_)
    rintro ⟨edit, value⟩ member
    obtain ⟨left, right⟩ := List.of_mem_zip member
    exact ⟨put edit left, items value right⟩

end Hereditary

/-! ## Results that are certain -/

section Gives

variable {κ : Type} {keep : World σ → κ}

theorem gives_onContext (f : Context → Context) :
    Gives (keep ∘ WalkState.world) (onContext f : Walk σ Unit) () :=
  fun s => ⟨{ s with context := f s.context }, rfl, rfl⟩

theorem gives_ofEffect {a : Effect σ α} {x : α} (h : Gives keep a x) :
    Gives (keep ∘ WalkState.world) (ofEffect a) x := by
  intro s
  obtain ⟨w, run, kept⟩ := h s.world
  refine ⟨{ s with world := w }, ?_, kept⟩
  change ((a.run s.world).1, { s with world := (a.run s.world).2 }) = _
  rw [run]

theorem collect_gives {f : Value → Walk σ α} {x : α} {parts : List Part}
    (h : ∀ part ∈ parts, Gives (keep ∘ WalkState.world) (f part.value) x) :
    Gives (keep ∘ WalkState.world) (collect f parts) (parts.map fun _ => x) := by
  induction parts with
  | nil => exact gives_pure []
  | cons part parts ih =>
    rw [List.forall_mem_cons] at h
    exact (gives_onContext _).bind (h.1.bind ((ih h.2).bind (gives_pure _)))

theorem descend_gives {check : Tree.NodeCheck} {node : Node Ident}
    (h : ∀ v ∈ node.values, Gives (keep ∘ WalkState.world) (visit v) .unchanged) :
    Gives (keep ∘ WalkState.world) (descend check visit node) node := by
  have exchanges (v : Value) (hv : v ∈ node.values) :
      Gives (keep ∘ WalkState.world) (exchange visit v) none :=
    (h v hv).bind (gives_pure none)
  rw [descend_eq]
  refine (collect_gives fun part member => exchanges _ (Node.value_mem_of_part member)).bind ?_
  rw [nodeAfter_unchanged (List.forall_mem_map.mpr fun _ _ => rfl)]
  exact gives_pure node

theorem each_gives {seq : Seq Ident}
    (h : ∀ v ∈ seq.items, Gives (keep ∘ WalkState.world) (visit v) .unchanged) :
    Gives (keep ∘ WalkState.world) (each visit seq) seq := by
  rw [each_eq]
  refine (collect_gives fun part member => h _ (Seq.value_mem_of_part member)).bind ?_
  rw [seqAfter_unchanged (List.forall_mem_map.mpr fun _ _ => rfl)]
  exact gives_pure seq

end Gives

end Edits

/-! ## Relations between walks -/

/-- A relation between walks that holds of a sequence if it holds of its parts, and in which every
move that a walk makes of its own accord is related to itself. -/
structure Compatible (check : Tree.NodeCheck) (J : ∀ α : Type, Walk σ α → Walk σ α → Prop) :
    Prop where
  pure {α : Type} (x : α) : J α (pure x) (pure x)
  bind {α β : Type} {a b : Walk σ α} {f g : α → Walk σ β} :
    J α a b → (∀ x, J β (f x) (g x)) → J β (a >>= f) (b >>= g)
  move (f : Context → Context) (stack : ∀ cx, (f cx).stack = cx.stack)
    (seqField : ∀ cx, (f cx).seqField = cx.seqField) : J Unit (onContext f) (onContext f)
  resolve (old : Value) (edit : Edit) :
    J Value (ofEffect (Effect.resolve old edit)) (ofEffect (Effect.resolve old edit))
  rebuild (node : Node Ident) (values : List Value) :
    J (Node Ident) (ofEffect (Effect.rebuild check node values))
      (ofEffect (Effect.rebuild check node values))
  fresh : J Ident (ofEffect Effect.fresh) (ofEffect Effect.fresh)

namespace Compatible

variable {check : Tree.NodeCheck} {J : ∀ α : Type, Walk σ α → Walk σ α → Prop}

theorem overParts (c : Compatible check J) {step step' : Part → α → Walk σ α}
    {parts : List Part} (h : ∀ part ∈ parts, ∀ x, J α (step part x) (step' part x)) (x : α) :
    J α (Walk.overParts step parts x) (Walk.overParts step' parts x) := by
  have announced (place : Place) : J Unit (onContext fun cx => cx.announce place)
      (onContext fun cx => cx.announce place) :=
    c.move _ (fun _ => by cases place <;> rfl) fun _ => by cases place <;> rfl
  induction parts generalizing x with
  | nil => exact c.pure x
  | cons part parts ih =>
    rw [List.forall_mem_cons] at h
    exact c.bind (announced _) fun _ => c.bind (h.1 x) fun y => ih h.2 y

variable (visit visit' : Value → Walk σ Edit)

theorem descend (c : Compatible check J) (node : Node Ident)
    (h : ∀ v ∈ node.values, J Edit (visit v) (visit' v)) :
    J (Node Ident) (Walk.descend check visit node) (Walk.descend check visit' node) := by
  refine c.bind (c.overParts (fun part member values => ?_) none) fun values => ?_
  · refine c.bind (h _ (Node.value_mem_of_part member)) fun edit => ?_
    split
    · exact c.bind (c.resolve _ _) fun new => c.pure _
    · exact c.pure _
  · cases values with
    | none => exact c.pure node
    | some values => exact c.rebuild node values

theorem each (c : Compatible check J) (seq : Seq Ident)
    (h : ∀ v ∈ seq.items, J Edit (visit v) (visit' v)) :
    J (Seq Ident) (Walk.each visit seq) (Walk.each visit' seq) := by
  refine c.bind (c.overParts (fun part member items => ?_) none) fun items => ?_
  · refine c.bind (h _ (Seq.value_mem_of_part member)) fun edit => ?_
    split
    · exact c.pure _
    · exact c.pure _
  · cases items with
    | none => exact c.pure seq
    | some items => exact c.bind c.fresh fun id => c.pure _

end Compatible

/-- A compatible relation that also holds of whatever a handler does. -/
structure Congruent (check : Tree.NodeCheck) (J : ∀ α : Type, Walk σ α → Walk σ α → Prop) : Prop
    extends Compatible check J where
  answer {α : Type} (result : Except Error α) : J α (fun s => (result, s)) (fun s => (result, s))
  state : J (WalkState σ) get get
  write (world : World σ) :
    J PUnit (modify fun s => { s with world := world }) (modify fun s => { s with world := world })
  observe {α : Type} {a b : Walk σ α} : J α a b → J (Except Error α) (observe a) (observe b)
  inNode {α : Type} (node : Node Ident) (slot : Slot) {a b : Walk σ α} :
    J α a b → J α (inNode node slot a) (inNode node slot b)
  inSeq {α : Type} (field : Option String) {a b : Walk σ α} :
    J α a b → J α (inSeq field a) (inSeq field b)

namespace Congruent

section Moves

variable {check : Tree.NodeCheck} {J : ∀ α : Type, Walk σ α → Walk σ α → Prop}
  (c : Congruent check J)

include c

theorem arrive : J Slot Walk.arrive Walk.arrive :=
  c.bind c.state fun s => c.bind (c.move _ (fun _ => rfl) fun _ => rfl) fun _ =>
    c.pure s.context.slot

theorem play {ways ways' : Ways σ} (visit : ∀ v, J Edit (ways.visit v) (ways'.visit v))
    (descend : ∀ n, J (Node Ident) (ways.descend n) (ways'.descend n))
    (each : ∀ q, J (Seq Ident) (ways.each q) (ways'.each q)) (script : Script σ α) :
    J α (script.play ways) (script.play ways') := by
  induction script with
  | answer result => exact c.answer result
  | look next ih => exact c.bind c.state fun s => ih s.context
  | read next ih => exact c.bind c.state fun s => ih s.world
  | write world next ih => exact c.bind (c.write world) fun _ => ih
  | atField name next ih => exact c.bind (c.move _ (fun _ => rfl) fun _ => rfl) fun _ => ih
  | atIndex index next ih => exact c.bind (c.move _ (fun _ => rfl) fun _ => rfl) fun _ => ih
  | visit value next ih => exact c.bind (c.observe (visit value)) ih
  | descend node next ih => exact c.bind (c.observe (descend node)) ih
  | each seq next ih => exact c.bind (c.observe (each seq)) ih

theorem tour (visit visit' : Value → Walk σ Unit) (h : ∀ v, J Unit (visit v) (visit' v))
    (tour : Tour σ) : J Unit (tour.play visit) (tour.play visit') := by
  have through (parts : List Part) :
      J Unit (Walk.overParts (fun part _ => visit part.value) parts ())
        (Walk.overParts (fun part _ => visit' part.value) parts ()) :=
    c.overParts (fun part _ _ => h part.value) ()
  induction tour with
  | done => exact c.pure ()
  | look next ih => exact c.bind c.state fun s => ih s.context
  | read next ih => exact c.bind c.state fun s => ih s.world
  | write world next ih => exact c.bind (c.write world) fun _ => ih
  | atField name next ih => exact c.bind (c.move _ (fun _ => rfl) fun _ => rfl) fun _ => ih
  | atIndex index next ih => exact c.bind (c.move _ (fun _ => rfl) fun _ => rfl) fun _ => ih
  | visit value next ih => exact c.bind (h value) fun _ => ih
  | descend node next ih => exact c.bind (through node.parts) fun _ => ih
  | each seq next ih => exact c.bind (through seq.parts) fun _ => ih

/-- Visits are related if those that they are allowed to make are. -/
theorem visitor (x : Visitor σ) {n m : Nat} (h : ∀ v, J Unit (x.visit n v) (x.visit m v))
    (value : Value) : J Unit (x.visit (n + 1) value) (x.visit (m + 1) value) := by
  refine c.bind c.arrive fun slot => ?_
  cases value with
  | node id type values => exact c.inNode _ slot (c.tour _ _ h _)
  | seq id items => exact c.inSeq slot.field (c.overParts (fun part _ _ => h part.value) ())
  | pattern term => exact c.tour _ _ h _
  | prim p => exact c.tour _ _ h _
  | absent => exact c.tour _ _ h _

end Moves

section Visits

variable {h : Handlers σ} {J : ∀ α : Type, Walk σ α → Walk σ α → Prop}
  (c : Congruent h.check J)

include c

theorem script (visit visit' : Value → Walk σ Edit) (given : ∀ v, J Edit (visit v) (visit' v))
    (script : Script σ α) : J α (script.play (h.ways visit)) (script.play (h.ways visit')) :=
  c.play given (fun n => c.descend visit visit' n fun v _ => given v)
    (fun q => c.each visit visit' q fun v _ => given v) script

theorem visit {n m : Nat} (given : ∀ v, J Edit (h.visit n v) (h.visit m v)) (value : Value) :
    J Edit (h.visit (n + 1) value) (h.visit (m + 1) value) := by
  refine c.bind c.arrive fun slot => c.bind ?_ fun edit => ?_
  · cases value with
    | node id type values => exact c.inNode _ slot (c.script _ _ given _)
    | seq id items =>
      refine c.bind (c.inSeq slot.field (c.each _ _ ⟨id, items⟩ fun v _ => given v)) fun after => ?_
      exact c.pure _
    | pattern term => exact c.script _ _ given _
    | prim p => exact c.script _ _ given _
    | absent => exact c.script _ _ given _
  · dsimp only
    split
    · exact c.bind (c.move _ (fun _ => rfl) fun _ => rfl) fun _ => c.pure edit
    · exact c.pure edit

end Visits

end Congruent

/-! ## Allowances -/

/-- The second walk has the outcomes of the first, unless the first has used up its allowance. -/
def Extends (a b : Walk σ α) : Prop :=
  ∀ s, (a.run s).1 ≠ .error .tooDeep → b.run s = a.run s

theorem run_observe (walk : Walk σ α) (s : WalkState σ) :
    (observe walk).run s =
      match walk.run s with
      | (.error .tooDeep, after) => (.error .tooDeep, after)
      | (result, after) => (.ok result, after) :=
  rfl

theorem state_observe (walk : Walk σ α) (s : WalkState σ) :
    ((observe walk).run s).2 = (walk.run s).2 := by
  rw [run_observe]
  rcases walk.run s with ⟨e | x, s'⟩
  · cases e <;> rfl
  · rfl

theorem Extends.bind {a b : Walk σ α} {f g : α → Walk σ β} (first : Extends a b)
    (second : ∀ x, Extends (f x) (g x)) : Extends (a >>= f) (b >>= g) := by
  intro s fine
  have same := first s
  rw [run_bind] at fine
  rw [run_bind, run_bind]
  rcases ran : a.run s with ⟨_ | x, s'⟩
  · rw [ran] at fine same
    rw [same (by simpa using fine)]
  · rw [ran] at fine same
    rw [same (by simp)]
    exact second x s' fine

theorem Extends.observe {a b : Walk σ α} (h : Extends a b) : Extends (observe a) (observe b) := by
  intro s fine
  have deep : (a.run s).1 ≠ .error .tooDeep := by
    intro deep
    apply fine
    rw [run_observe]
    rcases ran : a.run s with ⟨_ | x, s'⟩
    · rw [ran] at deep
      cases deep
      rfl
    · rw [ran] at deep
      cases deep
  rw [run_observe, run_observe, h s deep]

theorem congruent_extends (check : Tree.NodeCheck) :
    Congruent check fun α (a b : Walk σ α) => Extends a b where
  pure _ _ _ := rfl
  bind := Extends.bind
  move _ _ _ _ _ := rfl
  resolve _ _ _ _ := rfl
  rebuild _ _ _ _ := rfl
  fresh _ _ := rfl
  answer _ _ _ := rfl
  state _ _ := rfl
  write _ _ _ := rfl
  observe := Extends.observe
  inNode := by
    intro α node slot a b h s fine
    have same := h { s with context := s.context.enter node slot } fine
    exact congrArg (fun r => (r.1, { r.2 with context := r.2.context.leave })) same
  inSeq := by
    intro α field a b h s fine
    have same := h { s with context := { s.context with seqField := field } } fine
    exact congrArg (fun r =>
      (r.1, { r.2 with context := { r.2.context with seqField := s.context.seqField } })) same

/-! ## Places -/

/-- The outer walk is the inner one, run at another place. -/
def Moves (outer inner : Walk σ α) : Prop :=
  ∀ s, ∃ s₀, s₀.world = s.world ∧ (outer.run s).1 = (inner.run s₀).1 ∧
    (outer.run s).2.world = (inner.run s₀).2.world

theorem moves_inNode (node : Node Ident) (slot : Slot) (walk : Walk σ α) :
    Moves (inNode node slot walk) walk :=
  fun s => ⟨{ s with context := s.context.enter node slot }, rfl, rfl, rfl⟩

theorem moves_inSeq (field : Option String) (walk : Walk σ α) : Moves (inSeq field walk) walk :=
  fun s => ⟨{ s with context := { s.context with seqField := field } }, rfl, rfl, rfl⟩

theorem run_inNode_eq_ok {node : Node Ident} {slot : Slot} {walk : Walk σ α} {a : α}
    {s s' : WalkState σ} :
    (inNode node slot walk).run s = (.ok a, s') ↔
      ∃ s₁, walk.run { s with context := s.context.enter node slot } = (.ok a, s₁) ∧
        s' = { s₁ with context := s₁.context.leave } := by
  constructor
  · intro run
    obtain ⟨result, state⟩ := Prod.mk.inj run
    exact ⟨_, Prod.ext result rfl, state.symm⟩
  · rintro ⟨s₁, run, rfl⟩
    exact congrArg (fun r => (r.1, { r.2 with context := r.2.context.leave })) run

theorem run_inSeq_eq_ok {field : Option String} {walk : Walk σ α} {a : α} {s s' : WalkState σ} :
    (inSeq field walk).run s = (.ok a, s') ↔
      ∃ s₁, walk.run { s with context := { s.context with seqField := field } } = (.ok a, s₁) ∧
        s' = { s₁ with context := { s₁.context with seqField := s.context.seqField } } := by
  constructor
  · intro run
    obtain ⟨result, state⟩ := Prod.mk.inj run
    exact ⟨_, Prod.ext result rfl, state.symm⟩
  · rintro ⟨s₁, run, rfl⟩
    exact congrArg (fun r =>
      (r.1, { r.2 with context := { r.2.context with seqField := s.context.seqField } })) run

theorem Moves.ok {outer inner : Walk σ α} (h : Moves outer inner) {a : α} {s s' : WalkState σ}
    (run : outer.run s = (.ok a, s')) :
    ∃ s₀ s₁, s₀.world = s.world ∧ inner.run s₀ = (.ok a, s₁) ∧ s'.world = s₁.world := by
  obtain ⟨s₀, world, result, after⟩ := h s
  rw [run] at result after
  exact ⟨s₀, (inner.run s₀).2, world, Prod.ext result.symm rfl, after⟩

theorem Moves.yields {outer inner : Walk σ α} (h : Moves outer inner) {Q : α → Prop}
    (given : Yields Q inner) : Yields Q outer := by
  intro a s s' run
  obtain ⟨s₀, s₁, -, run, -⟩ := h.ok run
  exact given a s₀ s₁ run

theorem Moves.gives {κ : Type} {keep : World σ → κ} {outer inner : Walk σ α}
    (h : Moves outer inner) {a : α} (given : Gives (keep ∘ WalkState.world) inner a) :
    Gives (keep ∘ WalkState.world) outer a := by
  intro s
  obtain ⟨s₀, world, result, after⟩ := h s
  obtain ⟨s₁, run, kept⟩ := given s₀
  rw [run] at result after
  refine ⟨(outer.run s).2, Prod.ext result rfl, ?_⟩
  exact (congrArg keep after).trans (kept.trans (congrArg keep world))

/-- A walk whose failure is only looked at in order to fail in the same way. -/
theorem observe_bind_answer (walk : Walk σ α) :
    (observe walk >>= fun result s => (result, s)) = walk := by
  funext s
  have observed := run_observe walk s
  change (observe walk >>= fun result s => (result, s)).run s = walk.run s
  rw [run_bind, observed]
  rcases walk.run s with ⟨e | x, s'⟩
  · cases e <;> rfl
  · rfl

end Walk

/-! ## Scripts -/

theorem Script.play_bind (ways : Ways σ) (m : Script σ α) (f : α → Script σ β) :
    (m >>= f).play ways = m.play ways >>= fun a => (f a).play ways := by
  change (m.bind f).play ways = _
  induction m with
  | answer result => cases result <;> rfl
  | look next ih => simp only [bind, play, bind_assoc, ih]
  | read next ih => simp only [bind, play, bind_assoc, ih]
  | write world next ih => simp only [bind, play, bind_assoc, ih]
  | atField name next ih => simp only [bind, play, bind_assoc, ih]
  | atIndex index next ih => simp only [bind, play, bind_assoc, ih]
  | visit value next ih => simp only [bind, play, bind_assoc, ih]
  | descend node next ih => simp only [bind, play, bind_assoc, ih]
  | each seq next ih => simp only [bind, play, bind_assoc, ih]

theorem Script.play_descending (ways : Ways σ) (n : Node Ident) :
    (Script.descending n).play ways = ways.descend n :=
  Walk.observe_bind_answer _

theorem Script.play_ofEffect (ways : Ways σ) (a : Effect σ α) :
    (Script.ofEffect a).play ways = Walk.ofEffect a :=
  rfl

theorem Handlers.play_rebuild (ways : Ways σ) (n : Node Ident) :
    (Handlers.rebuild n).play ways =
      ways.descend n >>= fun after => pure (Edit.ofValue n.toTree after.toTree) := by
  rw [Handlers.rebuild, Script.play_bind, Script.play_descending]
  rfl

/-! ## Visits -/

open Walk

/-- An allowance that is enough for a visit can be raised without making a difference. -/
theorem Handlers.visit_extends (h : Handlers σ) {n m : Nat} (le : n ≤ m) (value : Value) :
    Extends (h.visit n value) (h.visit m value) := by
  induction n generalizing m value with
  | zero => exact fun s fine => absurd rfl fine
  | succ n ih =>
    obtain ⟨m, rfl⟩ := Nat.exists_eq_add_of_lt le
    exact (congruent_extends h.check).visit (fun v => ih (Nat.le_add_right n m) v) value

theorem Visitor.visit_extends (x : Visitor σ) {n m : Nat} (le : n ≤ m) (value : Value) :
    Extends (x.visit n value) (x.visit m value) := by
  induction n generalizing m value with
  | zero => exact fun s fine => absurd rfl fine
  | succ n ih =>
    obtain ⟨m, rfl⟩ := Nat.exists_eq_add_of_lt le
    have given (v : Value) := ih (Nat.le_add_right n m) v
    exact (congruent_extends NodeType.validate).visitor x given value

namespace Handlers

theorem run_visit (h : Handlers σ) (allowance : Nat) (value : Value) (s : WalkState σ) :
    (h.visit (allowance + 1) value).run s =
      match (h.handle (h.ways (h.visit allowance)) s.context.slot value).run
          { s with context := s.context.arrive } with
      | (.ok edit, after) =>
        (.ok edit,
          if edit.changes value then { after with context := after.context.countChange }
          else after)
      | (.error e, after) => (.error e, after) := by
  have arrived : (arrive : Walk σ Slot).run s =
      (.ok s.context.slot, { s with context := s.context.arrive }) := rfl
  rw [visit, run_bind_of_ok arrived, run_bind]
  rcases (h.handle (h.ways (h.visit allowance)) s.context.slot value).run
    { s with context := s.context.arrive } with ⟨_ | edit, after⟩
  · rfl
  · dsimp only
    split <;> rfl

variable {h : Handlers σ}

/-- A visit that succeeds is a run of the handler, and a change is counted after it. -/
theorem run_visit_ok {allowance : Nat} {value : Value} {edit : Edit} {s s' : WalkState σ}
    (run : (h.visit (allowance + 1) value).run s = (.ok edit, s')) :
    ∃ s₁, (h.handle (h.ways (h.visit allowance)) s.context.slot value).run
        { s with context := s.context.arrive } = (.ok edit, s₁) ∧
      s' = if edit.changes value then { s₁ with context := s₁.context.countChange } else s₁ := by
  rw [run_visit] at run
  split at run
  · rename_i handled
    cases run
    exact ⟨_, handled, rfl⟩
  · cases run

theorem visit_ok {allowance : Nat} {value : Value} {edit : Edit} {s s' : WalkState σ}
    (run : (h.visit (allowance + 1) value).run s = (.ok edit, s')) :
    ∃ s₁, (h.handle (h.ways (h.visit allowance)) s.context.slot value).run
        { s with context := s.context.arrive } = (.ok edit, s₁) ∧ s'.world = s₁.world := by
  obtain ⟨s₁, handled, rfl⟩ := run_visit_ok run
  refine ⟨s₁, handled, ?_⟩
  split <;> rfl

theorem visit_yields {Q : Edit → Prop} {allowance : Nat} {value : Value}
    (given : ∀ slot, Yields Q (h.handle (h.ways (h.visit allowance)) slot value)) :
    Yields Q (h.visit (allowance + 1) value) := by
  intro edit s s' run
  obtain ⟨s₁, handled, -⟩ := visit_ok run
  exact given _ edit _ s₁ handled

theorem visit_gives {κ : Type} {keep : World σ → κ} {allowance : Nat} {value : Value}
    (given : ∀ slot, Gives (keep ∘ WalkState.world)
      (h.handle (h.ways (h.visit allowance)) slot value) .unchanged) :
    Gives (keep ∘ WalkState.world) (h.visit (allowance + 1) value) .unchanged := by
  intro s
  obtain ⟨s₁, handled, kept⟩ := given s.context.slot { s with context := s.context.arrive }
  refine ⟨s₁, ?_, kept⟩
  rw [run_visit, handled]
  rfl

/-- Processing a tree is visiting it in a fresh context. -/
theorem run_process (allowance : Nat) (tree : Value) (w : World σ) :
    (h.process allowance tree).run w =
      match (h.visit allowance tree).run ⟨{}, w⟩ with
      | (.ok edit, after) => (Effect.resolve tree edit).run after.world
      | (.error e, after) => (.error e, after.world) := by
  let visiting : Effect σ Edit := fun w =>
    (((h.visit allowance tree).run ⟨{}, w⟩).1, ((h.visit allowance tree).run ⟨{}, w⟩).2.world)
  have visited : visiting.run w = (((h.visit allowance tree).run ⟨{}, w⟩).1,
    ((h.visit allowance tree).run ⟨{}, w⟩).2.world) := rfl
  change (visiting >>= Effect.resolve tree).run w = _
  rcases ran : (h.visit allowance tree).run ⟨{}, w⟩ with ⟨_ | edit, after⟩
  · rw [ran] at visited
    rw [run_bind, visited]
  · rw [ran] at visited
    rw [run_bind_of_ok visited]

variable {visit : Value → Walk σ Edit} {slot : Slot} {id : Ident}

theorem handle_seq_ok {items : List Value} {edit : Edit} {s s' : WalkState σ}
    (run : (h.handle (h.ways visit) slot (.seq id items)).run s = (.ok edit, s')) :
    ∃ after s₀ s₁, s₀.world = s.world ∧ (each visit ⟨id, items⟩).run s₀ = (.ok after, s₁) ∧
      edit = Edit.ofValue (.seq id items) after.toTree ∧ s'.world = s₁.world := by
  obtain ⟨after, s₂, walked, answer⟩ := run_bind_eq_ok run
  cases answer
  obtain ⟨s₀, s₁, world, walked, after'⟩ := (moves_inSeq _ _).ok walked
  exact ⟨after, s₀, s₁, world, walked, rfl, after'⟩

theorem handle_seq_yields {P : Value → Prop} (hereditary : Tree.Hereditary P) {items : List Value}
    (own : P (.seq id items)) (given : ∀ v ∈ items, Yields (Edit.All P) (visit v)) :
    Yields (Edit.All P) (h.handle (h.ways visit) slot (.seq id items)) := by
  refine ((moves_inSeq _ _).yields (each_yields hereditary ⟨id, items⟩ own given)).bind ?_
  exact fun after made => yields_pure (Edit.all_ofValue made)

theorem handle_seq_gives {κ : Type} {keep : World σ → κ} {items : List Value}
    (given : ∀ v ∈ items, Gives (keep ∘ WalkState.world) (visit v) .unchanged) :
    Gives (keep ∘ WalkState.world) (h.handle (h.ways visit) slot (.seq id items)) .unchanged := by
  -- The walk gives the sequence itself, and an object is no change of itself.
  refine ((moves_inSeq _ _).gives (each_gives given)).bind ?_
  change Gives (keep ∘ WalkState.world) (pure (Edit.ofValue (.seq id items) (.seq id items))) _
  rw [Edit.ofValue_self]
  exact gives_pure _

end Handlers

end Arbor
