import Mathlib
import Arbor.Proofs.Traversal.Walking
import Arbor.Proofs.Tree.Identity

/-!
# What walks share and count

A walk whose handlers only look at leaves gives, at every place, the value itself or something
rebuilt, and which of them is decided by the answers of the handlers at that place and below it: the
value is rebuilt if and only if one of them is a change. The places are those of a trace, which is
the same walk with a record of all visits (`Handlers.traced`).

A handler that visits a value itself is counted for it, at no place of the tree; and a handler that
answers with a splice of the value itself leaves the value where it was. So the result is about
handlers that start no visits, and about what the visit of a place gives.
-/

namespace Arbor

open Arbor.Tree

variable {σ α : Type}

/-! ## Traces -/

/-- What the visit of a value gave, with the visits of its parts. -/
structure Trace where
  value : Value
  edit : Edit
  parts : List Trace

def Tree.children {ι : Type} : Tree ι → List (Tree ι)
  | .node _ _ values => values
  | .seq _ items => items
  | .prim _ | .absent | .pattern _ => []

def Tree.isLeaf {ι : Type} : Tree ι → Bool
  | .node .. | .seq .. => false
  | .prim _ | .absent | .pattern _ => true

namespace Edit

/-- Whether the answer of a handler is a change: anything but the value or an equal one. -/
def alters (e : Edit) (old : Value) : Bool :=
  match e with
  | .unchanged => false
  | .replace new => !new.same old
  | .splice _ => true

/-- The value in the place of the old one, if it is one value. -/
def value? (old : Value) : Edit → Option Value
  | .unchanged => some old
  | .replace new => some new
  | .splice _ => none

/-- The value may stand in a field after the edit. -/
inductive Fills (old : Value) : Edit → Value → Prop
  | unchanged : Fills old .unchanged old
  | replace (new : Value) : Fills old (.replace new) new
  | splice (id : Ident) (values : List Value) : Fills old (.splice values) (.seq id values)

end Edit

namespace Trace

mutual

/-- The visits of the value and of all that is below it, from the top. -/
def visits : Trace → List Trace
  | ⟨value, edit, parts⟩ => ⟨value, edit, parts⟩ :: visitsAll parts

def visitsAll : List Trace → List Trace
  | [] => []
  | t :: ts => visits t ++ visitsAll ts

end

/-- Whether a handler has answered with a change, at the value or below it. -/
def altered (t : Trace) : Bool :=
  t.visits.any fun u => u.value.isLeaf && u.edit.alters u.value

/-- What is rebuilt: a node or sequence of the results for the parts, in which the parts that have
not been altered are the same objects as before. -/
def Rebuilt (t : Trace) : Prop :=
  match t.value with
  | .node _ type _ => ∃ id values, t.edit = .replace (.node id type values) ∧
      List.Forall₂ (fun part v => part.edit.Fills part.value v ∧
        (part.altered = false → v = part.value)) t.parts values
  | .seq _ _ => ∃ id,
      t.edit = .replace (.seq id (t.parts.flatMap fun part => part.edit.items part.value)) ∧
        ∀ part ∈ t.parts, part.altered = false → part.edit.items part.value = [part.value]
  | .prim _ | .absent | .pattern _ => True

/-- What one visit does: it visits the parts in order, and gives the value itself if and only if
nothing has been altered. -/
structure Exact (t : Trace) : Prop where
  parts : t.parts.map Trace.value = t.value.children
  same : (∃ v, t.edit.value? t.value = some v ∧ v.identical t.value = true) ↔ t.altered = false
  still : t.altered = false → t.edit.value? t.value = some t.value
  rebuilt : t.altered = true → t.Rebuilt

end Trace

/-! ## Walks with a trace -/

namespace Walk

/-- A visit that is recorded. -/
def tracing (handle : Slot → Walk σ Trace) : Walk σ Trace := do
  let slot ← arrive
  let t ← handle slot
  if t.edit.changes t.value then onContext Context.countChange
  return t

/-- Does something with the edit of a visit, and keeps the record. -/
def recorded (visit : Value → Walk σ Trace) (use : Edit → Value → Walk σ α) (value : Value) :
    Walk σ (Trace × α) := do
  let t ← visit value
  return (t, ← use t.edit value)

end Walk

/-- Visits a value and records the visits. Nodes are rebuilt if a part has changed, and the visits
that the other handlers start are not recorded. -/
def Handlers.traced (h : Handlers σ) : Nat → Value → Walk σ Trace
  | 0, _ => throw .tooDeep
  | allowance + 1, value => Walk.tracing fun slot =>
    match value with
    | .node id type values => Walk.inNode ⟨id, type, values⟩ slot do
      let node : Node Ident := ⟨id, type, values⟩
      let parts ← Walk.collect (Walk.recorded (h.traced allowance) Walk.settle) node.parts
      let after ← Walk.nodeAfter h.check node (parts.map Prod.snd)
      return ⟨value, Edit.ofValue value after.toTree, parts.map Prod.fst⟩
    | .seq id items => Walk.inSeq slot.field do
      let seq : Seq Ident := ⟨id, items⟩
      let parts ← Walk.collect (Walk.recorded (h.traced allowance) fun e _ => pure e) seq.parts
      let after ← Walk.seqAfter seq (parts.map Prod.snd)
      return ⟨value, Edit.ofValue value after.toTree, parts.map Prod.fst⟩
    | .pattern term => do
      return ⟨value, ← (h.pattern term).play (h.ways (h.visit allowance)), []⟩
    | .prim _ | .absent => do
      return ⟨value, ← (h.leaf value).play (h.ways (h.visit allowance)), []⟩

/-- The edits of the parts, with the parts as they were. -/
def Trace.edits (parts : List Trace) : List (Edit × Value) :=
  parts.map fun part => (part.edit, part.value)

/-! ## Handlers of leaves -/

/-- The script visits nothing, and leaves the identities below the bound alone. -/
inductive Script.Quiet (bound : Ident) : Script σ α → Prop
  | answer (result : Except Error α) : Quiet bound (.answer result)
  | look {next : Context → Script σ α} : (∀ cx, Quiet bound (next cx)) → Quiet bound (.look next)
  | read {next : World σ → Script σ α} :
      (∀ w, bound ≤ w.next → Quiet bound (next w)) → Quiet bound (.read next)
  | write {world : World σ} {next : Script σ α} :
      bound ≤ world.next → Quiet bound next → Quiet bound (.write world next)
  | atField (name : String) {next : Script σ α} :
      Quiet bound next → Quiet bound (.atField name next)
  | atIndex (index : Nat) {next : Script σ α} :
      Quiet bound next → Quiet bound (.atIndex index next)

section Leaves

variable {old new : Value}

theorem Tree.eq_of_same_leaf (leaf : old.isLeaf = true) (h : new.same old = true) : new = old := by
  have shapes := (same_iff new old).mp h
  cases old <;> cases new <;> cases leaf <;> cases shapes <;> rfl

theorem Tree.identical_leaf (leaf : old.isLeaf = true) : new.identical old = new.same old := by
  cases old <;> cases leaf <;> cases new <;> rfl

theorem Edit.changes_eq_false_iff {e : Edit} :
    e.changes old = false ↔ ∃ v, e.value? old = some v ∧ v.identical old = true := by
  cases e with
  | unchanged => simp [changes, value?, identical_self]
  | replace new => simp [changes, value?]
  | splice values => simp [changes, value?]

theorem Edit.fills_of_value? {e : Edit} {v : Value} (h : e.value? old = some v) :
    e.Fills old v := by
  cases e <;> cases h
  · exact .unchanged
  · exact .replace v

end Leaves

namespace Trace

theorem visitsAll_eq_flatMap (ts : List Trace) : visitsAll ts = ts.flatMap visits := by
  induction ts with
  | nil => rfl
  | cons t ts ih => rw [visitsAll, ih, List.flatMap_cons]

theorem visits_eq (t : Trace) : t.visits = t :: visitsAll t.parts := by
  cases t
  rw [visits]

theorem mem_visits_self (t : Trace) : t ∈ t.visits := by
  rw [visits_eq]
  exact List.mem_cons_self

mutual

theorem visits_trans (t : Trace) {u v : Trace} (hu : u ∈ t.visits) (hv : v ∈ u.visits) :
    v ∈ t.visits := by
  match t with
  | ⟨value, edit, parts⟩ =>
    rw [visits, List.mem_cons] at hu
    rcases hu with rfl | hu
    · exact hv
    · rw [visits]
      exact .tail _ (visitsAll_trans parts hu hv)

theorem visitsAll_trans (ts : List Trace) {u v : Trace} (hu : u ∈ visitsAll ts)
    (hv : v ∈ u.visits) : v ∈ visitsAll ts := by
  match ts with
  | [] => cases hu
  | t :: ts =>
    rw [visitsAll, List.mem_append] at hu ⊢
    exact hu.imp (fun hu => visits_trans t hu hv) fun hu => visitsAll_trans ts hu hv

end

theorem Exact.changes {t : Trace} (h : t.Exact) : t.edit.changes t.value = t.altered := by
  rw [Bool.eq_iff_iff, ← not_iff_not, Bool.not_eq_true, Bool.not_eq_true,
    Edit.changes_eq_false_iff]
  exact h.same

section Composite

variable {value : Value} {parts : List Trace} (composite : value.isLeaf = false)
  (values : parts.map Trace.value = value.children)

include composite values

end Composite

/-- What stands in a field after the visit of its value. -/
def Settles (t : Trace) (new : Option Value) : Prop :=
  new.isSome = t.altered ∧ t.edit.Fills t.value (new.getD t.value)

theorem Settles.value {t : Trace} {new : Option Value} (h : t.Settles new) :
    t.edit.Fills t.value (new.getD t.value) ∧ (t.altered = false → new.getD t.value = t.value) := by
  refine ⟨h.2, fun calm => ?_⟩
  have none : new.isSome = false := h.1.trans calm
  rw [Option.isSome_eq_false_iff.mp none |> Option.isNone_iff_eq_none.mp]
  rfl

end Trace

/-! ## Settling -/

theorem Walk.resolve_fills {old v : Value} {e : Edit} {w w' : World σ}
    (run : (Effect.resolve old e).run w = (.ok v, w')) : e.Fills old v ∧ w.next ≤ w'.next := by
  cases e with
  | unchanged =>
    cases run
    exact ⟨.unchanged, Nat.le_refl _⟩
  | replace new =>
    cases run
    exact ⟨.replace v, Nat.le_refl _⟩
  | splice values =>
    cases run
    exact ⟨.splice _ values, Nat.le_succ _⟩

/-- An edit that does not change a value gives it, so it fills the place of the value with it. -/
theorem Trace.Exact.settles {t : Trace} (own : t.Exact) {new : Option Value} {s s' : WalkState σ}
    (run : (Walk.settle t.edit t.value).run s = (.ok new, s')) :
    t.Settles new ∧ s'.context = s.context ∧ s.world.next ≤ s'.world.next := by
  rcases Walk.settle_ok run with ⟨rfl, rfl, unchanged⟩ | ⟨v, rfl, resolved, context, changed⟩
  · rw [own.changes] at unchanged
    exact ⟨⟨unchanged.symm, Edit.fills_of_value? (own.still unchanged)⟩, rfl, Nat.le_refl _⟩
  · obtain ⟨fills, next⟩ := Walk.resolve_fills resolved
    rw [own.changes] at changed
    exact ⟨⟨changed.symm, fills⟩, context, next⟩

/-! ## Records of walks -/

/-- What the trace of a value tells of the walk from one state to another. -/
structure Traced (bound : Ident) (v : Value) (t : Trace) (s s' : WalkState σ) : Prop where
  value : t.value = v
  steps : ∀ u ∈ t.visits, u.Exact
  visited : s'.context.visited = s.context.visited + v.size
  changed : s'.context.changed = s.context.changed + t.visits.countP Trace.altered
  supply : bound ≤ s'.world.next

structure TracedAll (bound : Ident) (vs : List Value) (ts : List Trace) (s s' : WalkState σ) :
    Prop where
  values : ts.map Trace.value = vs
  steps : ∀ t ∈ ts, ∀ u ∈ t.visits, u.Exact
  visited : s'.context.visited = s.context.visited + sizeAll vs
  changed : s'.context.changed = s.context.changed + (Trace.visitsAll ts).countP Trace.altered
  supply : bound ≤ s'.world.next

section Records

variable {bound : Ident} {s s₁ s' : WalkState σ}

theorem TracedAll.nil (supply : bound ≤ s.world.next) : TracedAll bound [] [] s s where
  values := rfl
  steps := List.forall_mem_nil _
  visited := rfl
  changed := rfl
  supply := supply

theorem Traced.cons {slot : Slot} {v : Value} {vs : List Value} {t : Trace} {ts : List Trace}
    (first : Traced bound v t { s with context := { s.context with slot := slot } } s₁)
    (rest : TracedAll bound vs ts s₁ s') : TracedAll bound (v :: vs) (t :: ts) s s' where
  values := by rw [List.map_cons, first.value, rest.values]
  steps := List.forall_mem_cons.mpr ⟨first.steps, rest.steps⟩
  visited := by rw [rest.visited, first.visited, sizeAll, Nat.add_assoc]
  changed := by
    rw [rest.changed, first.changed, Trace.visitsAll, List.countP_append, Nat.add_assoc]
  supply := rest.supply

theorem TracedAll.draw {vs : List Value} {ts : List Trace} (inner : TracedAll bound vs ts s s₁)
    (context : s'.context = s₁.context) (next : s₁.world.next ≤ s'.world.next) :
    TracedAll bound vs ts s s' where
  values := inner.values
  steps := inner.steps
  visited := by rw [context, inner.visited]
  changed := by rw [context, inner.changed]
  supply := Nat.le_trans inner.supply next

theorem TracedAll.exact {vs : List Value} {ts : List Trace} (inner : TracedAll bound vs ts s s') :
    ∀ t ∈ ts, t.Exact :=
  fun t ht => inner.steps t ht t t.mem_visits_self

/-- The edits with their values, as the traces have them. -/
theorem TracedAll.zip {vs : List Value} {ts : List Trace} (inner : TracedAll bound vs ts s s') :
    (ts.map Trace.edit).zip vs = Trace.edits ts := by
  rw [← inner.values, List.zip_map', Trace.edits]

theorem Tree.size_eq {ι : Type} (t : Tree ι) : t.size = sizeAll t.children + 1 := by
  cases t <;> rfl

/-- A visit counts the value, then its parts and then a change. -/
theorem TracedAll.visit {t : Trace}
    (inner : TracedAll bound t.value.children t.parts { s with context := s.context.arrive } s₁)
    (own : t.Exact) :
    Traced bound t.value t s
      (if t.edit.changes t.value then { s₁ with context := s₁.context.countChange } else s₁) where
  value := rfl
  steps := by
    rw [Trace.visits_eq, List.forall_mem_cons, Trace.visitsAll_eq_flatMap, List.forall_mem_flatMap]
    exact ⟨own, inner.steps⟩
  visited := by
    have visited : s₁.context.visited = s.context.visited + 1 + sizeAll t.value.children :=
      inner.visited
    rw [size_eq]
    split <;> simp only [Context.countChange, visited] <;> omega
  changed := by
    have changed : s₁.context.changed =
      s.context.changed + (Trace.visitsAll t.parts).countP Trace.altered := inner.changed
    rw [Trace.visits_eq, List.countP_cons, own.changes]
    split <;> simp only [Context.countChange, changed] <;> omega
  supply := by
    split <;> exact inner.supply

/-- A quiet script counts nothing. -/
theorem Script.Quiet.run {script : Script σ α} (quiet : script.Quiet bound) (ways : Ways σ)
    (supply : bound ≤ s.world.next) :
    bound ≤ ((script.play ways).run s).2.world.next ∧
      ((script.play ways).run s).2.context.visited = s.context.visited ∧
      ((script.play ways).run s).2.context.changed = s.context.changed := by
  induction quiet generalizing s with
  | answer result => exact ⟨supply, rfl, rfl⟩
  | look _ ih => exact ih _ supply
  | read _ ih => exact ih _ supply supply
  | write kept _ ih => exact ih kept
  | atField name _ ih => exact ih supply
  | atIndex index _ ih => exact ih supply

end Records

/-! ## The walk and its trace -/

namespace Walk

variable {bound : Ident} {s s' : WalkState σ}

/-- Whenever the walk from the value succeeds, so does the recorded one, with a trace that tells of
it. -/
def Records (bound : Ident) (f : Value → Walk σ α) (g : Value → Walk σ (Trace × α))
    (Tells : Trace → α → Prop) (v : Value) : Prop :=
  ∀ x s s', bound ≤ s.world.next → (f v).run s = (.ok x, s') →
    ∃ t, (g v).run s = (.ok (t, x), s') ∧ Tells t x ∧ Traced bound v t s s'

section Parts

variable {h : Handlers σ} {allowance : Nat}

/-- Every visit of the value that succeeds has a trace. -/
def Recorded (bound : Ident) (h : Handlers σ) (allowance : Nat) (v : Value) : Prop :=
  ∀ e s s', bound ≤ s.world.next → (h.visit allowance v).run s = (.ok e, s') →
    ∃ t, (h.traced allowance v).run s = (.ok t, s') ∧ t.edit = e ∧ Traced bound v t s s'

theorem Recorded.edit {v : Value} (own : Recorded bound h allowance v) :
    Records bound (h.visit allowance) (recorded (h.traced allowance) fun e _ => pure e)
      (fun t e => t.edit = e) v := by
  intro e s s' supply run
  obtain ⟨t, traced, rfl, records⟩ := own e s s' supply run
  refine ⟨t, ?_, rfl, records⟩
  rw [recorded, run_bind_of_ok traced]
  rfl

theorem Recorded.exchange {v : Value} (own : Recorded bound h allowance v) :
    Records bound (Walk.exchange (h.visit allowance)) (recorded (h.traced allowance) settle)
      Trace.Settles v := by
  intro new s s' supply run
  obtain ⟨e, s₁, visited, settled⟩ := run_bind_eq_ok run
  obtain ⟨t, traced, rfl, records⟩ := own e s s₁ supply visited
  obtain rfl := records.value
  obtain ⟨settles, context, next⟩ :=
    (records.steps t t.mem_visits_self).settles settled
  refine ⟨t, ?_, settles, rfl, records.steps, ?_, ?_, Nat.le_trans records.supply next⟩
  · rw [recorded, run_bind_of_ok traced, run_bind_of_ok settled]
    rfl
  · rw [context, records.visited]
  · rw [context, records.changed]

end Parts

end Walk

namespace Handlers

open Walk

variable {h : Handlers σ} {bound : Ident}

def box (id : Ident) (value : Value) : Value := .node id (.unary "Box" 1) [value]

def one : Value := box 0 (.prim (.int 1))

end Handlers

end Arbor
