import Arbor.Proofs.Traversal.Walking

/-!
# Balance of walks

Visiting a node puts it on the stack of ancestors, and visiting a sequence sets the field being
walked. Both are taken back when the visit ends, and a visit may end by a failure far below. So the
states before and after a walk are compared (`Balanced`): whatever a handler does, which values it
visits and which failures it catches, it has its own ancestors and field again after each move.
-/

namespace Arbor

variable {σ α : Type}

/-- The two states have the same ancestors and walk the sequence of the same field. -/
structure Balanced (s s' : WalkState σ) : Prop where
  stack : s'.context.stack = s.context.stack
  seqField : s'.context.seqField = s.context.seqField

instance : Std.Refl (@Balanced σ) where
  refl _ := ⟨rfl, rfl⟩

instance : Trans (@Balanced σ) (@Balanced σ) (@Balanced σ) where
  trans first second :=
    ⟨second.stack.trans first.stack, second.seqField.trans first.seqField⟩

/-! ## Moves -/

namespace Walk

theorem onContext_balanced {f : Context → Context} (stack : ∀ cx, (f cx).stack = cx.stack)
    (seqField : ∀ cx, (f cx).seqField = cx.seqField) :
    Leads Balanced (onContext f : Walk σ Unit) :=
  fun s => ⟨stack s.context, seqField s.context⟩

theorem ofEffect_balanced (a : Effect σ α) : Leads Balanced (ofEffect a) :=
  fun _ => ⟨rfl, rfl⟩

theorem observe_balanced {walk : Walk σ α} (h : Leads Balanced walk) :
    Leads Balanced (observe walk) := by
  intro s
  rw [state_observe]
  exact h s

/-- The frame that is put on the stack is the one that is taken off: the walk has left those below
it, and it, as they were. -/
theorem inNode_balanced (node : Node Ident) (slot : Slot) {walk : Walk σ α}
    (h : Leads Balanced walk) : Leads Balanced (inNode node slot walk) := by
  intro s
  have inner := h { s with context := s.context.enter node slot }
  exact ⟨congrArg List.tail inner.stack, inner.seqField⟩

theorem inSeq_balanced (field : Option String) {walk : Walk σ α} (h : Leads Balanced walk) :
    Leads Balanced (inSeq field walk) := by
  intro s
  have inner := h { s with context := { s.context with seqField := field } }
  exact ⟨inner.stack, rfl⟩

/-- Every move of a walk is balanced if those that it is made of are. -/
theorem congruent_balanced (check : Tree.NodeCheck) :
    Congruent check fun α (walk _ : Walk σ α) => Leads Balanced walk where
  pure := leads_pure
  bind := Leads.bind
  move _ stack seqField := onContext_balanced stack seqField
  resolve _ _ := ofEffect_balanced _
  rebuild _ _ := ofEffect_balanced _
  fresh := ofEffect_balanced _
  answer _ _ := ⟨rfl, rfl⟩
  state _ := ⟨rfl, rfl⟩
  write _ _ := ⟨rfl, rfl⟩
  observe := observe_balanced
  inNode node slot := inNode_balanced node slot
  inSeq field := inSeq_balanced field

end Walk

/-! ## Visits -/

open Walk

namespace Handlers

theorem visit_balanced (h : Handlers σ) (allowance : Nat) (value : Value) :
    Leads Balanced (h.visit allowance value) := by
  induction allowance generalizing value with
  | zero => exact fun _ => ⟨rfl, rfl⟩
  | succ allowance ih => exact (congruent_balanced h.check).visit (m := allowance) ih value

theorem script_balanced (h : Handlers σ) (allowance : Nat) (script : Script σ α) :
    Leads Balanced (script.play (h.ways (h.visit allowance))) :=
  (congruent_balanced h.check).script _ (h.visit allowance) (h.visit_balanced allowance) script

/-- The handler of a node finds it on top of its ancestors, at the place announced for it. -/
theorem result_visit_node (h : Handlers σ) (allowance : Nat) (node : Node Ident)
    (s : WalkState σ) :
    ((h.visit (allowance + 1) node.toTree).run s).1 =
      (((h.node node).play (h.ways (h.visit allowance))).run
        { s with context := s.context.arrive.enter node s.context.slot }).1 := by
  have handled : ((h.handle (h.ways (h.visit allowance)) s.context.slot node.toTree).run
      { s with context := s.context.arrive }).1 =
      (((h.node node).play (h.ways (h.visit allowance))).run
        { s with context := s.context.arrive.enter node s.context.slot }).1 := rfl
  rw [run_visit, ← handled]
  rcases (h.handle (h.ways (h.visit allowance)) s.context.slot node.toTree).run
    { s with context := s.context.arrive } with ⟨_ | edit, after⟩ <;> rfl

end Handlers

namespace Visitor

theorem visit_balanced (x : Visitor σ) (allowance : Nat) (value : Value) :
    Leads Balanced (x.visit allowance value) := by
  induction allowance generalizing value with
  | zero => exact fun _ => ⟨rfl, rfl⟩
  | succ allowance ih =>
    exact (congruent_balanced NodeType.validate).visitor x (m := allowance) ih value

theorem tour_balanced (x : Visitor σ) (allowance : Nat) (tour : Tour σ) :
    Leads Balanced (tour.play (x.visit allowance)) :=
  (congruent_balanced NodeType.validate).tour _ (x.visit allowance) (x.visit_balanced allowance)
    tour

end Visitor

/-- The ancestors of what a node's handler visits are the node and its own ancestors, and whatever
the handlers do, a visit has restored the ancestors and the field of the sequence being walked when
it ends, with a result or with a failure. So has every part of a handler that goes on after a visit,
and no ancestors are left of a walk in a fresh context. This is so of handlers that transform a tree
and of those of a visitor. -/
theorem visit_restores (h : Handlers σ) (x : Visitor σ) (allowance : Nat) :
    ((∀ value : Value, Leads Balanced (h.visit allowance value)) ∧
      (∀ (node : Node Ident) (s : WalkState σ),
        ((h.visit (allowance + 1) node.toTree).run s).1 =
          (((h.node node).play (h.ways (h.visit allowance))).run
            { s with context := s.context.arrive.enter node s.context.slot }).1) ∧
      (∀ (α : Type) (script : Script σ α),
        Leads Balanced (script.play (h.ways (h.visit allowance)))) ∧
      ∀ (tree : Value) (w : World σ), (h.walk allowance tree w).1.2.depth = 0) ∧
    (∀ value : Value, Leads Balanced (x.visit allowance value)) ∧
      (∀ (node : Node Ident) (s : WalkState σ),
        ((x.visit (allowance + 1) node.toTree).run s).1 =
          (((x.node node).play (x.visit allowance)).run
            { s with context := s.context.arrive.enter node s.context.slot }).1) ∧
      (∀ tour : Tour σ, Leads Balanced (tour.play (x.visit allowance))) ∧
      ∀ (tree : Value) (w : World σ), (x.walk allowance tree w).1.2.depth = 0 := by
  refine ⟨⟨h.visit_balanced allowance, h.result_visit_node allowance,
    fun _ => h.script_balanced allowance, fun tree w => ?_⟩,
    x.visit_balanced allowance, fun node s => rfl, x.tour_balanced allowance, fun tree w => ?_⟩
  · exact congrArg List.length (h.visit_balanced allowance tree ⟨{}, w⟩).stack
  · exact congrArg List.length (x.visit_balanced allowance tree ⟨{}, w⟩).stack

end Arbor
