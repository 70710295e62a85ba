import Arbor.Traversal.Visit
import Arbor.Traversal.Visitor

/-!
# Loops over parts

A walk goes through the parts of a node or sequence with something to carry: the copy of the values
that it has begun, or nothing. Here the carrying is taken out. A loop is a plain pass that collects
what each part gives (`Walk.collect`), followed by a function of the list that it has got
(`overParts_eq`). So a node is rebuilt, if at all, from its values with new ones over some of them
(`descend_eq`), and a sequence from the items before the first change and from what the edits give
after it (`each_eq`).
-/

namespace Arbor

variable {σ α β : Type}

namespace Walk

/-! ## Plain passes -/

/-- Goes through parts in order and collects what their values give. -/
def collect (f : Value → Walk σ α) : List Part → Walk σ (List α)
  | [] => return []
  | part :: rest => do
    onContext fun cx => cx.announce part.place
    let x ← f part.value
    let xs ← collect f rest
    return x :: xs

/-- A loop whose steps each get something from the value of a part, and then only change what is
carried, can get all of that first. -/
theorem overParts_eq {f : Value → Walk σ α} {step : Part → β → Walk σ β}
    {update : Part → β → α → β}
    (h : ∀ part b, step part b = f part.value >>= fun x => pure (update part b x))
    (parts : List Part) (b : β) :
    overParts step parts b = collect f parts >>= fun xs =>
      pure ((parts.zip xs).foldl (fun b p => update p.1 b p.2) b) := by
  induction parts generalizing b with
  | nil => simp only [overParts, collect, pure_bind, List.zip_nil_left, List.foldl_nil]
  | cons part rest ih =>
    simp only [overParts, collect, h, ih, bind_assoc, pure_bind, List.zip_cons_cons,
      List.foldl_cons]

theorem collect_bind_congr {f : Value → Walk σ α} {parts : List Part} {g g' : List α → Walk σ β}
    (h : ∀ xs, xs.length = parts.length → g xs = g' xs) :
    collect f parts >>= g = collect f parts >>= g' := by
  induction parts generalizing g g' with
  | nil =>
    simp only [collect, pure_bind]
    exact h [] rfl
  | cons part rest ih =>
    simp only [collect, bind_assoc, pure_bind]
    refine bind_congr fun _ => bind_congr fun x => ih fun xs len => h (x :: xs) ?_
    exact congrArg Nat.succ len

/-! ## Fields -/

/-- What the value of a part is exchanged for by an edit, if that changes it. -/
def settle (edit : Edit) (old : Value) : Walk σ (Option Value) := do
  if edit.changes old then return some (← ofEffect (Effect.resolve old edit)) else return none

def exchange (visit : Value → Walk σ Edit) (old : Value) : Walk σ (Option Value) :=
  visit old >>= fun edit => settle edit old

/-- Values with new ones over some of them. -/
def overlay : List (Option Value) → List Value → List Value
  | new :: news, old :: olds => new.getD old :: overlay news olds
  | _, olds => olds

def nodeAfter (check : Tree.NodeCheck) (node : Node Ident) (news : List (Option Value)) :
    Walk σ (Node Ident) :=
  if news.any Option.isSome then ofEffect (Effect.rebuild check node (overlay news node.values))
  else return node

/-- What a field does to the copy of the values. -/
def exchanged (node : Node Ident) (part : Part) (values : Option (List Value)) :
    Option Value → Option (List Value)
  | some new => some ((values.getD node.values).set part.index new)
  | none => values

theorem descendStep_eq (visit : Value → Walk σ Edit) (node : Node Ident) (part : Part)
    (values : Option (List Value)) :
    descendStep visit node part values =
      exchange visit part.value >>= fun new => pure (exchanged node part values new) := by
  rw [descendStep, exchange, bind_assoc]
  refine bind_congr fun edit => ?_
  rw [settle]
  split <;> simp only [bind_assoc, pure_bind, exchanged]

section Fields

/-- The parts of a node from a position on. -/
def fieldParts (fields : List Field) (values : List Value) (start : Nat) : List Part :=
  ((fields.zip values).zipIdx start).map fun field =>
    ⟨field.2, .field field.1.1.name, field.1.2⟩

theorem fieldParts_cons (field : Field) (fields : List Field) (value : Value) (values : List Value)
    (start : Nat) :
    fieldParts (field :: fields) (value :: values) start =
      ⟨start, .field field.name, value⟩ :: fieldParts fields values (start + 1) :=
  rfl

variable {fields : List Field} {rest : List Value} {news : List (Option Value)}

/-- Once the copy has begun, every new value is put in its place. -/
theorem foldl_exchanged_some (node : Node Ident) (done : List Value)
    (len : news.length = (fields.zip rest).length) :
    ((fieldParts fields rest done.length).zip news).foldl
        (fun values p => exchanged node p.1 values p.2) (some (done ++ rest)) =
      some (done ++ overlay news rest) := by
  induction news generalizing fields rest done with
  | nil =>
    rw [List.zip_nil_right]
    rfl
  | cons new news ih =>
    match fields, rest, len with
    | field :: fields, value :: rest, len =>
      have grown (v : Value) : done.length + 1 = (done ++ [v]).length := by simp
      have stored : exchanged node ⟨done.length, .field field.name, value⟩
          (some (done ++ value :: rest)) new = some (done ++ [new.getD value] ++ rest) := by
        cases new <;> simp [exchanged]
      rw [fieldParts_cons, List.zip_cons_cons, List.foldl_cons, overlay,
        List.append_cons done (new.getD value), stored, grown (new.getD value)]
      exact ih _ (Nat.succ.inj len)

/-- The copy begins with the first new value. -/
theorem foldl_exchanged_none {node : Node Ident} {done : List Value}
    (values : node.values = done ++ rest)
    (len : news.length = (fields.zip rest).length) :
    ((fieldParts fields rest done.length).zip news).foldl
        (fun values p => exchanged node p.1 values p.2) none =
      if news.any Option.isSome then some (done ++ overlay news rest) else none := by
  induction news generalizing fields rest done with
  | nil =>
    rw [List.zip_nil_right]
    rfl
  | cons new news ih =>
    match fields, rest, len with
    | field :: fields, value :: rest, len =>
      have grown (v : Value) : done.length + 1 = (done ++ [v]).length := by simp
      rw [fieldParts_cons, List.zip_cons_cons, List.foldl_cons, overlay,
        List.append_cons done (new.getD value), grown (new.getD value)]
      cases new with
      | none => exact ih (values.trans (List.append_cons _ _ _)) (Nat.succ.inj len)
      | some v =>
        have stored : exchanged node ⟨done.length, .field field.name, value⟩ none (some v) =
            some (done ++ [v] ++ rest) := by simp [exchanged, values]
        rw [stored]
        exact foldl_exchanged_some node _ (Nat.succ.inj len)

end Fields

theorem descend_eq (check : Tree.NodeCheck) (visit : Value → Walk σ Edit) (node : Node Ident) :
    descend check visit node = collect (exchange visit) node.parts >>= nodeAfter check node := by
  rw [descend, overParts_eq (descendStep_eq visit node), bind_assoc]
  refine collect_bind_congr fun news len => ?_
  have len' : news.length = (node.type.fields.zip node.values).length := by
    simpa [Node.parts, Node.fields] using len
  have copied : (node.parts.zip news).foldl (fun values p => exchanged node p.1 values p.2) none =
      if news.any Option.isSome then some (overlay news node.values) else none :=
    foldl_exchanged_none (List.nil_append node.values).symm len'
  rw [pure_bind, nodeAfter, copied]
  cases news.any Option.isSome <;> rfl

/-! ## Items -/

def anyChange (edits : List (Edit × Value)) : Bool :=
  edits.any fun p => p.1.changes p.2

/-- What the edits of items give. The items before the first change are kept. -/
def spliced : List (Edit × Value) → List Value
  | [] => []
  | (edit, old) :: rest =>
    if edit.changes old then edit.items old ++ rest.flatMap fun p => p.1.items p.2
    else old :: spliced rest

def seqAfter (seq : Seq Ident) (edits : List Edit) : Walk σ (Seq Ident) :=
  if anyChange (edits.zip seq.items) then do
    return ⟨← ofEffect Effect.fresh, spliced (edits.zip seq.items)⟩
  else return seq

/-- What an item does to the copy of the items. -/
def appended (seq : Seq Ident) (part : Part) (items : Option (Array Value)) (edit : Edit) :
    Option (Array Value) :=
  if items.isNone && !edit.changes part.value then none
  else some (items.getD (seq.items.take part.index).toArray ++ edit.items part.value)

theorem eachStep_eq (visit : Value → Walk σ Edit) (seq : Seq Ident) (part : Part)
    (items : Option (Array Value)) :
    eachStep visit seq part items =
      visit part.value >>= fun edit => pure (appended seq part items edit) := by
  rw [eachStep]
  refine bind_congr fun edit => ?_
  rw [appended]
  split <;> rfl

section Items

def itemParts (items : List Value) (start : Nat) : List Part :=
  (items.zipIdx start).map fun item => ⟨item.2, .item item.2, item.1⟩

theorem itemParts_cons (item : Value) (items : List Value) (start : Nat) :
    itemParts (item :: items) start =
      ⟨start, .item start, item⟩ :: itemParts items (start + 1) :=
  rfl

variable {rest : List Value}

theorem foldl_appended_some (seq : Seq Ident) (start : Nat) (done : List Value)
    (edits : List Edit) :
    ((itemParts rest start).zip edits).foldl
        (fun items p => appended seq p.1 items p.2) (some done.toArray) =
      some (done ++ (edits.zip rest).flatMap fun p => p.1.items p.2).toArray := by
  induction edits generalizing rest done start with
  | nil => simp
  | cons edit edits ih =>
    cases rest with
    | nil => simp [itemParts]
    | cons item rest =>
      rw [itemParts_cons, List.zip_cons_cons, List.foldl_cons, List.zip_cons_cons,
        List.flatMap_cons, ← List.append_assoc]
      have next : appended seq ⟨start, .item start, item⟩ (some done.toArray) edit =
          some (done ++ edit.items item).toArray := by simp [appended]
      rw [next]
      exact ih (start + 1) _

theorem foldl_appended_none {seq : Seq Ident} {done : List Value}
    (items : seq.items = done ++ rest) (edits : List Edit) :
    ((itemParts rest done.length).zip edits).foldl
        (fun items p => appended seq p.1 items p.2) none =
      if anyChange (edits.zip rest) then some (done ++ spliced (edits.zip rest)).toArray
      else none := by
  induction edits generalizing rest done with
  | nil =>
    rw [List.zip_nil_right]
    rfl
  | cons edit edits ih =>
    cases rest with
    | nil => rfl
    | cons item rest =>
      rw [itemParts_cons, List.zip_cons_cons, List.foldl_cons, List.zip_cons_cons, anyChange,
        List.any_cons, spliced]
      cases changed : edit.changes item with
      | false =>
        have skipped : appended seq ⟨done.length, .item done.length, item⟩ none edit = none := by
          simp [appended, changed]
        have grown : done.length + 1 = (done ++ [item]).length := by simp
        rw [skipped, grown, Bool.false_or, if_neg Bool.false_ne_true,
          List.append_cons done item (spliced _)]
        exact ih (items.trans (List.append_cons _ _ _))
      | true =>
        have started : appended seq ⟨done.length, .item done.length, item⟩ none edit =
            some (done ++ edit.items item).toArray := by simp [appended, changed, items]
        rw [started, Bool.true_or, if_pos rfl, if_pos rfl, ← List.append_assoc]
        exact foldl_appended_some seq _ _ edits

end Items

theorem each_eq (visit : Value → Walk σ Edit) (seq : Seq Ident) :
    each visit seq = collect visit seq.parts >>= seqAfter seq := by
  rw [each, overParts_eq (eachStep_eq visit seq), bind_assoc]
  refine bind_congr fun edits => ?_
  have copied : (seq.parts.zip edits).foldl (fun items p => appended seq p.1 items p.2) none =
      if anyChange (edits.zip seq.items) then some (spliced (edits.zip seq.items)).toArray
      else none :=
    foldl_appended_none (List.nil_append seq.items).symm edits
  rw [pure_bind, seqAfter, copied]
  cases anyChange (edits.zip seq.items) <;> rfl

/-! ## Loops that carry nothing -/

theorem overParts_unit (visit : Value → Walk σ Unit) (parts : List Part) :
    overParts (fun part _ => visit part.value) parts () =
      collect visit parts >>= fun _ => pure () :=
  @overParts_eq _ _ _ visit _ (fun _ _ _ => ()) (fun _ _ => (bind_pure _).symm) parts ()

end Walk

end Arbor
