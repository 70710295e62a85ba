import Mathlib
import Arbor.Proofs.Traversal.Balance
import Arbor.Proofs.Traversal.Sharing

/-!
# The places that walks report

A walk announces the place of a value before it visits it: a field of the node above it, or a
position in the sequence around it. A place is used once and then forgotten, and a sequence hands
its own field on to its items.

Where a value really is can be read off its address, the positions of parts on the way from the
root. The address decides which nodes enclose the value, in which field of the innermost of them it
lies, and at which position of a sequence (`Tree.framesAt`). What a handler sees is what the address
says, and the addresses of the nodes come in lexicographic order (`walk_reports`).
-/

namespace Arbor

/-- The positions of parts, one inside the other, from the root of a tree. -/
abbrev Address := List Nat

namespace Tree

variable {ι : Type}

def at? : Tree ι → Address → Option (Tree ι)
  | t, [] => some t
  | t, i :: rest => t.children[i]?.bind fun part => part.at? rest

def nodeAt? (t : Tree ι) (a : Address) : Option (Node ι) :=
  (t.at? a).bind node?

/-- The innermost node above an address, with its own address. -/
def above? (t : Tree ι) (a : Address) : Option (Address × Node ι) :=
  a.inits.dropLast.reverse.findSome? fun b => (t.nodeAt? b).map fun n => (b, n)

/-- The field of the innermost node above an address in which the address lies. -/
def fieldAt (t : Tree ι) (a : Address) : Option String :=
  (t.above? a).bind fun (b, n) => a[b.length]?.bind fun i => n.type.fields[i]?.map Field.name

/-- The position in the sequence that directly contains an address, if one does. -/
def indexAt (t : Tree ι) (a : Address) : Option Nat :=
  if (t.at? a.dropLast).any isSeq then a.getLast? else none

def frameAt? (t : Value) (a : Address) : Option Frame :=
  (t.nodeAt? a).map fun n => ⟨n, t.fieldAt a, t.indexAt a⟩

/-- The frames of the nodes on the way to an address, the outermost first. -/
def framesAt (t : Value) (a : Address) : List Frame :=
  a.inits.filterMap t.frameAt?

def framesAbove (t : Value) (a : Address) : List Frame :=
  a.inits.dropLast.filterMap t.frameAt?

def slotAt (t : Value) (a : Address) : Slot :=
  ⟨t.fieldAt a, t.indexAt a⟩

/-- The node at an address, with its frame and those of the nodes around it. -/
def entry? (t : Value) (a : Address) : Option (Node Ident × List Frame) :=
  (t.nodeAt? a).map fun n => (n, t.framesAt a)

/-! ## Parts -/

theorem at?_append (t : Tree ι) (a b : Address) :
    t.at? (a ++ b) = (t.at? a).bind fun u => u.at? b := by
  induction a generalizing t with
  | nil => rfl
  | cons i a ih =>
    rw [List.cons_append, at?, at?]
    cases t.children[i]? with
    | none => rfl
    | some part => exact ih part

theorem at?_part {t u : Tree ι} {a : Address} (h : t.at? a = some u) (i : Nat) :
    t.at? (a ++ [i]) = u.children[i]? := by
  rw [at?_append, h]
  exact Option.bind_fun_some _

/-- What a tree passes on to its parts holds at all of its addresses. -/
theorem of_at? {P : Tree ι → Prop} (down : ∀ t, P t → ∀ u ∈ t.children, P u) {t u : Tree ι}
    (h : P t) {a : Address} (lies : t.at? a = some u) : P u := by
  induction a generalizing t with
  | nil =>
    cases lies
    exact h
  | cons i a ih =>
    obtain ⟨part, element, inner⟩ := Option.bind_eq_some_iff.mp lies
    exact ih (down t h part (List.mem_of_getElem? element)) inner

theorem inits_snoc (a : Address) (i : Nat) : (a ++ [i]).inits = a.inits ++ [a ++ [i]] := by
  rw [List.inits_append]
  rfl

theorem inits_eq (a : Address) : a.inits = a.inits.dropLast ++ [a] := by
  rcases List.eq_nil_or_concat a with rfl | ⟨b, i, rfl⟩
  · rfl
  · rw [List.concat_eq_append, inits_snoc, List.dropLast_concat]

theorem length_lt_of_above {a b : Address} (h : b ∈ a.inits.dropLast) : b.length < a.length := by
  rcases List.eq_nil_or_concat a with rfl | ⟨c, i, rfl⟩
  · cases h
  · rw [List.concat_eq_append, inits_snoc, List.dropLast_concat, List.mem_inits] at h
    rw [List.concat_eq_append, List.length_append]
    exact Nat.lt_succ_of_le h.length_le

theorem above?_snoc (t : Tree ι) (a : Address) (i : Nat) :
    t.above? (a ++ [i]) = ((t.nodeAt? a).map fun n => (a, n)).or (t.above? a) := by
  rw [above?, inits_snoc, List.dropLast_concat, inits_eq, List.reverse_append,
    List.reverse_singleton, List.singleton_append, List.findSome?_cons]
  cases t.nodeAt? a with
  | none => rfl
  | some n => rfl

/-- A value of a node lies in the field of that value. -/
theorem fieldAt_value {t : Tree ι} {a : Address} {n : Node ι} (h : t.nodeAt? a = some n) (i : Nat) :
    t.fieldAt (a ++ [i]) = n.type.fields[i]?.map Field.name := by
  rw [fieldAt, above?_snoc, h]
  simp

/-- An item of a sequence lies in the field of the sequence. -/
theorem fieldAt_item {t : Tree ι} {a : Address} (h : t.nodeAt? a = none) (i : Nat) :
    t.fieldAt (a ++ [i]) = t.fieldAt a := by
  rw [fieldAt, above?_snoc, h, fieldAt]
  change (t.above? a).bind _ = _
  cases found : t.above? a with
  | none => rfl
  | some p =>
    -- The node above is above the sequence too, so the position in it is the same.
    obtain ⟨b, member, own⟩ := List.exists_of_findSome?_eq_some found
    obtain ⟨n, -, rfl⟩ := Option.map_eq_some_iff.mp own
    have shorter := length_lt_of_above (List.mem_reverse.mp member)
    change ((a ++ [i])[b.length]?.bind _) = (a[b.length]?.bind _)
    rw [List.getElem?_append_left shorter]

theorem indexAt_part {t u : Tree ι} {a : Address} (h : t.at? a = some u) (i : Nat) :
    t.indexAt (a ++ [i]) = if u.isSeq then some i else none := by
  rw [indexAt, List.dropLast_concat, h, List.getLast?_concat]
  rfl

theorem slotAt_root (t : Value) : t.slotAt [] = {} := by
  have index : t.indexAt [] = none := ite_self none
  rw [slotAt, index]
  rfl

theorem framesAbove_part (t : Value) (a : Address) (i : Nat) :
    t.framesAbove (a ++ [i]) = t.framesAt a := by
  rw [framesAbove, inits_snoc, List.dropLast_concat, framesAt]

theorem framesAt_eq (t : Value) (a : Address) :
    t.framesAt a = t.framesAbove a ++ (t.frameAt? a).toList := by
  rw [framesAt, inits_eq, List.filterMap_append, framesAbove]
  cases frame : t.frameAt? a <;> simp [frame]

/-! ## Addresses in order -/

mutual

/-- The addresses of the nodes of a tree, each before those below it. -/
def addresses : Tree ι → List Address
  | .node _ _ values => [] :: addressesAll 0 values
  | .seq _ items => addressesAll 0 items
  | .prim _ | .absent | .pattern _ => []

def addressesAll : Nat → List (Tree ι) → List Address
  | _, [] => []
  | i, t :: ts => (addresses t).map (i :: ·) ++ addressesAll (i + 1) ts

end

theorem mem_addressesAll {ts : List (Tree ι)} {i : Nat} {a : Address} :
    a ∈ addressesAll i ts ↔ ∃ j t b, ts[j]? = some t ∧ b ∈ t.addresses ∧ a = (i + j) :: b := by
  induction ts generalizing i with
  | nil => simp [addressesAll]
  | cons t ts ih =>
    rw [addressesAll, List.mem_append, List.mem_map, ih]
    constructor
    · rintro (⟨b, hb, rfl⟩ | ⟨j, u, b, hu, hb, rfl⟩)
      · exact ⟨0, t, b, rfl, hb, rfl⟩
      · exact ⟨j + 1, u, b, hu, hb, by rw [Nat.add_right_comm, Nat.add_assoc]⟩
    · rintro ⟨j, u, b, hu, hb, rfl⟩
      cases j with
      | zero =>
        cases hu
        exact .inl ⟨b, hb, rfl⟩
      | succ j => exact .inr ⟨j, u, b, hu, hb, by rw [Nat.add_right_comm, Nat.add_assoc]⟩

theorem mem_parts {t : Tree ι} (h : ∀ u ∈ t.children, ∀ b, b ∈ u.addresses ↔ (u.nodeAt? b).isSome)
    (a : Address) :
    a ∈ addressesAll 0 t.children ↔ a ≠ [] ∧ (t.nodeAt? a).isSome := by
  rw [mem_addressesAll]
  constructor
  · rintro ⟨j, u, b, hu, hb, rfl⟩
    have inner := (h u (List.mem_of_getElem? hu) b).mp hb
    rw [Nat.zero_add, nodeAt?, at?, hu]
    exact ⟨List.cons_ne_nil _ _, inner⟩
  · rintro ⟨ne, some⟩
    cases a with
    | nil => exact absurd rfl ne
    | cons j b =>
      rw [nodeAt?, at?] at some
      cases hu : t.children[j]? with
      | none =>
        rw [hu] at some
        cases some
      | some u =>
        rw [hu] at some
        exact ⟨j, u, b, hu, (h u (List.mem_of_getElem? hu) b).mpr some, by rw [Nat.zero_add]⟩

theorem mem_addresses (t : Tree ι) (a : Address) : a ∈ t.addresses ↔ (t.nodeAt? a).isSome := by
  induction t using Tree.ind generalizing a with
  | node id type values ih =>
    have below : a ∈ addressesAll 0 values ↔ _ := mem_parts (t := .node id type values) ih a
    rw [addresses, List.mem_cons, below]
    cases a with
    | nil => simp [nodeAt?, at?, node?]
    | cons i a => simp
  | seq id items ih =>
    have below : a ∈ addressesAll 0 items ↔ _ := mem_parts (t := .seq id items) ih a
    rw [addresses, below]
    cases a with
    | nil => simp [nodeAt?, at?, node?]
    | cons i a => simp
  | prim p => cases a <;> simp [addresses, nodeAt?, at?, node?, children]
  | absent => cases a <;> simp [addresses, nodeAt?, at?, node?, children]
  | pattern p => cases a <;> simp [addresses, nodeAt?, at?, node?, children]

theorem sorted_addressesAll {ts : List (Tree ι)} (h : ∀ t ∈ ts, t.addresses.Pairwise (· < ·))
    (i : Nat) : (addressesAll i ts).Pairwise (· < ·) := by
  induction ts generalizing i with
  | nil => exact .nil
  | cons t ts ih =>
    rw [List.forall_mem_cons] at h
    rw [addressesAll, List.pairwise_append]
    refine ⟨?_, ih h.2 (i + 1), ?_⟩
    · exact h.1.map _ fun a b lt => List.cons_lt_cons_self.mpr lt
    · intro a ha b hb
      obtain ⟨c, -, rfl⟩ := List.mem_map.mp ha
      obtain ⟨j, u, d, -, -, rfl⟩ := mem_addressesAll.mp hb
      exact List.Lex.rel (by omega)

theorem sorted_addresses (t : Tree ι) : t.addresses.Pairwise (· < ·) := by
  induction t using Tree.ind with
  | node id type values ih =>
    rw [addresses, List.pairwise_cons]
    refine ⟨fun a ha => ?_, sorted_addressesAll ih 0⟩
    obtain ⟨j, u, b, -, -, rfl⟩ := mem_addressesAll.mp ha
    exact List.Lex.nil
  | seq id items ih => exact sorted_addressesAll ih 0
  | prim p => exact .nil
  | absent => exact .nil
  | pattern p => exact .nil

end Tree

/-! ## Walks that take note -/

open Walk

/-- What a handler of nodes finds when its turn comes. -/
abbrev Note := Node Ident × List Frame

/-- Notes every node with the frames around it, then visits its fields. -/
def Visitor.noting : Visitor (List Note) where
  node n := .look fun cx => .read fun w => .write { w with user := w.user ++ [(n, cx.path)] } <|
    .descend n .done

namespace Handlers

/-- Notes every node with the frames around it, then visits its fields. -/
def noting (answer : Node Ident → Node Ident → Edit) : Handlers (List Note) where
  node n :=
    .look fun cx => .read fun w => .write { w with user := w.user ++ [(n, cx.path)] } do
      let after ← Script.descending n
      return answer n after
  pattern _ := pure .unchanged
  leaf _ := pure .unchanged

def watching : Handlers (List Note) :=
  noting fun _ _ => .unchanged

/-- Makes every node anew from its fields, and so changes nothing. -/
def copying : Handlers (List Note) :=
  noting fun n after => Edit.ofValue n.toTree after.toTree

end Handlers

/-- Between the two states, the nodes at the addresses have been noted, and nothing else has
happened to the world. -/
structure Noted (t : Value) (addresses : List Address) (s s' : WalkState (List Note)) : Prop
    extends Balanced s s' where
  notes : ∃ notes, notes.map some = addresses.map t.entry? ∧
    s'.world = { s.world with user := s.world.user ++ notes }

/-- From the state, the walk gives the answer and notes the nodes at the addresses. -/
def Walk.NotesFrom {α : Type} (t : Value) (walk : Walk (List Note) α) (answer : α)
    (addresses : List Address) (s : WalkState (List Note)) : Prop :=
  ∃ s', walk.run s = (.ok answer, s') ∧ Noted t addresses s s'

/-- What starts from the part at the address, announced at its place, gives the answer and notes the
nodes in it. -/
def Walk.Notes {α : Type} (t : Value) (f : Value → Walk (List Note) α) (answer : α) (a : Address)
    (part : Value) : Prop :=
  ∀ s : WalkState (List Note), s.context.path = t.framesAbove a → s.context.slot = t.slotAt a →
    NotesFrom t (f part) answer (part.addresses.map (a ++ ·)) s

theorem Node.getElem?_parts {n : Node Ident} {i : Nat} {part : Part} (h : n.parts[i]? = some part) :
    n.values[i]? = some part.value ∧
      ∃ field, n.type.fields[i]? = some field ∧ part.place = .field field.name := by
  rw [parts, List.getElem?_map, List.getElem?_zipIdx] at h
  simp only [Option.map_map, Option.map_eq_some_iff, fields] at h
  obtain ⟨⟨field, value⟩, both, rfl⟩ := h
  obtain ⟨here, there⟩ := List.getElem?_zip_eq_some.mp both
  exact ⟨there, field, here, rfl⟩

theorem Seq.getElem?_parts {q : Seq Ident} {i : Nat} {part : Part} (h : q.parts[i]? = some part) :
    q.items[i]? = some part.value ∧ part.place = .item i := by
  rw [parts, List.getElem?_map, List.getElem?_zipIdx] at h
  simp only [Option.map_map, Option.map_eq_some_iff] at h
  obtain ⟨item, here, rfl⟩ := h
  exact ⟨here, by simp⟩

section Notes

variable {t : Value} {α : Type} {a : Address} {s s₁ s' : WalkState (List Note)}

theorem noted_nil (balanced : Balanced s s') (world : s'.world = s.world) : Noted t [] s s' where
  toBalanced := balanced
  notes := ⟨[], rfl, by rw [world, List.append_nil]⟩

theorem Noted.append {as bs : List Address} (first : Noted t as s s₁) (rest : Noted t bs s₁ s') :
    Noted t (as ++ bs) s s' where
  toBalanced := Trans.trans first.toBalanced rest.toBalanced
  notes := by
    obtain ⟨notes, entries, world⟩ := first.notes
    obtain ⟨notes', entries', world'⟩ := rest.notes
    refine ⟨notes ++ notes', ?_, ?_⟩
    · rw [List.map_append, List.map_append, entries, entries']
    · rw [world', world, List.append_assoc]

theorem Noted.path {as : List Address} (h : Noted t as s s') : s'.context.path = s.context.path :=
  congrArg List.reverse h.stack

namespace Walk

theorem NotesFrom.bind {β : Type} {walk : Walk (List Note) α} {next : α → Walk (List Note) β}
    {x : α} {y : β} {as : List Address} (first : NotesFrom t walk x as s)
    (then' : ∀ s', (next x).run s' = (.ok y, s')) : NotesFrom t (walk >>= next) y as s := by
  obtain ⟨s', ran, noted⟩ := first
  exact ⟨s', (run_bind_of_ok ran next).trans (then' s'), noted⟩

theorem Notes.exchange {visit : Value → Walk (List Note) Edit} {part : Value}
    (own : Notes t visit .unchanged a part) : Notes t (exchange visit) none a part :=
  fun s path slot => (own s path slot).bind fun _ => rfl

theorem Notes.announced {f : Value → Walk (List Note) α} {x : α} {part : Part} {k : Nat}
    (own : Notes t f x (a ++ [k]) part.value)
    (place : (s.context.announce part.place).slot = t.slotAt (a ++ [k]))
    (path : s.context.path = t.framesAt a) :
    ∃ s₁, (f part.value).run { s with context := s.context.announce part.place } = (.ok x, s₁) ∧
      Noted t ((part.value.addresses.map (k :: ·)).map (a ++ ·)) s s₁ := by
  have stack : (s.context.announce part.place).stack = s.context.stack := by
    cases part.place <;> rfl
  have seqField : (s.context.announce part.place).seqField = s.context.seqField := by
    cases part.place <;> rfl
  obtain ⟨s₁, visited, noted⟩ := own { s with context := s.context.announce part.place }
    ((congrArg List.reverse stack).trans (path.trans (t.framesAbove_part a k).symm)) place
  refine ⟨s₁, visited, ⟨noted.stack.trans stack, noted.seqField.trans seqField⟩, ?_⟩
  have addresses : (part.value.addresses.map (k :: ·)).map (a ++ ·) =
      part.value.addresses.map (a ++ [k] ++ ·) := by
    rw [List.map_map]
    exact List.map_congr_left fun b _ => (List.append_cons a k b)
  rw [addresses]
  exact noted.notes

theorem collect_notes {f : Value → Walk (List Note) α} {x : α} {parts : List Part} {k : Nat}
    (own : ∀ i part, parts[i]? = some part → Notes t f x (a ++ [k + i]) part.value)
    (place : ∀ i part, parts[i]? = some part → ∀ cx : Context,
      cx.seqField = s.context.seqField → (cx.announce part.place).slot = t.slotAt (a ++ [k + i]))
    (path : s.context.path = t.framesAt a) :
    NotesFrom t (collect f parts) (parts.map fun _ => x)
      ((Tree.addressesAll k (parts.map Part.value)).map (a ++ ·)) s := by
  induction parts generalizing k s with
  | nil => exact ⟨s, rfl, noted_nil ⟨rfl, rfl⟩ rfl⟩
  | cons part parts ih =>
    obtain ⟨s₁, visited, first⟩ := (own 0 part rfl).announced (place 0 part rfl _ rfl) path
    obtain ⟨s', others, rest⟩ := ih (k := k + 1)
      (fun i part hp => Nat.add_right_comm k 1 i ▸ own (i + 1) part hp)
      (fun i part hp cx same => Nat.add_right_comm k 1 i ▸
        place (i + 1) part hp cx (same.trans first.seqField))
      (first.path.trans path)
    refine ⟨s', ?_, ?_⟩
    · have placed : (onContext fun cx => cx.announce part.place).run s =
          (.ok (), { s with context := s.context.announce part.place }) := rfl
      rw [collect, run_bind_of_ok placed, run_bind_of_ok visited, run_bind_of_ok others]
      rfl
    · rw [List.map_cons, Tree.addressesAll, List.map_append]
      exact first.append rest

/-- The places announced for the fields of a node are those that the addresses tell. -/
theorem collect_fields_notes {f : Value → Walk (List Note) α} {x : α} (node : Node Ident)
    (lies : t.at? a = some node.toTree) (full : node.toTree.Full)
    (own : ∀ i v, node.values[i]? = some v → Notes t f x (a ++ [i]) v)
    (path : s.context.path = t.framesAt a) :
    NotesFrom t (collect f node.parts) (node.parts.map fun _ => x)
      ((Tree.addressesAll 0 node.values).map (a ++ ·)) s := by
  have here : t.nodeAt? a = some node := by
    rw [Tree.nodeAt?, lies]
    rfl
  rw [← Node.values_of_parts (Tree.full_node.mp full).1]
  refine collect_notes (fun i part hp => ?_) (fun i part hp cx _ => ?_) path
  · rw [Nat.zero_add]
    exact own i _ (Node.getElem?_parts hp).1
  · obtain ⟨-, field, at', place⟩ := Node.getElem?_parts hp
    rw [Nat.zero_add, Tree.slotAt, Tree.fieldAt_value here, Tree.indexAt_part lies, at', place]
    rfl

theorem collect_items_notes {f : Value → Walk (List Note) α} {x : α} {seq : Seq Ident}
    (lies : t.at? a = some seq.toTree)
    (own : ∀ i v, seq.items[i]? = some v → Notes t f x (a ++ [i]) v)
    (field : s.context.seqField = t.fieldAt a) (path : s.context.path = t.framesAt a) :
    NotesFrom t (collect f seq.parts) (seq.parts.map fun _ => x)
      ((Tree.addressesAll 0 seq.items).map (a ++ ·)) s := by
  have here : t.nodeAt? a = none := by
    rw [Tree.nodeAt?, lies]
    rfl
  rw [← Seq.values_of_parts seq]
  refine collect_notes (fun i part hp => ?_) (fun i part hp cx same => ?_) path
  · rw [Nat.zero_add]
    exact own i _ (Seq.getElem?_parts hp).1
  · rw [Nat.zero_add, Tree.slotAt, Tree.fieldAt_item here, Tree.indexAt_part lies, ← field, ← same,
      (Seq.getElem?_parts hp).2]
    rfl

section Edits

variable {visit : Value → Walk (List Note) Edit}

theorem descend_notes {check : Tree.NodeCheck} (node : Node Ident)
    (lies : t.at? a = some node.toTree) (full : node.toTree.Full)
    (own : ∀ i v, node.values[i]? = some v → Notes t visit .unchanged (a ++ [i]) v)
    (path : s.context.path = t.framesAt a) :
    NotesFrom t (descend check visit node) node
      ((Tree.addressesAll 0 node.values).map (a ++ ·)) s := by
  rw [descend_eq]
  have exchanges (i v hv) := (own i v hv).exchange
  refine (collect_fields_notes node lies full exchanges path).bind fun s' => ?_
  rw [nodeAfter_unchanged (List.forall_mem_map.mpr fun _ _ => rfl)]
  rfl

theorem each_notes {seq : Seq Ident} (lies : t.at? a = some seq.toTree)
    (own : ∀ i v, seq.items[i]? = some v → Notes t visit .unchanged (a ++ [i]) v)
    (field : s.context.seqField = t.fieldAt a) (path : s.context.path = t.framesAt a) :
    NotesFrom t (each visit seq) seq ((Tree.addressesAll 0 seq.items).map (a ++ ·)) s := by
  rw [each_eq]
  refine (collect_items_notes lies own field path).bind fun s' => ?_
  rw [seqAfter_unchanged (List.forall_mem_map.mpr fun _ _ => rfl)]
  rfl

end Edits

/-- A walk that notes a node and then what is in it notes all of it. -/
theorem inNode_notes {walk inner : Walk (List Note) α} {x : α} (node : Node Ident)
    (lies : t.at? a = some node.toTree) (path : s.context.path = t.framesAbove a)
    (noting : ∀ s, walk.run s = inner.run { s with
      world := { s.world with user := s.world.user ++ [(node, s.context.path)] } })
    (own : ∀ s, s.context.path = t.framesAt a →
      NotesFrom t inner x ((Tree.addressesAll 0 node.values).map (a ++ ·)) s) :
    NotesFrom t (inNode node (t.slotAt a) walk) x (node.toTree.addresses.map (a ++ ·)) s := by
  have here : t.nodeAt? a = some node := by
    rw [Tree.nodeAt?, lies]
    rfl
  have frame : t.frameAt? a = some ⟨node, t.fieldAt a, t.indexAt a⟩ := by
    rw [Tree.frameAt?, here]
    rfl
  have entered : (s.context.enter node (t.slotAt a)).path = t.framesAt a := by
    rw [Tree.framesAt_eq, frame, ← path]
    exact List.reverse_cons
  obtain ⟨s₁, ran, noted⟩ := own ⟨s.context.enter node (t.slotAt a),
    { s.world with user := s.world.user ++ [(node, t.framesAt a)] }⟩ entered
  refine ⟨{ s₁ with context := s₁.context.leave }, ?_, ?_⟩
  · refine run_inNode_eq_ok.mpr ⟨s₁, ?_, rfl⟩
    rw [noting]
    dsimp only
    rw [entered, ran]
  · obtain ⟨notes, entries, world⟩ := noted.notes
    refine ⟨⟨congrArg List.tail noted.stack, noted.seqField⟩, (node, t.framesAt a) :: notes, ?_, ?_⟩
    · change _ = List.map _ (List.map _ ([] :: Tree.addressesAll 0 node.values))
      rw [List.map_cons, List.map_cons, List.map_cons, List.append_nil, Tree.entry?, here,
        ← entries]
      rfl
    · rw [world, List.append_assoc, List.singleton_append]

/-- A sequence hands its own field on, and no frame is put on the stack. -/
theorem inSeq_notes {walk : Walk (List Note) α} {x : α} (seq : Seq Ident)
    (lies : t.at? a = some seq.toTree) (path : s.context.path = t.framesAbove a)
    (own : ∀ s, s.context.seqField = t.fieldAt a → s.context.path = t.framesAt a →
      NotesFrom t walk x ((Tree.addressesAll 0 seq.items).map (a ++ ·)) s) :
    NotesFrom t (inSeq (t.slotAt a).field walk) x (seq.toTree.addresses.map (a ++ ·)) s := by
  have frame : t.frameAt? a = none := by
    rw [Tree.frameAt?, Tree.nodeAt?, lies]
    rfl
  have frames : t.framesAt a = t.framesAbove a := by
    rw [Tree.framesAt_eq, frame]
    exact List.append_nil _
  obtain ⟨s₁, ran, noted⟩ := own
    { s with context := { s.context with seqField := t.fieldAt a } } rfl (path.trans frames.symm)
  exact ⟨_, run_inSeq_eq_ok.mpr ⟨s₁, ran, rfl⟩, ⟨noted.stack, rfl⟩, noted.notes⟩

end Walk

end Notes

/-! ## Walks report places -/

section Reports

variable {t part : Value} {a : Address} {s : WalkState (List Note)}

/-- What holds of the parts at their addresses is what a visit of a value may take for granted of
the visits that it is allowed. -/
theorem Tree.parts_at {P : Address → Value → Prop} {allowance : Nat} (full : part.Full)
    (deep : part.height ≤ allowance + 1) (lies : t.at? a = some part)
    (ih : ∀ {v : Value}, v.Full → v.height ≤ allowance → ∀ {b}, t.at? b = some v → P b v) :
    ∀ (i : Nat) v, part.children[i]? = some v → P (a ++ [i]) v := by
  intro i v hv
  have member := List.mem_of_getElem? hv
  refine ih ?_ ?_ ((at?_part lies i).trans hv)
  · cases part with
    | node id type values => exact (full_node.mp full).2 v member
    | seq id items => exact full_seq.mp full v member
    | _ => cases member
  · cases part with
    | node id type values => exact height_le_of_mem deep member
    | seq id items => exact height_le_of_mem deep member
    | _ => cases member

namespace Handlers

variable {answer : Node Ident → Node Ident → Edit}

theorem run_noting (ways : Ways (List Note)) (n : Node Ident) (s : WalkState (List Note)) :
    (((noting answer).node n).play ways).run s =
      (ways.descend n >>= fun after => pure (answer n after)).run { s with
        world := { s.world with user := s.world.user ++ [(n, s.context.path)] } } := by
  change ((Script.descending n >>= fun after => pure (answer n after)).play ways).run _ = _
  rw [Script.play_bind, Script.play_descending]
  rfl

theorem visit_notes (still : ∀ n, answer n n = .unchanged) {allowance : Nat} (full : part.Full)
    (deep : part.height ≤ allowance) (lies : t.at? a = some part) :
    Notes t ((noting answer).visit allowance) .unchanged a part := by
  induction allowance generalizing part a with
  | zero => exact absurd part.height_pos (Nat.not_lt.mpr deep)
  | succ allowance ih =>
    intro s path slot
    have parts := Tree.parts_at (P := Notes t ((noting answer).visit allowance) .unchanged) full
      deep lies fun full deep _ lies => ih full deep lies
    -- Nothing is counted when nothing changes, so the handler is all there is to a visit.
    suffices handled : NotesFrom t ((noting answer).handle
        ((noting answer).ways ((noting answer).visit allowance)) (t.slotAt a) part) .unchanged
        (part.addresses.map (a ++ ·)) { s with context := s.context.arrive } by
      obtain ⟨s₁, handled, noted⟩ := handled
      refine ⟨s₁, ?_, ⟨noted.stack, noted.seqField⟩, noted.notes⟩
      rw [run_visit, slot, handled]
      rfl
    cases part with
    | node id type values =>
      refine inNode_notes ⟨id, type, values⟩ lies path (run_noting _ _) fun s path => ?_
      refine (descend_notes ⟨id, type, values⟩ lies full parts path).bind fun s' => ?_
      rw [still]
      rfl
    | seq id items =>
      have walked := inSeq_notes ⟨id, items⟩ lies (s := { s with context := s.context.arrive }) path
        fun s field path => each_notes lies parts field path
      refine walked.bind fun s' => ?_
      change (pure (Edit.ofValue (.seq id items) (.seq id items)) : Walk (List Note) Edit).run _ = _
      rw [Edit.ofValue_self]
      rfl
    | prim p => exact ⟨_, rfl, noted_nil ⟨rfl, rfl⟩ rfl⟩
    | absent => exact ⟨_, rfl, noted_nil ⟨rfl, rfl⟩ rfl⟩
    | pattern p => exact ⟨_, rfl, noted_nil ⟨rfl, rfl⟩ rfl⟩

theorem walk_noting (still : ∀ n, answer n n = .unchanged) {tree : Value} (full : tree.Full)
    {allowance : Nat} (deep : tree.height ≤ allowance) (w : World (List Note)) :
    ∃ notes cx, (noting answer).walk allowance tree w =
        ((.ok .unchanged, cx), { w with user := w.user ++ notes }) ∧
      notes.map some = tree.addresses.map tree.entry? := by
  obtain ⟨s, visited, noted⟩ :=
    visit_notes still full deep (a := []) rfl ⟨{}, w⟩ rfl tree.slotAt_root.symm
  obtain ⟨notes, entries, world⟩ := noted.notes
  refine ⟨notes, s.context, ?_, ?_⟩
  · rw [walk, visited]
    exact congrArg (Prod.mk _) world
  · rw [entries]
    exact congrArg _ (List.map_id _)

end Handlers

namespace Visitor

theorem run_noting (visit : Value → Walk (List Note) Unit) (n : Node Ident)
    (s : WalkState (List Note)) :
    ((noting.node n).play visit).run s =
      (visitFields visit n >>= fun _ => pure ()).run { s with
        world := { s.world with user := s.world.user ++ [(n, s.context.path)] } } :=
  rfl

theorem visit_notes {allowance : Nat} (full : part.Full) (deep : part.height ≤ allowance)
    (lies : t.at? a = some part) : Notes t (noting.visit allowance) () a part := by
  induction allowance generalizing part a with
  | zero => exact absurd part.height_pos (Nat.not_lt.mpr deep)
  | succ allowance ih =>
    intro s path slot
    have parts := Tree.parts_at (P := Notes t (noting.visit allowance) ()) full deep
      lies fun full deep _ lies => ih full deep lies
    suffices handled : NotesFrom t (noting.handle (noting.visit allowance) (t.slotAt a) part) ()
        (part.addresses.map (a ++ ·)) { s with context := s.context.arrive } by
      obtain ⟨s₁, handled, noted⟩ := handled
      refine ⟨s₁, ?_, ⟨noted.stack, noted.seqField⟩, noted.notes⟩
      rw [← slot] at handled
      exact handled
    cases part with
    | node id type values =>
      refine inNode_notes ⟨id, type, values⟩ lies path (run_noting _ _) fun s path => ?_
      rw [visitFields, overParts_unit]
      have gathered := collect_fields_notes ⟨id, type, values⟩ lies full parts path
      exact (gathered.bind fun _ => rfl).bind fun _ => rfl
    | seq id items =>
      refine inSeq_notes ⟨id, items⟩ lies path fun s field path => ?_
      change NotesFrom t (visitItems (noting.visit allowance) ⟨id, items⟩) () _ s
      rw [visitItems, overParts_unit]
      exact (collect_items_notes lies parts field path).bind fun _ => rfl
    | prim p => exact ⟨_, rfl, noted_nil ⟨rfl, rfl⟩ rfl⟩
    | absent => exact ⟨_, rfl, noted_nil ⟨rfl, rfl⟩ rfl⟩
    | pattern p => exact ⟨_, rfl, noted_nil ⟨rfl, rfl⟩ rfl⟩

theorem walk_noting {tree : Value} (full : tree.Full) {allowance : Nat}
    (deep : tree.height ≤ allowance) (w : World (List Note)) :
    ∃ notes cx, noting.walk allowance tree w =
        ((.ok (), cx), { w with user := w.user ++ notes }) ∧
      notes.map some = tree.addresses.map tree.entry? := by
  obtain ⟨s, visited, noted⟩ :=
    visit_notes full deep (a := []) rfl ⟨{}, w⟩ rfl tree.slotAt_root.symm
  obtain ⟨notes, entries, world⟩ := noted.notes
  refine ⟨notes, s.context, ?_, ?_⟩
  · rw [walk, visited]
    exact congrArg (Prod.mk _) world
  · rw [entries]
    exact congrArg _ (List.map_id _)

end Visitor

end Reports

/-- A walk that visits the fields of every node, of a visitor or of handlers that leave the tree as
it is or make it anew from what they find, handles each node once, in the order of the addresses,
and the stack that a handler sees is that of the nodes on the way to the node and the node itself.
Each is there with the field of the node above it in which it lies, and with its position if a
sequence contains it directly. -/
theorem walk_reports {tree : Value} (full : tree.Full) {allowance : Nat}
    (deep : tree.height ≤ allowance) :
    tree.addresses.Pairwise (· < ·) ∧
      (∀ a, a ∈ tree.addresses ↔ (tree.nodeAt? a).isSome) ∧
      (∀ w, ∃ notes cx,
        Visitor.noting.walk allowance tree w = ((.ok (), cx), { w with user := w.user ++ notes }) ∧
          notes.map some = tree.addresses.map tree.entry?) ∧
      ∀ h ∈ [Handlers.watching, Handlers.copying], ∀ w, ∃ notes cx,
        h.walk allowance tree w = ((.ok .unchanged, cx), { w with user := w.user ++ notes }) ∧
          notes.map some = tree.addresses.map tree.entry? := by
  refine ⟨tree.sorted_addresses, tree.mem_addresses, Visitor.walk_noting full deep, ?_⟩
  rw [List.forall_mem_cons, List.forall_mem_singleton]
  constructor
  · exact Handlers.walk_noting (fun _ => rfl) full deep
  · exact Handlers.walk_noting (fun n => Edit.ofValue_self n.toTree) full deep

def groupType : NodeType := .plain "Group" 1 [.object "head", .object "rest"]

def groupHead : Node Ident := ⟨0, groupType, [.prim (.int 1), .absent]⟩

def groupItem : Node Ident := ⟨1, groupType, [.absent, .seq 2 []]⟩

/-- One node lies in a field, and another in a sequence inside the sequence of a field. -/
def group : Node Ident :=
  ⟨5, groupType, [groupHead.toTree,
    .seq 4 [.prim (.int 2), .seq 3 [.absent, groupItem.toTree]]]⟩

theorem walk_reports_group :
    group.toTree.Full ∧ group.toTree.height ≤ 5 ∧
      group.toTree.addresses = [[], [0], [1, 1, 1]] ∧
      ∃ cx, Visitor.noting.walk 5 group.toTree ⟨6, [], []⟩ = ((.ok (), cx), ⟨6, [],
        [(group, [⟨group, none, none⟩]),
          (groupHead, [⟨group, none, none⟩, ⟨groupHead, some "head", none⟩]),
          (groupItem, [⟨group, none, none⟩, ⟨groupItem, some "rest", some 1⟩])]⟩) := by
  have full : group.toTree.Full := by decide
  have deep : group.toTree.height ≤ 5 := by decide
  refine ⟨full, deep, by rfl, ?_⟩
  obtain ⟨notes, cx, run, entries⟩ := (walk_reports full deep).2.2.1 ⟨6, [], []⟩
  have noted : notes.map some = [(group, [⟨group, none, none⟩]),
      (groupHead, [⟨group, none, none⟩, ⟨groupHead, some "head", none⟩]),
      (groupItem, [⟨group, none, none⟩, ⟨groupItem, some "rest", some 1⟩])].map some := entries
  rw [List.map_injective_iff.mpr (Option.some_injective Note) noted] at run
  exact ⟨cx, run⟩

end Arbor
