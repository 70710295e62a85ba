import Arbor.Language.Generate
import Mathlib.Data.List.Forall2

/-!
# Names in generated languages

Generation checks the names of the entries, then only reorders the entries and resolves the types of
their fields. So in a generated language no two types and no two fields of a type have one name, and
no type has the name of a pattern term (`wellNamed_ofGrammar`). Looking up the name of a type finds
that type (`Language.WellNamed.get?_name`).
-/

namespace Arbor

theorem except_bind_eq_ok {ε α β : Type} {x : Except ε α} {f : α → Except ε β} {b : β}
    (h : x >>= f = .ok b) : ∃ a, x = .ok a ∧ f a = .ok b := by
  cases x with
  | error e => cases h
  | ok a => exact ⟨a, rfl, h⟩

theorem except_map_eq_ok {ε α β : Type} {x : Except ε α} {f : α → β} {b : β}
    (h : x.map f = .ok b) : ∃ a, x = .ok a ∧ f a = b := by
  cases x with
  | error e => cases h
  | ok a => exact ⟨a, rfl, Except.ok.inj h⟩

theorem forall₂_of_mapM_ok {ε α β : Type} {f : α → Except ε β} {xs : List α} {ys : List β}
    (h : xs.mapM f = .ok ys) : List.Forall₂ (fun x y => f x = .ok y) xs ys := by
  induction xs generalizing ys with
  | nil =>
    cases h
    exact .nil
  | cons x xs ih =>
    rw [List.mapM_cons] at h
    obtain ⟨y, hy, h⟩ := except_bind_eq_ok h
    obtain ⟨rest, hr, h⟩ := except_bind_eq_ok h
    cases h
    exact .cons hy (ih hr)

namespace Grammar

/-! ## Checked names -/

theorem firstRepeated_eq_none {seen names : List String} :
    firstRepeated seen names = none ↔ names.Nodup ∧ ∀ name ∈ names, name ∉ seen := by
  induction names generalizing seen with
  | nil => simp [firstRepeated]
  | cons name rest ih =>
    by_cases h : name ∈ seen
    · simp [firstRepeated, h]
    · rw [firstRepeated, if_neg (by simpa using h), ih, List.nodup_cons, List.forall_mem_cons]
      simp only [List.mem_cons, not_or]
      constructor
      · rintro ⟨distinct, fresh⟩
        exact ⟨⟨fun member => (fresh name member).1 rfl, distinct⟩, h, fun n hn => (fresh n hn).2⟩
      · rintro ⟨⟨absent, distinct⟩, -, fresh⟩
        refine ⟨distinct, fun n hn => ⟨?_, fresh n hn⟩⟩
        rintro rfl
        exact absent hn

/-- No entry has a reserved name, and no name is given to two entries or to two fields of one. -/
structure WellNamed (entries : List TypeSpec) : Prop where
  distinct : (entries.map TypeSpec.name).Nodup
  unreserved : ∀ entry ∈ entries, entry.name ∉ reservedNames
  fields : ∀ entry ∈ entries, (entry.fields.map FieldSpec.name).Nodup

theorem wellNamed_of_checkEntries {seen : List String} {entries : List TypeSpec}
    (h : checkEntries seen entries = .ok ()) :
    WellNamed entries ∧ ∀ entry ∈ entries, entry.name ∉ seen := by
  induction entries generalizing seen with
  | nil => exact ⟨⟨.nil, by simp, by simp⟩, by simp⟩
  | cons entry rest ih =>
    rw [checkEntries] at h
    split at h
    · cases h
    rename_i unreserved
    split at h
    · cases h
    rename_i unseen
    split at h
    · cases h
    rename_i fields
    obtain ⟨named, fresh⟩ := ih h
    have new : entry.name ∉ rest.map TypeSpec.name := by
      intro member
      obtain ⟨other, ho, same⟩ := List.mem_map.mp member
      exact fresh other ho (by rw [same]; exact List.mem_cons_self)
    refine ⟨⟨?_, ?_, ?_⟩, ?_⟩
    · exact List.nodup_cons.mpr ⟨new, named.distinct⟩
    · exact List.forall_mem_cons.mpr ⟨by simpa using unreserved, named.unreserved⟩
    · exact List.forall_mem_cons.mpr ⟨(firstRepeated_eq_none.mp fields).1, named.fields⟩
    · refine List.forall_mem_cons.mpr ⟨by simpa using unseen, fun other ho member => ?_⟩
      exact fresh other ho (List.mem_cons_of_mem _ member)

theorem WellNamed.perm {entries order : List TypeSpec} (h : WellNamed entries)
    (perm : order.Perm entries) : WellNamed order where
  distinct := (perm.map TypeSpec.name).nodup_iff.mpr h.distinct
  unreserved entry he := h.unreserved entry (perm.mem_iff.mp he)
  fields entry he := h.fields entry (perm.mem_iff.mp he)

/-! ## Order -/

theorem round_perm (generated : List String) (pending : List TypeSpec) :
    ((round generated pending).1 ++ (round generated pending).2).Perm pending := by
  induction pending generalizing generated with
  | nil => exact .nil
  | cons entry rest ih =>
    unfold round
    split
    · exact (ih _).cons entry
    · exact List.perm_middle.trans ((ih _).cons entry)

section Rounds

variable {generated : List String} {pending waiting : List TypeSpec}

theorem orderFrom_done (empty : pending.isEmpty = true) : orderFrom generated pending = .ok [] := by
  rw [orderFrom, if_pos empty]

theorem orderFrom_stuck (nonempty : ¬ pending.isEmpty = true)
    (next : round generated pending = ([], waiting)) :
    orderFrom generated pending = .error (.inheritanceCycle (pending.map TypeSpec.name)) := by
  rw [orderFrom, if_neg nonempty]
  split <;> simp_all

theorem orderFrom_step (nonempty : ¬ pending.isEmpty = true) {entry : TypeSpec}
    {ready : List TypeSpec} (next : round generated pending = (entry :: ready, waiting)) :
    orderFrom generated pending =
      (orderFrom ((entry :: ready).map TypeSpec.name ++ generated) waiting).map
        (entry :: ready ++ ·) := by
  rw [orderFrom, if_neg nonempty]
  split
  · simp_all
  · rename_i other
    rw [next] at other
    cases other
    cases orderFrom ((entry :: ready).map TypeSpec.name ++ generated) waiting <;> rfl

end Rounds

theorem orderFrom_perm {generated : List String} {pending order : List TypeSpec}
    (h : orderFrom generated pending = .ok order) : order.Perm pending := by
  induction generated, pending using orderFrom.induct generalizing order with
  | case1 generated pending empty =>
    rw [orderFrom_done empty] at h
    cases h
    rw [List.isEmpty_iff.mp empty]
  | case2 generated pending nonempty waiting next =>
    rw [orderFrom_stuck nonempty next] at h
    cases h
  | case3 generated pending nonempty entry ready waiting next ih =>
    rw [orderFrom_step nonempty next] at h
    obtain ⟨later, hl, rfl⟩ := except_map_eq_ok h
    have whole := round_perm generated pending
    rw [next] at whole
    exact ((ih hl).append_left (entry :: ready)).trans whole

theorem byKind_perm (entries : List TypeSpec) : (byKind entries).Perm entries := by
  have other (e : TypeSpec) : (e.kind == .concrete) = !(e.kind == .abstract) := by
    cases e.kind <;> rfl
  simp only [byKind, other]
  exact List.filter_append_perm _ entries

theorem order_perm {entries order : List TypeSpec} (h : Grammar.order entries = .ok order) :
    order.Perm entries :=
  (orderFrom_perm h).trans (byKind_perm entries)

/-! ## Types -/

theorem fieldNames_of_resolveFields {order : List TypeSpec} {primitives : PrimitiveTable}
    {entry : TypeSpec} {fields : List Field}
    (h : resolveFields order primitives entry = .ok fields) :
    fields.map Field.name = entry.fields.map FieldSpec.name := by
  have resolved := forall₂_of_mapM_ok h
  have step {spec : FieldSpec} {field : Field}
      (hf : resolveField order primitives entry spec = .ok field) : field.name = spec.name := by
    unfold resolveField at hf
    split at hf
    · cases hf
      rfl
    split at hf
    · cases hf
      rfl
    · cases hf
  clear h
  generalize entry.fields = specs at resolved
  induction resolved with
  | nil => rfl
  | cons hf _ ih => rw [List.map_cons, List.map_cons, step hf, ih]

/-- A type has the name and the kind of its entry, and fields of the same names. -/
structure Describes (entry : TypeSpec) (type : NodeType) : Prop where
  name : type.name = entry.name
  kind : type.kind = entry.kind
  fields : type.fieldNames = entry.fields.map FieldSpec.name

theorem buildTypes_eq {order entries : List TypeSpec} {primitives : PrimitiveTable}
    {fields : List (List Field)}
    (h : List.Forall₂ (fun entry fields => resolveFields order primitives entry = .ok fields)
      entries fields) (id : Nat) (checked : Bool) (built : List NodeType) :
    ∃ types, buildTypes order id checked built (entries.zip fields) = built ++ types ∧
      List.Forall₂ Describes entries types := by
  induction h generalizing built with
  | nil => exact ⟨[], by rw [List.zip_nil_left, buildTypes, List.append_nil], .nil⟩
  | @cons entry fs entries fields hf _ ih =>
    obtain ⟨types, later, described⟩ := ih (built ++ [nextType order id checked built entry fs])
    refine ⟨nextType order id checked built entry fs :: types, ?_, ?_⟩
    · rw [List.zip_cons_cons, buildTypes, later, List.append_assoc, List.singleton_append]
    · exact .cons ⟨rfl, rfl, fieldNames_of_resolveFields hf⟩ described

theorem names_of_describes {entries : List TypeSpec} {types : List NodeType}
    (h : List.Forall₂ Describes entries types) :
    types.map NodeType.name = entries.map TypeSpec.name := by
  induction h with
  | nil => rfl
  | cons described _ ih => rw [List.map_cons, List.map_cons, described.name, ih]

theorem exists_describes {entries : List TypeSpec} {types : List NodeType}
    (h : List.Forall₂ Describes entries types) :
    ∀ type ∈ types, ∃ entry ∈ entries, Describes entry type := by
  induction h with
  | nil => simp
  | @cons entry type entries types described _ ih =>
    rw [List.forall_mem_cons]
    refine ⟨⟨entry, List.mem_cons_self, described⟩, fun other ho => ?_⟩
    obtain ⟨e, he, found⟩ := ih other ho
    exact ⟨e, List.mem_cons_of_mem _ he, found⟩

end Grammar

namespace Language

theorem ofGrammar_eq_ok_iff {id : Nat} {g : Grammar} {options : Options} {l : Language} :
    Language.ofGrammar id g options = .ok l ↔
      Grammar.checkNames g.entries = .ok () ∧
        ∃ order fields, Grammar.order g.entries = .ok order ∧
          order.mapM (Grammar.resolveFields order options.primitives) = .ok fields ∧
            l = ⟨id, Grammar.buildTypes order id options.checked
              [Grammar.rootType id options.checked] (order.zip fields), options.checked⟩ := by
  constructor
  · intro h
    obtain ⟨_, names, h⟩ := except_bind_eq_ok h
    obtain ⟨order, ordered, h⟩ := except_bind_eq_ok h
    obtain ⟨fields, resolved, h⟩ := except_bind_eq_ok h
    cases h
    exact ⟨names, order, fields, ordered, resolved, rfl⟩
  · rintro ⟨names, order, fields, ordered, resolved, rfl⟩
    simp only [Language.ofGrammar, names, ordered, resolved, bind, Except.bind]
    rfl

/-- The types of a generated language are the root and those that its entries describe. -/
theorem types_ofGrammar {id : Nat} {g : Grammar} {options : Options} {l : Language}
    (h : Language.ofGrammar id g options = .ok l) :
    ∃ order types, order.Perm g.entries ∧ Grammar.WellNamed order ∧
      List.Forall₂ Grammar.Describes order types ∧
      l.types = Grammar.rootType id options.checked :: types := by
  obtain ⟨checkedNames, order, fields, ordered, resolved, rfl⟩ := ofGrammar_eq_ok_iff.mp h
  obtain ⟨_, checkedEntries, -⟩ := except_bind_eq_ok checkedNames
  have perm := Grammar.order_perm ordered
  have named := (Grammar.wellNamed_of_checkEntries checkedEntries).1.perm perm
  obtain ⟨types, built, described⟩ := Grammar.buildTypes_eq (forall₂_of_mapM_ok resolved) id
    options.checked [Grammar.rootType id options.checked]
  exact ⟨order, types, perm, named, described, built⟩

/-- Names tell the types of the language apart, from each other and from pattern terms, and the
fields of every type. -/
structure WellNamed (l : Language) : Prop where
  distinct : (l.types.map NodeType.name).Nodup
  terms : ∀ type ∈ l.types, type.name ≠ "PatVar" ∧ type.name ≠ "Wildcard"
  fields : ∀ type ∈ l.types, type.fieldNames.Nodup

theorem wellNamed_ofGrammar {id : Nat} {g : Grammar} {options : Options} {l : Language}
    (h : Language.ofGrammar id g options = .ok l) : l.WellNamed := by
  obtain ⟨order, types, -, named, described, types_eq⟩ := types_ofGrammar h
  have names := Grammar.names_of_describes described
  have root : rootName ∉ order.map TypeSpec.name := by
    intro member
    obtain ⟨entry, he, same⟩ := List.mem_map.mp member
    exact named.unreserved entry he (by rw [same]; decide)
  refine ⟨?_, ?_, ?_⟩
  · rw [types_eq, List.map_cons, names]
    exact List.nodup_cons.mpr ⟨root, named.distinct⟩
  · rw [types_eq, List.forall_mem_cons]
    have terms : rootName ≠ "PatVar" ∧ rootName ≠ "Wildcard" := by decide
    refine ⟨terms, fun type ht => ?_⟩
    obtain ⟨entry, he, described⟩ := Grammar.exists_describes described type ht
    have unreserved := named.unreserved entry he
    rw [← described.name] at unreserved
    simp only [reservedNames, List.mem_cons, not_or] at unreserved
    exact ⟨unreserved.2.1, unreserved.2.2.1⟩
  · rw [types_eq, List.forall_mem_cons]
    refine ⟨List.nodup_nil, fun type ht => ?_⟩
    obtain ⟨entry, he, described⟩ := Grammar.exists_describes described type ht
    rw [described.fields]
    exact named.fields entry he

theorem WellNamed.get?_name {l : Language} (h : l.WellNamed) {type : NodeType}
    (ht : type ∈ l.types) : l.get? type.name = some type := by
  have distinct := h.distinct
  unfold Language.get?
  generalize l.types = types at ht distinct
  induction types with
  | nil => cases ht
  | cons first rest ih =>
    rw [List.map_cons, List.nodup_cons] at distinct
    rcases List.mem_cons.mp ht with rfl | ht
    · rw [List.find?_cons_of_pos (by simp)]
    · rw [List.find?_cons_of_neg, ih ht distinct.2]
      rw [beq_iff_eq]
      intro same
      exact distinct.1 (same ▸ List.mem_map_of_mem ht)

end Language

end Arbor
