import Mathlib
import Arbor.Proofs.Phrase.RoundTrip

/-!
# Positional and named arguments

The values of a node are given in the order of its fields, by name, or first some of them in order
and then the others by name. Named values fill slots, one for each field. The order in which they do
so is of no account (`fillSlots_perm`), and all slots are filled only if the names are those of the
fields, each given once (`names_of_constructNamed`). So a call with named arguments is a
construction from the values in order, or it fails (`arguments_interchange`).
-/

namespace Arbor

variable {ι : Type}

/-! ## Slots -/

namespace NodeType

theorem fillSlots_cons_ok {type : NodeType} {slots filled : List (Option (Tree ι))} {name : String}
    {value : Tree ι} {rest : List (String × Tree ι)}
    (h : type.fillSlots slots ((name, value) :: rest) = .ok filled) :
    ∃ i, type.fieldIndex? name = some i ∧ (∀ v, slots[i]? ≠ some (some v)) ∧
      type.fillSlots (slots.set i (some value)) rest = .ok filled := by
  rw [fillSlots] at h
  split at h
  · cases h
  · rename_i i index
    split at h
    · cases h
    · rename_i free
      exact ⟨i, index, free, h⟩

theorem fillSlots_cons_of_free {type : NodeType} {slots : List (Option (Tree ι))} {name : String}
    {i : Nat} (index : type.fieldIndex? name = some i) (free : ∀ v, slots[i]? ≠ some (some v))
    (value : Tree ι) (rest : List (String × Tree ι)) :
    type.fillSlots slots ((name, value) :: rest) =
      type.fillSlots (slots.set i (some value)) rest := by
  rw [fillSlots, index]
  dsimp only
  split
  · rename_i v filled
    exact absurd filled (free v)
  · rfl

/-- Two slots that are filled one after the other may be filled in either order. -/
theorem set_slots_comm {slots : List (Option (Tree ι))} {i j : Nat} {v w : Tree ι}
    (free : ∀ u, slots[i]? ≠ some (some u)) (free' : ∀ u, (slots.set i (some v))[j]? ≠ some (some u)) :
    (∀ u, slots[j]? ≠ some (some u)) ∧ (∀ u, (slots.set j (some w))[i]? ≠ some (some u)) ∧
      (slots.set i (some v)).set j (some w) = (slots.set j (some w)).set i (some v) := by
  by_cases same : i = j
  · subst same
    -- The first value would fill the slot, so there is no such slot.
    have none : slots.length ≤ i := by
      by_contra within
      exact free' v (List.getElem?_set_self (Nat.lt_of_not_le within))
    simp only [List.set_eq_of_length_le none]
    exact ⟨free, free, trivial⟩
  · rw [List.getElem?_set_ne same] at free'
    rw [List.getElem?_set_ne (Ne.symm same)]
    exact ⟨free', free, List.set_comm _ _ same⟩

theorem fillSlots_perm {type : NodeType} {named named' : List (String × Tree ι)}
    (perm : named.Perm named') {slots filled : List (Option (Tree ι))}
    (h : type.fillSlots slots named = .ok filled) : type.fillSlots slots named' = .ok filled := by
  induction perm generalizing slots with
  | nil => exact h
  | cons x _ ih =>
    obtain ⟨i, index, free, h⟩ := fillSlots_cons_ok h
    rw [fillSlots_cons_of_free index free]
    exact ih h
  | swap x y rest =>
    obtain ⟨i, index, free, h⟩ := fillSlots_cons_ok h
    obtain ⟨j, index', free', h⟩ := fillSlots_cons_ok h
    obtain ⟨first, second, same⟩ := set_slots_comm (w := x.2) free free'
    rw [fillSlots_cons_of_free index' first, fillSlots_cons_of_free index second, ← same]
    exact h
  | trans _ _ ih ih' => exact ih' (ih h)

/-- The names of the fields whose slots are filled. -/
def filledNames : List Field → List (Option (Tree ι)) → List String
  | field :: fields, some _ :: slots => field.name :: filledNames fields slots
  | _ :: fields, none :: slots => filledNames fields slots
  | _, _ => []

theorem filledNames_none (fields : List Field) :
    filledNames fields (fields.map fun _ => (none : Option (Tree ι))) = [] := by
  induction fields with
  | nil => rfl
  | cons field fields ih => exact ih

theorem filledNames_set {fields : List Field} {slots : List (Option (Tree ι))} {i : Nat}
    {field : Field} (lengths : slots.length = fields.length) (own : fields[i]? = some field)
    (free : ∀ v, slots[i]? ≠ some (some v)) (value : Tree ι) :
    (filledNames fields (slots.set i (some value))).Perm
      (field.name :: filledNames fields slots) := by
  induction fields generalizing slots i with
  | nil => cases own
  | cons other fields ih =>
    cases slots with
    | nil => cases lengths
    | cons slot slots =>
      cases i with
      | zero =>
        cases own
        cases slot with
        | none => exact .refl _
        | some v => exact absurd rfl (free v)
      | succ i =>
        have rest := ih (Nat.succ.inj lengths) own free
        cases slot with
        | none => exact rest
        | some v => exact (rest.cons _).trans (.swap _ _ _)

theorem filledNames_of_fillSlots {type : NodeType} {named : List (String × Tree ι)}
    {slots filled : List (Option (Tree ι))} (lengths : slots.length = type.fields.length)
    (h : type.fillSlots slots named = .ok filled) :
    filled.length = type.fields.length ∧
      (filledNames type.fields filled).Perm
        (named.map Prod.fst ++ filledNames type.fields slots) := by
  induction named generalizing slots with
  | nil =>
    cases h
    exact ⟨lengths, .refl _⟩
  | cons x rest ih =>
    obtain ⟨i, index, free, h⟩ := fillSlots_cons_ok h
    obtain ⟨within, own, -⟩ := List.findIdx?_eq_some_iff_getElem.mp index
    rw [beq_iff_eq] at own
    have set := filledNames_set lengths (List.getElem?_eq_getElem within) free x.2
    obtain ⟨same, perm⟩ := ih (by rw [List.length_set, lengths]) h
    refine ⟨same, perm.trans ((set.append_left _).trans ?_)⟩
    rw [own]
    exact List.perm_middle

theorem filledNames_of_readSlots {type : NodeType} {fields : List Field}
    {slots : List (Option (Tree ι))} {values : List (Tree ι)}
    (lengths : slots.length = fields.length) (h : type.readSlots fields slots = .ok values) :
    filledNames fields slots = fields.map Field.name := by
  induction fields generalizing slots values with
  | nil => cases slots <;> rfl
  | cons field fields ih =>
    cases slots with
    | nil => cases lengths
    | cons slot slots =>
      cases slot with
      | none => cases h
      | some value =>
        obtain ⟨rest, read, -⟩ := except_bind_eq_ok h
        rw [filledNames, ih (Nat.succ.inj lengths) read, List.map_cons]

/-! ## Construction -/

/-- A node from named values has got one value for each field. -/
theorem names_of_constructNamed {type : NodeType} {id : ι} {named : List (String × Tree ι)}
    {node : Node ι} (h : type.constructNamed id named = .ok node) :
    (named.map Prod.fst).Perm type.fieldNames := by
  obtain ⟨filled, fill, h⟩ := except_bind_eq_ok h
  obtain ⟨values, read, -⟩ := except_bind_eq_ok h
  obtain ⟨lengths, perm⟩ := filledNames_of_fillSlots (by rw [List.length_map]) fill
  rw [filledNames_none, List.append_nil, filledNames_of_readSlots lengths read] at perm
  exact perm.symm

theorem constructNamed_perm {type : NodeType} (distinct : type.fieldNames.Nodup) (id : ι)
    {values : List (Tree ι)} (lengths : values.length = type.fields.length)
    {named : List (String × Tree ι)} (perm : named.Perm (type.fieldNames.zip values)) :
    type.constructNamed id named = type.construct id values := by
  have filled := fillSlots_zip distinct [] rfl [] rfl lengths
  rw [List.map_nil, List.nil_append, List.nil_append] at filled
  rw [← constructNamed_zip distinct id lengths, constructNamed, constructNamed,
    fillSlots_perm perm.symm filled, fieldNames, filled]

end NodeType

/-! ## Calls -/

namespace Phrase

theorem zip_append_drop {α β : Type} (names : List α) (given others : List β) :
    names.zip (given ++ others) = names.zip given ++ (names.drop given.length).zip others := by
  induction given generalizing names with
  | nil => simp
  | cons v given ih =>
    cases names with
    | nil => simp
    | cons name names => simp [ih]

theorem buildNode_split {type : NodeType} (distinct : type.fieldNames.Nodup) (id : Ident)
    {given others : List Value} (lengths : (given ++ others).length = type.fields.length)
    {named : List (String × Value)}
    (perm : named.Perm ((type.fieldNames.drop given.length).zip others)) :
    buildNode type id (given, named) =
      (type.construct id (given ++ others)).mapError .construction := by
  unfold buildNode
  dsimp only
  split
  · rename_i empty
    -- No name is left over, so neither is a value.
    have none : others = [] := by
      rw [List.isEmpty_iff.mp empty] at perm
      have zipped := congrArg List.length perm.nil_eq
      simp only [List.length_nil, List.length_zip, List.length_drop, NodeType.fieldNames,
        List.length_map] at zipped
      rw [List.length_append] at lengths
      apply List.eq_nil_of_length_eq_zero
      omega
    rw [none, List.append_nil]
  · rw [List.length_append] at lengths
    rw [if_neg (by omega)]
    congr 1
    apply NodeType.constructNamed_perm distinct
    · rw [List.length_append, lengths]
    · rw [zip_append_drop]
      exact perm.append_left _

theorem names_of_buildNode {type : NodeType} {id : Ident} {given : List Value}
    {named : List (String × Value)} {node : Node Ident} (some : named ≠ [])
    (h : buildNode type id (given, named) = .ok node) :
    (named.map Prod.fst).Perm (type.fieldNames.drop given.length) := by
  unfold buildNode at h
  dsimp only at h
  rw [if_neg (by simpa using some)] at h
  split at h
  · cases h
  · rename_i few
    cases built : type.constructNamed id (type.fieldNames.zip given ++ named) with
    | error e =>
      rw [built] at h
      cases h
    | ok n =>
      have perm := NodeType.names_of_constructNamed built
      have first : (type.fieldNames.zip given).map Prod.fst = type.fieldNames.take given.length := by
        have enough : given.length ≤ type.fieldNames.length := by
          rw [NodeType.fieldNames, List.length_map]
          omega
        rw [List.zip_eq_zip_take_min, Nat.min_eq_right enough, List.map_fst_zip]
        simp
      rw [List.map_append, first] at perm
      nth_rewrite 2 [← List.take_append_drop given.length type.fieldNames] at perm
      exact (List.perm_append_left_iff _).mp perm

/-- The phrase builds a value equal to the given one, whatever identities are free. -/
def Describes (l : Language) (p : Phrase) (v : Tree ι) : Prop :=
  ∀ next, ∃ w after, build l p next = .ok (w, after) ∧ w.shape = v.shape

theorem Describes.built {l : Language} {p : Phrase} {v : Tree ι} (h : Describes l p v)
    (next : Ident) : ∃ w after, build l p next = .ok (w, after) ∧ Describes l p w := by
  obtain ⟨w, after, built, same⟩ := h next
  refine ⟨w, after, built, fun next' => ?_⟩
  obtain ⟨w', after', built', same'⟩ := h next'
  exact ⟨w', after', built', same'.trans same.symm⟩

theorem Describes.unique {l : Language} {p : Phrase} {v w : Value} (h : Describes l p v)
    (h' : Describes l p w) : v.shape = w.shape := by
  obtain ⟨u, after, built, same⟩ := h 0
  obtain ⟨u', after', built', same'⟩ := h' 0
  rw [built] at built'
  cases built'
  exact same.symm.trans same'

theorem exists_described {l : Language} {phrases : List Phrase} {values : List Value}
    (h : List.Forall₂ (Describes l) phrases values) :
    ∀ p ∈ phrases, ∃ v : Value, Describes l p v := by
  induction h with
  | nil => exact List.forall_mem_nil _
  | cons own _ ih => exact List.forall_mem_cons.mpr ⟨⟨_, own⟩, ih⟩

theorem shapes_unique {l : Language} {phrases : List Phrase} {values values' : List Value}
    (h : List.Forall₂ (Describes l) phrases values)
    (h' : List.Forall₂ (Describes l) phrases values') :
    values.map Tree.shape = values'.map Tree.shape := by
  induction h generalizing values' with
  | nil =>
    cases h'
    rfl
  | cons own _ ih =>
    cases h' with
    | cons own' rest => rw [List.map_cons, List.map_cons, own.unique own', ih rest]

def positional (phrases : List Phrase) : List (Option String × Phrase) :=
  phrases.map fun p => (none, p)

def keywords (named : List (String × Phrase)) : List (Option String × Phrase) :=
  named.map fun a => (some a.1, a.2)

theorem buildArgs_keywords {l : Language} (type : NodeType) {named : List (String × Phrase)}
    (h : ∀ a ∈ named, ∃ v : Value, Describes l a.2 v) (after : Bool) (next : Ident) :
    ∃ built next', buildArgs l type after (keywords named) next = .ok (([], built), next') ∧
      List.Forall₂ (fun a b => a.1 = b.1 ∧ Describes l a.2 b.2) named built := by
  induction named generalizing after next with
  | nil => exact ⟨[], next, by simp only [keywords, List.map_nil, buildArgs]; rfl, .nil⟩
  | cons a named ih =>
    rw [List.forall_mem_cons] at h
    obtain ⟨v, described⟩ := h.1
    obtain ⟨w, middle, first, own⟩ := described.built next
    obtain ⟨built, next', others, rest⟩ := ih h.2 true middle
    refine ⟨(a.1, w) :: built, next', ?_, .cons ⟨rfl, own⟩ rest⟩
    rw [keywords] at others
    rw [keywords, List.map_cons, buildArgs, builder_bind first]
    dsimp only
    rw [builder_bind others]
    rfl

/-- Arguments that describe values, the first ones given in order and the others by name. -/
theorem buildArgs_split {l : Language} (type : NodeType) {given : List Phrase}
    {named : List (String × Phrase)} (first : ∀ p ∈ given, ∃ v : Value, Describes l p v)
    (rest : ∀ a ∈ named, ∃ v : Value, Describes l a.2 v) (next : Ident) :
    ∃ values built next',
      buildArgs l type false (positional given ++ keywords named) next =
          .ok ((values, built), next') ∧
        List.Forall₂ (Describes l) given values ∧
        List.Forall₂ (fun a b => a.1 = b.1 ∧ Describes l a.2 b.2) named built := by
  induction given generalizing next with
  | nil =>
    obtain ⟨built, next', args, described⟩ := buildArgs_keywords type rest false next
    exact ⟨[], built, next', args, .nil, described⟩
  | cons p given ih =>
    rw [List.forall_mem_cons] at first
    obtain ⟨v, described⟩ := first.1
    obtain ⟨w, middle, built, own⟩ := described.built next
    obtain ⟨values, others, next', args, all, last⟩ := ih first.2 middle
    refine ⟨w :: values, others, next', ?_, .cons own all, last⟩
    rw [positional] at args
    rw [positional, List.map_cons, List.cons_append, buildArgs, builder_bind built]
    dsimp only
    rw [if_neg Bool.false_ne_true, builder_bind args]
    rfl

theorem values_of_zip {l : Language} {names : List String} {others : List Phrase}
    (lengths : names.length = others.length) {built : List (String × Value)}
    (h : List.Forall₂ (fun a b => a.1 = b.1 ∧ Describes l a.2 b.2) (names.zip others) built) :
    ∃ values, built = names.zip values ∧ List.Forall₂ (Describes l) others values := by
  induction names generalizing others built with
  | nil =>
    cases List.eq_nil_of_length_eq_zero lengths.symm
    cases h
    exact ⟨[], rfl, .nil⟩
  | cons name names ih =>
    cases others with
    | nil => cases lengths
    | cons p others =>
      cases h with
      | @cons _ b _ built head rest =>
        obtain ⟨values, rfl, described⟩ := ih (Nat.succ.inj lengths) rest
        refine ⟨b.2 :: values, ?_, .cons head.2 described⟩
        rw [List.zip_cons_cons]
        exact congrArg (fun key => (key, b.2) :: names.zip values) head.1.symm

theorem builder_bind_ok {α β : Type} {x : Builder α} {f : α → Builder β} {next after : Ident}
    {b : β} (h : (x >>= f) next = .ok (b, after)) :
    ∃ a middle, x next = .ok (a, middle) ∧ f a middle = .ok (b, after) := by
  obtain ⟨⟨a, middle⟩, first, rest⟩ := except_bind_eq_ok h
  exact ⟨a, middle, first, rest⟩

theorem names_of_buildArgs {l : Language} {type : NodeType} {args : List (Option String × Phrase)}
    {named : Bool} {next next' : Ident} {built : Arguments}
    (h : buildArgs l type named args next = .ok (built, next')) :
    built.2.map Prod.fst = args.filterMap Prod.fst ∧
      built.1.length = args.countP fun a => a.1.isNone := by
  induction args generalizing named next built with
  | nil =>
    rw [buildArgs] at h
    cases h
    exact ⟨rfl, rfl⟩
  | cons a args ih =>
    obtain ⟨keyword, p⟩ := a
    rw [buildArgs] at h
    obtain ⟨v, middle, -, h⟩ := builder_bind_ok h
    cases keyword with
    | some name =>
      obtain ⟨⟨values, more⟩, last, rest, answer⟩ := builder_bind_ok h
      cases answer
      obtain ⟨names, lengths⟩ := ih rest
      exact ⟨by simpa using names, by simpa using lengths⟩
    | none =>
      dsimp only at h
      split at h
      · cases h
      · obtain ⟨⟨values, more⟩, last, rest, answer⟩ := builder_bind_ok h
        cases answer
        obtain ⟨names, lengths⟩ := ih rest
        exact ⟨by simpa using names, by simpa using lengths⟩

theorem build_call {l : Language} (wellNamed : l.WellNamed) {type : NodeType}
    (member : type ∈ l.types) (args : List (Option String × Phrase)) (next : Ident) :
    build l (.call type.name args) next =
      buildArgs l type false args next >>= fun r =>
        (buildNode type r.2 r.1).map fun node => (node.toTree, r.2 + 1) := by
  obtain ⟨var, wildcard⟩ := wellNamed.terms type member
  rw [build, if_neg var, if_neg wildcard, wellNamed.get?_name member]
  dsimp only
  change (buildArgs l type false args next >>= fun r => _) = _
  congr 1
  funext r
  obtain ⟨built, next'⟩ := r
  change ((liftM (buildNode type next' built) : Builder (Node Ident)) >>=
    fun node => pure node.toTree) (next' + 1) = _
  cases buildNode type next' built <;> rfl

/-- A call whose arguments describe values, the first ones in order and the others by name, builds
the node of the values, or fails like its construction. -/
theorem build_call_split {l : Language} (wellNamed : l.WellNamed) {type : NodeType}
    (member : type ∈ l.types) {given others : List Phrase} {values : List Value}
    (described : List.Forall₂ (Describes l) (given ++ others) values)
    (lengths : values.length = type.fields.length) {named : List (String × Phrase)}
    (perm : named.Perm ((type.fieldNames.drop given.length).zip others)) (next label : Ident) :
    (build l (.call type.name (positional given ++ keywords named)) next).map
        (fun r => r.1.shape) =
      ((type.construct label values).mapError .construction).map fun n => n.toTree.shape := by
  have each := List.forall_mem_append.mp (exists_described described)
  obtain ⟨first, built, next', args, all, last⟩ := buildArgs_split type each.1
    (fun a ha => each.2 a.2 (List.of_mem_zip (perm.mem_iff.mp ha)).2) next
  obtain ⟨sorted, zipped, same⟩ := List.perm_comp_forall₂ perm.symm last
  have counted : (given ++ others).length = type.fields.length :=
    described.length_eq.trans lengths
  rw [List.length_append] at counted
  obtain ⟨rest, rfl, ordered⟩ := values_of_zip (by
    rw [List.length_drop, NodeType.fieldNames, List.length_map]
    omega) zipped
  have alike := shapes_unique (List.rel_append all ordered) described
  have fits : (first ++ rest).length = type.fields.length := by
    rw [List.length_append, ← all.length_eq, ← ordered.length_eq, counted]
  rw [all.length_eq] at same
  have node := buildNode_split (wellNamed.fields type member) next' fits same.symm
  rw [build_call wellNamed member, args]
  change ((buildNode type next' (first, built)).map fun node => (node.toTree, next' + 1)).map _ = _
  rw [node, NodeType.construct, NodeType.construct, type.validate_congr alike]
  cases type.validate values with
  | error e => rfl
  | ok _ =>
    change Except.ok (Tree.shape (.node next' type (first ++ rest))) =
      Except.ok (Tree.shape (.node label type values))
    simp only [Tree.shape, Tree.shapeAll_eq_map, alike]

theorem names_of_build_call {l : Language} (wellNamed : l.WellNamed) {type : NodeType}
    (member : type ∈ l.types) {args : List (Option String × Phrase)}
    (some : args.filterMap Prod.fst ≠ []) {next next' : Ident} {v : Value}
    (h : build l (.call type.name args) next = .ok (v, next')) :
    (args.filterMap Prod.fst).Perm
      (type.fieldNames.drop (args.countP fun a => a.1.isNone)) := by
  rw [build_call wellNamed member] at h
  obtain ⟨⟨⟨given, named⟩, middle⟩, built, h⟩ := except_bind_eq_ok h
  obtain ⟨node, made, -⟩ := except_map_eq_ok h
  obtain ⟨names, lengths⟩ := names_of_buildArgs built
  rw [← names, ← lengths]
  refine names_of_buildNode (fun none => some ?_) made
  rw [← names, none]
  rfl

end Phrase

namespace Language

open Phrase

/-- Whether a node gets its values in order or by name makes no difference. For every type of a
generated language and every split of its values into some that are given in order and others that
are given by name, in any order, the call gives the node or the failure of a construction from all
the values in order. If the names, at least one, are not those of the fields that are left, each
once, no node is built. -/
theorem arguments_interchange {id : Nat} {g : Grammar} {options : Options} {l : Language}
    (generated : Language.ofGrammar id g options = .ok l) {type : NodeType}
    (member : type ∈ l.types) :
    (∀ (label : Ident) (given others : List Value) (named : List (String × Value)),
      (given ++ others).length = type.fields.length →
      named.Perm ((type.fieldNames.drop given.length).zip others) →
        buildNode type label (given, named) =
            (type.construct label (given ++ others)).mapError .construction ∧
          (given = [] → type.constructNamed label named = type.construct label others)) ∧
    (∀ (next label : Ident) (given others : List Phrase) (values : List Value)
        (named : List (String × Phrase)),
      List.Forall₂ (Describes l) (given ++ others) values →
      values.length = type.fields.length →
      named.Perm ((type.fieldNames.drop given.length).zip others) →
        (build l (.call type.name (positional given ++ keywords named)) next).map
            (fun r => r.1.shape) =
          ((type.construct label values).mapError .construction).map fun n => n.toTree.shape) ∧
    (∀ (label : Ident) (given : List Value) (named : List (String × Value)), named ≠ [] →
      ¬(named.map Prod.fst).Perm (type.fieldNames.drop given.length) →
        (∃ e, buildNode type label (given, named) = .error e) ∧
          (given = [] → ∃ e, type.constructNamed label named = .error e)) ∧
    ∀ (next : Ident) (args : List (Option String × Phrase)), args.filterMap Prod.fst ≠ [] →
      ¬(args.filterMap Prod.fst).Perm
          (type.fieldNames.drop (args.countP fun a => a.1.isNone)) →
        ∃ e, build l (.call type.name args) next = .error e := by
  have wellNamed := wellNamed_ofGrammar generated
  have distinct := wellNamed.fields type member
  refine ⟨fun label given others named lengths perm => ⟨?_, ?_⟩,
    fun next label given others values named described lengths perm => ?_,
    fun label given named some wrong => ⟨?_, ?_⟩, fun next args some wrong => ?_⟩
  · exact buildNode_split distinct label lengths perm
  · rintro rfl
    exact NodeType.constructNamed_perm distinct label lengths perm
  · exact build_call_split wellNamed member described lengths perm next label
  · cases built : buildNode type label (given, named) with
    | error e => exact ⟨e, rfl⟩
    | ok node => exact absurd (names_of_buildNode some built) wrong
  · rintro rfl
    cases built : type.constructNamed label named with
    | error e => exact ⟨e, rfl⟩
    | ok node => exact absurd (NodeType.names_of_constructNamed built) wrong
  · cases built : build l (.call type.name args) next with
    | error e => exact ⟨e, rfl⟩
    | ok r => exact absurd (names_of_build_call wellNamed member some built) wrong

def operationGrammar : Grammar :=
  ⟨[⟨"Operation", none, .concrete,
    [⟨"left", "int", .single⟩, ⟨"sign", "string", .single⟩, ⟨"right", "int", .optional⟩]⟩]⟩

def operationType : NodeType := .plain "Operation" 1
  [⟨"left", "int", .single, .primitive .int⟩, ⟨"sign", "string", .single, .primitive .str⟩,
    ⟨"right", "int", .optional, .primitive .int⟩]

def operationLanguage : Language := ⟨0, [Grammar.rootType 0 true, operationType], true⟩

/-- One value in order and two by name, the last field first. A value of the wrong type is refused
as in a construction, and so is a name that has got its value in order. -/
theorem arguments_interchange_operation :
    let one : Value := .prim (.int 1)
    let two : Value := .prim (.int 2)
    let plus : Value := .prim (.str "+")
    Language.ofGrammar 0 operationGrammar { checked := true } = .ok operationLanguage ∧
      buildNode operationType 0 ([one], [("right", two), ("sign", plus)]) =
        .ok ⟨0, operationType, [one, plus, two]⟩ ∧
      buildNode operationType 0 ([one], [("right", plus), ("sign", plus)]) =
        .error (.construction (.wrongType "Operation" "right" "int" "str \x22+\x22")) ∧
      operationType.constructNamed 0 [("sign", plus), ("right", two), ("left", one)] =
        .ok ⟨0, operationType, [one, plus, two]⟩ ∧
      (∃ e, buildNode operationType 0 ([one], [("sign", plus), ("left", one)]) = .error e) ∧
      ∃ w after, build operationLanguage (.call "Operation"
        [(none, .literal (.int 1)), (some "right", .absent), (some "sign", .literal (.str "+"))]) 5 =
          .ok (w, after) ∧ w.shape = .node () operationType
            [.prim (.int 1), .prim (.str "+"), .absent] := by
  intro one two plus
  have generated :
      Language.ofGrammar 0 operationGrammar { checked := true } = .ok operationLanguage := by
    cbv
  have member : operationType ∈ operationLanguage.types := by decide
  obtain ⟨values, calls, wrong, -⟩ := arguments_interchange generated member
  have first := values 0 [one]
  refine ⟨generated, ?_, ?_, ?_, ?_, ?_⟩
  · exact (first [plus, two] _ rfl (.swap _ _ _)).1
  · exact (first [plus, plus] _ rfl (.swap _ _ _)).1
  · exact (values 0 [] [one, plus, two] _ rfl (List.perm_append_singleton _ _)).2 rfl
  · exact (wrong 0 [one] [("sign", plus), ("left", one)] (by decide) (by decide)).1
  · have literal (p : Prim) : Describes operationLanguage (.literal p) (.prim p : Value) :=
      fun next => ⟨.prim p, next, rfl, rfl⟩
    have absent : Describes operationLanguage .absent (.absent : Value) :=
      fun next => ⟨.absent, next, rfl, rfl⟩
    have call := calls 5 0 [.literal (.int 1)] [.literal (.str "+"), .absent]
      [one, plus, .absent] _ (.cons (literal _) (.cons (literal _) (.cons absent .nil))) rfl
      (.swap _ _ _)
    obtain ⟨r, built, shape⟩ := except_map_eq_ok call
    exact ⟨r.1, r.2, built, shape⟩

end Language

end Arbor
