import Arbor.Phrase.Build
import Arbor.Proofs.Language.Generated
import Arbor.Proofs.Phrase.Printing
import Arbor.Proofs.Phrase.Reading

/-!
# Trees read back

The phrase of a valid tree of a language builds an equal tree (`build_phrase`), and both texts of
a tree are written forms of its phrase. So either text is read as a tree equal to the one that it
was printed from (`parse_printed`).

A node is built from named values. Names tell fields apart, so every value lands in the slot of its
own field, and the node is built as from the values in order (`constructNamed_zip`).
-/

namespace Arbor

variable {ι : Type}

/-! ## Named values -/

namespace NodeType

theorem findIdx?_name {before rest : List Field} {field : Field}
    (h : field.name ∉ before.map Field.name) :
    (before ++ field :: rest).findIdx? (fun f => f.name == field.name) = some before.length := by
  induction before with
  | nil => simp [List.findIdx?_cons]
  | cons other before ih =>
    rw [List.map_cons, List.mem_cons, not_or] at h
    rw [List.cons_append, List.findIdx?_cons, ih h.2, if_neg (by simpa using Ne.symm h.1)]
    rfl

/-- Some slots are filled already; the values fill the others in order. -/
theorem fillSlots_zip {type : NodeType} (distinct : type.fieldNames.Nodup)
    (before : List Field) {rest : List Field} (fields : type.fields = before ++ rest)
    (filled : List (Tree ι)) {values : List (Tree ι)} (hf : filled.length = before.length)
    (hv : values.length = rest.length) :
    type.fillSlots (filled.map some ++ rest.map fun _ => none) ((rest.map Field.name).zip values) =
      .ok ((filled ++ values).map some) := by
  induction rest generalizing before filled values with
  | nil =>
    have : values = [] := List.eq_nil_of_length_eq_zero hv
    subst this
    simp [fillSlots]
  | cons field rest ih =>
    cases values with
    | nil => cases hv
    | cons value values =>
      -- Names are distinct, so this one is found at the first slot that is still empty.
      have fresh : field.name ∉ before.map Field.name := by
        intro member
        rw [fieldNames, fields, List.map_append, List.map_cons, List.nodup_append] at distinct
        exact distinct.2.2 _ member _ List.mem_cons_self rfl
      have index : type.fieldIndex? field.name = some filled.length := by
        rw [fieldIndex?, fields, findIdx?_name fresh, hf]
      have later := ih (before ++ [field])
        (by rw [fields, List.append_assoc, List.singleton_append]) (filled ++ [value])
        (by simp [hf]) (Nat.succ.inj hv)
      have free : (filled.map some ++ none :: rest.map fun _ => none)[filled.length]? =
          some none := by simp
      have filling : (filled.map some ++ none :: rest.map fun _ => none).set filled.length
          (some value) = (filled ++ [value]).map some ++ rest.map fun _ => none := by simp
      rw [List.map_cons, List.map_cons, List.zip_cons_cons, fillSlots, index]
      simp only [free, filling]
      rw [later, List.append_assoc, List.singleton_append]

theorem readSlots_some (type : NodeType) {fields : List Field} {values : List (Tree ι)}
    (h : values.length = fields.length) : type.readSlots fields (values.map some) = .ok values := by
  induction fields generalizing values with
  | nil =>
    rw [List.eq_nil_of_length_eq_zero h]
    rfl
  | cons field fields ih =>
    cases values with
    | nil => cases h
    | cons value values =>
      rw [List.map_cons, readSlots, ih (Nat.succ.inj h)]
      rfl

theorem constructNamed_zip {type : NodeType} (distinct : type.fieldNames.Nodup) (id : ι)
    {values : List (Tree ι)} (h : values.length = type.fields.length) :
    type.constructNamed id (type.fieldNames.zip values) = type.construct id values := by
  have filled := fillSlots_zip distinct [] rfl [] rfl h
  rw [List.map_nil, List.nil_append, List.nil_append] at filled
  rw [constructNamed, fieldNames, filled]
  change (type.readSlots type.fields (values.map some) >>= type.construct id) = _
  rw [readSlots_some type h]
  rfl

end NodeType

/-! ## Building -/

namespace Phrase

theorem builder_bind {α β : Type} {x : Builder α} {f : α → Builder β} {next after : Ident} {a : α}
    (h : x next = .ok (a, after)) : (x >>= f) next = f a after := by
  change (x next >>= fun r => f r.1 r.2) = _
  rw [h]
  rfl

/-- The phrase of a tree builds an equal one. -/
def Builds (l : Language) (t : Tree ι) : Prop :=
  ∀ next, ∃ w after, build l t.phrase next = .ok (w, after) ∧ w.shape = t.shape

theorem buildAll_phraseAll {l : Language} {items : List (Tree ι)} (h : ∀ v ∈ items, Builds l v)
    (next : Ident) :
    ∃ ws after, buildAll l (Tree.phraseAll items) next = .ok (ws, after) ∧
      ws.map Tree.shape = items.map Tree.shape := by
  induction items generalizing next with
  | nil => exact ⟨[], next, rfl, rfl⟩
  | cons v vs ih =>
    rw [List.forall_mem_cons] at h
    obtain ⟨w, middle, first, same⟩ := h.1 next
    obtain ⟨ws, after, others, alike⟩ := ih h.2 middle
    refine ⟨w :: ws, after, ?_, by rw [List.map_cons, List.map_cons, same, alike]⟩
    rw [Tree.phraseAll, buildAll, builder_bind first, builder_bind others]
    rfl

theorem buildArgs_fieldPhrases {l : Language} (type : NodeType) {fields : List Field}
    {values : List (Tree ι)} (h : ∀ v ∈ values, Builds l v)
    (lengths : values.length = fields.length) (named : Bool) (next : Ident) :
    ∃ ws after, buildArgs l type named (Tree.fieldPhrases fields values) next =
        .ok (([], (fields.map Field.name).zip ws), after) ∧
      ws.map Tree.shape = values.map Tree.shape := by
  induction fields generalizing values named next with
  | nil =>
    rw [List.eq_nil_of_length_eq_zero lengths]
    refine ⟨[], next, ?_, rfl⟩
    simp only [Tree.fieldPhrases, buildArgs]
    rfl
  | cons field fields ih =>
    cases values with
    | nil => cases lengths
    | cons v vs =>
      rw [List.forall_mem_cons] at h
      obtain ⟨w, middle, first, same⟩ := h.1 next
      obtain ⟨ws, after, others, alike⟩ := ih h.2 (Nat.succ.inj lengths) true middle
      refine ⟨w :: ws, after, ?_, by rw [List.map_cons, List.map_cons, same, alike]⟩
      rw [Tree.fieldPhrases, buildArgs, builder_bind first]
      dsimp only
      rw [builder_bind others]
      rfl

theorem buildNode_zip {type : NodeType} (distinct : type.fieldNames.Nodup) (id : Ident)
    {values : List Value} (valid : type.validate values = .ok ()) :
    buildNode type id ([], type.fieldNames.zip values) = .ok ⟨id, type, values⟩ := by
  have lengths := NodeType.length_of_validate valid
  have built : type.construct id values = .ok ⟨id, type, values⟩ := by
    rw [NodeType.construct, valid]
    rfl
  unfold buildNode
  dsimp only
  split
  · rename_i empty
    have none : values = [] := by
      rw [List.isEmpty_iff, List.zip_eq_nil_iff, NodeType.fieldNames, List.map_eq_nil_iff] at empty
      rcases empty with fields | values
      · rw [fields] at lengths
        exact List.eq_nil_of_length_eq_zero lengths
      · exact values
    subst none
    rw [built]
    rfl
  · rw [if_neg (by simp), List.zip_nil_right, List.nil_append,
      NodeType.constructNamed_zip distinct id lengths, built]
    rfl

theorem build_phrase {l : Language} (named : l.WellNamed) {t : Tree ι}
    (valid : ∀ n ∈ t.nodes, n.type ∈ l.types ∧ n.type.validate n.values = .ok ()) :
    Builds l t := by
  induction t using Tree.ind with
  | node id type values ih =>
    obtain ⟨⟨member, accepted⟩, inner⟩ := Tree.forall_nodes_node_iff.mp valid
    obtain ⟨var, wildcard⟩ := named.terms type member
    intro next
    obtain ⟨ws, after, args, alike⟩ := buildArgs_fieldPhrases type
      (fun v hv => ih v hv (inner v hv)) (NodeType.length_of_validate accepted) false next
    have accepted' : type.validate ws = .ok () := by
      rw [type.validate_congr alike]
      exact accepted
    refine ⟨.node after type ws, after + 1, ?_, by simp [Tree.shape, alike]⟩
    rw [Tree.phrase, build, if_neg var, if_neg wildcard, named.get?_name member]
    dsimp only
    rw [builder_bind args]
    change ((liftM (buildNode type after ([], type.fieldNames.zip ws)) : Builder (Node Ident)) >>=
      fun node => pure node.toTree) (after + 1) = _
    rw [buildNode_zip (named.fields type member) after accepted']
    rfl
  | seq id items ih =>
    have inner := Tree.forall_nodes_seq_iff.mp valid
    intro next
    obtain ⟨ws, after, all, alike⟩ := buildAll_phraseAll (fun v hv => ih v hv (inner v hv)) next
    refine ⟨.seq after ws, after + 1, ?_, by simp [Tree.shape, alike]⟩
    rw [Tree.phrase, build, builder_bind all]
    rfl
  | prim p => exact fun next => ⟨.prim p, next, rfl, rfl⟩
  | absent => exact fun next => ⟨.absent, next, rfl, rfl⟩
  | pattern p =>
    cases p with
    | var x => exact fun next => ⟨.pattern (.var x), next, rfl, rfl⟩
    | wildcard => exact fun next => ⟨.pattern .wildcard, next, rfl, rfl⟩

end Phrase

/-! ## Reading back -/

namespace Language

theorem parse_written {l : Language} (named : l.WellNamed) {t : Tree ι} {text : String}
    (valid : ∀ n ∈ t.nodes, n.type ∈ l.types ∧ n.type.validate n.values = .ok ())
    (written : Phrase.Written t.phrase text.toList) (next : Ident) :
    ∃ w after, (l.parse text).run next = .ok (w, after) ∧ w.same t = true := by
  obtain ⟨w, after, built, same⟩ := Phrase.build_phrase named valid next
  have read := Phrase.read?_written Phrase.blanks_nil written Phrase.blanks_nil
  rw [List.nil_append, List.append_nil] at read
  refine ⟨w, after, ?_, (Tree.same_iff w t).mpr same⟩
  rw [parse, read]
  exact built

/-- Both texts of a valid tree of a generated language are read as a tree equal to it. -/
theorem parse_printed {id : Nat} {g : Grammar} {options : Options} {l : Language}
    (generated : Language.ofGrammar id g options = .ok l)
    (words : ∀ type ∈ l.types, type.Named) {v : Value}
    (valid : ∀ n ∈ v.nodes, n.type ∈ l.types ∧ n.type.validate n.values = .ok ())
    (next : Ident) :
    (∃ w after, (l.parse v.display).run next = .ok (w, after) ∧ w.same v = true) ∧
      ∃ w after, (l.parse v.dump).run next = .ok (w, after) ∧ w.same v = true := by
  have named := wellNamed_ofGrammar generated
  have wordNames : ∀ n ∈ v.nodes, n.type.Named := fun n hn => words n.type (valid n hn).1
  constructor
  · apply parse_written named valid
    rw [Tree.display, String.toList_ofList]
    exact Phrase.written_chars wordNames
  · apply parse_written named valid
    rw [Tree.dump, String.toList_ofList]
    exact Phrase.written_dump wordNames

/-- A type whose names are also the beginning of a byte literal and a constant. -/
def chainType : NodeType := .plain "b" 1 [.object "None", ⟨"next", "b", .optional, .node 1⟩]

def chainGrammar : Grammar :=
  ⟨[⟨"b", none, .concrete, [⟨"None", "object", .single⟩, ⟨"next", "b", .optional⟩]⟩]⟩

def chainLanguage : Language := ⟨0, [Grammar.rootType 0 true, chainType], true⟩

def chain : Value :=
  .node 0 chainType
    [.seq 1 [.seq 2 [.prim (.str "b\x22")], .prim (.bytes [39, 200]), .prim (.float .negInfinity)],
     .node 3 chainType [.pattern .wildcard, .absent]]

theorem parse_printed_chain :
    Language.ofGrammar 0 chainGrammar { checked := true } = .ok chainLanguage ∧
      (∃ w after, (chainLanguage.parse chain.display).run 4 = .ok (w, after) ∧
        w.same chain = true) ∧
      ∃ w after, (chainLanguage.parse chain.dump).run 4 = .ok (w, after) ∧
        w.same chain = true := by
  have generated :
      Language.ofGrammar 0 chainGrammar { checked := true } = .ok chainLanguage := by
    decide +kernel
  refine ⟨generated, parse_printed generated ?_ ?_ 4⟩
  · simp [chainLanguage, NodeType.Named]
    decide
  · decide

end Language

end Arbor
