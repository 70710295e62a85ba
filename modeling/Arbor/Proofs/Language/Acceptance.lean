import Arbor.Proofs.Language.Subtyping

/-!
# Which grammars are accepted

Generation accepts exactly the grammars that are well-formed (`Grammar.WellFormed`): names are in
order, bases and types of fields are known, and from every entry declared bases lead to the root.
The last condition is not tested as such. The entries are gone through in rounds, and a round in
which no entry is ready ends the loop. The entries that are left then are closed under bases, so
none of them reaches the root, whereas every entry that got ready does (`orderFrom_cases`). As there
are finitely many names, an entry that does not reach the root derives from a cycle
(`not_rooted_iff`).
-/

namespace Arbor

theorem exists_mapM_ok_iff {ε α β : Type} {f : α → Except ε β} {xs : List α} :
    (∃ ys, xs.mapM f = .ok ys) ↔ ∀ x ∈ xs, ∃ y, f x = .ok y := by
  induction xs with
  | nil => exact iff_of_true ⟨[], rfl⟩ (List.forall_mem_nil _)
  | cons x xs ih =>
    rw [List.forall_mem_cons, ← ih]
    constructor
    · rintro ⟨ys, h⟩
      rw [List.mapM_cons] at h
      obtain ⟨y, hy, h⟩ := except_bind_eq_ok h
      obtain ⟨rest, hr, -⟩ := except_bind_eq_ok h
      exact ⟨⟨y, hy⟩, rest, hr⟩
    · rintro ⟨⟨y, hy⟩, rest, hr⟩
      refine ⟨y :: rest, ?_⟩
      rw [List.mapM_cons, hy, hr]
      rfl

namespace Grammar

/-! ## Names and types -/

theorem checkEntries_eq_ok {seen : List String} {entries : List TypeSpec} :
    checkEntries seen entries = .ok () ↔
      WellNamed entries ∧ ∀ entry ∈ entries, entry.name ∉ seen := by
  refine ⟨wellNamed_of_checkEntries, ?_⟩
  rintro ⟨named, fresh⟩
  induction entries generalizing seen with
  | nil => rfl
  | cons entry rest ih =>
    obtain ⟨distinct, unreserved, fields⟩ := named
    rw [List.map_cons, List.nodup_cons] at distinct
    rw [List.forall_mem_cons] at unreserved fields fresh
    have unrepeated : firstRepeated [] (entry.fields.map FieldSpec.name) = none :=
      firstRepeated_eq_none.mpr ⟨fields.1, by simp⟩
    rw [checkEntries, if_neg (by simpa using unreserved.1), if_neg (by simpa using fresh.1),
      unrepeated]
    refine ih ⟨distinct.2, unreserved.2, fields.2⟩ fun other ho => ?_
    rw [List.mem_cons, not_or]
    refine ⟨fun same => distinct.1 ?_, fresh.2 other ho⟩
    exact same ▸ List.mem_map_of_mem ho

/-- Every base is the root or an entry. -/
def BasesKnown (entries : List TypeSpec) : Prop :=
  ∀ entry ∈ entries, ∀ base, entry.base = some base →
    base = rootName ∨ base ∈ entries.map TypeSpec.name

theorem checkBases_eq_ok {names : List String} {entries : List TypeSpec} :
    checkBases names entries = .ok () ↔
      ∀ entry ∈ entries, ∀ base, entry.base = some base → base = rootName ∨ base ∈ names := by
  induction entries with
  | nil => simp [checkBases]
  | cons entry rest ih =>
    rw [List.forall_mem_cons, ← ih, checkBases]
    cases entry.base with
    | none => simp
    | some base => by_cases known : base = rootName ∨ base ∈ names <;> simp [known]

theorem checkNames_eq_ok {entries : List TypeSpec} :
    checkNames entries = .ok () ↔ WellNamed entries ∧ BasesKnown entries := by
  have both : checkNames entries = .ok () ↔
      checkEntries [] entries = .ok () ∧
        checkBases (entries.map TypeSpec.name) entries = .ok () := by
    rw [checkNames]
    cases checkEntries [] entries <;> simp [bind, Except.bind]
  rw [both, checkEntries_eq_ok, checkBases_eq_ok, BasesKnown]
  simp

theorem lookup_eq_none {primitives : PrimitiveTable} {name : String} :
    primitives.lookup name = none ↔ name ∉ primitives.map Prod.fst := by
  rw [List.lookup_eq_none_iff, List.mem_map]
  simp only [bne_iff_ne, not_exists, not_and]
  exact forall₂_congr fun _ _ => ne_comm

theorem exists_resolveField {order : List TypeSpec} {primitives : PrimitiveTable}
    {entry : TypeSpec} {field : FieldSpec} :
    (∃ f, resolveField order primitives entry field = .ok f) ↔
      field.typeName ∈ typeNames order ∨ field.typeName ∈ primitives.map Prod.fst := by
  rw [← not_iff_not, not_or, ← indexOf?_eq_none, ← lookup_eq_none, resolveField]
  cases indexOf? order field.typeName with
  | some index => simp
  | none => cases primitives.lookup field.typeName <;> simp

/-! ## Rounds -/

/-- Declared bases lead from the name to the root. -/
def Rooted (entries : List TypeSpec) (name : String) : Prop := Derives entries name rootName

theorem Rooted.of_base {entries : List TypeSpec} {entry : TypeSpec} (he : entry ∈ entries)
    (h : Rooted entries (entry.base.getD rootName)) : Rooted entries entry.name :=
  .head ⟨entry, he, rfl, rfl⟩ h

theorem round_of_rooted {entries : List TypeSpec} {generated : List String}
    (root : rootName ∈ generated) (known : ∀ name ∈ generated, Rooted entries name)
    {pending : List TypeSpec} (sub : ∀ entry ∈ pending, entry ∈ entries) :
    ∀ entry ∈ (round generated pending).1, Rooted entries entry.name := by
  induction pending generalizing generated with
  | nil => exact List.forall_mem_nil _
  | cons entry rest ih =>
    rw [List.forall_mem_cons] at sub
    unfold round
    split
    · rename_i ready
      have rooted := Rooted.of_base sub.1 (known _ ((isReady_iff root entry).mp ready))
      refine List.forall_mem_cons.mpr ⟨rooted, ih (List.mem_cons_of_mem _ root) ?_ sub.2⟩
      exact List.forall_mem_cons.mpr ⟨rooted, known⟩
    · exact ih root known sub.2

/-- Entries that wait stay in their order. -/
theorem filter_round {p : TypeSpec → Bool} {generated : List String} {pending : List TypeSpec}
    (ready : ∀ entry ∈ (round generated pending).1, p entry = false) :
    (round generated pending).2.filter p = pending.filter p := by
  induction pending generalizing generated with
  | nil => rfl
  | cons entry rest ih =>
    unfold round at ready ⊢
    split at ready
    · rw [List.forall_mem_cons] at ready
      rename_i isReady
      rw [if_pos isReady, ih ready.2, List.filter_cons_of_neg (by simp [ready.1])]
    · rename_i notReady
      rw [if_neg notReady, List.filter_cons, ih ready, List.filter_cons]

theorem round_stuck {generated : List String} {pending : List TypeSpec}
    (none : (round generated pending).1 = []) :
    ∀ entry ∈ pending, isReady generated entry = false := by
  induction pending generalizing generated with
  | nil => exact List.forall_mem_nil _
  | cons entry rest ih =>
    unfold round at none
    split at none
    · cases none
    · rename_i notReady
      exact List.forall_mem_cons.mpr ⟨by simpa using notReady, ih none⟩

/-- Where the loop stands: what has been generated reaches the root, and the other entries wait. -/
structure Waiting (entries : List TypeSpec) (generated : List String) (pending : List TypeSpec) :
    Prop where
  root : rootName ∈ generated
  known : ∀ name ∈ generated, Rooted entries name
  sub : ∀ entry ∈ pending, entry ∈ entries
  cover : ∀ entry ∈ entries, entry.name ∈ generated ∨ entry ∈ pending

section Loop

variable {entries : List TypeSpec}

theorem Waiting.start (entries : List TypeSpec) : Waiting entries [rootName] (byKind entries) where
  root := List.mem_singleton_self _
  known := List.forall_mem_singleton.mpr .refl
  sub _ he := (byKind_perm entries).mem_iff.mp he
  cover _ he := .inr ((byKind_perm entries).mem_iff.mpr he)

theorem Waiting.next {generated : List String} {pending : List TypeSpec}
    (h : Waiting entries generated pending) :
    Waiting entries ((round generated pending).1.map TypeSpec.name ++ generated)
      (round generated pending).2 := by
  have whole (entry : TypeSpec) := (round_perm generated pending).mem_iff (a := entry)
  simp only [List.mem_append] at whole
  refine ⟨List.mem_append_right _ h.root, ?_, fun entry he => ?_, fun entry he => ?_⟩
  · rw [List.forall_mem_append, List.forall_mem_map]
    exact ⟨round_of_rooted h.root h.known h.sub, h.known⟩
  · exact h.sub entry ((whole entry).mp (.inr he))
  · rcases h.cover entry he with known | waits
    · exact .inl (List.mem_append_right _ known)
    · exact ((whole entry).mpr waits).imp_left fun ready =>
        List.mem_append_left _ (List.mem_map_of_mem ready)

/-- When no entry is ready, the bases of those that wait are among them. -/
theorem Waiting.stuck {generated : List String} {pending : List TypeSpec}
    (h : Waiting entries generated pending) (named : WellNamed entries)
    (bases : BasesKnown entries) (none : (round generated pending).1 = []) :
    ∀ entry ∈ pending, ¬ Rooted entries entry.name := by
  have blocked {entry : TypeSpec} (he : entry ∈ pending) :
      entry.base.getD rootName ∉ generated := by
    rw [← isReady_iff h.root, round_stuck none entry he]
    exact Bool.false_ne_true
  intro entry he rooted
  generalize same : entry.name = name at rooted
  -- Along the way to the root, the entry and its bases all wait.
  induction rooted using Relation.ReflTransGen.head_induction_on generalizing entry with
  | refl =>
    refine named.unreserved entry (h.sub entry he) ?_
    rw [same]
    decide
  | head step rest ih =>
    obtain ⟨other, ho, named', rfl⟩ := step
    cases List.inj_on_of_nodup_map named.distinct ho (h.sub entry he) (named'.trans same.symm)
    cases declared : entry.base with
    | none =>
      refine blocked he ?_
      rw [declared]
      exact h.root
    | some base =>
      rcases bases entry ho base declared with root | entryBase
      · refine blocked he ?_
        rw [declared, Option.getD_some, root]
        exact h.root
      · obtain ⟨parent, hp, isBase⟩ := List.mem_map.mp entryBase
        rcases h.cover parent hp with known | waits
        · refine blocked he ?_
          rwa [declared, Option.getD_some, ← isBase]
        · exact ih parent waits (by rw [declared, Option.getD_some, isBase])

open Classical in
/-- The entries from which declared bases do not lead to the root. -/
noncomputable def unrooted (entries : List TypeSpec) (among : List TypeSpec) : List TypeSpec :=
  among.filter fun entry => ¬ Rooted entries entry.name

theorem mem_unrooted {among : List TypeSpec} {entry : TypeSpec} :
    entry ∈ unrooted entries among ↔ entry ∈ among ∧ ¬ Rooted entries entry.name := by
  simp [unrooted]

theorem unrooted_append (some others : List TypeSpec) :
    unrooted entries (some ++ others) = unrooted entries some ++ unrooted entries others :=
  List.filter_append ..

theorem unrooted_eq_self {among : List TypeSpec}
    (h : ∀ entry ∈ among, ¬ Rooted entries entry.name) : unrooted entries among = among := by
  simpa [unrooted] using h

theorem unrooted_round {generated : List String} {pending : List TypeSpec}
    (ready : ∀ entry ∈ (round generated pending).1, Rooted entries entry.name) :
    unrooted entries (round generated pending).2 = unrooted entries pending :=
  filter_round fun entry he => by simp [ready entry he]

/-- The loop ends with an order of the entries that wait, or names those that do not reach the
root. -/
theorem orderFrom_cases {generated : List String} {pending : List TypeSpec}
    (h : Waiting entries generated pending) (named : WellNamed entries)
    (bases : BasesKnown entries) :
    ((∃ order, orderFrom generated pending = .ok order) ∧ unrooted entries pending = []) ∨
      orderFrom generated pending =
          .error (.inheritanceCycle ((unrooted entries pending).map TypeSpec.name)) ∧
        unrooted entries pending ≠ [] := by
  induction generated, pending using orderFrom.induct with
  | case1 generated pending empty =>
    refine .inl ⟨⟨[], orderFrom_done empty⟩, ?_⟩
    rw [List.isEmpty_iff.mp empty]
    rfl
  | case2 generated pending nonempty waiting next =>
    have all := unrooted_eq_self (h.stuck named bases (by rw [next]))
    rw [all]
    exact .inr ⟨orderFrom_stuck nonempty next, by simpa using nonempty⟩
  | case3 generated pending nonempty entry ready waiting next ih =>
    have kept := unrooted_round (round_of_rooted h.root h.known h.sub)
    have after := h.next
    rw [next] at kept after
    rw [orderFrom_step nonempty next, ← kept]
    rcases ih after with ⟨⟨later, ordered⟩, none⟩ | ⟨failed, some⟩
    · exact .inl ⟨⟨_, by rw [ordered]; rfl⟩, none⟩
    · exact .inr ⟨by rw [failed]; rfl, some⟩

theorem order_cases (named : WellNamed entries) (bases : BasesKnown entries) :
    ((∃ order, Grammar.order entries = .ok order) ∧
        ∀ entry ∈ entries, Rooted entries entry.name) ∨
      Grammar.order entries =
          .error (.inheritanceCycle ((unrooted entries (byKind entries)).map TypeSpec.name)) ∧
        ∃ entry ∈ entries, ¬ Rooted entries entry.name := by
  have member (entry : TypeSpec) := (byKind_perm entries).mem_iff (a := entry)
  rcases orderFrom_cases (Waiting.start entries) named bases with ⟨ordered, none⟩ | ⟨failed, some⟩
  · refine .inl ⟨ordered, fun entry he => ?_⟩
    by_contra lost
    have := mem_unrooted.mpr ⟨(member entry).mpr he, lost⟩
    rw [none] at this
    cases this
  · obtain ⟨entry, he⟩ := List.exists_mem_of_ne_nil _ some
    obtain ⟨waits, lost⟩ := mem_unrooted.mp he
    exact .inr ⟨failed, entry, (member entry).mp waits, lost⟩

/-! ## The number of rounds -/

/-- What the loop has ended with after a number of rounds. -/
def orderWithin : Nat → List String → List TypeSpec →
    Option (Except GrammarError (List TypeSpec))
  | 0, _, _ => none
  | n + 1, generated, pending =>
    if pending.isEmpty then some (.ok [])
    else
      match round generated pending with
      | ([], _) => some (.error (.inheritanceCycle (pending.map TypeSpec.name)))
      | (entry :: ready, waiting) =>
        (orderWithin n ((entry :: ready).map TypeSpec.name ++ generated) waiting).map
          (Except.map (entry :: ready ++ ·))

theorem orderWithin_eq {n : Nat} {generated : List String} {pending : List TypeSpec}
    (enough : pending.length < n) :
    orderWithin n generated pending = some (orderFrom generated pending) := by
  induction n generalizing generated pending with
  | zero => exact absurd enough (Nat.not_lt_zero _)
  | succ n ih =>
    rw [orderWithin]
    split
    · rename_i empty
      rw [orderFrom_done empty]
    rename_i nonempty
    split
    · rename_i waiting next
      rw [orderFrom_stuck nonempty next]
    · rename_i entry ready waiting next
      have shorter := length_round generated pending
      simp only [next, List.length_cons] at shorter
      rw [ih (by omega), orderFrom_step nonempty next, Option.map_some]

/-! ## Cycles -/

section Cycles

variable (named : WellNamed entries)

include named

theorem hasBase_unique {a b c : String} (hb : HasBase entries a b) (hc : HasBase entries a c) :
    b = c := by
  obtain ⟨entry, he, rfl, rfl⟩ := hb
  obtain ⟨other, ho, same, rfl⟩ := hc
  cases List.inj_on_of_nodup_map named.distinct ho he same
  rfl

theorem not_hasBase_root {b : String} : ¬ HasBase entries rootName b := by
  rintro ⟨entry, he, same, -⟩
  exact named.unreserved entry he (by rw [same]; decide)

theorem Rooted.base {a b : String} (h : Rooted entries a) (base : HasBase entries a b) :
    Rooted entries b := by
  rcases Relation.ReflTransGen.cases_head h with rfl | ⟨c, hc, rest⟩
  · exact absurd base (not_hasBase_root named)
  · rwa [hasBase_unique named base hc]

theorem Rooted.derives {a b : String} (h : Rooted entries a) (way : Derives entries a b) :
    Rooted entries b := by
  induction way with
  | refl => exact h
  | tail _ base ih => exact ih.base named base

/-- No way to the root meets a cycle, as it would not leave it. -/
theorem Rooted.acyclic {a : String} (h : Rooted entries a) :
    ¬ Relation.TransGen (HasBase entries) a a := by
  induction h using Relation.ReflTransGen.head_induction_on with
  | refl =>
    intro cycle
    obtain ⟨b, base, -⟩ := Relation.TransGen.head'_iff.mp cycle
    exact not_hasBase_root named base
  | head base _ ih =>
    intro cycle
    obtain ⟨b, first, rest⟩ := Relation.TransGen.head'_iff.mp cycle
    cases hasBase_unique named base first
    exact ih (Relation.TransGen.tail' rest base)

omit named in
/-- Without a cycle the way up from an entry ends, since there are finitely many names, and it can
end only at the root. -/
theorem rooted_of_acyclic (bases : BasesKnown entries) {entry : TypeSpec} (he : entry ∈ entries)
    (acyclic : ∀ c, Derives entries entry.name c → ¬ Relation.TransGen (HasBase entries) c c) :
    Rooted entries entry.name := by
  let Above := {name // name ∈ entries.map TypeSpec.name ∧ Derives entries entry.name name}
  let after (b a : Above) : Prop := Relation.TransGen (HasBase entries) a.1 b.1
  have finite : Finite Above :=
    ((List.finite_toSet (entries.map TypeSpec.name)).subset fun _ h => h.1).to_subtype
  have : IsTrans Above after := ⟨fun _ _ _ ab bc => bc.trans ab⟩
  have : Std.Irrefl after := ⟨fun c => acyclic c.1 c.2.2⟩
  let own : Above := ⟨entry.name, List.mem_map_of_mem he, .refl⟩
  obtain ⟨⟨name, member, way⟩, -, last⟩ :=
    (Finite.wellFounded_of_trans_of_irrefl after).has_min Set.univ ⟨own, trivial⟩
  obtain ⟨top, ht, rfl⟩ := List.mem_map.mp member
  have base : HasBase entries top.name (top.base.getD rootName) := ⟨top, ht, rfl, rfl⟩
  have further : Derives entries entry.name (top.base.getD rootName) := way.tail base
  cases declared : top.base with
  | none => rwa [declared] at further
  | some parent =>
    rw [declared, Option.getD_some] at base further
    rcases bases top ht parent declared with rfl | known
    · exact further
    · exact absurd (.single base) (last ⟨parent, known, further⟩ trivial)

theorem not_rooted_iff (bases : BasesKnown entries) {entry : TypeSpec} (he : entry ∈ entries) :
    ¬ Rooted entries entry.name ↔
      ∃ c, Derives entries entry.name c ∧ Relation.TransGen (HasBase entries) c c := by
  constructor
  · intro lost
    by_contra none
    push Not at none
    exact lost (rooted_of_acyclic bases he none)
  · rintro ⟨c, way, cycle⟩ rooted
    exact (rooted.derives named way).acyclic named cycle

end Cycles

end Loop

/-! ## Acceptance -/

/-- What a grammar has to be for a language to be generated from it. -/
structure WellFormed (g : Grammar) (primitives : PrimitiveTable) : Prop where
  names : WellNamed g.entries
  bases : BasesKnown g.entries
  rooted : ∀ entry ∈ g.entries, Rooted g.entries entry.name
  types : ∀ entry ∈ g.entries, ∀ field ∈ entry.fields,
    field.typeName = rootName ∨ field.typeName ∈ g.entries.map TypeSpec.name ∨
      field.typeName ∈ primitives.map Prod.fst

theorem exists_resolveFields {g : Grammar} {order : List TypeSpec} (perm : order.Perm g.entries)
    {primitives : PrimitiveTable} :
    (∃ fields, order.mapM (resolveFields order primitives) = .ok fields) ↔
      ∀ entry ∈ g.entries, ∀ field ∈ entry.fields,
        field.typeName = rootName ∨ field.typeName ∈ g.entries.map TypeSpec.name ∨
          field.typeName ∈ primitives.map Prod.fst := by
  simp only [exists_mapM_ok_iff, resolveFields, exists_resolveField, mem_typeNames perm, or_assoc,
    perm.mem_iff]

end Grammar

namespace Language

theorem exists_ofGrammar_iff {id : Nat} {g : Grammar} {options : Options} :
    (∃ l, Language.ofGrammar id g options = .ok l) ↔ g.WellFormed options.primitives := by
  constructor
  · rintro ⟨l, h⟩
    obtain ⟨checked, order, fields, ordered, resolved, -⟩ := ofGrammar_eq_ok_iff.mp h
    obtain ⟨names, bases⟩ := Grammar.checkNames_eq_ok.mp checked
    rcases Grammar.order_cases names bases with ⟨-, rooted⟩ | ⟨failed, -⟩
    · refine ⟨names, bases, rooted, ?_⟩
      exact (Grammar.exists_resolveFields (Grammar.order_perm ordered)).mp ⟨fields, resolved⟩
    · cases ordered.symm.trans failed
  · rintro ⟨names, bases, rooted, types⟩
    rcases Grammar.order_cases names bases with ⟨⟨order, ordered⟩, -⟩ | ⟨-, entry, he, lost⟩
    · obtain ⟨fields, resolved⟩ :=
        (Grammar.exists_resolveFields (Grammar.order_perm ordered)).mpr types
      exact ⟨_, ofGrammar_eq_ok_iff.mpr
        ⟨Grammar.checkNames_eq_ok.mpr ⟨names, bases⟩, order, fields, ordered, resolved, rfl⟩⟩
    · exact absurd (rooted entry he) lost

/-- Generation accepts exactly the well-formed grammars. If only the way of some entries to the root
is missing, the error names these entries, the abstract ones first and each group as declared; they
are the entries that are on a cycle or derive from one. The entries are in order after at most one
round more than there are entries. -/
theorem ofGrammar_accepts (id : Nat) (g : Grammar) (options : Options) :
    ((∃ l, Language.ofGrammar id g options = .ok l) ↔ g.WellFormed options.primitives) ∧
    (Grammar.WellNamed g.entries → Grammar.BasesKnown g.entries →
      (∃ entry ∈ g.entries, ¬ Grammar.Rooted g.entries entry.name) →
        Language.ofGrammar id g options = .error (.inheritanceCycle
          ((Grammar.unrooted g.entries (g.entries.filter fun e => e.kind == .abstract) ++
            Grammar.unrooted g.entries (g.entries.filter fun e => e.kind == .concrete)).map
              TypeSpec.name)) ∧
        ∀ entry ∈ g.entries, ¬ Grammar.Rooted g.entries entry.name ↔
          ∃ c, Grammar.Derives g.entries entry.name c ∧
            Relation.TransGen (Grammar.HasBase g.entries) c c) ∧
    ∀ n, g.entries.length < n →
      Grammar.orderWithin n [rootName] (Grammar.byKind g.entries) =
        some (Grammar.order g.entries) := by
  refine ⟨exists_ofGrammar_iff, fun names bases lost => ⟨?_, fun entry he => ?_⟩,
    fun n enough => ?_⟩
  · rcases Grammar.order_cases names bases with ⟨-, rooted⟩ | ⟨failed, -⟩
    · obtain ⟨entry, he, lost⟩ := lost
      exact absurd (rooted entry he) lost
    · rw [← Grammar.unrooted_append, ← Grammar.byKind, Language.ofGrammar,
        Grammar.checkNames_eq_ok.mpr ⟨names, bases⟩, failed]
      rfl
  · exact Grammar.not_rooted_iff names bases he
  · refine Grammar.orderWithin_eq ?_
    rwa [(Grammar.byKind_perm g.entries).length_eq]

/-- A cycle of two entries, one entry that derives from it, declared before it, and one that derives
from that; the others are fine. -/
def ringGrammar : Grammar :=
  ⟨[⟨"Leaf", some "loop", .concrete, []⟩,
    ⟨"loop", some "ring", .abstract, []⟩,
    ⟨"Fine", none, .concrete, [⟨"of", "unknown", .single⟩]⟩,
    ⟨"ring", some "loop", .abstract, []⟩,
    ⟨"tail", some "Leaf", .abstract, []⟩,
    ⟨"late", some "Fine", .abstract, []⟩]⟩

theorem ofGrammar_accepts_ring :
    let stuck (kind : Kind) := Grammar.unrooted ringGrammar.entries
      (ringGrammar.entries.filter fun e => e.kind == kind)
    (stuck .abstract ++ stuck .concrete).map TypeSpec.name = ["loop", "ring", "tail", "Leaf"] ∧
      ¬ ringGrammar.WellFormed PrimitiveTable.standard := by
  intro stuck
  have names : Grammar.WellNamed ringGrammar.entries := ⟨by decide, by decide, by decide⟩
  have bases : Grammar.BasesKnown ringGrammar.entries := by
    simp [Grammar.BasesKnown, ringGrammar]
  have refused : Language.ofGrammar 0 ringGrammar {} =
      .error (.inheritanceCycle ["loop", "ring", "tail", "Leaf"]) := by
    cbv
  obtain ⟨accepts, cycle, -⟩ := ofGrammar_accepts 0 ringGrammar {}
  have lost : ∃ entry ∈ ringGrammar.entries, ¬ Grammar.Rooted ringGrammar.entries entry.name := by
    refine ⟨_, .tail _ (.head _), (Grammar.not_rooted_iff names bases (.tail _ (.head _))).mpr ?_⟩
    refine ⟨"loop", .refl, .tail (b := "ring") (.single ?_) ?_⟩
    · exact ⟨_, .tail _ (.head _), rfl, rfl⟩
    · exact ⟨_, .tail _ (.tail _ (.tail _ (.head _))), rfl, rfl⟩
  constructor
  · have same := (cycle names bases lost).1
    rw [refused, Except.error.injEq, GrammarError.inheritanceCycle.injEq] at same
    exact same.symm
  · rw [← accepts, refused]
    rintro ⟨l, generated⟩
    cases generated

end Language

end Arbor
