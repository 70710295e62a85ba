import Mathlib
import Arbor.Proofs.Language.Acceptance

/-!
# The order of generation

The entries are listed by kind, and then gone through in rounds: in each round an entry is generated
when its turn comes if its base has been generated by then, and else it waits for the next round. So
the round of an entry is known without running the loop. It is that of its base, or the next one if
the base is listed after the entry (`Grammar.rank`). The order of generation is the order by rank,
and by the list within a rank.
-/

namespace Arbor

theorem exists_of_mapM_error {ε α β : Type} {f : α → Except ε β} {xs : List α} {e : ε}
    (h : xs.mapM f = .error e) : ∃ x ∈ xs, f x = .error e := by
  induction xs with
  | nil => cases h
  | cons x xs ih =>
    rw [List.mapM_cons] at h
    cases first : f x with
    | error e' =>
      rw [first] at h
      cases h
      exact ⟨x, List.mem_cons_self, first⟩
    | ok y =>
      rw [first] at h
      cases rest : xs.mapM f with
      | error e' =>
        simp only [rest, bind, Except.bind] at h
        cases h
        obtain ⟨z, hz, failed⟩ := ih rest
        exact ⟨z, List.mem_cons_of_mem _ hz, failed⟩
      | ok ys =>
        simp only [rest, bind, Except.bind] at h
        cases h

namespace Grammar

/-! ## Ranks -/

/-- The entry that another one derives from, unless that is the root. -/
def parent? (listed : List TypeSpec) (entry : TypeSpec) : Option TypeSpec :=
  entry.base.bind fun base => listed.find? fun e => e.name == base

/-- How often bases are listed after what derives from them, on the way up from an entry to the
root. At most `n` steps are taken. -/
def rankWithin (listed : List TypeSpec) : Nat → TypeSpec → Nat
  | 0, _ => 0
  | n + 1, entry =>
    match parent? listed entry with
    | none => 0
    | some parent =>
      rankWithin listed n parent + if listed.idxOf entry < listed.idxOf parent then 1 else 0

def rank (listed : List TypeSpec) (entry : TypeSpec) : Nat :=
  rankWithin listed listed.length entry

/-- An entry without a base, or with the root for its base, has rank 0. Any other has the rank of
its base, and one more if the base is listed later. -/
structure Ranks (listed : List TypeSpec) (rank : TypeSpec → Nat) : Prop where
  root : ∀ entry ∈ listed, entry.base = none ∨ entry.base = some rootName → rank entry = 0
  base : ∀ entry ∈ listed, ∀ parent ∈ listed, entry.base = some parent.name →
    rank entry = rank parent + if listed.idxOf entry < listed.idxOf parent then 1 else 0

/-- The first entry has a smaller rank, or the same rank and is listed first. -/
def Earlier (listed : List TypeSpec) (rank : TypeSpec → Nat) (a b : TypeSpec) : Prop :=
  rank a < rank b ∨ rank a = rank b ∧ listed.idxOf a < listed.idxOf b

/-! ## Positions -/

theorem pairwise_idxOf {listed : List TypeSpec} (distinct : listed.Nodup) :
    listed.Pairwise fun a b => listed.idxOf a < listed.idxOf b := by
  rw [List.pairwise_iff_getElem]
  intro i j hi hj before
  rwa [distinct.idxOf_getElem i hi, distinct.idxOf_getElem j hj]

/-- In a list that keeps to the order of another one, what stands before an entry is what comes
before it there. -/
theorem mem_before {listed pending done rest : List TypeSpec} {entry : TypeSpec}
    (sorted : pending.Pairwise fun a b => listed.idxOf a < listed.idxOf b)
    (split : pending = done ++ entry :: rest) (a : TypeSpec) :
    a ∈ done ↔ a ∈ pending ∧ listed.idxOf a < listed.idxOf entry := by
  subst split
  obtain ⟨-, after, before⟩ := List.pairwise_append.mp sorted
  constructor
  · intro member
    exact ⟨List.mem_append_left _ member, before a member entry List.mem_cons_self⟩
  · rintro ⟨member, smaller⟩
    rcases List.mem_append.mp member with member | member
    · exact member
    rcases List.mem_cons.mp member with rfl | member
    · exact absurd smaller (Nat.lt_irrefl _)
    · exact absurd smaller (Nat.lt_asymm ((List.pairwise_cons.mp after).1 a member))

theorem BasesFirst.before {known : List String} {done rest : List TypeSpec} {entry : TypeSpec}
    (h : BasesFirst known (done ++ entry :: rest)) :
    entry.base.getD rootName ∈ known ∨ ∃ parent ∈ done, parent.name = entry.base.getD rootName := by
  induction done generalizing known with
  | nil => exact .inl h.1
  | cons first done ih =>
    rcases ih h.2 with inside | ⟨parent, member, named⟩
    · rcases List.mem_cons.mp inside with own | inside
      · exact .inr ⟨first, List.mem_cons_self, own.symm⟩
      · exact .inl inside
    · exact .inr ⟨parent, List.mem_cons_of_mem _ member, named⟩

/-! ## Ranks are determined -/

section Determined

variable {entries : List TypeSpec} (named : WellNamed entries)

include named

theorem WellNamed.nodup : entries.Nodup :=
  named.distinct.of_map

theorem WellNamed.name_ne_root {entry : TypeSpec} (member : entry ∈ entries) :
    entry.name ≠ rootName := by
  intro same
  refine named.unreserved entry member ?_
  rw [same]
  decide

theorem parent?_of_mem {entry parent : TypeSpec} (member : parent ∈ entries)
    (base : entry.base = some parent.name) : parent? entries entry = some parent := by
  rw [parent?, base, Option.bind_some]
  cases found : entries.find? fun e => e.name == parent.name with
  | none => simpa using List.find?_eq_none.mp found parent member
  | some other =>
    have same : other.name = parent.name := by simpa using List.find?_some found
    rw [List.inj_on_of_nodup_map named.distinct (List.mem_of_find?_eq_some found) member same]

theorem parent?_of_root {entry : TypeSpec}
    (base : entry.base = none ∨ entry.base = some rootName) : parent? entries entry = none := by
  rcases base with base | base
  · rw [parent?, base, Option.bind_none]
  · rw [parent?, base, Option.bind_some, List.find?_eq_none]
    intro other member same
    exact named.name_ne_root member (by simpa using same)

end Determined

section Ordered

variable {listed order : List TypeSpec} (first : BasesFirst [rootName] order)

include first

/-- The base of an entry is the root or one of the entries before it. -/
theorem BasesFirst.parent {done rest : List TypeSpec} {entry : TypeSpec}
    (split : order = done ++ entry :: rest) :
    (entry.base = none ∨ entry.base = some rootName) ∨
      ∃ parent ∈ done, entry.base = some parent.name := by
  subst split
  cases base : entry.base with
  | none => exact .inl (.inl rfl)
  | some name =>
    have known := first.before
    rw [base, Option.getD_some, List.mem_singleton] at known
    rcases known with rfl | ⟨parent, member, rfl⟩
    · exact .inl (.inr rfl)
    · exact .inr ⟨parent, member, rfl⟩

theorem BasesFirst.induction {P : TypeSpec → Prop}
    (root : ∀ entry ∈ order, entry.base = none ∨ entry.base = some rootName → P entry)
    (step : ∀ entry ∈ order, ∀ parent ∈ order, entry.base = some parent.name → P parent → P entry) :
    ∀ entry ∈ order, P entry := by
  intro entry member
  obtain ⟨done, rest, split⟩ := List.append_of_mem member
  induction len : done.length using Nat.strong_induction_on generalizing entry done rest with
  | _ n ih =>
    rcases first.parent split with base | ⟨parent, before, base⟩
    · exact root entry member base
    · obtain ⟨done', rest', rfl⟩ := List.append_of_mem before
      have inside : parent ∈ order := by
        rw [split]
        exact List.mem_append_left _ before
      have above : order = done' ++ parent :: (rest' ++ entry :: rest) := by simp [split]
      have shorter : done'.length < n := by simp [← len]
      exact step entry member parent inside base (ih _ shorter parent inside _ _ above rfl)

theorem BasesFirst.parent_mem (named : WellNamed order) {done rest : List TypeSpec}
    {entry parent : TypeSpec} (split : order = done ++ entry :: rest) (member : parent ∈ order)
    (base : entry.base = some parent.name) : parent ∈ done := by
  rcases first.parent split with (none | root) | ⟨other, before, other_base⟩
  · rw [none] at base
    cases base
  · exact absurd (Option.some.inj (root.symm.trans base)).symm (named.name_ne_root member)
  · have inside : other ∈ order := by
      rw [split]
      exact List.mem_append_left _ before
    have same := Option.some.inj (other_base.symm.trans base)
    rwa [← List.inj_on_of_nodup_map named.distinct inside member same]

theorem BasesFirst.idxOf_lt (named : WellNamed order) {entry parent : TypeSpec}
    (member : entry ∈ order) (inside : parent ∈ order) (base : entry.base = some parent.name) :
    order.idxOf parent < order.idxOf entry := by
  obtain ⟨done, rest, split⟩ := List.append_of_mem member
  have before := first.parent_mem named split inside base
  exact ((mem_before (pairwise_idxOf named.nodup) split parent).mp before).2

theorem BasesFirst.parents (named : WellNamed order) :
    ∀ entry ∈ order, (entry.base = none ∨ entry.base = some rootName) ∨
      ∃ parent ∈ order, parent ≠ entry ∧ entry.base = some parent.name := by
  intro entry member
  obtain ⟨done, rest, split⟩ := List.append_of_mem member
  refine (first.parent split).imp_right fun ⟨parent, before, base⟩ => ?_
  obtain ⟨inside, smaller⟩ := (mem_before (pairwise_idxOf named.nodup) split parent).mp before
  refine ⟨parent, inside, ?_, base⟩
  rintro rfl
  exact Nat.lt_irrefl _ smaller

variable (named : WellNamed listed) (perm : order.Perm listed)

include named perm

/-- Any number of steps above the position of an entry in the order is enough for its rank. -/
theorem rankWithin_eq {done rest : List TypeSpec} {entry : TypeSpec}
    (split : order = done ++ entry :: rest) {m n : Nat} (hm : done.length < m)
    (hn : done.length < n) : rankWithin listed m entry = rankWithin listed n entry := by
  induction m generalizing done rest entry n with
  | zero => exact absurd hm (Nat.not_lt_zero _)
  | succ m ih =>
    obtain ⟨n, rfl⟩ := Nat.exists_eq_add_one_of_ne_zero (Nat.ne_zero_of_lt hn)
    rcases first.parent split with base | ⟨parent, before, base⟩
    · simp only [rankWithin, parent?_of_root named base]
    · have inside : parent ∈ listed := by
        rw [← perm.mem_iff, split]
        exact List.mem_append_left _ before
      obtain ⟨done', rest', rfl⟩ := List.append_of_mem before
      have above : order = done' ++ parent :: (rest' ++ entry :: rest) := by simp [split]
      -- The base stands before the entry in the order, so one step less is enough for it.
      simp only [List.length_append, List.length_cons] at hm hn
      have up : rankWithin listed m parent = rankWithin listed n parent :=
        ih above (by omega) (by omega)
      simp only [rankWithin, parent?_of_mem named inside base, up]

theorem ranks_rank : Ranks listed (rank listed) where
  root entry member base := by
    rw [rank]
    cases listed.length with
    | zero => rfl
    | succ n => simp only [rankWithin, parent?_of_root named base]
  base entry member parent inside base := by
    obtain ⟨done, rest, split⟩ := List.append_of_mem (perm.mem_iff.mpr member)
    have before : parent ∈ done :=
      first.parent_mem (named.perm perm) split (perm.mem_iff.mpr inside) base
    obtain ⟨done', rest', rfl⟩ := List.append_of_mem before
    have above : order = done' ++ parent :: (rest' ++ entry :: rest) := by simp [split]
    obtain ⟨n, long⟩ : ∃ n, listed.length = n + 1 :=
      Nat.exists_eq_add_one_of_ne_zero (List.length_pos_of_mem member).ne'
    have up : rankWithin listed listed.length parent = rankWithin listed n parent := by
      have := perm.length_eq
      simp only [split, List.length_append, List.length_cons] at this
      exact rankWithin_eq first named perm above (by omega) (by omega)
    rw [rank, rank, up, long, rankWithin]
    simp only [parent?_of_mem named inside base]

omit named in
theorem Ranks.unique {r r' : TypeSpec → Nat} (ranks : Ranks listed r) (ranks' : Ranks listed r') :
    ∀ entry ∈ listed, r entry = r' entry := by
  have same : ∀ entry ∈ order, r entry = r' entry := by
    refine first.induction (fun entry member base => ?_) fun entry member parent hp base up => ?_
    · rw [perm.mem_iff] at member
      rw [ranks.root entry member base, ranks'.root entry member base]
    · rw [perm.mem_iff] at member hp
      rw [ranks.base entry member parent hp base, ranks'.base entry member parent hp base, up]
  exact fun entry member => same entry (perm.mem_iff.mpr member)

end Ordered

/-! ## Rounds by rank -/

/-- A round in which exactly the entries of a sort are ready when their turn comes. -/
theorem round_eq_filter {p : TypeSpec → Bool} {generated : List String} {pending : List TypeSpec}
    (root : rootName ∈ generated)
    (turn : ∀ done entry rest, pending = done ++ entry :: rest →
      (entry.base.getD rootName ∈ (done.filter p).map TypeSpec.name ++ generated ↔
        p entry = true)) :
    round generated pending = (pending.filter p, pending.filter fun entry => !p entry) := by
  induction pending generalizing generated with
  | nil => rfl
  | cons entry rest ih =>
    have own := turn [] entry rest rfl
    rw [List.filter_nil, List.map_nil, List.nil_append, ← isReady_iff root] at own
    have later : ∀ done other rest', rest = done ++ other :: rest' →
        (other.base.getD rootName ∈ (done.filter p).map TypeSpec.name ++
          (if p entry then entry.name :: generated else generated) ↔ p other = true) := by
      rintro done other rest' rfl
      rw [← turn (entry :: done) other rest' rfl, List.filter_cons]
      cases p entry <;> simp [or_left_comm]
    rw [round]
    by_cases ready : p entry = true
    · rw [if_pos ready] at later
      rw [if_pos (own.mpr ready), ih (List.mem_cons_of_mem _ root) later]
      simp [ready]
    · rw [if_neg ready] at later
      rw [if_neg (mt own.mp ready), ih root later]
      simp [ready]

/-- Where the loop stands before the round of a rank: the entries of smaller ranks have been
generated, and the others wait in the order of the list. -/
structure AtRank (listed : List TypeSpec) (rank : TypeSpec → Nat) (k : Nat)
    (generated : List String) (pending : List TypeSpec) : Prop where
  pending : pending = listed.filter fun entry => k ≤ rank entry
  generated : ∀ name, name ∈ generated ↔
    name = rootName ∨ ∃ entry ∈ listed, entry.name = name ∧ rank entry < k

section Loop

variable {listed order : List TypeSpec} {rank : TypeSpec → Nat} {k : Nat}
  {generated : List String} {pending : List TypeSpec}

theorem AtRank.start : AtRank listed rank 0 [rootName] listed where
  pending := by simp
  generated name := by simp

variable (named : WellNamed listed) (ranks : Ranks listed rank)
  (bases : ∀ entry ∈ listed, (entry.base = none ∨ entry.base = some rootName) ∨
    ∃ parent ∈ listed, parent ≠ entry ∧ entry.base = some parent.name)

include named in
theorem AtRank.mem_generated (here : AtRank listed rank k generated pending) {parent : TypeSpec}
    (member : parent ∈ listed) : parent.name ∈ generated ↔ rank parent < k := by
  rw [here.generated]
  constructor
  · rintro (root | ⟨other, inside, same, smaller⟩)
    · exact absurd root (named.name_ne_root member)
    · rwa [← List.inj_on_of_nodup_map named.distinct inside member same]
  · exact fun smaller => .inr ⟨parent, member, rfl, smaller⟩

include named ranks bases

/-- When the turn of a waiting entry comes, its base has been generated if and only if this is the
round of its rank. -/
theorem AtRank.turn (here : AtRank listed rank k generated pending) {done rest : List TypeSpec}
    {entry : TypeSpec} (split : pending = done ++ entry :: rest) :
    entry.base.getD rootName ∈
        (done.filter fun e => rank e == k).map TypeSpec.name ++ generated ↔
      (rank entry == k) = true := by
  have sorted : pending.Pairwise fun a b => listed.idxOf a < listed.idxOf b := by
    rw [here.pending]
    exact (pairwise_idxOf named.nodup).filter _
  have waits (e : TypeSpec) : e ∈ pending ↔ e ∈ listed ∧ k ≤ rank e := by
    rw [here.pending]
    simp
  obtain ⟨member, large⟩ := (waits entry).mp (by simp [split])
  rcases bases entry member with base | ⟨parent, inside, other, base⟩
  · have zero := ranks.root entry member base
    have root : entry.base.getD rootName = rootName := by
      rcases base with base | base <;> rw [base] <;> rfl
    have known : rootName ∈ generated := (here.generated rootName).mpr (.inl rfl)
    rw [root, zero]
    have : k = 0 := by omega
    simp [this, known]
  · have name : entry.base.getD rootName = parent.name := by rw [base]; rfl
    have before : parent.name ∈ (done.filter fun e => rank e == k).map TypeSpec.name ↔
        parent ∈ done ∧ rank parent = k := by
      constructor
      · intro found
        obtain ⟨e, he, same⟩ := List.mem_map.mp found
        obtain ⟨he, own⟩ := List.mem_filter.mp he
        have := ((waits e).mp (by simp [split, he])).1
        rw [← List.inj_on_of_nodup_map named.distinct this inside same]
        exact ⟨he, by simpa using own⟩
      · rintro ⟨he, own⟩
        exact List.mem_map_of_mem (List.mem_filter.mpr ⟨he, by simpa using own⟩)
    have up := ranks.base entry member parent inside base
    have apart : listed.idxOf parent ≠ listed.idxOf entry := by
      intro same
      exact other (List.idxOf_inj inside |>.mp same)
    -- The base is there from an earlier round, or it has had its turn in this one.
    rw [name, List.mem_append, before, here.mem_generated named inside,
      mem_before sorted split, waits, and_iff_right inside, beq_iff_eq]
    split at up <;> omega

theorem AtRank.round (here : AtRank listed rank k generated pending) :
    round generated pending = (listed.filter fun entry => rank entry == k,
      listed.filter fun entry => k + 1 ≤ rank entry) := by
  have root : rootName ∈ generated := (here.generated rootName).mpr (.inl rfl)
  rw [round_eq_filter root fun done entry rest split => here.turn named ranks bases split,
    here.pending, List.filter_filter, List.filter_filter]
  congr 2 <;> funext entry <;> rw [Bool.eq_iff_iff] <;> simp <;> omega

theorem AtRank.next (here : AtRank listed rank k generated pending) :
    AtRank listed rank (k + 1)
      ((Grammar.round generated pending).1.map TypeSpec.name ++ generated)
      (Grammar.round generated pending).2 := by
  rw [here.round named ranks bases]
  refine ⟨rfl, fun name => ?_⟩
  simp only [List.mem_append, List.mem_map, List.mem_filter, beq_iff_eq, here.generated,
    Nat.lt_succ_iff_lt_or_eq]
  constructor
  · rintro (⟨entry, ⟨member, own⟩, rfl⟩ | root | ⟨entry, member, rfl, smaller⟩)
    · exact .inr ⟨entry, member, rfl, .inr own⟩
    · exact .inl root
    · exact .inr ⟨entry, member, rfl, .inl smaller⟩
  · rintro (root | ⟨entry, member, rfl, smaller | own⟩)
    · exact .inr (.inl root)
    · exact .inr (.inr ⟨entry, member, rfl, smaller⟩)
    · exact .inl ⟨entry, ⟨member, own⟩, rfl⟩

/-- From the round of a rank on, entries are generated by rank, and as listed within a rank. -/
theorem AtRank.sorted (here : AtRank listed rank k generated pending)
    (h : orderFrom generated pending = .ok order) : order.Pairwise (Earlier listed rank) := by
  induction generated, pending using orderFrom.induct generalizing k order with
  | case1 generated pending empty =>
    rw [orderFrom_done empty] at h
    cases h
    exact .nil
  | case2 generated pending nonempty waiting next =>
    rw [orderFrom_stuck nonempty next] at h
    cases h
  | case3 generated pending nonempty entry ready waiting next ih =>
    rw [orderFrom_step nonempty next] at h
    obtain ⟨later, hl, rfl⟩ := except_map_eq_ok h
    have after := here.next named ranks bases
    have now := here.round named ranks bases
    rw [next] at after now
    have ready_eq := congrArg Prod.fst now
    dsimp only at ready_eq after
    refine List.pairwise_append.mpr ⟨?_, ih after hl, fun a ha b hb => .inl ?_⟩
    · rw [ready_eq]
      refine ((pairwise_idxOf named.nodup).filter _).imp_of_mem fun ha hb before => ?_
      simp only [List.mem_filter, beq_iff_eq] at ha hb
      exact .inr ⟨by rw [ha.2, hb.2], before⟩
    · rw [ready_eq] at ha
      have waits := (orderFrom_perm hl).mem_iff.mp hb
      rw [after.pending] at waits
      simp only [List.mem_filter, beq_iff_eq, decide_eq_true_eq] at ha waits
      omega

end Loop

/-! ## The order of a grammar -/

theorem Ranks.eq_zero {listed : List TypeSpec} {rank : TypeSpec → Nat} (ranks : Ranks listed rank)
    {order : List TypeSpec} (first : BasesFirst [rootName] order) (perm : order.Perm listed)
    (listedFirst : ∀ entry ∈ listed, ∀ parent ∈ listed, entry.base = some parent.name →
      listed.idxOf parent < listed.idxOf entry) :
    ∀ entry ∈ order, rank entry = 0 := by
  refine first.induction (fun entry member base => ?_) fun entry member parent inside base up => ?_
  · exact ranks.root entry (perm.mem_iff.mp member) base
  · rw [perm.mem_iff] at member inside
    have before := listedFirst entry member parent inside base
    rw [ranks.base entry member parent inside base, up, if_neg (Nat.lt_asymm before)]

theorem eq_of_sorted {listed order : List TypeSpec} {rank : TypeSpec → Nat}
    (named : WellNamed listed) (perm : order.Perm listed)
    (sorted : order.Pairwise (Earlier listed rank)) (zero : ∀ entry ∈ order, rank entry = 0) :
    order = listed := by
  have before : order.Pairwise fun a b => listed.idxOf a < listed.idxOf b := by
    refine sorted.imp_of_mem fun {a b} ha hb earlier => ?_
    rcases earlier with smaller | ⟨-, before⟩
    · rw [zero b hb] at smaller
      exact absurd smaller (Nat.not_lt_zero _)
    · exact before
  refine perm.eq_of_pairwise (fun a b _ _ smaller larger => ?_) before (pairwise_idxOf named.nodup)
  exact absurd smaller (Nat.lt_asymm larger)

theorem resolveFields_error {order : List TypeSpec} {primitives : PrimitiveTable} {entry : TypeSpec}
    {e : GrammarError} (h : resolveFields order primitives entry = .error e) :
    ∃ field ∈ entry.fields, e = .unknownFieldType entry.name field.name field.typeName := by
  obtain ⟨field, member, failed⟩ := exists_of_mapM_error h
  refine ⟨field, member, ?_⟩
  unfold resolveField at failed
  split at failed
  · cases failed
  split at failed
  · cases failed
  · cases failed
    rfl

theorem exists_order_of_acyclic {entries : List TypeSpec} (named : WellNamed entries)
    (bases : BasesKnown entries)
    (acyclic : ∀ name, ¬ Relation.TransGen (HasBase entries) name name) :
    ∃ order, Grammar.order entries = .ok order := by
  rcases order_cases named bases with ⟨ordered, -⟩ | ⟨-, entry, member, lost⟩
  · exact ordered
  · exact absurd (rooted_of_acyclic bases member fun name _ => acyclic name) lost

end Grammar

namespace Language

/-- Entries in order are described by the types after the root, or one has a field of an unknown
type. -/
theorem ofGrammar_of_order {g : Grammar} {order : List TypeSpec}
    (names : Grammar.checkNames g.entries = .ok ()) (ordered : Grammar.order g.entries = .ok order)
    (id : Nat) (options : Options) :
    (∃ l types, Language.ofGrammar id g options = .ok l ∧
      l.types = Grammar.rootType id options.checked :: types ∧
      List.Forall₂ Grammar.Describes order types) ∨
    ∃ entry ∈ g.entries, ∃ field ∈ entry.fields, Language.ofGrammar id g options =
      .error (.unknownFieldType entry.name field.name field.typeName) := by
  cases resolved : order.mapM (Grammar.resolveFields order options.primitives) with
  | error e =>
    obtain ⟨entry, member, failed⟩ := exists_of_mapM_error resolved
    obtain ⟨field, inside, rfl⟩ := Grammar.resolveFields_error failed
    refine .inr ⟨entry, (Grammar.order_perm ordered).mem_iff.mp member, field, inside, ?_⟩
    simp only [Language.ofGrammar, names, ordered, resolved, bind, Except.bind]
  | ok fields =>
    obtain ⟨types, built, described⟩ := Grammar.buildTypes_eq (forall₂_of_mapM_ok resolved) id
      options.checked [Grammar.rootType id options.checked]
    exact .inl ⟨_, types,
      ofGrammar_eq_ok_iff.mpr ⟨names, order, fields, ordered, resolved, rfl⟩, built, described⟩

/-- If the names of the entries are in order and there is no cycle, the types after the root are
those of the entries, each once, by rank and within a rank by the list of the entries by kind. So
every base comes before what derives from it, and a list in which that is so already is kept. -/
theorem ofGrammar_ranked {g : Grammar} (names : Grammar.checkNames g.entries = .ok ())
    (acyclic : ∀ name, ¬ Relation.TransGen (Grammar.HasBase g.entries) name name) :
    let listed := g.entries.filter (fun e => e.kind == .abstract) ++
      g.entries.filter fun e => e.kind == .concrete
    Grammar.Ranks listed (Grammar.rank listed) ∧
    (∀ r, Grammar.Ranks listed r → ∀ entry ∈ listed, r entry = Grammar.rank listed entry) ∧
    ∃ order, Grammar.order g.entries = .ok order ∧ order.Perm g.entries ∧
      order.Pairwise (Grammar.Earlier listed (Grammar.rank listed)) ∧
      (∀ entry ∈ order, ∀ parent ∈ order, entry.base = some parent.name →
        order.idxOf parent < order.idxOf entry) ∧
      ((∀ entry ∈ listed, ∀ parent ∈ listed, entry.base = some parent.name →
        listed.idxOf parent < listed.idxOf entry) → order = listed) ∧
      ∀ id options,
        (∃ l types, Language.ofGrammar id g options = .ok l ∧
          l.types = Grammar.rootType id options.checked :: types ∧
          List.Forall₂ Grammar.Describes order types) ∨
        ∃ entry ∈ g.entries, ∃ field ∈ entry.fields, Language.ofGrammar id g options =
          .error (.unknownFieldType entry.name field.name field.typeName) := by
  intro listed
  obtain ⟨named, bases⟩ := Grammar.checkNames_eq_ok.mp names
  obtain ⟨order, ordered⟩ := Grammar.exists_order_of_acyclic named bases acyclic
  have listedPerm : listed.Perm g.entries := Grammar.byKind_perm g.entries
  have perm : order.Perm listed := (Grammar.order_perm ordered).trans listedPerm.symm
  have first := Grammar.basesFirst_order ordered
  have namedList : Grammar.WellNamed listed := named.perm listedPerm
  have namedOrder : Grammar.WellNamed order := namedList.perm perm
  have ranks := Grammar.ranks_rank first namedList perm
  have parents := first.parents namedOrder
  simp only [perm.mem_iff] at parents
  have sorted := Grammar.AtRank.start.sorted namedList ranks parents ordered
  refine ⟨ranks, fun r other => other.unique first perm ranks, order, ordered,
    Grammar.order_perm ordered, sorted, fun entry he parent hp => first.idxOf_lt namedOrder he hp,
    fun listedFirst => ?_, ofGrammar_of_order names ordered⟩
  exact Grammar.eq_of_sorted namedList perm sorted (ranks.eq_zero first perm listedFirst)

/-- An abstract entry under a concrete one, and bases before and after what derives from them. -/
def waitingGrammar : Grammar :=
  ⟨[⟨"Leaf", some "Inner", .concrete, []⟩,
    ⟨"Inner", some "group", .concrete, []⟩,
    ⟨"group", some "Node", .abstract, []⟩,
    ⟨"Node", some "AST", .concrete, []⟩,
    ⟨"other", none, .abstract, []⟩]⟩

theorem ofGrammar_ranked_waiting :
    let listed := waitingGrammar.entries.filter (fun e => e.kind == .abstract) ++
      waitingGrammar.entries.filter fun e => e.kind == .concrete
    Grammar.checkNames waitingGrammar.entries = .ok () ∧
      (∀ name, ¬ Relation.TransGen (Grammar.HasBase waitingGrammar.entries) name name) ∧
      listed.map (fun e => (e.name, Grammar.rank listed e)) =
        [("group", 1), ("other", 0), ("Leaf", 2), ("Inner", 1), ("Node", 0)] ∧
      ∃ order : List TypeSpec,
        order.map TypeSpec.name = ["other", "Node", "group", "Inner", "Leaf"] ∧
        order.Pairwise (Grammar.Earlier listed (Grammar.rank listed)) := by
  intro listed
  have names : Grammar.checkNames waitingGrammar.entries = .ok () := by decide
  obtain ⟨named, bases⟩ := Grammar.checkNames_eq_ok.mp names
  have run : (Grammar.order waitingGrammar.entries).map (List.map TypeSpec.name) =
      .ok ["other", "Node", "group", "Inner", "Leaf"] := by
    cbv
  have acyclic (name : String) :
      ¬ Relation.TransGen (Grammar.HasBase waitingGrammar.entries) name name := by
    intro cycle
    rcases Grammar.order_cases named bases with ⟨-, rooted⟩ | ⟨failed, -⟩
    · obtain ⟨_, ⟨entry, member, rfl, -⟩, -⟩ := Relation.TransGen.head'_iff.mp cycle
      exact (rooted entry member).acyclic named cycle
    · rw [failed] at run
      cases run
  obtain ⟨-, -, order, ordered, -, sorted, -⟩ := ofGrammar_ranked names acyclic
  rw [ordered] at run
  exact ⟨names, acyclic, by decide, order, Except.ok.inj run, sorted⟩

end Language

end Arbor
