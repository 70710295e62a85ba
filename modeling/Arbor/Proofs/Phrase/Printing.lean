import Arbor.Proofs.Phrase.Numeral
import Arbor.Proofs.Tree.Nodes
import Arbor.Tree.Dump
import Mathlib.Data.List.Forall2

/-!
# Printed trees are written phrases

The phrase of a tree names every node by its type and every value by its field. Both the one-line
text of a tree and its dump are written forms of that phrase (`written_chars`, `written_dump`). They
differ in the blanks after commas only, so what a list of fields or items looks like is said once,
by `Listed`.
-/

namespace Arbor

variable {ι : Type}

/-! ## The phrase of a tree -/

namespace Tree

mutual

def phrase : Tree ι → Phrase
  | .node _ type values => .call type.name (fieldPhrases type.fields values)
  | .seq _ items => .tuple (phraseAll items)
  | .prim p => .literal p
  | .absent => .absent
  | .pattern (.var x) => .call "PatVar" [(some "id", .literal (.str x))]
  | .pattern .wildcard => .call "Wildcard" []

def fieldPhrases : List Field → List (Tree ι) → List (Option String × Phrase)
  | f :: fs, v :: vs => (some f.name, phrase v) :: fieldPhrases fs vs
  | _, _ => []

def phraseAll : List (Tree ι) → List Phrase
  | [] => []
  | v :: vs => phrase v :: phraseAll vs

end

end Tree

/-- The names of the type and of its fields are words. -/
def NodeType.Named (type : NodeType) : Prop :=
  Phrase.isWord type.name.toList = true ∧
    ∀ field ∈ type.fields, Phrase.isWord field.name.toList = true

namespace Phrase

open Text Layout

/-! ## Lists -/

theorem blanks_spaces (k : Nat) : Blanks (List.replicate k ' ') := by
  intro c hc
  rw [(List.mem_replicate.mp hc).2]
  rfl

theorem blanks_newline (indent : Nat) : Blanks (newlineChars indent) := by
  intro c hc
  rcases List.mem_cons.mp hc with rfl | hc
  · rfl
  · exact blanks_spaces indent c hc

/-- Items with a comma and blanks between them. -/
inductive Listed {α : Type} (item : α → List Char → Prop) : List α → List Char → Prop
  | nil : Listed item [] []
  | cons {x : α} {xs : List α} {text more : List Char} :
      item x text → More item xs more → Listed item (x :: xs) (text ++ more)

theorem Listed.before {α : Type} {item : α → List Char → Prop} {x y : α} {xs : List α}
    {text a rest : List Char} (h : item x text) (ha : Blanks a) (hr : Listed item (y :: xs) rest) :
    Listed item (x :: y :: xs) (text ++ ',' :: (a ++ rest)) := by
  cases hr with
  | cons hy hm => exact .cons h (.next ha hy blanks_nil hm)

theorem Listed.args {args : List (Option String × Phrase)} {text : List Char}
    (h : Listed (ArgText Written) args text) : ArgsText Written args text := by
  cases h with
  | nil => exact .none
  | cons hx hm => simpa using ArgsText.some hx blanks_nil hm .none

theorem written_call (name : String) {args : List (Option String × Phrase)} {text : List Char}
    (hn : isWord name.toList = true) (h : Listed (ArgText Written) args text) :
    Written (.call name args) (name.toList ++ '(' :: (text ++ [')'])) := by
  have call := Written.call hn blanks_nil blanks_nil h.args
  rwa [String.ofList_toList] at call

theorem written_single {p : Phrase} {text : List Char} (h : Written p text) :
    Written (.tuple [p]) ('(' :: (text ++ [',', ')'])) := by
  have tuple := Written.tuple blanks_nil h blanks_nil .done (.some blanks_nil) (.inr rfl)
  simpa using tuple

theorem written_tuple {ps : List Phrase} {text : List Char} (several : ps.length ≠ 1)
    (h : Listed Written ps text) : Written (.tuple ps) ('(' :: (text ++ [')'])) := by
  cases h with
  | nil => exact .unit blanks_nil
  | @cons x xs text more hx hm =>
    have more : xs ≠ [] := by
      rintro rfl
      simp at several
    have tuple := Written.tuple blanks_nil hx blanks_nil hm .none (.inl more)
    simpa using tuple

theorem listed_separated {α : Type} {item : α → List Char → Prop} {xs : List α}
    {texts : List (List Char)} (h : List.Forall₂ item xs texts) :
    Listed item xs (Tree.separated texts) := by
  induction h with
  | nil => exact .nil
  | @cons x text xs texts hx rest ih =>
    cases rest with
    | nil => simpa [Tree.separated] using Listed.cons hx .done
    | cons hy rest =>
      have listed := ih.before hx (blanks_spaces 1)
      simpa [Tree.separated] using listed

/-! ## Primitives and patterns -/

theorem written_quoted (s : String) : Written (.literal (.str s)) (quoted s) := by
  have text := LiteralText.string (stringBody_write isHidden s.toList)
  rw [String.ofList_toList] at text
  exact .literal text

theorem written_prim (p : Prim) : Written (.literal p) p.chars := by
  cases p with
  | int i => exact .literal (.number (numberText_int i))
  | float x => exact written_float x
  | str s => exact written_quoted s
  | bytes b => exact .literal (.bytes (bytesBody_write b))
  | bool b =>
    cases b with
    | true => exact .constant .yes
    | false => exact .constant .no

theorem argText_field (name : String) {p : Phrase} {text : List Char}
    (hn : isWord name.toList = true) (h : Written p text) :
    ArgText Written (some name, p) (name.toList ++ ([' ', '=', ' '] ++ text)) := by
  have arg := ArgText.keyword hn (blanks_spaces 1) (blanks_spaces 1) h
  rwa [String.ofList_toList] at arg

theorem listed_var (x : String) :
    Listed (ArgText Written) [(some "id", .literal (.str x))]
      (['i', 'd'] ++ ([' ', '=', ' '] ++ quoted x)) := by
  have listed := Listed.cons (argText_field "id" rfl (written_quoted x)) .done
  rwa [List.append_nil] at listed

theorem written_pattern (p : Pattern) : Written (Tree.pattern p : Tree ι).phrase p.chars := by
  cases p with
  | var x =>
    have spelled : (Pattern.var x).chars = "PatVar(id = ".toList ++ quoted x ++ [')'] := rfl
    have call := written_call "PatVar" rfl (listed_var x)
    rw [Tree.phrase, spelled]
    simpa using call
  | wildcard =>
    have spelled : Pattern.wildcard.chars = "Wildcard()".toList := rfl
    have call := written_call "Wildcard" rfl .nil
    rw [Tree.phrase, spelled]
    simpa using call

/-! ## One line -/

theorem forall₂_fieldTexts {fields : List Field} {values : List (Tree ι)}
    (names : ∀ f ∈ fields, isWord f.name.toList = true)
    (h : ∀ v ∈ values, Written v.phrase v.chars) :
    List.Forall₂ (ArgText Written) (Tree.fieldPhrases fields values)
      (Tree.fieldTexts fields values) := by
  induction fields generalizing values with
  | nil => simp [Tree.fieldPhrases, Tree.fieldTexts]
  | cons f fs ih =>
    cases values with
    | nil => simp [Tree.fieldPhrases, Tree.fieldTexts]
    | cons v vs =>
      rw [List.forall_mem_cons] at names h
      rw [Tree.fieldPhrases, Tree.fieldTexts, List.append_assoc]
      exact .cons (argText_field f.name names.1 h.1) (ih names.2 h.2)

theorem forall₂_itemTexts {items : List (Tree ι)} (h : ∀ v ∈ items, Written v.phrase v.chars) :
    List.Forall₂ Written (Tree.phraseAll items) (Tree.itemTexts items) := by
  induction items with
  | nil => exact .nil
  | cons v vs ih =>
    rw [List.forall_mem_cons] at h
    exact .cons h.1 (ih h.2)

theorem length_phraseAll (items : List (Tree ι)) :
    (Tree.phraseAll items).length = items.length := by
  induction items with
  | nil => rfl
  | cons v vs ih => rw [Tree.phraseAll, List.length_cons, ih, List.length_cons]

theorem written_chars {t : Tree ι} (named : ∀ n ∈ t.nodes, n.type.Named) :
    Written t.phrase t.chars := by
  induction t using Tree.ind with
  | node id type values ih =>
    obtain ⟨⟨name, fields⟩, inner⟩ := Tree.forall_nodes_node_iff.mp named
    exact written_call type.name name
      (listed_separated (forall₂_fieldTexts fields fun v hv => ih v hv (inner v hv)))
  | seq id items ih =>
    have inner := Tree.forall_nodes_seq_iff.mp named
    have written := fun v hv => ih v hv (inner v hv)
    by_cases single : items.length = 1
    · obtain ⟨item, rfl⟩ := List.length_eq_one_iff.mp single
      exact written_single (written item List.mem_cons_self)
    · rw [Tree.chars]
      · apply written_tuple
        · rwa [length_phraseAll]
        · exact listed_separated (forall₂_itemTexts written)
      · rintro item rfl
        exact single rfl
  | prim p => exact written_prim p
  | absent => exact .constant .absent
  | pattern p => exact written_pattern p

/-! ## Aligned lines -/

/-- Wherever the document starts, its plain text is a written form. -/
def Lays (written : List Char → Prop) (d : Doc) : Prop :=
  ∀ indent column, written (plain (d.layout indent column).1)

theorem plain_layout_append (d e : Doc) (indent column : Nat) :
    plain ((Doc.append d e).layout indent column).1 =
      plain (d.layout indent column).1 ++ plain (e.layout indent (d.layout indent column).2).1 := by
  simp [Doc.layout, plain]

theorem plain_layout_text (style : Style) (chars : List Char) (indent column : Nat) :
    plain ((Doc.text style chars).layout indent column).1 = chars := by
  simp [Doc.layout, plain, Piece.plain]

theorem plain_layout_punct (chars : List Char) (indent column : Nat) :
    plain ((Tree.punct chars).layout indent column).1 = chars :=
  plain_layout_text .punctuation chars indent column

theorem lays_separated {α : Type} {item : α → List Char → Prop} {xs : List α} {docs : List Doc}
    (h : List.Forall₂ (fun x => Lays (item x)) xs docs) :
    Lays (Listed item xs) (Doc.separated (.append (Tree.punct [',']) .line) docs) := by
  intro indent
  induction h with
  | nil => exact fun _ => .nil
  | @cons x d xs docs hx rest ih =>
    intro column
    cases rest with
    | nil =>
      have listed := Listed.cons (hx indent column) .done
      rwa [List.append_nil] at listed
    | cons hy rest =>
      rw [Doc.separated]
      · simp only [plain_layout_append, plain_layout_punct]
        have listed := (ih indent).before (hx indent column) (blanks_newline indent)
        simpa [Doc.layout, plain, Piece.plain] using listed
      · simp

theorem lays_enclosed {written : List Char → Prop} (parts : List Doc) {after : Doc}
    {last : List Char} (h : Lays written (Doc.separated (.append (Tree.punct [',']) .line) parts))
    (ha : Lays (· = last) after) (depth : Nat) :
    Lays (fun text => ∃ inner, written inner ∧ text = '(' :: (inner ++ (last ++ [')'])))
      (Tree.enclosed depth parts after) := by
  intro indent column
  simp only [Tree.enclosed, plain_layout_append, plain_layout_text, ha indent]
  exact ⟨_, h _ _, rfl⟩

theorem lays_empty : Lays (· = []) .empty := fun _ _ => rfl

theorem lays_call (name : String) {style : Style} {args : List (Option String × Phrase)}
    {docs : List Doc} (hn : isWord name.toList = true)
    (h : List.Forall₂ (fun x => Lays (ArgText Written x)) args docs) (depth : Nat) :
    Lays (Written (.call name args))
      (.append (.text style name.toList) (Tree.enclosed depth docs .empty)) := by
  intro indent column
  obtain ⟨inner, listed, text⟩ :=
    lays_enclosed docs (lays_separated h) lays_empty depth indent _
  rw [plain_layout_append, plain_layout_text, text]
  exact written_call name hn listed

theorem lays_field (name : String) {p : Phrase} {d : Doc} (hn : isWord name.toList = true)
    (h : Lays (Written p) d) :
    Lays (ArgText Written (some name, p)) (Tree.fieldDoc name.toList d) := by
  intro indent column
  simp only [Tree.fieldDoc, plain_layout_append, plain_layout_text, plain_layout_punct]
  exact argText_field name hn (h _ _)

theorem lays_pattern (p : Pattern) (depth : Nat) :
    Lays (Written (Tree.pattern p : Tree ι).phrase) (Tree.patternDoc depth p) := by
  cases p with
  | var x =>
    have value : Lays (Written (.literal (.str x))) (.text .literal (quoted x)) := by
      intro indent column
      rw [plain_layout_text]
      exact written_quoted x
    have field := lays_field "id" rfl value
    exact lays_call "PatVar" rfl (.cons field .nil) depth
  | wildcard => exact lays_call "Wildcard" rfl .nil depth

theorem lays_fieldDocs {fields : List Field} {values : List (Tree ι)} {depth : Nat}
    (names : ∀ f ∈ fields, isWord f.name.toList = true)
    (h : ∀ v ∈ values, Lays (Written v.phrase) (v.doc depth)) :
    List.Forall₂ (fun x => Lays (ArgText Written x)) (Tree.fieldPhrases fields values)
      (Tree.fieldDocs depth fields values) := by
  induction fields generalizing values with
  | nil => simp [Tree.fieldPhrases, Tree.fieldDocs]
  | cons f fs ih =>
    cases values with
    | nil => simp [Tree.fieldPhrases, Tree.fieldDocs]
    | cons v vs =>
      rw [List.forall_mem_cons] at names h
      rw [Tree.fieldPhrases, Tree.fieldDocs]
      exact .cons (lays_field f.name names.1 h.1) (ih names.2 h.2)

theorem lays_itemDocs {items : List (Tree ι)} {depth : Nat}
    (h : ∀ v ∈ items, Lays (Written v.phrase) (v.doc depth)) :
    List.Forall₂ (fun p => Lays (Written p)) (Tree.phraseAll items)
      (Tree.itemDocs depth items) := by
  induction items with
  | nil => exact .nil
  | cons v vs ih =>
    rw [List.forall_mem_cons] at h
    exact .cons h.1 (ih h.2)

theorem lays_doc {t : Tree ι} (named : ∀ n ∈ t.nodes, n.type.Named) (depth : Nat) :
    Lays (Written t.phrase) (t.doc depth) := by
  induction t using Tree.ind generalizing depth with
  | node id type values ih =>
    obtain ⟨⟨name, fields⟩, inner⟩ := Tree.forall_nodes_node_iff.mp named
    exact lays_call type.name name
      (lays_fieldDocs fields fun v hv => ih v hv (inner v hv) (depth + 1)) depth
  | seq id items ih =>
    have inner := Tree.forall_nodes_seq_iff.mp named
    have written := fun v hv => ih v hv (inner v hv) (depth + 1)
    by_cases single : items.length = 1
    · obtain ⟨item, rfl⟩ := List.length_eq_one_iff.mp single
      intro indent column
      obtain ⟨text, one, whole⟩ := lays_enclosed [item.doc (depth + 1)]
        (written item List.mem_cons_self) (fun _ _ => plain_layout_punct [','] _ _) depth indent
        column
      rw [Tree.doc, whole]
      exact written_single one
    · rw [Tree.doc]
      · intro indent column
        obtain ⟨text, listed, whole⟩ :=
          lays_enclosed _ (lays_separated (lays_itemDocs written)) lays_empty depth indent column
        rw [whole]
        apply written_tuple _ listed
        rwa [length_phraseAll]
      · rintro item rfl
        exact single rfl
  | prim p =>
    intro indent column
    rw [Tree.doc, plain_layout_text]
    exact written_prim p
  | absent =>
    intro indent column
    rw [Tree.doc, plain_layout_text]
    exact .constant .absent
  | pattern p => exact lays_pattern p depth

theorem written_dump {t : Tree ι} (named : ∀ n ∈ t.nodes, n.type.Named) :
    Written t.phrase t.dumpChars :=
  lays_doc named 0 0 0

end Phrase

end Arbor
