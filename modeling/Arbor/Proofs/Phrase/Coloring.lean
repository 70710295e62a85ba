import Mathlib
import Arbor.Proofs.Phrase.Alignment
import Arbor.Proofs.Traversal.Positions

/-!
# Coloured dumps

A terminal takes a text apart into characters and style sequences (`signs`), and shows every
character with the look that the sequences before it have set (`shown`). Of a coloured dump it shows
the pieces of the layout, each in its style (`shown_styled`), if no piece has an escape character of
its own. Literals never have one, whatever they stand for.
-/

namespace Arbor

namespace Layout

/-! ## Terminals -/

/-- What a terminal takes from a text: a character to show, or a change of style. -/
inductive Sign where
  | char (c : Char)
  | style (parameter : List Char)
deriving DecidableEq

def Sign.char? : Sign → Option Char
  | .char c => some c
  | .style _ => none

def isParameter (c : Char) : Bool :=
  Text.isDigit c || c == ';'

/-- The parameter of the style sequence that a text starts with. -/
def sequence? : List Char → Option (List Char)
  | c :: d :: rest =>
    if c = escapeChar ∧ d = '[' ∧ (rest.dropWhile isParameter).head? = some 'm' then
      some (rest.takeWhile isParameter)
    else none
  | _ => none

/-- The signs of a text whose first `skip` characters have been read with the one before. -/
def signs : (skip : Nat) → List Char → List Sign
  | _, [] => []
  | skip + 1, _ :: rest => signs skip rest
  | 0, c :: rest =>
    match sequence? (c :: rest) with
    | some parameter => .style parameter :: signs (parameter.length + 2) rest
    | none => .char c :: signs 0 rest

/-- The text without its style sequences. -/
def unstyled (text : List Char) : List Char :=
  (signs 0 text).filterMap Sign.char?

def colors : List Color :=
  [.red, .green, .yellow, .blue, .magenta, .cyan, .white]

/-- The look that a style sequence leaves. -/
def Look.after (look : Look) : (parameter : List Char) → Look
  | ['0'] => {}
  | ['1'] => { look with bold := true }
  | ['2'] => { look with dimmed := true }
  | ['3', digit] => { look with color := colors.find? fun c => c.digit == digit }
  | _ => look

def shownFrom (look : Look) : List Sign → List (Char × Look)
  | [] => []
  | .char c :: rest => (c, look) :: shownFrom look rest
  | .style parameter :: rest => shownFrom (look.after parameter) rest

/-- What a terminal shows of a text: its characters, each with its look. -/
def shown (look : Look) (text : List Char) : List (Char × Look) :=
  shownFrom look (signs 0 text)

theorem map_fst_shown (look : Look) (text : List Char) :
    (shown look text).map Prod.fst = unstyled text := by
  rw [shown, unstyled]
  generalize signs 0 text = parts
  induction parts generalizing look with
  | nil => rfl
  | cons sign rest ih =>
    cases sign with
    | char c => exact congrArg (c :: ·) (ih look)
    | style parameter => exact ih (look.after parameter)

theorem signs_skip (first rest : List Char) : signs first.length (first ++ rest) = signs 0 rest := by
  induction first with
  | nil => rfl
  | cons c first ih => exact ih

theorem signs_control {parameter : List Char} (h : ∀ c ∈ parameter, isParameter c = true)
    (rest : List Char) :
    signs 0 (control parameter ++ rest) = .style parameter :: signs 0 rest := by
  have text : control parameter ++ rest = escapeChar :: '[' :: (parameter ++ 'm' :: rest) := by
    simp [control]
  have final : isParameter 'm' = false := rfl
  have found : sequence? (escapeChar :: '[' :: (parameter ++ 'm' :: rest)) = some parameter := by
    simp [sequence?, List.takeWhile_append_of_pos h, List.dropWhile_append_of_pos h, final]
  have skipped : signs (parameter.length + 2) ('[' :: (parameter ++ 'm' :: rest)) =
      signs 0 rest := by
    have := signs_skip ('[' :: (parameter ++ ['m'])) rest
    simpa using this
  rw [text, signs, found]
  exact congrArg _ skipped

theorem signs_clear {text : List Char} (h : escapeChar ∉ text) (rest : List Char) :
    signs 0 (text ++ rest) = text.map .char ++ signs 0 rest := by
  induction text with
  | nil => rfl
  | cons c text ih =>
    rw [List.mem_cons, not_or] at h
    have plain : sequence? (c :: (text ++ rest)) = none := by
      cases text ++ rest with
      | nil => rfl
      | cons d rest => exact if_neg fun both => h.1 both.1.symm
    rw [List.cons_append, signs, plain, ih h.2]
    rfl

theorem shown_control (look : Look) {parameter : List Char}
    (h : ∀ c ∈ parameter, isParameter c = true) (rest : List Char) :
    shown look (control parameter ++ rest) = shown (look.after parameter) rest := by
  rw [shown, signs_control h]
  rfl

theorem shown_clear (look : Look) {text : List Char} (h : escapeChar ∉ text) (rest : List Char) :
    shown look (text ++ rest) = text.map (fun c => (c, look)) ++ shown look rest := by
  rw [shown, signs_clear h]
  clear h
  induction text with
  | nil => rfl
  | cons c text ih => exact congrArg ((c, look) :: ·) ih

/-- Whatever the look was, the sequences before a text set that of the text. -/
theorem shown_start (before look : Look) (rest : List Char) :
    shown before (look.start ++ rest) = shown look rest := by
  -- After the reset each sequence sets one field, and a field without a sequence stays as it is.
  have reset (text : List Char) : shown before (control ['0'] ++ text) = shown {} text :=
    shown_control before (List.all_eq_true.mp rfl) text
  have bold (text : List Char) :
      shown {} ((if look.bold then control ['1'] else []) ++ text) =
        shown { bold := look.bold } text := by
    cases look.bold with
    | false => rfl
    | true => exact shown_control _ (List.all_eq_true.mp rfl) text
  have dimmed (text : List Char) :
      shown { bold := look.bold } ((if look.dimmed then control ['2'] else []) ++ text) =
        shown { bold := look.bold, dimmed := look.dimmed } text := by
    cases look.dimmed with
    | false => rfl
    | true => exact shown_control _ (List.all_eq_true.mp rfl) text
  have digit (color : Color) : ∀ c ∈ ['3', color.digit], isParameter c = true := by
    cases color <;> exact List.all_eq_true.mp rfl
  have colored (look : Look) (color : Color) :
      look.after ['3', color.digit] = { look with color := some color } := by
    cases color <;> rfl
  rw [Look.start, List.append_assoc, List.append_assoc, List.append_assoc, reset, bold, dimmed]
  obtain ⟨color, bold, dimmed⟩ := look
  cases color with
  | none => rfl
  | some color => exact (shown_control _ (digit color) rest).trans (by rw [colored])

/-! ## Pieces -/

def Piece.look : Piece → Look
  | .text style _ => style.look
  | .newline _ => {}

def Piece.painted (p : Piece) : List (Char × Look) :=
  p.plain.map fun c => (c, p.look)

def painted (pieces : List Piece) : List (Char × Look) :=
  pieces.flatMap Piece.painted

theorem map_fst_painted (pieces : List Piece) : (painted pieces).map Prod.fst = plain pieces := by
  rw [painted, List.map_flatMap, plain]
  refine List.flatMap_congr fun p _ => ?_
  rw [Piece.painted, List.map_map]
  exact List.map_id _

theorem shown_piece {p : Piece} (clear : escapeChar ∉ p.plain) (rest : List Char) :
    shown {} (p.styled ++ rest) = p.painted ++ shown {} rest := by
  cases p with
  | text style chars =>
    have reset : shown style.look (control ['0'] ++ rest) = shown {} rest :=
      shown_control _ (List.all_eq_true.mp rfl) rest
    have own : shown style.look (chars ++ (control ['0'] ++ rest)) =
        chars.map (fun c => (c, style.look)) ++ shown style.look (control ['0'] ++ rest) :=
      shown_clear style.look clear _
    rw [Piece.styled, List.append_assoc, List.append_assoc, shown_start, own, reset]
    rfl
  | newline indent => exact shown_clear {} clear rest

/-- A terminal shows the pieces of a layout, each in its style. -/
theorem shown_styled {pieces : List Piece} (clear : ∀ p ∈ pieces, escapeChar ∉ p.plain) :
    shown {} (styled pieces) = painted pieces := by
  induction pieces with
  | nil => rfl
  | cons p pieces ih =>
    rw [List.forall_mem_cons] at clear
    rw [styled, List.flatMap_cons, shown_piece clear.1, painted, List.flatMap_cons]
    exact congrArg _ (ih clear.2)

/-! ## Texts without escape characters -/

namespace Doc

def separator : Doc := .append (Tree.punct [',']) .line

def Clear : Doc → Prop
  | .empty | .line => True
  | .text _ chars => escapeChar ∉ chars
  | .append first second => first.Clear ∧ second.Clear
  | .align inner => inner.Clear

theorem Clear.layout {d : Doc} (h : d.Clear) (indent column : Nat) :
    ∀ p ∈ (d.layout indent column).1, escapeChar ∉ p.plain := by
  induction d generalizing indent column with
  | empty => exact List.forall_mem_nil _
  | text style chars => exact List.forall_mem_singleton.mpr h
  | append first second ihf ihs =>
    exact List.forall_mem_append.mpr ⟨ihf h.1 indent column, ihs h.2 indent _⟩
  | line =>
    refine List.forall_mem_singleton.mpr fun member => ?_
    rcases List.mem_cons.mp member with newline | space
    · cases newline
    · cases (List.mem_replicate.mp space).2
  | align inner ih => exact ih h column column

theorem clear_empty : Doc.empty.Clear := trivial

theorem clear_separated {separator : Doc} (hs : separator.Clear) {docs : List Doc}
    (h : ∀ d ∈ docs, d.Clear) : (Doc.separated separator docs).Clear := by
  induction docs with
  | nil => trivial
  | cons d docs ih =>
    rw [List.forall_mem_cons] at h
    cases docs with
    | nil => exact h.1
    | cons d' docs => exact ⟨h.1, hs, ih h.2⟩

end Doc

theorem clear_bare {text : List Char} (bare : ∀ c ∈ text, isBare c = true) :
    escapeChar ∉ text := by
  intro h
  cases bare escapeChar h

theorem clear_marks (style : Style) {chars : List Char}
    (h : chars.all (fun c => c != escapeChar) = true) : (Doc.text style chars).Clear :=
  fun member => by simpa using List.all_eq_true.mp h escapeChar member

theorem clear_enclosed {parts : List Doc} (h : ∀ d ∈ parts, d.Clear) {after : Doc}
    (ha : after.Clear) (depth : Nat) : (Tree.enclosed depth parts after).Clear := by
  have separator : Doc.separator.Clear := ⟨clear_marks _ rfl, trivial⟩
  exact ⟨clear_marks _ rfl, Doc.clear_separated separator h, ha, clear_marks _ rfl⟩

theorem clear_field {name : List Char} (hn : escapeChar ∉ name) {d : Doc} (h : d.Clear) :
    (Tree.fieldDoc name d).Clear :=
  ⟨hn, clear_marks _ rfl, h⟩

section

open Text

/-- The escape character is not printable, so a literal shows it by its code point. -/
theorem clear_quoted (s : String) : escapeChar ∉ quoted s :=
  notMem_writeString rfl (by decide) s.toList

theorem clear_prim (p : Prim) : escapeChar ∉ p.chars := by
  cases p with
  | int i => exact clear_bare (bare_int i.toInt)
  | float x => exact clear_bare (bare_float x)
  | str s => exact clear_quoted s
  | bytes b => exact notMem_writeBytes rfl b
  | bool b => cases b <;> exact clear_bare (List.all_eq_true.mp rfl)

end

/-! ## Painted documents -/

namespace Doc

/-- What a document that starts in a column looks like. -/
def paint (d : Doc) (indent column : Nat) : List (Char × Look) :=
  painted (d.layout indent column).1

theorem map_fst_paint (d : Doc) (indent column : Nat) :
    (d.paint indent column).map Prod.fst = plain (d.layout indent column).1 :=
  map_fst_painted _

theorem paint_append (d e : Doc) (indent column : Nat) :
    (Doc.append d e).paint indent column =
      d.paint indent column ++ e.paint indent (d.layout indent column).2 :=
  List.flatMap_append

theorem paint_text (style : Style) (chars : List Char) (indent column : Nat) :
    (Doc.text style chars).paint indent column = chars.map fun c => (c, style.look) :=
  List.append_nil _

theorem map_fst_paint_separator (indent column : Nat) :
    (separator.paint indent column).map Prod.fst = ',' :: newlineChars indent := by
  rw [map_fst_paint, separator, Phrase.plain_layout_append, Phrase.plain_layout_punct,
    plain_layout_line]
  rfl

theorem layout_separator (indent column : Nat) : (separator.layout indent column).2 = indent := rfl

theorem separated_cons (s d : Doc) {docs : List Doc} (more : docs ≠ []) :
    Doc.separated s (d :: docs) = .append d (.append s (Doc.separated s docs)) := by
  cases docs with
  | nil => exact absurd rfl more
  | cons e docs => rfl

/-- Laid out from the column that new lines start in, all parts start there. -/
theorem paint_separated {docs : List Doc} {i : Nat} {d : Doc} (h : docs[i]? = some d)
    (column : Nat) :
    ∃ first last, (Doc.separated separator docs).paint column column =
        first ++ d.paint column column ++ last ∧
      first.map Prod.fst = (docs.take i).flatMap fun e =>
        plain (e.layout column column).1 ++ ',' :: newlineChars column := by
  induction docs generalizing i with
  | nil => cases h
  | cons e docs ih =>
    cases i with
    | zero =>
      cases h
      cases docs with
      | nil => exact ⟨[], [], by simp [Doc.separated], rfl⟩
      | cons e docs =>
        rw [separated_cons _ _ (List.cons_ne_nil _ _), paint_append]
        exact ⟨[], _, rfl, rfl⟩
    | succ i =>
      have more : docs ≠ [] := List.ne_nil_of_mem (List.mem_of_getElem? h)
      obtain ⟨first, last, split, text⟩ := ih h
      rw [separated_cons _ _ more, paint_append, paint_append, layout_separator, split]
      refine ⟨e.paint column column ++ separator.paint column (e.layout column column).2 ++ first,
        last, ?_, ?_⟩
      · simp only [List.append_assoc]
      · rw [List.map_append, List.map_append, map_fst_paint, map_fst_paint_separator, text,
          List.take_succ_cons, List.flatMap_cons]

theorem paint_enclosed (depth : Nat) (parts : List Doc) (after : Doc) (indent column : Nat) :
    ∃ last, (Tree.enclosed depth parts after).paint indent column =
      ('(', (Style.paren depth).look) ::
        ((Doc.separated separator parts).paint (column + 1) (column + 1) ++ last ++
          [(')', (Style.paren depth).look)]) := by
  have opened : ((Doc.text (.paren depth) ['(']).layout indent column).2 = column + 1 := rfl
  rw [Tree.enclosed, paint_append, paint_append, paint_append, paint_text, paint_text, opened]
  let inside := Doc.align (Doc.separated separator parts)
  refine ⟨after.paint indent (inside.layout indent (column + 1)).2, ?_⟩
  simp only [List.map_cons, List.map_nil, List.singleton_append, List.append_assoc]
  rfl

/-- The document with all of its text in one style. -/
def muted : Doc → Doc
  | .empty => .empty
  | .text _ chars => .text .punctuation chars
  | .append first second => .append first.muted second.muted
  | .line => .line
  | .align inner => .align inner.muted

theorem layout_muted (d : Doc) (indent column : Nat) :
    plain (d.muted.layout indent column).1 = plain (d.layout indent column).1 ∧
      (d.muted.layout indent column).2 = (d.layout indent column).2 := by
  induction d generalizing indent column with
  | append first second ihf ihs =>
    obtain ⟨text, ends⟩ := ihf indent column
    obtain ⟨text', ends'⟩ := ihs indent (first.layout indent column).2
    have finish (d e : Doc) : ((Doc.append d e).layout indent column).2 =
        (e.layout indent (d.layout indent column).2).2 := rfl
    rw [muted, Phrase.plain_layout_append, Phrase.plain_layout_append, finish, finish, text, ends,
      text', ends']
    exact ⟨rfl, rfl⟩
  | align inner ih => exact ih column column
  | _ => exact ⟨rfl, rfl⟩

theorem muted_separated (s : Doc) (docs : List Doc) :
    (Doc.separated s docs).muted = Doc.separated s.muted (docs.map muted) := by
  induction docs with
  | nil => rfl
  | cons d docs ih =>
    cases docs with
    | nil => rfl
    | cons e docs => exact congrArg (fun rest => append d.muted (append s.muted rest)) ih

end Doc

theorem parenColor_eq_iff {depth depth' : Nat} :
    parenColor depth = parenColor depth' ↔ depth % 6 = depth' % 6 := by
  have residue (n : Nat) : parenColor n = parenColor (n % 6) := by
    rw [parenColor, parenColor, Nat.mod_mod]
  have distinct : ∀ m < 6, ∀ n < 6, parenColor m = parenColor n → m = n := by decide
  rw [residue depth, residue depth']
  constructor
  · exact distinct _ (Nat.mod_lt _ (by decide)) _ (Nat.mod_lt _ (by decide))
  · intro same
    rw [same]

theorem paren_look_eq_iff {depth depth' : Nat} :
    (Style.paren depth).look = (Style.paren depth').look ↔ depth % 6 = depth' % 6 := by
  rw [← parenColor_eq_iff]
  simp [Style.look]

end Layout

/-! ## Trees -/

namespace Tree

open Layout

variable {ι : Type}

/-- No name in the tree has an escape character. -/
def Clear (t : Tree ι) : Prop :=
  ∀ n ∈ t.nodes, escapeChar ∉ n.type.name.toList ∧ ∀ f ∈ n.type.fields, escapeChar ∉ f.name.toList

theorem fieldDocs_eq_map (depth : Nat) (fields : List Field) (values : List (Tree ι)) :
    fieldDocs depth fields values =
      (fields.zip values).map fun p => fieldDoc p.1.name.toList (p.2.doc depth) := by
  induction fields generalizing values with
  | nil => simp [fieldDocs]
  | cons f fs ih =>
    cases values with
    | nil => simp [fieldDocs]
    | cons v vs => rw [fieldDocs, ih, List.zip_cons_cons, List.map_cons]

theorem itemDocs_eq_map (depth : Nat) (items : List (Tree ι)) :
    itemDocs depth items = items.map (doc depth) := by
  induction items with
  | nil => rfl
  | cons v vs ih => rw [itemDocs, ih, List.map_cons]

theorem doc_seq (depth : Nat) (id : ι) (items : List (Tree ι)) :
    (Tree.seq id items).doc depth = enclosed depth (items.map (doc (depth + 1)))
      (if items.length = 1 then punct [','] else .empty) := by
  match items with
  | [] => rfl
  | [item] => rfl
  | item :: item' :: items =>
    rw [doc, itemDocs_eq_map, if_neg (by simp)]
    simp

theorem clear_doc {t : Tree ι} (clear : t.Clear) (depth : Nat) : (t.doc depth).Clear := by
  induction t using Tree.ind generalizing depth with
  | node id type values ih =>
    obtain ⟨⟨name, fields⟩, inner⟩ := forall_nodes_node_iff.mp clear
    refine ⟨name, clear_enclosed ?_ Doc.clear_empty depth⟩
    rw [fieldDocs_eq_map, List.forall_mem_map]
    intro p hp
    obtain ⟨hf, hv⟩ := List.of_mem_zip hp
    exact clear_field (fields p.1 hf) (ih p.2 hv (inner p.2 hv) (depth + 1))
  | seq id items ih =>
    have inner := forall_nodes_seq_iff.mp clear
    rw [doc_seq]
    refine clear_enclosed ?_ ?_ depth
    · rw [List.forall_mem_map]
      exact fun v hv => ih v hv (inner v hv) (depth + 1)
    · split
      · exact clear_marks _ rfl
      · exact Doc.clear_empty
  | prim p => exact clear_prim p
  | absent => exact clear_bare (List.all_eq_true.mp rfl)
  | pattern p =>
    cases p with
    | var x =>
      have value : (Doc.text .literal (Text.quoted x)).Clear := clear_quoted x
      have name : escapeChar ∉ ['i', 'd'] := clear_bare (List.all_eq_true.mp rfl)
      have field := clear_field name value
      exact ⟨clear_bare (bare_word rfl),
        clear_enclosed (List.forall_mem_singleton.mpr field) Doc.clear_empty depth⟩
    | wildcard =>
      exact ⟨clear_bare (bare_word rfl),
        clear_enclosed (List.forall_mem_nil _) Doc.clear_empty depth⟩

theorem shown_colored {t : Tree ι} (clear : t.Clear) :
    shown {} t.colored.toList = (t.doc 0).paint 0 0 := by
  rw [colored, String.toList_ofList]
  exact shown_styled ((clear_doc clear 0).layout 0 0)

/-! ## Dumps that start in a column -/

/-- The dump of a tree that starts in a column. -/
def dumpFrom (column : Nat) (t : Tree ι) : List Char :=
  plain ((t.doc 0).layout 0 column).1

theorem layout_doc_indent (t : Tree ι) (depth indent column : Nat) :
    (t.doc depth).layout indent column = (t.doc depth).layout 0 column := by
  -- Lines are broken inside of aligned parts only.
  cases t with
  | seq id items =>
    rw [doc_seq]
    split <;> rfl
  | pattern p => cases p <;> rfl
  | _ => rfl

theorem muted_enclosed (depth depth' : Nat) {parts parts' : List Doc}
    (h : parts.map Doc.muted = parts'.map Doc.muted) (after : Doc) :
    (enclosed depth parts after).muted = (enclosed depth' parts' after).muted := by
  simp only [enclosed, Doc.muted, Doc.muted_separated, h]

/-- The depth decides about looks only. -/
theorem muted_doc (t : Tree ι) (depth depth' : Nat) :
    (t.doc depth).muted = (t.doc depth').muted := by
  induction t using Tree.ind generalizing depth depth' with
  | node id type values ih =>
    have inside : (fieldDocs (depth + 1) type.fields values).map Doc.muted =
        (fieldDocs (depth' + 1) type.fields values).map Doc.muted := by
      rw [fieldDocs_eq_map, fieldDocs_eq_map, List.map_map, List.map_map]
      refine List.map_congr_left fun p hp => ?_
      have value := ih p.2 (List.of_mem_zip hp).2 (depth + 1) (depth' + 1)
      simp only [Function.comp_apply, fieldDoc, Doc.muted, value]
    exact congrArg (Doc.append _) (muted_enclosed depth depth' inside .empty)
  | seq id items ih =>
    rw [doc_seq, doc_seq]
    refine muted_enclosed depth depth' ?_ _
    rw [List.map_map, List.map_map]
    exact List.map_congr_left fun v hv => ih v hv _ _
  | prim p => rfl
  | absent => rfl
  | pattern p => cases p <;> rfl

theorem plain_doc (t : Tree ι) (depth indent column : Nat) :
    plain ((t.doc depth).layout indent column).1 = t.dumpFrom column := by
  rw [layout_doc_indent, dumpFrom, ← (Doc.layout_muted _ 0 column).1, muted_doc t depth 0,
    (Doc.layout_muted _ 0 column).1]

/-! ## Where parentheses stand -/

/-- Whether the text of a tree has parentheses around its parts. -/
def hasParens : Tree ι → Bool
  | .node .. | .seq .. | .pattern _ => true
  | .prim _ | .absent => false

/-- What stands before the opening parenthesis. -/
def caption : Tree ι → List Char
  | .node _ type _ => type.name.toList
  | .pattern (.var _) => "PatVar".toList
  | .pattern .wildcard => "Wildcard".toList
  | .seq .. | .prim _ | .absent => []

/-- The column after the opening parenthesis of a tree that starts in a column. -/
def innerColumn (column : Nat) (t : Tree ι) : Nat :=
  column + Text.width t.caption + 1

/-- The parts of a node or sequence, those of a node under the names of its fields. -/
def slots : Tree ι → List (Option String × Tree ι)
  | .node _ type values => (type.fields.zip values).map fun p => (some p.1.name, p.2)
  | .seq _ items => items.map fun item => (none, item)
  | .prim _ | .absent | .pattern _ => []

def label : Option String → List Char
  | some name => name.toList ++ [' ', '=', ' ']
  | none => []

def labelWidth : Option String → Nat
  | some name => Text.width name.toList + 3
  | none => 0

/-- The dump of a tree that starts in a column, up to where the label of a part starts. -/
def leadFrom (column : Nat) (t : Tree ι) (i : Nat) : List Char :=
  t.caption ++ '(' :: (t.slots.take i).flatMap fun s =>
    label s.1 ++ s.2.dumpFrom (t.innerColumn column + labelWidth s.1) ++
      ',' :: newlineChars (t.innerColumn column)

/-- The part of a tree that stands in the dump after a text, in a column, and how deep it is. -/
inductive Stands (whole : Tree ι) : (before : List Char) → (column depth : Nat) → Tree ι → Prop
  | root : Stands whole [] 0 0 whole
  | part {before : List Char} {column depth i : Nat} {t part : Tree ι} {name : Option String} :
      Stands whole before column depth t → t.slots[i]? = some (name, part) →
        Stands whole (before ++ t.leadFrom column i ++ label name)
          (t.innerColumn column + labelWidth name) (depth + 1) part

def partDocs (depth : Nat) : Tree ι → List Doc
  | .node _ type values => fieldDocs depth type.fields values
  | .seq _ items => items.map (doc depth)
  | .pattern (.var x) => [fieldDoc ['i', 'd'] (.text .literal (Text.quoted x))]
  | .pattern .wildcard | .prim _ | .absent => []

theorem paint_doc {t : Tree ι} (parens : t.hasParens = true) (depth indent column : Nat) :
    ∃ named after, (t.doc depth).paint indent column =
        named ++ (enclosed depth (t.partDocs (depth + 1)) after).paint indent
          (column + Text.width t.caption) ∧
      named.map Prod.fst = t.caption := by
  have called (style : Style) (name : List Char) (d : Doc) :
      (Doc.append (.text style name) d).paint indent column =
          (name.map fun c => (c, style.look)) ++ d.paint indent (column + Text.width name) ∧
        (name.map fun c => (c, style.look)).map Prod.fst = name := by
    rw [Doc.paint_append, Doc.paint_text, List.map_map]
    exact ⟨rfl, List.map_id _⟩
  cases t with
  | node id type values => exact ⟨_, .empty, called .typeName type.name.toList _⟩
  | seq id items =>
    rw [doc_seq]
    exact ⟨[], _, rfl, rfl⟩
  | pattern p =>
    cases p with
    | var x => exact ⟨_, .empty, called .patternTerm "PatVar".toList _⟩
    | wildcard => exact ⟨_, .empty, called .patternTerm "Wildcard".toList _⟩
  | prim p => cases parens
  | absent => cases parens

theorem paint_parens {t : Tree ι} (parens : t.hasParens = true) (depth indent column : Nat) :
    ∃ named inside, (t.doc depth).paint indent column =
        named ++ ('(', (Style.paren depth).look) ::
          (inside ++ [(')', (Style.paren depth).look)]) ∧
      named.map Prod.fst = t.caption := by
  obtain ⟨named, after, painted, text⟩ := paint_doc parens depth indent column
  obtain ⟨last, enclosed⟩ := Doc.paint_enclosed depth (t.partDocs (depth + 1)) after indent
    (column + Text.width t.caption)
  rw [enclosed] at painted
  exact ⟨named, _, painted, text⟩

def slotDoc (depth : Nat) : Option String × Tree ι → Doc
  | (some name, t) => fieldDoc name.toList (t.doc depth)
  | (none, t) => t.doc depth

theorem partDocs_eq_map {t : Tree ι} (some : t.slots ≠ []) (depth : Nat) :
    t.partDocs depth = t.slots.map (slotDoc depth) := by
  cases t with
  | node id type values =>
    rw [partDocs, slots, fieldDocs_eq_map, List.map_map]
    rfl
  | seq id items =>
    rw [partDocs, slots, List.map_map]
    rfl
  | _ => exact absurd rfl some

theorem hasParens_of_slots {t : Tree ι} (some : t.slots ≠ []) : t.hasParens = true := by
  cases t with
  | prim p => exact absurd rfl some
  | absent => exact absurd rfl some
  | _ => rfl

theorem paint_slot (slot : Option String × Tree ι) (depth column : Nat) :
    ∃ labelled, (slotDoc depth slot).paint column column =
        labelled ++ (slot.2.doc depth).paint column (column + labelWidth slot.1) ∧
      labelled.map Prod.fst = label slot.1 := by
  obtain ⟨name | name, t⟩ := slot
  · exact ⟨[], rfl, rfl⟩
  · refine ⟨(name.toList.map fun c => (c, Style.fieldName.look)) ++
      [' ', '=', ' '].map fun c => (c, Style.punctuation.look), ?_, ?_⟩
    · rw [slotDoc, fieldDoc, punct, Doc.paint_append, Doc.paint_append, Doc.paint_text,
        Doc.paint_text, List.append_assoc]
      rfl
    · rw [List.map_append, List.map_map]
      exact congrArg (fun text => text ++ [' ', '=', ' ']) (List.map_id _)

theorem plain_slot (slot : Option String × Tree ι) (depth column : Nat) :
    plain ((slotDoc depth slot).layout column column).1 =
      label slot.1 ++ slot.2.dumpFrom (column + labelWidth slot.1) := by
  obtain ⟨labelled, painted, text⟩ := paint_slot slot depth column
  rw [← Doc.map_fst_paint, painted, List.map_append, text, Doc.map_fst_paint, plain_doc]

/-- A part is laid out in its own column inside of the tree. -/
theorem paint_part {t : Tree ι} {i : Nat} {slot : Option String × Tree ι}
    (h : t.slots[i]? = some slot) (depth indent column : Nat) :
    ∃ first last, (t.doc depth).paint indent column =
        first ++ (slot.2.doc (depth + 1)).paint (t.innerColumn column)
          (t.innerColumn column + labelWidth slot.1) ++ last ∧
      first.map Prod.fst = t.leadFrom column i ++ label slot.1 := by
  have some : t.slots ≠ [] := List.ne_nil_of_mem (List.mem_of_getElem? h)
  obtain ⟨named, after, painted, text⟩ := paint_doc (hasParens_of_slots some) depth indent column
  obtain ⟨rest, enclosed⟩ := Doc.paint_enclosed depth (t.partDocs (depth + 1)) after indent
    (column + Text.width t.caption)
  have element : (t.partDocs (depth + 1))[i]? = .some (slotDoc (depth + 1) slot) := by
    rw [partDocs_eq_map some, List.getElem?_map, h]
    rfl
  obtain ⟨first, last, separated, lead⟩ := Doc.paint_separated element (t.innerColumn column)
  obtain ⟨labelled, slotted, name⟩ := paint_slot slot (depth + 1) (t.innerColumn column)
  rw [innerColumn] at separated slotted
  rw [painted, enclosed, separated, slotted]
  refine ⟨named ++ ('(', (Style.paren depth).look) :: (first ++ labelled),
    last ++ rest ++ [(')', (Style.paren depth).look)], ?_, ?_⟩
  · simp only [innerColumn, List.append_assoc, List.cons_append]
  · -- The parts before it lose their looks, and with them all that depends on the depth.
    have leads : ((t.partDocs (depth + 1)).take i).flatMap (fun e =>
          plain (e.layout (t.innerColumn column) (t.innerColumn column)).1 ++
            ',' :: newlineChars (t.innerColumn column)) =
        (t.slots.take i).flatMap fun s =>
          label s.1 ++ s.2.dumpFrom (t.innerColumn column + labelWidth s.1) ++
            ',' :: newlineChars (t.innerColumn column) := by
      rw [partDocs_eq_map some, ← List.map_take, List.flatMap_map]
      simp only [plain_slot]
    rw [List.map_append, List.map_cons, List.map_append, text, lead, leads, name, leadFrom]
    simp only [List.append_assoc, List.cons_append]

theorem Stands.painted {whole t : Tree ι} {before : List Char} {column depth : Nat}
    (h : whole.Stands before column depth t) :
    ∃ indent first last, (whole.doc 0).paint 0 0 =
        first ++ (t.doc depth).paint indent column ++ last ∧ first.map Prod.fst = before := by
  induction h with
  | root => exact ⟨0, [], [], (List.append_nil _).symm, rfl⟩
  | @part before column depth i t part name _ element ih =>
    obtain ⟨indent, first, last, whole, text⟩ := ih
    obtain ⟨first', last', own, text'⟩ := paint_part element depth indent column
    rw [own] at whole
    refine ⟨t.innerColumn column, first ++ first', last' ++ last, ?_, ?_⟩
    · rw [whole]
      simp only [List.append_assoc]
    · rw [List.map_append, text, text', List.append_assoc]

theorem full_at {t u : Tree ι} (full : t.Full) {a : Address} (lies : t.at? a = some u) :
    u.Full := by
  refine of_at? (fun t full u hu => ?_) full lies
  cases t with
  | node id type values => exact (full_node.mp full).2 u hu
  | seq id items => exact full_seq.mp full u hu
  | _ => cases hu

theorem slots_of_children {t part : Tree ι} (full : t.Full) {i : Nat}
    (h : t.children[i]? = some part) : ∃ name, t.slots[i]? = some (name, part) := by
  cases t with
  | node id type values =>
    have same := (full_node.mp full).1
    obtain ⟨bound, -⟩ := List.getElem?_eq_some_iff.mp h
    have field := List.getElem?_eq_getElem (same ▸ bound : i < type.fields.length)
    have both : (type.fields.zip values)[i]? = some (type.fields[i], part) :=
      List.getElem?_zip_eq_some.mpr ⟨field, h⟩
    refine ⟨some type.fields[i].name, ?_⟩
    rw [slots, List.getElem?_map, both]
    rfl
  | seq id items =>
    have item : items[i]? = some part := h
    refine ⟨none, ?_⟩
    rw [slots, List.getElem?_map, item]
    rfl
  | _ => cases h

/-- What lies at an address stands in the dump, as deep as the address is long. -/
theorem stands_at {whole t : Tree ι} (full : whole.Full) {a : Address}
    (lies : whole.at? a = some t) :
    ∃ before column, whole.Stands before column a.length t := by
  -- From the end of the address, since that is where `Stands` goes on.
  induction a using List.reverseRecOn generalizing t with
  | nil =>
    cases lies
    exact ⟨[], 0, .root⟩
  | append_singleton a i ih =>
    have way := lies
    rw [at?_append] at way
    obtain ⟨u, above, -⟩ := Option.bind_eq_some_iff.mp way
    obtain ⟨before, column, stands⟩ := ih above
    have element : u.children[i]? = some t := (at?_part above i).symm.trans lies
    obtain ⟨name, slot⟩ := slots_of_children (full_at full above) element
    rw [List.length_append]
    exact ⟨_, _, stands.part slot⟩

/-- Without its style sequences a coloured dump is the dump. The parentheses of each part of the
tree have one look, which tells the depth of the part up to multiples of six. -/
theorem colored_styled {tree : Tree ι} (clear : tree.Clear) :
    unstyled tree.colored.toList = tree.dump.toList ∧
    (∀ before column depth t, tree.Stands before column depth t → t.hasParens = true →
      ∃ first inside last, shown {} tree.colored.toList =
          first ++ ('(', (Style.paren depth).look) ::
            (inside ++ (')', (Style.paren depth).look) :: last) ∧
        first.map Prod.fst = before ++ t.caption ∧
        t.caption ++ '(' :: (inside.map Prod.fst ++ [')']) = t.dumpFrom column) ∧
    (∀ a t, tree.Full → tree.at? a = some t →
      ∃ before column, tree.Stands before column a.length t) ∧
    ∀ depth depth', (Style.paren depth).look = (Style.paren depth').look ↔
      depth % 6 = depth' % 6 := by
  refine ⟨?_, fun before column depth t stands parens => ?_,
    fun a t full lies => stands_at full lies, fun depth depth' => paren_look_eq_iff⟩
  · rw [← map_fst_shown {}, shown_colored clear, Doc.map_fst_paint, dump, String.toList_ofList]
    rfl
  · obtain ⟨indent, first, last, whole, text⟩ := stands.painted
    obtain ⟨named, inside, own, caption⟩ := paint_parens parens depth indent column
    refine ⟨first ++ named, inside, last, ?_, ?_, ?_⟩
    · rw [shown_colored clear, whole, own]
      simp only [List.append_assoc, List.cons_append, List.nil_append]
    · rw [List.map_append, text, caption]
    · rw [← plain_doc t depth indent, ← Doc.map_fst_paint, own]
      simp [caption]

/-- A literal with an escape character and a parenthesis, and a pattern term in a sequence. -/
def alarm : Shape :=
  .node () entryType [.prim (.str "\x1b[1m("), .seq () [.pattern .wildcard]]

theorem colored_styled_alarm :
    let lead := "Entry(key = \x22\\u\x7b1b\x7d[1m(\x22,\n      items = (Wildcard".toList
    let look : Look := { color := some .white, dimmed := true }
    alarm.Clear ∧ alarm.Full ∧ unstyled alarm.colored.toList = lead ++ "(),))".toList ∧
      ∃ first inside last, shown {} alarm.colored.toList =
          first ++ ('(', look) :: (inside ++ (')', look) :: last) ∧
        first.map Prod.fst = lead := by
  intro lead look
  have clear : alarm.Clear := by
    unfold Clear
    decide
  have full : alarm.Full := by decide
  have stands : alarm.Stands _ _ 2 (.pattern .wildcard) :=
    .part (i := 0) (.part (i := 1) .root rfl) rfl
  obtain ⟨plain, parens, -, -⟩ := colored_styled clear
  obtain ⟨first, inside, last, shown, before, -⟩ := parens _ _ 2 _ stands rfl
  refine ⟨clear, full, ?_, first, inside, last, shown, before.trans ?_⟩
  · rw [plain]
    rfl
  · rfl

end Tree

end Arbor
