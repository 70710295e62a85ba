import Arbor.Error
import Arbor.Language.NodeType

/-!
Generation of a language from a grammar.

The names are checked first, then the entries are put in order: abstract ones before concrete ones,
each group as declared, except that an entry waits for its base. The types follow the root in that
order. Fields may name any type of the language, also a later one.
-/

namespace Arbor

/-- Name of the root type, from which all types derive. -/
def rootName : String := "AST"

/-- Names that no entry may have: the root and the two pattern terms. -/
def reservedNames : List String := [rootName, "PatVar", "Wildcard"]

/-- Type names that stand for primitive kinds; the first pair of a name counts. -/
abbrev PrimitiveTable := List (String × PrimitiveKind)

namespace PrimitiveTable

def insert (table : PrimitiveTable) (name : String) (kind : PrimitiveKind) : PrimitiveTable :=
  (name, kind) :: table.filter fun entry => entry.1 != name

/-- Every kind under its own name. -/
def identity : PrimitiveTable :=
  PrimitiveKind.all.map fun kind => (kind.name, kind)

/-- The built-in names of abstract syntax descriptions. -/
def standard : PrimitiveTable :=
  [("identifier", .str), ("int", .int), ("string", .str), ("bytes", .bytes), ("object", .object),
   ("singleton", .object)]

end PrimitiveTable

structure Options where
  /-- Check field values whenever a node is built. -/
  checked : Bool := false
  primitives : PrimitiveTable := PrimitiveTable.standard

namespace Grammar

/-! ## Names -/

/-- The first element that occurred before. -/
def firstRepeated (seen : List String) : List String → Option String
  | [] => none
  | name :: rest => if seen.contains name then some name else firstRepeated (name :: seen) rest

def checkEntries (seen : List String) : List TypeSpec → Except GrammarError Unit
  | [] => .ok ()
  | entry :: rest =>
    if reservedNames.contains entry.name then .error (.reservedName entry.name)
    else if seen.contains entry.name then .error (.duplicateType entry.name)
    else
      match firstRepeated [] (entry.fields.map FieldSpec.name) with
      | some field => .error (.duplicateField entry.name field)
      | none => checkEntries (entry.name :: seen) rest

def checkBases (names : List String) : List TypeSpec → Except GrammarError Unit
  | [] => .ok ()
  | entry :: rest =>
    match entry.base with
    | none => checkBases names rest
    | some base =>
      if base = rootName ∨ names.contains base then checkBases names rest
      else .error (.unknownBase entry.name base)

/-- No entry has a reserved or repeated name or a repeated field, and every base is known. -/
def checkNames (entries : List TypeSpec) : Except GrammarError Unit := do
  checkEntries [] entries
  checkBases (entries.map TypeSpec.name) entries

/-! ## Order -/

def isReady (generated : List String) (entry : TypeSpec) : Bool :=
  match entry.base with
  | none => true
  | some base => generated.contains base

/-- One round over the pending entries: those that are ready when their turn comes, and those that
have to wait. -/
def round : List String → List TypeSpec → List TypeSpec × List TypeSpec
  | _, [] => ([], [])
  | generated, entry :: rest =>
    if isReady generated entry then
      let (ready, waiting) := round (entry.name :: generated) rest
      (entry :: ready, waiting)
    else
      let (ready, waiting) := round generated rest
      (ready, entry :: waiting)

theorem length_round (generated : List String) (pending : List TypeSpec) :
    (round generated pending).1.length + (round generated pending).2.length = pending.length := by
  induction pending generalizing generated with
  | nil => rfl
  | cons entry rest ih =>
    unfold round
    split
    · have := ih (entry.name :: generated)
      simp only [List.length_cons]
      omega
    · have := ih generated
      simp only [List.length_cons]
      omega

/-- The pending entries round by round, until none is left or none is ready. -/
def orderFrom (generated : List String) (pending : List TypeSpec) :
    Except GrammarError (List TypeSpec) :=
  if pending.isEmpty then .ok []
  else
    match _next : round generated pending with
    | ([], _) => .error (.inheritanceCycle (pending.map TypeSpec.name))
    | (entry :: ready, waiting) => do
      let later ← orderFrom ((entry :: ready).map TypeSpec.name ++ generated) waiting
      return entry :: ready ++ later
termination_by pending.length
decreasing_by
  have := length_round generated pending
  simp only [_next, List.length_cons] at this
  omega

def byKind (entries : List TypeSpec) : List TypeSpec :=
  entries.filter (fun e => e.kind == .abstract) ++ entries.filter (fun e => e.kind == .concrete)

/-- The entries in the order in which their types are generated. -/
def order (entries : List TypeSpec) : Except GrammarError (List TypeSpec) :=
  orderFrom [rootName] (byKind entries)

/-! ## Fields and types -/

/-- Indices of the names: the root, then the entries in order. -/
def indexOf? (order : List TypeSpec) (name : String) : Option Nat :=
  (rootName :: order.map TypeSpec.name).idxOf? name

def resolveField (order : List TypeSpec) (primitives : PrimitiveTable) (entry : TypeSpec)
    (field : FieldSpec) : Except GrammarError Field :=
  match indexOf? order field.typeName with
  | some index => .ok ⟨field.name, field.typeName, field.arity, .node index⟩
  | none =>
    match primitives.lookup field.typeName with
    | some kind => .ok ⟨field.name, field.typeName, field.arity, .primitive kind⟩
    | none => .error (.unknownFieldType entry.name field.name field.typeName)

def resolveFields (order : List TypeSpec) (primitives : PrimitiveTable) (entry : TypeSpec) :
    Except GrammarError (List Field) :=
  entry.fields.mapM (resolveField order primitives entry)

def rootType (id : Nat) (checked : Bool) : NodeType where
  name := rootName
  language := id
  index := 0
  kind := .abstract
  base := none
  ancestry := [0]
  fields := []
  checked := checked

def nextType (order : List TypeSpec) (id : Nat) (checked : Bool) (built : List NodeType)
    (entry : TypeSpec) (fields : List Field) : NodeType :=
  let base := (entry.base.bind (indexOf? order)).getD 0
  let inherited :=
    match built[base]? with
    | some type => type.ancestry
    | none => []
  { name := entry.name
    language := id
    index := built.length
    kind := entry.kind
    base := some base
    ancestry := built.length :: inherited
    fields := fields
    checked := checked }

def buildTypes (order : List TypeSpec) (id : Nat) (checked : Bool) :
    List NodeType → List (TypeSpec × List Field) → List NodeType
  | built, [] => built
  | built, (entry, fields) :: rest =>
    buildTypes order id checked (built ++ [nextType order id checked built entry fields]) rest

end Grammar

/-- The language that a grammar describes, under a given number. -/
def Language.ofGrammar (id : Nat) (g : Grammar) (options : Options) :
    Except GrammarError Language := do
  Grammar.checkNames g.entries
  let order ← Grammar.order g.entries
  let fields ← order.mapM (Grammar.resolveFields order options.primitives)
  let root := Grammar.rootType id options.checked
  let types := Grammar.buildTypes order id options.checked [root] (order.zip fields)
  return ⟨id, types, options.checked⟩

end Arbor
