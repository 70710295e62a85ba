/-!
What can go wrong: in a grammar, in building a node, in matching two trees, in reading a text, and
in the handlers and rules that callers supply. Every cause has one message.
-/

namespace Arbor

/-- Why a grammar describes no language. -/
inductive GrammarError where
  | duplicateType (name : String)
  | duplicateField (name field : String)
  | reservedName (name : String)
  | unknownBase (name base : String)
  | unknownFieldType (name field fieldType : String)
  /-- The entries that wait for each other. -/
  | inheritanceCycle (names : List String)
deriving DecidableEq

def GrammarError.message : GrammarError → String
  | .duplicateType name => s!"type '{name}' is defined more than once"
  | .duplicateField name field => s!"type '{name}' declares field '{field}' more than once"
  | .reservedName name => s!"type '{name}' uses reserved name"
  | .unknownBase name base => s!"type '{name}' derives from unknown base '{base}'"
  | .unknownFieldType name field fieldType =>
    s!"field '{name}.{field}' has unknown type '{fieldType}'"
  | .inheritanceCycle names => "inheritance cycle involving " ++ String.intercalate ", " names

/-- Why a node could not be built. The first argument names its type. -/
inductive ConstructionError where
  | fieldCount (type : String) (expected found : Nat)
  | expectedSequence (type field found : String)
  | unexpectedSequence (type field found : String)
  | wrongType (type field expected found : String)
  | missingValue (type field : String)
  | abstractType (type : String)
  | unknownField (type field : String)
  | repeatedField (type field : String)
deriving DecidableEq

def ConstructionError.message : ConstructionError → String
  | .fieldCount type expected found => s!"{type} expects {expected} field(s), got {found}"
  | .expectedSequence type field found => s!"{type}.{field}: expected a sequence, got {found}"
  | .unexpectedSequence type field found => s!"{type}.{field}: unexpected sequence {found}"
  | .wrongType type field expected found => s!"{type}.{field}: expected {expected}, got {found}"
  | .missingValue type field => s!"{type}.{field}: missing required value"
  | .abstractType type => s!"{type} is abstract and cannot be instantiated"
  | .unknownField type field => s!"{type} has no field named '{field}'"
  | .repeatedField type field => s!"{type}: field '{field}' given more than once"

/-- Why two trees could not be made equal. -/
inductive MatchFailure where
  | nodeMismatch (left right : String)
  | nodeVsNonNode (node other : String)
  | seqVsNonSeq (other : String)
  | lengthMismatch (left right : Nat)
  | constant (left right : String)
  /-- A variable would have to stand for a tree that contains it. -/
  | circular (var tree : String)
deriving DecidableEq

def MatchFailure.message : MatchFailure → String
  | .nodeMismatch left right => s!"node type mismatch: {left} vs {right}"
  | .nodeVsNonNode node other => s!"node {node} cannot match non-node {other}"
  | .seqVsNonSeq other => s!"sequence cannot match non-sequence {other}"
  | .lengthMismatch left right => s!"sequence length mismatch: {left} vs {right}"
  | .constant left right => s!"constant mismatch: {left} vs {right}"
  | .circular var tree => s!"circular binding of '{var}' to {tree}"

/-- Why a text describes no tree of a language. -/
inductive ParseError where
  | malformed
  | unknownType (name : String)
  | positionalAfterKeyword (type : String)
  | malformedPattern (text : String)
  | construction (cause : ConstructionError)
deriving DecidableEq

def ParseError.message : ParseError → String
  | .malformed => "syntax error"
  | .unknownType name => s!"unknown node type '{name}'"
  | .positionalAfterKeyword type =>
    s!"{type}: positional arguments cannot follow keyword arguments"
  | .malformedPattern text => s!"malformed pattern term: {text}"
  | .construction cause => cause.message

/-- Any failure, as handlers and rule actions see it. -/
inductive Error where
  | grammar (cause : GrammarError)
  | construction (cause : ConstructionError)
  | mismatch (cause : MatchFailure)
  | parse (cause : ParseError)
  | stepLimitExceeded (limit : Nat)
  | unknownType (name : String)
  | unbound (name : String)
  /-- A variable is bound to something of another sort than the one asked for. -/
  | binding (name expected found : String)
  /-- A walk went deeper than it was allowed to. -/
  | tooDeep
  | custom (text : String)
deriving DecidableEq

def Error.message : Error → String
  | .grammar cause => cause.message
  | .construction cause => cause.message
  | .mismatch cause => cause.message
  | .parse cause => cause.message
  | .stepLimitExceeded limit => s!"rewriting exceeded the step limit of {limit}"
  | .unknownType name => s!"unknown node type '{name}'"
  | .unbound name => s!"pattern variable '{name}' is unbound"
  | .binding name expected found =>
    s!"pattern variable '{name}' is bound to {found}, expected {expected}"
  | .tooDeep => "the walk is nested too deeply"
  | .custom text => text

end Arbor
