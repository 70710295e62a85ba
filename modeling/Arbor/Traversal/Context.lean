import Arbor.Tree.Basic

/-!
Where a walk over a tree stands: the nodes being visited, each with the field and the position
through which it was reached, and how many values have been visited and changed.
-/

namespace Arbor

structure Frame where
  node : Node Ident
  /-- The field of the node above it that it lies in. -/
  field : Option String
  /-- Its position, if that field holds a sequence. -/
  index : Option Nat

/-- The place of the value that is visited next. -/
structure Slot where
  field : Option String := none
  index : Option Nat := none

/-- Where a part lies in the node or sequence around it. -/
inductive Place where
  | field (name : String)
  | item (index : Nat)

structure Context where
  /-- The nodes being visited, the innermost first. -/
  stack : List Frame := []
  slot : Slot := {}
  /-- The field that holds the sequence being walked. -/
  seqField : Option String := none
  visited : Nat := 0
  changed : Nat := 0

namespace Context

/-- The nodes being visited, the outermost first. -/
def path (cx : Context) : List Frame :=
  cx.stack.reverse

def depth (cx : Context) : Nat :=
  cx.stack.length

def current? (cx : Context) : Option Frame :=
  cx.stack.head?

def parent? (cx : Context) : Option Frame :=
  cx.stack.tail.head?

/-- The next value lies in a field of the current node. -/
def atField (cx : Context) (name : String) : Context :=
  { cx with slot := ⟨some name, none⟩ }

/-- The next value is an item of the sequence being walked. -/
def atIndex (cx : Context) (index : Nat) : Context :=
  { cx with slot := ⟨cx.seqField, some index⟩ }

def announce (cx : Context) : Place → Context
  | .field name => cx.atField name
  | .item index => cx.atIndex index

/-- Counts a visited value and forgets its place. -/
def arrive (cx : Context) : Context :=
  { cx with visited := cx.visited + 1, slot := {} }

def enter (cx : Context) (node : Node Ident) (slot : Slot) : Context :=
  { cx with stack := ⟨node, slot.field, slot.index⟩ :: cx.stack }

def leave (cx : Context) : Context :=
  { cx with stack := cx.stack.tail }

def countChange (cx : Context) : Context :=
  { cx with changed := cx.changed + 1 }

end Context

end Arbor
