/-!
# Cursors

A place in a row of items, some of which may be missing, from which one can look ahead and back.
A mark remembers an earlier place, so that what has been passed since can be taken as a whole.
-/

namespace Lox

structure Cursor (α : Type) where
  items : Array (Option α)
  position : Nat := 0
  mark : Nat := 0

/-- Why a cursor cannot do what it is asked for. -/
inductive CursorFault where
  /-- There is no item to pass. -/
  | exhausted
  /-- There is no item where one is required. -/
  | missing
  deriving DecidableEq, Repr

namespace Cursor

variable {α : Type}

def ofList (items : List (Option α)) : Cursor α :=
  { items := items.toArray }

def size (c : Cursor α) : Nat :=
  c.items.size

def hasNext (c : Cursor α) (ahead : Int) : Bool :=
  c.position + ahead < c.size

/-- The item `ahead` of the cursor, if there is one. -/
def peek (c : Cursor α) (ahead : Int) : Option α :=
  match c.position + ahead with
  | .ofNat n => (c.items[n]?).join
  | .negSucc _ => none

/-- Whether the next item is one of `expected`, where none stands for a missing item. -/
def sees [BEq α] (c : Cursor α) (expected : List (Option α)) : Bool :=
  expected.contains (c.peek 0)

def setMark (c : Cursor α) : Cursor α :=
  { c with mark := c.position }

/-- The items from the remembered place up to the current one. -/
def passed (c : Cursor α) : List (Option α) :=
  (c.items.toList.take c.position).drop c.mark

/-- The item `ahead` of the cursor, which has to be there. -/
def require (ahead : Int) : EStateM CursorFault (Cursor α) α := do
  match (← get).peek ahead with
  | some a => pure a
  | none => throw .missing

def previous : EStateM CursorFault (Cursor α) α :=
  require (-1)

def advance : EStateM CursorFault (Cursor α) α := do
  match (← get).peek 0 with
  | some a =>
    modify fun c ↦ { c with position := c.position + 1 }
    pure a
  | none => throw .exhausted

/-- Passes the next item if it is one of `expected`, and says whether it was. -/
def advanceIf [BEq α] (expected : List (Option α)) : EStateM CursorFault (Cursor α) Bool := do
  if (← get).sees expected then
    let _ ← advance
    pure true
  else
    pure false

def item (index : Nat) : EStateM CursorFault (Cursor α) (Option α) := do
  match (← get).items[index]? with
  | some item => pure item
  | none => throw .exhausted

end Cursor

/-! ## What is ahead of a cursor

Where no item is missing and none is looked at again, a cursor is no more than the items ahead of it.
-/

namespace Row

variable {α : Type}

def require : EStateM CursorFault (List α) α
  | [] => .error .missing []
  | a :: rest => .ok a (a :: rest)

def advance : EStateM CursorFault (List α) α
  | [] => .error .exhausted []
  | a :: rest => .ok a rest

end Row

end Lox
