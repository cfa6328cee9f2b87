/-!
# Fences

A fence is a pair of round brackets or a pair of bars. Brackets pair by depth. A bar closes the
innermost fence if that is one of bars and a term can end before the bar, and otherwise opens a
fence of its own. A term cannot end directly after an opening bar, a sign, an operator or the
start.

`Fence.group` turns a sequence into spans, each a single item or a whole fence with what it
encloses. It fails at a closing bracket which closes nothing, or else at the innermost fence which
is never closed.
-/

set_option autoImplicit false

namespace FormulaEditor

/-- A pair of delimiters. -/
inductive Fence
  | brackets
  | bars
  deriving DecidableEq, Repr

/-- An item which is no delimiter, or a fence with what it encloses. -/
inductive Span (α : Type)
  | single (item : α)
  | enclosed (fence : Fence) (content : List (Span α))
  deriving Repr

namespace Fence

/-- A fence which is still open. -/
structure Opened (α : Type) where
  fence : Fence
  /-- The position of the opening delimiter. -/
  position : Nat
  /-- The spans in front of it, within the fence around it, the latest first. -/
  before : List (Span α)

/-- A sequence which has been grouped up to some position. -/
structure Grouping (α : Type) where
  /-- The open fences, the innermost first. -/
  opened : List (Opened α)
  /-- The spans of the innermost open fence, the latest first. -/
  content : List (Span α)

variable {α : Type}

namespace Grouping

/-- Nothing has been grouped yet. -/
def empty : Grouping α :=
  ⟨[], []⟩

/-- Adds an item which is no delimiter. -/
def add (grouping : Grouping α) (item : α) : Grouping α :=
  { grouping with content := .single item :: grouping.content }

/-- Opens a fence. -/
def openFence (grouping : Grouping α) (fence : Fence) (position : Nat) : Grouping α :=
  ⟨⟨fence, position, grouping.content⟩ :: grouping.opened, []⟩

/-- Closes the innermost fence, if there is one of the given kind. -/
def close? (grouping : Grouping α) (fence : Fence) : Option (Grouping α) :=
  match grouping.opened with
  | [] => none
  | innermost :: outer =>
    if innermost.fence = fence then
      some ⟨outer, .enclosed fence grouping.content.reverse :: innermost.before⟩
    else none

end Grouping

/-- The characters after which no term can end. -/
def leadsOn (c : Char) : Bool :=
  c = '_' || c = '+' || c = '-' || c = '*'

/-- Whether a term can end after the given spans, the latest of which comes first. -/
def endsTerm (key : α → Char) : List (Span α) → Bool
  | [] => false
  | .single item :: _ => !leadsOn (key item)
  | .enclosed _ _ :: _ => true

/-- Groups one more item, which has the given position. The character of an item tells whether it
is a delimiter. -/
def step (key : α → Char) (position : Nat) (grouping : Grouping α) (item : α) :
    Except Nat (Grouping α) :=
  if key item = '(' then .ok (grouping.openFence .brackets position)
  else if key item = ')' then
    match grouping.close? .brackets with
    | some closed => .ok closed
    | none => .error position
  else if key item = '|' then
    match grouping.close? .bars with
    | some closed =>
      if endsTerm key grouping.content then .ok closed else .ok (grouping.openFence .bars position)
    | none => .ok (grouping.openFence .bars position)
  else .ok (grouping.add item)

/-- Groups the rest of a sequence, whose first item has the given position. -/
def groupFrom (key : α → Char) (position : Nat) (grouping : Grouping α) :
    List α → Except Nat (List (Span α))
  | [] => match grouping.opened with
    | [] => .ok grouping.content.reverse
    | innermost :: _ => .error innermost.position
  | item :: items => do
    groupFrom key (position + 1) (← step key position grouping item) items

/-- Groups a sequence whose first item has the given position. -/
def group (key : α → Char) (position : Nat) (items : List α) : Except Nat (List (Span α)) :=
  groupFrom key position .empty items

end Fence

end FormulaEditor
