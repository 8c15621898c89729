import Formula.Node

/-!
# Reading tokens

A cursor stands on one symbol use, the active one, with the unread tokens behind it. It also counts
the open expressions and the operators chained onto them, of which no more than `maxDepth` may be
open at once. A step that fails leaves the cursor where the failure found it.

Main statement: `depth_descend_le` (a descent never passes `maxDepth`).
-/

namespace Formula

/-- The number of levels of a tree that can be open at once while it is read. -/
def maxDepth : Nat := 256

/-- A place in a sequence of tokens. -/
structure Cursor where
  unread : List Token
  active : Head
  depth : Nat

/-- A step of a cursor. -/
abbrev CursorM := EStateM EvalError Cursor

/-- The use of a symbol that must be defined. -/
def SymbolTable.use (table : SymbolTable) (id : String) (literal? : Option Value) :
    Except EvalError Head :=
  match table.get? id with
  | some symbol => .ok { symbol, literal? }
  | none => .error (.undefinedSymbol id)

/-- The symbol use that a token stands for. -/
def SymbolTable.resolve (table : SymbolTable) (token : Token) : Except EvalError Head :=
  match token.kind, token.payload with
  | .number, .number x => table.use literalId (some (.number x))
  | .number, .text s => .error (.badToken "number" s)
  | .string, payload => table.use literalId (some (.string payload.display))
  | .name, payload => table.use payload.display none
  | .operator, payload => table.use payload.display none

namespace Cursor

/-- The use that comes next, and the tokens behind it. Behind the last token stands the end, again
and again. A token that cannot be used is read all the same. -/
def next (table : SymbolTable) : List Token → Except EvalError Head × List Token
  | [] => (table.use endId none, [])
  | token :: rest => (table.resolve token, rest)

/-- A cursor on the first token. -/
def start (table : SymbolTable) (tokens : List Token) : Except EvalError Cursor :=
  match next table tokens with
  | (.ok active, unread) => .ok { unread, active, depth := 0 }
  | (.error e, _) => .error e

/-- Whether the cursor does not stand on the end. -/
def hasMore (c : Cursor) : Bool := c.active.id != endId

/-- The active symbol use. -/
def current : CursorM Head := fun c => .ok c.active c

/-- Moves on by one token and yields the use that was active. -/
def advance (table : SymbolTable) : CursorM Head := fun c =>
  match next table c.unread with
  | (.ok active, unread) => .ok c.active { c with unread, active }
  | (.error e, unread) => .error e { c with unread }

/-- Moves on if the active symbol has this spelling. -/
def expect (table : SymbolTable) (id : String) : CursorM Head := do
  let active ← current
  if active.id = id then advance table else throw (.badToken id active.id)

/-- The failure of a tree that would be too deep. -/
def tooDeep {α : Type} : CursorM α := do
  let active ← current
  throw (.badToken ("at most " ++ toString maxDepth ++ " nested expressions") active.id)

/-- Opens one level of the tree. -/
def descend : CursorM Unit := do
  let c ← get
  if c.depth < maxDepth then set { c with depth := c.depth + 1 } else tooDeep

/-- Closes levels of the tree. -/
def ascend (levels : Nat) : CursorM Unit :=
  modify fun c => { c with depth := c.depth - levels }

theorem descend_of_lt {c : Cursor} (h : c.depth < maxDepth) :
    descend c = .ok () { c with depth := c.depth + 1 } := by
  show (if c.depth < maxDepth then set { c with depth := c.depth + 1 } else tooDeep : CursorM Unit) c = _
  rw [if_pos h]
  rfl

theorem descend_of_not_lt {c : Cursor} (h : ¬ c.depth < maxDepth) : descend c = tooDeep c := by
  show (if c.depth < maxDepth then set { c with depth := c.depth + 1 } else tooDeep : CursorM Unit) c = _
  rw [if_neg h]

theorem depth_descend_le {c c' : Cursor} (h : descend c = .ok () c') : c'.depth ≤ maxDepth := by
  by_cases hd : c.depth < maxDepth
  · rw [descend_of_lt hd] at h
    cases h
    exact hd
  · rw [descend_of_not_lt hd] at h
    cases h

end Cursor

end Formula
