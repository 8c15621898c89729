import Formula.Cursor

/-!
# From tokens to trees

An expression is read by binding power: a leading form first, then, as long as the active symbol
binds tighter than the caller asks, a trailing form around what has been read so far. Each reading of
an expression and each trailing form opens a level of the tree, so the levels that are left bound
the recursion.

The readers of the forms take the reader of expressions as an argument; `expression` ties the knot.
-/

namespace Formula.Node

open Cursor

/-- Reads an expression whose operators bind tighter than the power. -/
abbrev Reader := BindingPower → CursorM Node

/-! ## Lists -/

/-- Expressions with commas between them. A comma is a token of its own, so there are no more of them
than `budget`, the number of unread tokens. -/
def readItems (table : SymbolTable) (read : Reader) : (budget : Nat) → CursorM (List Node)
  | 0 => do
    let item ← read 0
    pure [item]
  | budget + 1 => do
    let item ← read 0
    let active ← current
    if active.id = "," then
      let _ ← advance table
      let rest ← readItems table read budget
      pure (item :: rest)
    else pure [item]

/-- Expressions with commas between them, up to and including the closing spelling. -/
def readList (table : SymbolTable) (read : Reader) (closing : String) : CursorM (List Node) := do
  let c ← get
  if c.active.id = closing then
    let _ ← expect table closing
    pure []
  else
    let items ← readItems table read c.unread.length
    let _ ← expect table closing
    pure items

/-! ## Forms -/

/-- The rest of a leading form. -/
def readLeadingForm (table : SymbolTable) (read : Reader) (head : Head) :
    LeadingForm → CursorM Node
  | .operand => do
    let operand ← read .unary
    pure (.unary head false operand)
  | .sign => do
    let operand ← read .unary
    pure (.unary head true operand)
  | .grouping closing => do
    let operand ← read 0
    let _ ← expect table closing
    pure (.unary head false operand)
  | .array => do
    let items ← readList table read "]"
    pure (.sequence head items)

/-- The rest of a call. -/
def readCall (table : SymbolTable) (read : Reader) (head : Head) (mode : ArgumentMode) :
    CursorM Node := do
  let _ ← expect table "("
  if mode = .bare then
    let _ ← expect table ")"
    pure (.sequence head [])
  else
    let items ← readList table read ")"
    pure (.sequence head items)

/-- What a use at the start of an expression stands for. One that cannot start an expression is left
without operands, for evaluation to refuse. -/
def readLeading (table : SymbolTable) (read : Reader) (head : Head) : CursorM Node :=
  match head.symbol.kind with
  | .leading _ form => readLeadingForm table read head form
  | .leftward _ _ (some form) => readLeadingForm table read head form
  | .function _ mode => readCall table read head mode
  | _ => pure (.leaf head)

/-- What a use after an operand stands for. One that is no operator takes the operand's place. -/
def readTrailing (table : SymbolTable) (read : Reader) (head : Head) (left : Node) :
    CursorM Node :=
  match head.symbol.kind with
  | .leftward _ .binary _ => do
    let right ← read head.power
    pure (.binary head left right)
  | .leftward _ .ternary _ => do
    let second ← read 0
    let _ ← expect table ":"
    let third ← read 0
    pure (.ternary head left second third)
  | .rightward _ => do
    let right ← read (head.power - 1)
    pure (.binary head left right)
  | _ => pure (.leaf head)

/-! ## Expressions -/

mutual

/-- Reads an expression with this many levels left. -/
def readExpression (table : SymbolTable) : (levels : Nat) → Reader
  | 0, _ => tooDeep
  | levels + 1, power => do
    descend
    let head ← advance table
    let left ← readLeading table (readExpression table levels) head
    extend table levels power 1 left

/-- Puts trailing forms around what has been read, and closes the levels that were opened. -/
def extend (table : SymbolTable) : (levels : Nat) → BindingPower → (opened : Nat) → Node →
    CursorM Node
  | 0, power, opened, left => do
    let active ← current
    if power < active.power then tooDeep
    else
      ascend opened
      pure left
  | levels + 1, power, opened, left => do
    let active ← current
    if power < active.power then
      descend
      let head ← advance table
      let whole ← readTrailing table (readExpression table levels) head left
      extend table levels power (opened + 1) whole
    else
      ascend opened
      pure left

end

/-- Reads an expression whose operators bind tighter than the power. -/
def expression (table : SymbolTable) (power : BindingPower) : CursorM Node := do
  let c ← get
  readExpression table (maxDepth - c.depth) power

/-- The tree that all the tokens together write. -/
def ofTokens (table : SymbolTable) (tokens : List Token) : Except EvalError Node :=
  match Cursor.start table tokens with
  | .error e => .error e
  | .ok c =>
    match expression table .none c with
    | .error e _ => .error e
    | .ok root c =>
      if c.hasMore then .error (.badToken endId c.active.id) else .ok root

end Formula.Node
