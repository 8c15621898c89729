import Formula.Symbol

/-!
# Trees

A node is one use of a symbol with the operands that were read for it. Its head keeps the symbol as
it was defined when the tokens were read, so later definitions do not change a tree.
-/

namespace Formula

/-- A use of a symbol; a number or string token leaves its value here. -/
structure Head where
  symbol : Symbol
  literal? : Option Value

/-- The spelling of the symbol. -/
def Head.id (head : Head) : String := head.symbol.id

/-- The binding power of the symbol. -/
def Head.power (head : Head) : BindingPower := head.symbol.power

/-- A use of a symbol with its operands. -/
inductive Node
  | leaf (head : Head)
  /-- An operator with the operand that follows it; `sign` for one that also stands between
  operands. -/
  | unary (head : Head) (sign : Bool) (operand : Node)
  | binary (head : Head) (first second : Node)
  | ternary (head : Head) (first second third : Node)
  /-- A call with its arguments, or an array with its elements. -/
  | sequence (head : Head) (items : List Node)

namespace Node

/-- The use of the symbol at the root. -/
def head : Node → Head
  | .leaf head => head
  | .unary head _ _ => head
  | .binary head _ _ => head
  | .ternary head _ _ _ => head
  | .sequence head _ => head

/-- The first operand. -/
def first? : Node → Option Node
  | .unary _ _ a => some a
  | .binary _ a _ => some a
  | .ternary _ a _ _ => some a
  | _ => none

/-- The second operand. -/
def second? : Node → Option Node
  | .binary _ _ b => some b
  | .ternary _ _ b _ => some b
  | _ => none

/-- The third operand. -/
def third? : Node → Option Node
  | .ternary _ _ _ c => some c
  | _ => none

/-- The arguments or elements. -/
def items : Node → List Node
  | .sequence _ items => items
  | _ => []

/-- Whether an operator between operands was used as a sign. -/
def isSign : Node → Bool
  | .unary _ sign _ => sign
  | _ => false

end Node

end Formula
