import Formula.Symbol

/-!
# The operators of the library

The rules for grouping, arithmetic, comparison, choice and the logical operators. A rule asks for its
operands from left to right, and the choices ask only for those that they need.
-/

namespace Formula.Library

/-- Brackets around an expression: the value inside. -/
def group : OperatorRule := fun operands => operands.first

/-- True unless the operand is a number above zero. -/
def negate : OperatorRule := fun operands => do
  let a ← operands.first
  pure (.ofBool (!a.isPositive))

/-- The array of the elements. -/
def elements : OperatorRule := fun operands => do
  let values ← Operands.itemValues operands.items
  pure (.array values)

/-- Hands the value before the dot to the function after it. -/
def member : OperatorRule := fun operands => do
  let receiver ← operands.first
  match operands.second? with
  | some function => function (some receiver)
  | none => EvalM.fail (.badToken "function" operands.id)

/-- The sum of two values: numbers are added, and where either is a string their texts are joined. -/
def sumOf (operation : String) : Value → Value → Except EvalError Value
  | .number x, .number y => .ok (.number (x + y))
  | .string s, b => .ok (.string (s ++ b.display))
  | a, .string t => .ok (.string (a.display ++ t))
  | .array items, _ => .error (Value.mismatch operation "number" (.array items))
  | _, b => .error (Value.mismatch operation "number" b)

/-- Addition and joining. -/
def add : OperatorRule := fun operands => do
  let a ← operands.first
  let b ← operands.second
  EvalM.ofExcept (sumOf operands.id a b)

/-- Subtraction, or the opposite number where the operator is a sign. -/
def subtract : OperatorRule := fun operands => do
  let a ← operands.firstNumber
  if operands.isSign then pure (.number (-a))
  else
    let b ← operands.secondNumber
    pure (.number (a - b))

/-- An operator on two numbers. -/
def onNumbers (f : Double → Double → Double) : OperatorRule := fun operands => do
  let a ← operands.firstNumber
  let b ← operands.secondNumber
  pure (.number (f a b))

/-- An operator on two numbers of which the second is not zero. -/
def onQuotient (f : Double → Double → Double) : OperatorRule := fun operands => do
  let a ← operands.firstNumber
  let b ← operands.secondNumber
  if b == 0 then
    EvalM.fail (.divideByZero ("using the " ++ Text.quote operands.id ++ " operator"))
  else pure (.number (f a b))

/-- Multiplication. -/
def multiply : OperatorRule := onNumbers (· * ·)

/-- Division. -/
def divide : OperatorRule := onQuotient (· / ·)

/-- The remainder of a division, with the sign of the dividend. -/
def modulo : OperatorRule := onQuotient Double.remainder

/-- Exponentiation. -/
def power : OperatorRule := onNumbers Double.pow

/-- Whether two values are the same. -/
def equals : OperatorRule := fun operands => do
  let a ← operands.first
  let b ← operands.second
  pure (.ofBool (a.same b))

/-- Whether two values differ. -/
def notEquals : OperatorRule := fun operands => do
  let a ← operands.first
  let b ← operands.second
  pure (.ofBool (!a.same b))

/-- A comparison that accepts some orders. Numbers without an order compare false. -/
def comparison (accepts : Ordering → Bool) : OperatorRule := fun operands => do
  let a ← operands.first
  let b ← operands.second
  let order? ← EvalM.ofExcept (a.order operands.id b)
  pure (.ofBool (order?.any accepts))

/-- `<` -/
def less : OperatorRule := comparison (· == .lt)

/-- `<=` -/
def lessEquals : OperatorRule := comparison (· != .gt)

/-- `>` -/
def greater : OperatorRule := comparison (· == .gt)

/-- `>=` -/
def greaterEquals : OperatorRule := comparison (· != .lt)

/-- The second operand where the first is true, and else the third; the other one is not evaluated. -/
def choice : OperatorRule := fun operands => do
  let condition ← operands.first
  if condition.isTruthy then operands.second else operands.third

/-- The second operand is only evaluated where the first is true. -/
def both : OperatorRule := fun operands => do
  let a ← operands.first
  if a.isTruthy then
    let b ← operands.second
    pure (.ofBool b.isTruthy)
  else pure (.ofBool false)

/-- The second operand is only evaluated where the first is false. -/
def either : OperatorRule := fun operands => do
  let a ← operands.first
  if a.isTruthy then pure (.ofBool true)
  else
    let b ← operands.second
    pure (.ofBool b.isTruthy)

/-! ## Tables -/

/-- Punctuation, literals and parentheses, which every formula needs. -/
def structuralSymbols : List Symbol :=
  [":", ",", ")", "]", "\x7d", endId].map Symbol.simple
    ++ [⟨literalId, .none, .literal⟩, .leading "(" (.grouping ")") group]

/-- The operators. -/
def operatorSymbols : List Symbol :=
  [ .leading "!" .operand negate,
    .leading "[" .array elements,
    .leading "\x7b" (.grouping "\x7d") group,
    .binary "." .member member,
    .binary "+" .additive add,
    ⟨"-", .additive, .leftward subtract .binary (some .sign)⟩,
    .binary "*" .multiplicative multiply,
    .binary "/" .multiplicative divide,
    .binary "%" .multiplicative modulo,
    .binary "^" .exponent power,
    .binary "==" .relational equals,
    .binary "!=" .relational notEquals,
    .binary "<" .relational less,
    .binary "<=" .relational lessEquals,
    .binary ">" .relational greater,
    .binary ">=" .relational greaterEquals,
    ⟨"?", .ternary, .leftward choice .ternary none⟩,
    .rightward "&&" .logical both,
    .rightward "||" .logical either ]

end Formula.Library
