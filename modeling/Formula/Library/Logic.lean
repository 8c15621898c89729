import Formula.Symbol

/-!
# Logical functions and choices

True is a number above zero here; a string or an array is false.
-/

namespace Formula.Library

/-- Whether all values are true. -/
def allOf (values : List Value) : Value := .ofBool (values.all Value.isPositive)

/-- Whether some value is true. -/
def anyOf (values : List Value) : Value := .ofBool (values.any Value.isPositive)

/-- Whether the value is false. -/
def notRule (call : Call) : Except EvalError Value := do
  let a ← call.argument 0
  pure (.ofBool (!a.isPositive))

/-- The second argument where the first is true, and else the third. -/
def ifRule (call : Call) : Except EvalError Value := do
  let condition ← call.argument 0
  call.argument (if condition.isPositive then 1 else 2)

/-- The choice with the number given first, counted from 1. -/
def chooseRule (call : Call) : Except EvalError Value := do
  let index ← call.number 0
  let choices := call.arguments.length - 1
  if Number.isInteger index.toFloat && 1 ≤ index && index ≤ .ofNat choices then
    call.argument (Number.wholeUpTo choices index.toFloat)
  else .error (call.rangeError "the index is out of bounds")

/-- The logical functions. -/
def logicRules : List (String × (Call → Except EvalError Value)) :=
  [ ("and", fun call => pure (allOf call.arguments)),
    ("or", fun call => pure (anyOf call.arguments)),
    ("not", notRule),
    ("if", ifRule),
    ("choose", chooseRule) ]

end Formula.Library
