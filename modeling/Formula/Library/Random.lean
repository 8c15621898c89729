import Formula.Symbol

/-!
# Random numbers
-/

namespace Formula.Library

/-- The next random number. -/
def randRule : FunctionRule := fun _ _ => do
  let r ← EvalM.draw
  pure (.number r)

/-- The two bounds of a call. -/
def bounds (call : Call) : Except EvalError (Double × Double) := do
  let a ← call.number 0
  let b ← call.number 1
  pure (a, b)

/-- A number between the bounds that lies a whole number above the first. -/
def randIntRule : FunctionRule := fun _ call => do
  let (a, b) ← EvalM.ofExcept (bounds call)
  let r ← EvalM.draw
  pure (.number (a + (r * (b - a)).truncate))

/-- A number between the bounds. -/
def randRangeRule : FunctionRule := fun _ call => do
  let (a, b) ← EvalM.ofExcept (bounds call)
  let r ← EvalM.draw
  pure (.number (a + r * (b - a)))

/-- The functions that draw. -/
def randomSymbols : List Symbol :=
  [ .function "rand" .bare randRule,
    .function "randInt" .spread randIntRule,
    .function "randRange" .spread randRangeRule ]

end Formula.Library
