import Formula.Symbol

/-!
# Functions of arrays and a function

The second argument is the name of a function, which is called for the elements in order. Each call
is an evaluation of its own.
-/

namespace Formula.Library

/-- What a callback does with one element. -/
abbrev OnElement := Value → EvalM Value

/-- The results for all elements. -/
def mapItems (f : OnElement) : List Value → EvalM (List Value)
  | [] => pure []
  | item :: rest => do
    let v ← f item
    let vs ← mapItems f rest
    pure (v :: vs)

/-- The elements with a true result. -/
def filterItems (f : OnElement) : List Value → EvalM (List Value)
  | [] => pure []
  | item :: rest => do
    let v ← f item
    let vs ← filterItems f rest
    pure (if v.isTruthy then item :: vs else vs)

/-- Whether all results are true; the first that is not decides. -/
def everyItem (f : OnElement) : List Value → EvalM Bool
  | [] => pure true
  | item :: rest => do
    let v ← f item
    if v.isTruthy then everyItem f rest else pure false

/-- Whether some result is true; the first that is decides. -/
def someItem (f : OnElement) : List Value → EvalM Bool
  | [] => pure false
  | item :: rest => do
    let v ← f item
    if v.isTruthy then pure true else someItem f rest

/-- Folds the elements, which are numbered from `index`, into an accumulator. -/
def foldItems (f : Value → Value → Nat → EvalM Value) : (index : Nat) → Value → List Value →
    EvalM Value
  | _, accumulator, [] => pure accumulator
  | index, accumulator, item :: rest => do
    let next ← f accumulator item index
    foldItems f (index + 1) next rest

/-- The array and the callback of a call. -/
def arrayAndCallback (reentry : Reentry) (call : Call) : EvalM (List Value × OnElement) := do
  let items ← EvalM.ofExcept (call.array 0)
  let function ← EvalM.ofExcept (call.string 1)
  pure (items, fun item => reentry.call function [item])

/-- The array of the results. -/
def mapRule : FunctionRule := fun reentry call => do
  let (items, f) ← arrayAndCallback reentry call
  let vs ← mapItems f items
  pure (.array vs)

/-- The array of the elements with a true result. -/
def filterRule : FunctionRule := fun reentry call => do
  let (items, f) ← arrayAndCallback reentry call
  let vs ← filterItems f items
  pure (.array vs)

/-- Whether all results are true. -/
def everyRule : FunctionRule := fun reentry call => do
  let (items, f) ← arrayAndCallback reentry call
  let b ← everyItem f items
  pure (.ofBool b)

/-- Whether some result is true. -/
def someRule : FunctionRule := fun reentry call => do
  let (items, f) ← arrayAndCallback reentry call
  let b ← someItem f items
  pure (.ofBool b)

/-- Calls the function with the accumulator, an element, its index and the whole array. -/
def foldStep (reentry : Reentry) (function : String) (items : List Value) (accumulator item : Value)
    (index : Nat) : EvalM Value :=
  reentry.call function [accumulator, item, .number (.ofNat index), .array items]

/-- Folds the array from an initial accumulator, or from its first element where none is given. -/
def reduceRule : FunctionRule := fun reentry call => do
  let items ← EvalM.ofExcept (call.array 0)
  let function ← EvalM.ofExcept (call.string 1)
  let step := foldStep reentry function items
  match call.arguments[2]?, items with
  | some initial, _ => foldItems step 0 initial items
  | none, first :: rest => foldItems step 1 first rest
  | none, [] => EvalM.fail (call.rangeError "an empty array needs an initial accumulator")

/-- The functions that take a callback. -/
def callbackRules : List (String × FunctionRule) :=
  [ ("mapA", mapRule),
    ("filterA", filterRule),
    ("everyA", everyRule),
    ("someA", someRule),
    ("reduceA", reduceRule) ]

end Formula.Library
