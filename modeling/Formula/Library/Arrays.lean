import Formula.Library.Aggregates
import Formula.Library.Logic

/-!
# Functions of arrays

These functions take an array first, usually from before a dot: the aggregates of its elements, and
rearrangements of it.
-/

namespace Formula.Library

/-- The elements of the array as numbers. -/
def arrayNumbers (call : Call) : Except EvalError (List Double) := do
  let items ← call.array 0
  call.numbersOf items

/-- A function of the elements as numbers. -/
def ofElements (f : List Double → Double) (call : Call) : Except EvalError Value := do
  let xs ← arrayNumbers call
  pure (.number (f xs))

/-- A function of the elements of an array that has some. -/
def ofSomeElements (f : List Double → Double) (call : Call) : Except EvalError Value := do
  let xs ← arrayNumbers call
  call.require (!xs.isEmpty) "the array must not be empty"
  pure (.number (f xs))

/-- A function of the elements as they are. -/
def ofItems (f : List Value → Value) (call : Call) : Except EvalError Value := do
  let items ← call.array 0
  pure (f items)

/-- Whether some element is the same as the second argument. -/
def includesRule (call : Call) : Except EvalError Value := do
  let items ← call.array 0
  let needle ← call.argument 1
  pure (.ofBool (items.any (·.same needle)))

/-- The string given after the array, or a comma. -/
def separator (call : Call) : Except EvalError String :=
  match call.arguments[1]? with
  | some v => v.asString call.name
  | none => pure ","

/-- The texts of the elements with a separator between them. -/
def joinRule (call : Call) : Except EvalError Value := do
  let items ← call.array 0
  let between ← separator call
  pure (.string (between.intercalate (Value.displayAll items)))

/-- The index that a bound stands for: a negative one counts from the end, and none leaves the
array. -/
def sliceIndex (length : Nat) (bound : Float) : Nat :=
  let bound := Number.truncate bound
  Number.wholeUpTo length (if bound < 0 then Float.ofNat length + bound else bound)

/-- The bound given at a place of the call, or a default. -/
def sliceBound (call : Call) (place length default : Nat) : Except EvalError Nat :=
  match call.arguments[place]? with
  | some v => do
    let x ← v.asNumber call.name
    pure (sliceIndex length x.toFloat)
  | none => pure default

/-- The elements from an index up to another one. -/
def slice (items : List Value) (start stop : Nat) : List Value :=
  (items.drop start).take (stop - start)

/-- The elements between two bounds. -/
def sliceRule (call : Call) : Except EvalError Value := do
  let items ← call.array 0
  let start ← sliceBound call 1 items.length 0
  let stop ← sliceBound call 2 items.length items.length
  pure (.array (slice items start stop))

/-- The functions of arrays that call no other function. -/
def arrayRules : List (String × (Call → Except EvalError Value)) :=
  [ ("andA", ofItems allOf),
    ("orA", ofItems anyOf),
    ("maxA", ofElements maximum),
    ("minA", ofElements minimum),
    ("sumA", ofElements sum),
    ("productA", ofElements product),
    ("meanA", ofSomeElements mean),
    ("medianA", ofSomeElements median),
    ("includesA", includesRule),
    ("joinA", joinRule),
    ("reverseA", ofItems fun items => .array items.reverse),
    ("sliceA", sliceRule) ]

end Formula.Library
