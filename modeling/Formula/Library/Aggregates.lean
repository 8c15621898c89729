import Formula.Symbol

/-!
# Numbers taken together

Sums, products, extremes and averages of a list of numbers.
-/

namespace Formula.Library

/-- The larger of two numbers; a `NaN` gives way, and of two equal numbers the first is kept. -/
def larger (x y : Double) : Double := if x.isNaN then y else if y > x then y else x

/-- The smaller of two numbers; a `NaN` gives way, and of two equal numbers the first is kept. -/
def smaller (x y : Double) : Double := if x.isNaN then y else if y < x then y else x

/-- The largest number, and negative infinity for none. -/
def maximum (xs : List Double) : Double := xs.foldl larger (-1.0 / 0.0)

/-- The smallest number, and infinity for none. -/
def minimum (xs : List Double) : Double := xs.foldl smaller (1.0 / 0.0)

/-- The sum from left to right. -/
def sum (xs : List Double) : Double := xs.foldl (· + ·) 0

/-- The product from left to right. -/
def product (xs : List Double) : Double := xs.foldl (· * ·) 1

/-- The mean of some numbers. The sum starts at negative zero, which added to a number leaves it as it
is, so that the mean of negative zero is negative zero. -/
def mean (xs : List Double) : Double := xs.foldl (· + ·) (-0.0) / Double.ofNat xs.length

/-- The numbers in ascending total order. -/
def sorted (xs : List Double) : List Double :=
  xs.mergeSort fun x y => x.rank ≤ y.rank

/-- The middle of some numbers in order, or halfway between the two in the middle. -/
def median (xs : List Double) : Double :=
  let ordered := sorted xs
  let middle := ordered.length / 2
  if ordered.length % 2 = 0 then
    (ordered.getD (middle - 1) 0 + ordered.getD middle 0) / 2
  else ordered.getD middle 0

/-- A function of all arguments as numbers. -/
def ofAll (f : List Double → Double) (call : Call) : Except EvalError Value := do
  let xs ← call.numbers
  pure (.number (f xs))

/-- A function of at least one number. -/
def ofSome (f : List Double → Double) (call : Call) : Except EvalError Value := do
  let xs ← call.numbers
  call.require (!xs.isEmpty) "at least one value is required"
  pure (.number (f xs))

/-- The functions of several numbers. -/
def aggregateRules : List (String × (Call → Except EvalError Value)) :=
  [ ("max", ofAll maximum),
    ("min", ofAll minimum),
    ("sum", ofAll sum),
    ("product", ofAll product),
    ("mean", ofSome mean),
    ("median", ofSome median) ]

end Formula.Library
