import Formula.Symbol

/-!
# Constants and functions of numbers
-/

namespace Formula.Library

/-- The named numbers. -/
def constants : List (String × Double) :=
  [ ("FALSE", 0), ("TRUE", 1), ("false", 0), ("true", 1),
    ("E", 2.718281828459045), ("LN2", 0.6931471805599453), ("LN10", 2.302585092994046),
    ("PI", 3.141592653589793), ("SQRT1_2", 0.7071067811865476), ("SQRT2", 1.4142135623730951) ]

/-- A function of one number. -/
def ofNumber (f : Double → Double) (call : Call) : Except EvalError Value := do
  let x ← call.number 0
  pure (.number (f x))

/-- A function of one number that has to meet a condition. -/
def ofNumberWhere (meets : Double → Bool) (requirement : String) (f : Double → Double) (call : Call) :
    Except EvalError Value := do
  let x ← call.number 0
  call.require (meets x) requirement
  pure (.number (f x))

/-- A function of a number in `[-1, 1]`. -/
def ofSine (f : Double → Double) : Call → Except EvalError Value :=
  ofNumberWhere (fun x => -1 ≤ x && x ≤ 1) "argument must be in range [-1, 1]" f

/-- A function of a number above zero. -/
def ofPositive (f : Double → Double) : Call → Except EvalError Value :=
  ofNumberWhere (0 < ·) "argument must be greater than 0" f

/-- A function of two numbers. -/
def ofNumbers (f : Double → Double → Double) (call : Call) : Except EvalError Value := do
  let x ← call.number 0
  let y ← call.number 1
  pure (.number (f x y))

/-- A function of two numbers of which the second is not zero. -/
def ofQuotient (f : Double → Double → Double) (call : Call) : Except EvalError Value := do
  let x ← call.number 0
  let y ← call.number 1
  if y == 0 then .error call.divideByZero else pure (.number (f x y))

/-- The nearest integer; a half goes up. -/
def roundHalfUp (x : Double) : Double := (x + 0.5).floor

/-- Multiplies the product by `n`, `n - 1`, and so on down to the last positive factor. The sign is
turned when the factors do not reach zero, and an infinite product ends the run. No product of more
than 171 positive factors that differ by one is finite, so `fuel` is never used up. -/
def factorialFrom (whole : Bool) : (fuel : Nat) → (product n : Double) → Double
  | 0, product, _ => product
  | fuel + 1, product, n =>
    if 0 < n then
      let product := product * n
      if product.isInf then if whole then product else -product
      else factorialFrom whole fuel product (n - 1)
    else if n == 0 then product
    else -product

/-- The product of `x`, `x - 1`, and so on. -/
def factorial (x : Double) : Double := factorialFrom (Number.isInteger x.toFloat) 256 1 x

/-- The quotient without its fraction. -/
def wholeQuotient (x y : Double) : Double := (x / y).floor

/-- The functions of numbers. -/
def arithmeticRules : List (String × (Call → Except EvalError Value)) :=
  [ ("abs", ofNumber Double.abs),
    ("ceiling", ofNumber Double.ceiling),
    ("cos", ofNumber (.lift Float.cos)),
    ("exp", ofNumber (.lift Float.exp)),
    ("fac", ofNumber factorial),
    ("floor", ofNumber Double.floor),
    ("round", ofNumber roundHalfUp),
    ("sin", ofNumber (.lift Float.sin)),
    ("tan", ofNumber (.lift Float.tan)),
    ("acos", ofSine (.lift Float.acos)),
    ("asin", ofSine (.lift Float.asin)),
    ("atan", ofSine (.lift Float.atan)),
    ("ln", ofPositive (.lift Float.log)),
    ("log", ofPositive (.lift Float.log10)),
    ("sqrt", ofPositive (.lift Float.sqrt)),
    ("pow", ofNumbers Double.pow),
    ("mod", ofQuotient Double.remainder),
    ("quotient", ofQuotient wholeQuotient) ]

end Formula.Library
