import Formula.Error
import Formula.Number.Double
import Formula.Number.Layout

/-!
# Values

A value is a number, a string or an array of values; `1` and `0` stand for true and false. The
readings `Value.number?`, `Value.string?` and `Value.array?` fail with a type mismatch that names
the operation that asked. `Value.order` compares two numbers or two strings, and nothing else.
-/

namespace Formula

/-- The result of evaluating a formula. -/
inductive Value
  | number (x : Double)
  | string (s : String)
  | array (items : List Value)
deriving Inhabited

namespace Value

/-- The number for a truth value. -/
def ofBool (b : Bool) : Value := .number (if b then 1 else 0)

/-- The name of the kind of a value. -/
def kindName : Value → String
  | .number _ => "number"
  | .string _ => "string"
  | .array _ => "array"

/-- Whether a value is an array. -/
def isArray : Value → Bool
  | .array _ => true
  | _ => false

/-- Truth for choices and for the lazy operators: numbers other than zero and `NaN`, strings that
are not empty, and all arrays. -/
def isTruthy : Value → Bool
  | .number x => x != 0 && !x.isNaN
  | .string s => s != ""
  | .array _ => true

/-- Truth for negation and for the logical functions: numbers above zero. -/
def isPositive : Value → Bool
  | .number x => x > 0
  | _ => false

mutual

/-- Equality of values; numbers compare as doubles do, so `NaN` differs from itself. -/
def same : Value → Value → Bool
  | .number x, .number y => x == y
  | .string s, .string t => s == t
  | .array xs, .array ys => sameAll xs ys
  | _, _ => false

/-- Equality element by element. -/
def sameAll : List Value → List Value → Bool
  | [], [] => true
  | x :: xs, y :: ys => same x y && sameAll xs ys
  | _, _ => false

end

mutual

/-- The text of a value: the elements of an array stand between commas, without brackets. -/
def display : Value → String
  | .number x => Number.plain.write x.toFloat
  | .string s => s
  | .array items => ",".intercalate (displayAll items)

/-- The texts of several values. -/
def displayAll : List Value → List String
  | [] => []
  | v :: rest => display v :: displayAll rest

end

/-- A type mismatch in `operation`, which received this value. -/
def mismatch (operation expected : String) (received : Value) : EvalError :=
  .typeMismatch operation expected received.kindName

/-- The number that an operation needs. -/
def asNumber (operation : String) : Value → Except EvalError Double
  | .number x => .ok x
  | other => .error (mismatch operation "number" other)

/-- The string that an operation needs. -/
def asString (operation : String) : Value → Except EvalError String
  | .string s => .ok s
  | other => .error (mismatch operation "string" other)

/-- The array that an operation needs. -/
def asArray (operation : String) : Value → Except EvalError (List Value)
  | .array items => .ok items
  | other => .error (mismatch operation "array" other)

/-- The order of two doubles, if neither is `NaN`. -/
def orderNumbers (x y : Double) : Option Ordering :=
  if x < y then some .lt
  else if x == y then some .eq
  else if y < x then some .gt
  else none

/-- The order of two numbers or two strings; strings are ordered by their code points, which is the
order of their bytes. -/
def order (operation : String) : Value → Value → Except EvalError (Option Ordering)
  | .number x, .number y => .ok (orderNumbers x y)
  | .string s, .string t => .ok (some (compare s t))
  | .number _, other => .error (mismatch operation "number" other)
  | .string _, other => .error (mismatch operation "string" other)
  | other@(.array _), _ => .error (mismatch operation "number or string" other)

end Value

end Formula
