import Formula.Token
import Formula.Value

/-!
# Calls

A call is a function's name with the values of its arguments. The readings `Call.number`,
`Call.string` and `Call.array` of an argument fail under that name, `Call.describe` spells the call
for messages, and `Call.tokens` writes it as tokens for a further evaluation.
-/

namespace Formula

/-- A function's name with the values of its arguments. -/
structure Call where
  name : String
  arguments : List Value
deriving Inhabited

mutual

/-- A value as the argument of a call in a message. -/
def Value.spell : Value → String
  | .number x => Number.plain.write x.toFloat
  | .string s => Text.quote s
  | .array items => "[" ++ ", ".intercalate (Value.spellAll items) ++ "]"

/-- Several values as arguments. -/
def Value.spellAll : List Value → List String
  | [] => []
  | v :: rest => v.spell :: Value.spellAll rest

end

mutual

/-- The tokens of a literal that denotes the value. -/
def Value.tokens : Value → List Token
  | .number x => [.number x]
  | .string s => [.string s]
  | .array items => .operator "[" :: (Value.tokensAll items ++ [.operator "]"])

/-- The tokens of several values, with commas between them. -/
def Value.tokensAll : List Value → List Token
  | [] => []
  | [v] => v.tokens
  | v :: w :: rest => v.tokens ++ .operator "," :: Value.tokensAll (w :: rest)

end

namespace Call

/-- The argument at an index. -/
def argument (call : Call) (i : Nat) : Except EvalError Value :=
  match call.arguments[i]? with
  | some v => .ok v
  | none => .error (.missingArguments call.name (i + 1) call.arguments.length)

/-- The number at an index. -/
def number (call : Call) (i : Nat) : Except EvalError Double := do
  (← call.argument i).asNumber call.name

/-- The string at an index. -/
def string (call : Call) (i : Nat) : Except EvalError String := do
  (← call.argument i).asString call.name

/-- The array at an index. -/
def array (call : Call) (i : Nat) : Except EvalError (List Value) := do
  (← call.argument i).asArray call.name

/-- All the values as numbers. -/
def numbersOf (call : Call) (values : List Value) : Except EvalError (List Double) :=
  values.mapM (·.asNumber call.name)

/-- All arguments as numbers. -/
def numbers (call : Call) : Except EvalError (List Double) := call.numbersOf call.arguments

/-- The call as it would be written. -/
def describe (call : Call) : String :=
  call.name ++ "(" ++ ", ".intercalate (Value.spellAll call.arguments) ++ ")"

/-- An argument that the function does not take. -/
def rangeError (call : Call) (requirement : String) : EvalError :=
  .argumentRange call.describe requirement

/-- A division by zero in this call. -/
def divideByZero (call : Call) : EvalError := .divideByZero ("at \"" ++ call.describe ++ "\"")

/-- Fails unless the condition holds. -/
def require (call : Call) (condition : Bool) (requirement : String) : Except EvalError Unit :=
  if condition then .ok () else .error (call.rangeError requirement)

/-- The tokens that write the call. -/
def tokens (call : Call) : List Token :=
  .name call.name :: .operator "(" :: (Value.tokensAll call.arguments ++ [.operator ")"])

end Call

end Formula
