import Formula.Call
import Formula.Evaluation

/-!
# Rules

An operator or function of the library is a rule. An operator asks for its operands when it needs
them (`Operands`); a function gets the values of its arguments (`Call`) and a way to evaluate further
formulas (`Reentry`).
-/

namespace Formula

/-- How a function evaluates further formulas with the evaluator that called it. -/
structure Reentry where
  tokenize : String → Except ScanError (List Token)
  run : List Token → EvalM Value

/-- Calls a function by its name, as an evaluation of its own. -/
def Reentry.call (reentry : Reentry) (function : String) (arguments : List Value) : EvalM Value :=
  reentry.run (Call.tokens ⟨function, arguments⟩)

/-- An operand, ready to be evaluated; the value before a dot is handed to the function after it. -/
abbrev Operand := Option Value → EvalM Value

/-- The operands of one use of an operator. -/
structure Operands where
  /-- The spelling of the operator. -/
  id : String
  /-- Whether the operator was used as a sign. -/
  isSign : Bool
  first? : Option Operand
  second? : Option Operand
  third? : Option Operand
  /-- The elements of an array or the arguments of a call. -/
  items : List (EvalM Value)

namespace Operands

/-- The value of an operand that has to be there. -/
def value (operands : Operands) (operand? : Option Operand) : EvalM Value :=
  match operand? with
  | some operand => operand none
  | none => EvalM.fail (.badToken "operand" operands.id)

/-- The value of the first operand. -/
def first (operands : Operands) : EvalM Value := operands.value operands.first?

/-- The value of the second operand. -/
def second (operands : Operands) : EvalM Value := operands.value operands.second?

/-- The value of the third operand. -/
def third (operands : Operands) : EvalM Value := operands.value operands.third?

/-- The number that the first operand has to be. -/
def firstNumber (operands : Operands) : EvalM Double := do
  EvalM.ofExcept ((← operands.first).asNumber operands.id)

/-- The number that the second operand has to be. -/
def secondNumber (operands : Operands) : EvalM Double := do
  EvalM.ofExcept ((← operands.second).asNumber operands.id)

/-- The values of all items, in order. -/
def itemValues : List (EvalM Value) → EvalM (List Value)
  | [] => pure []
  | item :: rest => do
    let v ← item
    let vs ← itemValues rest
    pure (v :: vs)

end Operands

/-- What an operator computes. -/
abbrev OperatorRule := Operands → EvalM Value

/-- What a function computes. -/
abbrev FunctionRule := Reentry → Call → EvalM Value

/-- A rule that only depends on the values of the arguments. -/
def FunctionRule.ofPure (rule : Call → Except EvalError Value) : FunctionRule :=
  fun _ call => EvalM.ofExcept (rule call)

end Formula
