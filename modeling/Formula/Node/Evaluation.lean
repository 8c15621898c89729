import Formula.Node

/-!
# The value of a tree

A node is evaluated by the kind of its symbol: operators get their operands unevaluated, functions
the values of their arguments. A value before a dot is handed to the function after it in front of
the arguments.
-/

namespace Formula

namespace ArgumentMode

/-- The arguments that a function gets for the values in its call. -/
def arrange : ArgumentMode → List Value → List Value
  | .spread, .array items :: rest => items ++ rest
  | _, values => values

end ArgumentMode

namespace Head

/-- The value of a use with its operands, and with the value before a dot, if there is one. -/
def evaluate (reentry : Reentry) (head : Head) (operands : Operands) (receiver? : Option Value) :
    EvalM Value :=
  if receiver?.isSome && !head.symbol.kind.isFunction then
    EvalM.fail (.typeMismatch "." "function" head.symbol.kind.label)
  else match head.symbol.kind with
    | .punctuation => EvalM.fail (.badToken "expression" head.id)
    | .literal => match head.literal? with
      | some v => pure v
      | none => EvalM.fail (.badToken literalId head.id)
    | .constant v => pure v
    | .leading rule _ => rule operands
    | .leftward rule _ _ => rule operands
    | .rightward rule => rule operands
    | .function rule mode => do
      let values ← Operands.itemValues operands.items
      rule reentry ⟨head.id, mode.arrange (receiver?.toList ++ values)⟩

/-- The operands of a use that has none. -/
def noOperands (head : Head) : Operands := ⟨head.id, false, none, none, none, []⟩

end Head

namespace Node

mutual

/-- The value of a tree. -/
def evaluate (reentry : Reentry) : Node → Operand
  | .leaf head => head.evaluate reentry head.noOperands
  | .unary head sign a =>
    head.evaluate reentry
      { head.noOperands with isSign := sign, first? := some (evaluate reentry a) }
  | .binary head a b =>
    head.evaluate reentry
      { head.noOperands with
        first? := some (evaluate reentry a)
        second? := some (evaluate reentry b) }
  | .ternary head a b c =>
    head.evaluate reentry
      { head.noOperands with
        first? := some (evaluate reentry a)
        second? := some (evaluate reentry b)
        third? := some (evaluate reentry c) }
  | .sequence head items =>
    head.evaluate reentry { head.noOperands with items := evaluateAll reentry items }

/-- The values of several trees, each still to be evaluated. -/
def evaluateAll (reentry : Reentry) : List Node → List (EvalM Value)
  | [] => []
  | node :: rest => evaluate reentry node none :: evaluateAll reentry rest

end

end Node

end Formula
