import Formula.Draws
import Formula.Error

/-!
# Evaluations

An evaluation yields a value or stops. Its only state is the source of random numbers, which a
stopped evaluation hands back as well.
-/

namespace Formula

/-- Why an evaluation ended without a value: it failed, or calls were nested deeper than the limit
that it was started with. -/
inductive Stop (ε : Type)
  | failed (error : ε)
  | exhausted
deriving DecidableEq, Repr

/-- A computation that may draw random numbers and may stop. -/
abbrev EvalM := EStateM (Stop EvalError) Draws

namespace EvalM

/-- Stops with an error. -/
def fail {α : Type} (e : EvalError) : EvalM α := throw (.failed e)

/-- The result of a computation that draws nothing. -/
def ofExcept {α : Type} : Except EvalError α → EvalM α
  | .ok a => pure a
  | .error e => fail e

/-- Draws the next number. -/
def draw : EvalM Double := fun d => .ok d.next d.step

end EvalM

end Formula
