import Formula.Evaluator
import Formula.Proofs.Steps

/-!
# Evaluations that succeed

An evaluation yields a value exactly when its stages do: the tokens of a text, the tree of the tokens and the value of
the tree (`Evaluator.run_ok`, `Evaluator.evaluate_text_ok`).
-/

namespace Formula

namespace EvalM

variable {α : Type} {a : α} {draws draws' : Draws}

theorem fail_ok {e : EvalError} : ¬ (fail e : EvalM α) draws = .ok a draws' := throw_ok

theorem ofExcept_ok {x : Except EvalError α} : ofExcept x draws = .ok a draws' ↔ x = .ok a ∧ draws = draws' := by
  cases x with
  | ok b => simp [ofExcept, pure_ok]
  | error e => simp [ofExcept, fail_ok]

end EvalM

namespace Evaluator

variable {e : Evaluator} {depth : Nat} {tokens : List Token} {v : Value} {draws draws' : Draws}

/-- How functions that are called by an evaluation evaluate further formulas. -/
def reentry (e : Evaluator) (depth : Nat) : Reentry := { tokenize := e.tokenize, run := e.run depth }

theorem run_zero_ok : ¬ e.run 0 tokens draws = .ok v draws' := throw_ok

/-- The value of tokens is that of the tree that they write. -/
theorem run_ok : e.run (depth + 1) tokens draws = .ok v draws' ↔
    ∃ root, Node.ofTokens e.symbols tokens = .ok root ∧ root.evaluate (e.reentry depth) none draws = .ok v draws' := by
  simp only [run, bind_ok, EvalM.ofExcept_ok]
  constructor
  · rintro ⟨root, _, ⟨ht, rfl⟩, h⟩
    exact ⟨root, ht, h⟩
  · rintro ⟨root, ht, h⟩
    exact ⟨root, _, ⟨ht, rfl⟩, h⟩

theorem runTokens_ok : e.runTokens depth tokens draws = .ok v draws' ↔ e.run depth tokens draws = .ok v draws' := by
  unfold runTokens
  split <;> simp_all

/-- The value of a text is that of its tokens. -/
theorem evaluate_text_ok {source : String} : e.evaluate depth (.text source) draws = .ok v draws' ↔
    ∃ tokens, e.tokenize source = .ok tokens ∧ e.run depth tokens draws = .ok v draws' := by
  cases ht : e.tokenize source with
  | ok tokens => simp [evaluate, ht, runTokens_ok]
  | error error => simp [evaluate, ht, throw_ok]

end Evaluator

end Formula
