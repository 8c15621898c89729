import Formula.Library.Arithmetic
import Formula.Library.Arrays
import Formula.Library.Callbacks
import Formula.Library.Operators
import Formula.Library.Random
import Formula.Node.Evaluation
import Formula.Node.Parser
import Formula.Token.Scanner

/-!
# Evaluators

An evaluator is a table of symbols and a set of operator spellings. It evaluates a text or a sequence
of tokens, each time with a cursor of its own, so a function may evaluate further formulas while it
is being evaluated. The depth of such calls is bounded by an explicit number.
-/

namespace Formula

namespace Library

/-- The functions of the library. -/
def functionSymbols : List Symbol :=
  (arithmeticRules ++ logicRules ++ aggregateRules).map
      (fun (id, rule) => .function id .spread (.ofPure rule))
    ++ randomSymbols
    ++ arrayRules.map (fun (id, rule) => .function id .exact (.ofPure rule))
    ++ callbackRules.map (fun (id, rule) => .function id .exact rule)

/-- All symbols beyond the structural ones. -/
def standardSymbols : List Symbol :=
  operatorSymbols ++ constants.map (fun (id, x) => .constant id (.number x)) ++ functionSymbols

end Library

/-- A table of symbols and the spellings of operators. -/
structure Evaluator where
  symbols : SymbolTable
  operators : OperatorSet

/-- What is evaluated. -/
inductive Source
  | text (s : String)
  | tokens (ts : List Token)

namespace Evaluator

/-- The evaluator that knows literals, punctuation and parentheses only. -/
def bare : Evaluator :=
  { symbols := SymbolTable.empty.defineAll Library.structuralSymbols
    operators := .standard }

/-- The evaluator with the whole library. -/
def standard : Evaluator :=
  { bare with symbols := bare.symbols.defineAll Library.standardSymbols }

/-! ## Changes -/

/-- Switches operator spellings on or off. -/
def updateOperators (e : Evaluator) (overrides : List (String × Bool)) : Evaluator :=
  { e with operators := e.operators.update overrides }

/-- Defines a symbol. -/
def define (e : Evaluator) (s : Symbol) : Evaluator := { e with symbols := e.symbols.define s }

/-- Defines names for values, in order. -/
def defineNames (e : Evaluator) (names : List (String × Value)) : Evaluator :=
  names.foldl (fun e (id, v) => e.define (.constant id v)) e

/-- Removes a symbol. -/
def delete (e : Evaluator) (id : String) : Evaluator := { e with symbols := e.symbols.erase id }

/-! ## Evaluation -/

/-- The tokens of a text. -/
def tokenize (e : Evaluator) (source : String) : Except ScanError (List Token) :=
  e.operators.tokenize source

/-- The value of a sequence of tokens, with calls nested at most `depth` deep. -/
def run (e : Evaluator) : (depth : Nat) → List Token → EvalM Value
  | 0, _ => throw .exhausted
  | depth + 1, tokens => do
    let root ← EvalM.ofExcept (Node.ofTokens e.symbols tokens)
    root.evaluate { tokenize := e.tokenize, run := run e depth } none

/-- The value of a sequence of tokens as the outcome of either stage. -/
def runTokens (e : Evaluator) (depth : Nat) (tokens : List Token) :
    EStateM (Stop Error) Draws Value := fun draws =>
  match e.run depth tokens draws with
  | .ok v draws => .ok v draws
  | .error (.failed error) draws => .error (.failed (.eval error)) draws
  | .error .exhausted draws => .error .exhausted draws

/-- The value of a source, with calls nested at most `depth` deep. -/
def evaluate (e : Evaluator) (depth : Nat) : Source → EStateM (Stop Error) Draws Value
  | .text s =>
    match e.tokenize s with
    | .ok tokens => e.runTokens depth tokens
    | .error error => throw (.failed (.scan error))
  | .tokens ts => e.runTokens depth ts

end Evaluator

end Formula
