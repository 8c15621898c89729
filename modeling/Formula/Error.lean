import Formula.Text.Quoted

/-!
# Errors

Two stages can fail. Scanning fails at a position of the text (`ScanError`); building and evaluating
a tree fails for one of six causes (`EvalError`). Each cause has a name, a message and, for some, a
tip; `Error` is either of them.
-/

namespace Formula

/-- What is wrong with a piece of text. -/
inductive ScanFault
  | invalidExponent
  | invalidNumber
  | invalidOperator
  | trailingOperator
  | unterminatedString
deriving DecidableEq, Repr

/-- Text that is no token, and the byte offset where it starts. -/
structure ScanError where
  fault : ScanFault
  text : String
  position : Nat
deriving DecidableEq, Repr

namespace ScanError

/-- The number of offsets that errors tell apart, `2 ^ 32`; from there on they are counted from zero again. -/
def positions : Nat := 4294967296

/-- The name of the kind of error. -/
def name (e : ScanError) : String :=
  match e.fault with
  | .invalidExponent => "InvalidExponent"
  | .invalidNumber => "InvalidNumber"
  | .invalidOperator => "InvalidOperator"
  | .trailingOperator => "TrailingOperator"
  | .unterminatedString => "UnterminatedString"

/-- What happened, with the text in quotes. -/
def message (e : ScanError) : String :=
  let what := match e.fault with
    | .invalidExponent => "invalid exponent in number "
    | .invalidNumber => "invalid number "
    | .invalidOperator => "invalid operator "
    | .trailingOperator => "trailing operator "
    | .unterminatedString => "unterminated string "
  what ++ Text.quote e.text

/-- What to do about it. -/
def tip? (e : ScanError) : Option String :=
  match e.fault with
  | .invalidExponent => some "An exponent marker must be followed by at least one digit"
  | .invalidNumber =>
    if e.text.toList.all (· = '.') then some "A number needs at least one digit"
    else some "Numbers cannot be directly followed by a letter"
  | .invalidOperator =>
    some ("`" ++ e.text ++ "` is not an allowed operator, enable it with `update_operators`")
  | .trailingOperator => some "An expression cannot end with an operator"
  | .unterminatedString => none

end ScanError

/-- Why a sequence of tokens has no value. -/
inductive EvalError
  | argumentRange (call requirement : String)
  | badToken (expected found : String)
  | divideByZero (context : String)
  | undefinedSymbol (symbol : String)
  | typeMismatch (operation expected received : String)
  | missingArguments (function : String) (expected received : Nat)
deriving DecidableEq, Repr

namespace EvalError

/-- The name of the kind of error. -/
def name : EvalError → String
  | .argumentRange .. => "ArgumentRange"
  | .badToken .. => "BadToken"
  | .divideByZero .. => "DivideByZero"
  | .undefinedSymbol .. => "UndefinedSymbol"
  | .typeMismatch .. => "TypeMismatch"
  | .missingArguments .. => "MissingArguments"

/-- What happened. -/
def message : EvalError → String
  | .argumentRange call requirement => "at \"" ++ call ++ "\": " ++ requirement
  | .badToken expected found =>
    "expected token with id " ++ Text.quote expected ++ ", found " ++ Text.quote found
  | .divideByZero context => "attempt to divide by 0 " ++ context
  | .undefinedSymbol symbol => "the symbol " ++ Text.quote symbol ++ " is not defined"
  | .typeMismatch operation expected received =>
    operation ++ ": expected " ++ expected ++ ", received " ++ received
  | .missingArguments function expected received =>
    function ++ ": expected at least " ++ toString expected ++ " arguments, received "
      ++ toString received

/-- What to do about it. -/
def tip? : EvalError → Option String
  | .badToken ")" _ => some "Did you forget a closing parenthesis?"
  | .undefinedSymbol symbol =>
    some ("Define `" ++ symbol ++ "` with `define_name` or `define_function` before evaluating")
  | _ => none

end EvalError

/-- The failure of either stage. -/
inductive Error
  | scan (error : ScanError)
  | eval (error : EvalError)
deriving DecidableEq, Repr

namespace Error

/-- The name of the kind of error. -/
def name : Error → String
  | .scan e => e.name
  | .eval e => e.name

/-- What happened. -/
def message : Error → String
  | .scan e => e.message
  | .eval e => e.message

/-- What to do about it. -/
def tip? : Error → Option String
  | .scan e => e.tip?
  | .eval e => e.tip?

/-- Where in the text it happened; only scanning knows. -/
def position? : Error → Option Nat
  | .scan e => some e.position
  | .eval _ => none

/-- The name and what happened, on one line. -/
def full (e : Error) : String := e.name ++ ": " ++ e.message

end Error

end Formula
