import Formula.Number.Double
import Formula.Number.Layout

/-!
# Tokens

A token has a kind and a payload. Scanned tokens carry a number exactly when they are of the kind
`number`; tokens made by hand may carry either payload with any kind.
-/

namespace Formula

/-- What a token is in a formula. -/
inductive TokenKind
  | number
  | string
  | name
  | operator
deriving DecidableEq, Repr

/-- The name of a kind. -/
def TokenKind.label : TokenKind → String
  | .number => "number"
  | .string => "string"
  | .name => "name"
  | .operator => "operator"

/-- A number, or the text of a string, name or operator. -/
inductive Payload
  | number (x : Double)
  | text (s : String)
deriving DecidableEq

/-- The text of a payload. -/
def Payload.display : Payload → String
  | .number x => Number.plain.write x.toFloat
  | .text s => s

/-- A piece of a formula. -/
structure Token where
  kind : TokenKind
  payload : Payload
deriving DecidableEq

namespace Token

/-- The token of a numeric literal. -/
def number (x : Double) : Token := ⟨.number, .number x⟩

/-- The token of a string literal. -/
def string (s : String) : Token := ⟨.string, .text s⟩

/-- The token of a name. -/
def name (s : String) : Token := ⟨.name, .text s⟩

/-- The token of an operator. -/
def operator (s : String) : Token := ⟨.operator, .text s⟩

/-- The kind of a token and, in parentheses, its payload. -/
def display (t : Token) : String := t.kind.label ++ " (" ++ t.payload.display ++ ")"

end Token

end Formula
