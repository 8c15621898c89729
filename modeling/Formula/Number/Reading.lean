import Formula.Number.Double

/-!
# Reading decimal text

`Number.read?` accepts an optional sign followed by `inf`, `infinity` or `nan` in any case, or by a
decimal literal: digits with at most one point among them and at least one digit, and an optional
exponent. The result is the nearest double. `Number.Misread` says why a text was refused.
-/

namespace Formula.Number

/-- Why a text is no number. -/
inductive Misread
  | empty
  | malformed
deriving DecidableEq, Repr

/-- The wording of a refusal. -/
def Misread.message : Misread → String
  | .empty => "cannot parse float from empty string"
  | .malformed => "invalid float literal"

/-- The value of a digit. -/
def digitValue (c : Char) : Nat := c.toNat - '0'.toNat

/-- The natural number that a run of digits writes. -/
def ofDigits (digits : List Char) : Nat := digits.foldl (fun n c => 10 * n + digitValue c) 0

/-- The double nearest to `digits · 10 ^ exponent`. Exponents so far out that the result is zero or
infinite whatever the digits are answered directly. -/
def nearest (digits : Nat) (exponent : Int) : Float :=
  let lead := exponent + digits.log2 / 3
  if digits = 0 || lead < -400 then 0.0
  else if exponent > 400 then 1.0 / 0.0
  else if exponent < 0 then Float.ofScientific digits true exponent.natAbs
  else Float.ofScientific digits false exponent.natAbs

/-- An exponent part: nothing, or a marker, an optional sign and at least one digit. -/
def readExponent? : List Char → Option Int
  | [] => some 0
  | marker :: rest =>
    if marker = 'e' ∨ marker = 'E' then
      let (negative, digits) := match rest with
        | '-' :: digits => (true, digits)
        | '+' :: digits => (false, digits)
        | digits => (false, digits)
      if digits ≠ [] ∧ digits.all Char.isDigit then
        let n : Int := ofDigits digits
        some (if negative then -n else n)
      else none
    else none

/-- The digits after a point, if one stands at the head, and what follows them. -/
def splitFraction : List Char → List Char × List Char
  | '.' :: rest => (rest.takeWhile Char.isDigit, rest.dropWhile Char.isDigit)
  | rest => ([], rest)

/-- An unsigned decimal literal. -/
def readDecimal? (text : List Char) : Option Float :=
  let whole := text.takeWhile Char.isDigit
  let (fraction, rest) := splitFraction (text.dropWhile Char.isDigit)
  if whole = [] ∧ fraction = [] then none
  else
    match readExponent? rest with
    | none => none
    | some e => some (nearest (ofDigits (whole ++ fraction)) (e - fraction.length))

/-- An unsigned number: a literal or one of the named values. -/
def readMagnitude? (text : List Char) : Option Double :=
  let word := text.map Char.toLower
  if word = ['i', 'n', 'f'] ∨ word = ['i', 'n', 'f', 'i', 'n', 'i', 't', 'y'] then some (1.0 / 0.0)
  else if word = ['n', 'a', 'n'] then some (.nan .positive)
  else (readDecimal? text).map .ofFloat

/-- A number with an optional sign. -/
def readSigned? : List Char → Option Double
  | '-' :: rest => (readMagnitude? rest).map (- ·)
  | '+' :: rest => readMagnitude? rest
  | text => readMagnitude? text

/-- The number that the whole text writes. -/
def read (text : String) : Except Misread Double :=
  match text.toList with
  | [] => .error .empty
  | chars => match readSigned? chars with
    | some x => .ok x
    | none => .error .malformed

example : (read "1.5e3").toOption = some 1500 := by decide +kernel
example : (read "+.5").toOption = some 0.5 := by decide +kernel
example : (read "-Infinity").toOption = some (-1.0 / 0.0) := by decide +kernel
example : read "." = .error .malformed := rfl
example : read "" = .error .empty := rfl

end Formula.Number
