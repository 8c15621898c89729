import Formula.Number.Reading

/-!
# Numbers in JSON documents

A numeral is read off the text by its grammar (`Numeral.read?`) and then valued (`Numeral.value?`).
Digits are collected as long as they fit a word of 64 bits. Further digits before the point only
count as places, and further digits after it are passed over. The collected number is rounded to a
double, and multiplied or divided by the power of ten that is due.
-/

namespace Formula.Json

/-- The parts of a numeral. -/
structure Numeral where
  negative : Bool
  whole : List Char
  fraction : List Char
  exponent? : Option Int
deriving DecidableEq, Repr

namespace Numeral

/-- The digits after a point, if one stands at the head; a point needs a digit after it. -/
def readFraction? : List Char → Option (List Char × List Char)
  | '.' :: rest =>
    let digits := rest.takeWhile Char.isDigit
    if digits.isEmpty then none else some (digits, rest.dropWhile Char.isDigit)
  | rest => some ([], rest)

/-- The exponent, if a marker stands at the head; a marker needs a digit after its sign. -/
def readExponent? : List Char → Option (Option Int × List Char)
  | [] => some (none, [])
  | marker :: rest =>
    if marker = 'e' ∨ marker = 'E' then
      let (negative, rest) := match rest with
        | '-' :: more => (true, more)
        | '+' :: more => (false, more)
        | more => (false, more)
      let digits := rest.takeWhile Char.isDigit
      if digits.isEmpty then none
      else
        let n : Int := Number.ofDigits digits
        some (some (if negative then -n else n), rest.dropWhile Char.isDigit)
    else some (none, marker :: rest)

/-- The digits before the point; a zero stands alone. -/
def readWhole? (text : List Char) : Option (List Char × List Char) :=
  let digits := text.takeWhile Char.isDigit
  match digits with
  | [] => none
  | ['0'] => some (digits, text.dropWhile Char.isDigit)
  | '0' :: _ => none
  | _ => some (digits, text.dropWhile Char.isDigit)

/-- The numeral at the head of a text. -/
def read? (text : List Char) : Option (Numeral × List Char) := do
  let (negative, text) := match text with
    | '-' :: rest => (true, rest)
    | rest => (false, rest)
  let (whole, text) ← readWhole? text
  let (fraction, text) ← readFraction? text
  let (exponent?, text) ← readExponent? text
  return ({ negative, whole, fraction, exponent? }, text)

/-- The greatest number that is collected from digits. -/
def wordLimit : Nat := Nat.pow 2 64 - 1

/-- Collects digits behind those of `n` while they fit, and counts the ones left over. -/
def collect (n : Nat) : List Char → Nat × Nat
  | [] => (n, 0)
  | d :: rest =>
    let m := 10 * n + Number.digitValue d
    if m ≤ wordLimit then collect m rest else (n, rest.length + 1)

/-- A power of ten as a double. -/
def tenTo (n : Nat) : Float := Float.ofScientific 1 false n

/-- Divides by `10 ^ n` in steps that doubles have. -/
def divideByTens (x : Float) (n : Nat) : Float :=
  if n ≤ 308 then x / tenTo n
  else if x == 0 then x
  else divideByTens (x / tenTo 308) (n - 308)
termination_by n

/-- The double for `n · 10 ^ exponent`, unless it is infinite. -/
def scale? (n : Nat) (exponent : Int) : Option Float :=
  let x := Float.ofNat n
  if exponent < 0 then some (divideByTens x exponent.natAbs)
  else if exponent ≤ 308 then
    let y := x * tenTo exponent.toNat
    if y.isInf then none else some y
  else if n = 0 then some x
  else none

/-- The magnitude of a numeral, unless it is out of range. -/
def magnitude? (n : Numeral) : Option Float :=
  let (word, places) := collect 0 n.whole
  if places = 0 ∧ n.fraction = [] ∧ n.exponent? = none then some (Float.ofNat word)
  else
    let (word, passed) := collect word n.fraction
    let exponent : Int := (places : Int) - (n.fraction.length - passed : Nat) + n.exponent?.getD 0
    scale? word exponent

/-- The value of a numeral, unless it is out of range. -/
def value? (n : Numeral) : Option Float :=
  n.magnitude?.map fun x => if n.negative then -x else x

end Numeral

end Formula.Json
