import Formula.Number.Shortest

/-!
# The written forms of numbers

A number is written with the fewest digits that read back (`Formula.Shortest`); a `Layout` says how
those digits are laid out. The library has three layouts: `plain` in messages and results, `exact`
in the rendering of trees, and `wire` in JSON.
-/

namespace Formula.Number

/-- How the digits of a finite number are laid out. -/
structure Layout where
  /-- The least exponent of the leading digit that is written positionally, if there is a bound. -/
  least? : Option Int
  /-- The greatest such exponent, if there is a bound. -/
  most? : Option Int
  /-- Whether an integer written positionally ends in `.0`. -/
  keepPoint : Bool
  /-- Whether a positive exponent has a sign. -/
  plusSign : Bool
  /-- Which of two shortest forms that are equally near is taken. -/
  tie : Tie
deriving DecidableEq, Repr

/-- Messages and results: digits only, never an exponent. -/
def plain : Layout := ⟨none, none, false, false, .up⟩

/-- Trees: a point in every number, and an exponent outside `[10 ^ -4, 10 ^ 16)`. -/
def exact : Layout := ⟨some (-4), some 15, true, false, .up⟩

/-- JSON: a point in every number, and a signed exponent outside `[10 ^ -5, 10 ^ 16)`. -/
def wire : Layout := ⟨some (-5), some 15, true, true, .toEven⟩

namespace Layout

/-- Whether a number whose leading digit has the exponent `e` is written positionally. -/
def positional (l : Layout) (e : Int) : Bool :=
  l.least?.all (· ≤ e) && l.most?.all (e ≤ ·)

/-- Digits before a point that stands `exponent` places from their end, and digits after it. -/
def splitPoint (digits : List Char) (exponent : Int) : List Char × List Char :=
  if exponent ≥ 0 then (digits ++ List.replicate exponent.toNat '0', [])
  else
    let places := (-exponent).toNat
    if digits.length > places then digits.splitAt (digits.length - places)
    else (['0'], List.replicate (places - digits.length) '0' ++ digits)

/-- The positional form of a decimal. -/
def writePositional (l : Layout) (digits : List Char) (exponent : Int) : String :=
  match splitPoint digits exponent with
  | (whole, []) => String.ofList whole ++ (if l.keepPoint then ".0" else "")
  | (whole, fraction) => String.ofList whole ++ "." ++ String.ofList fraction

/-- The form with one digit before the point and an exponent. -/
def writeScientific (l : Layout) (digits : List Char) (e : Int) : String :=
  let mantissa := match digits with
    | [] => ""
    | [d] => String.ofList [d]
    | d :: rest => String.ofList [d] ++ "." ++ String.ofList rest
  let sign := if e < 0 then "-" else if l.plusSign then "+" else ""
  mantissa ++ "e" ++ sign ++ toString e.natAbs

/-- The written form of a magnitude. -/
def writeDecimal (l : Layout) (d : Decimal) : String :=
  let digits := Nat.toDigits 10 d.digits
  let lead := d.exponent + digits.length - 1
  if d.digits = 0 || l.positional lead then l.writePositional digits d.exponent
  else l.writeScientific digits lead

/-- The written form of a number; `NaN` has no sign. -/
def write (l : Layout) (x : Float) : String :=
  if x.isNaN then "NaN"
  else
    let sign := if Binary.signBit x then "-" else ""
    if x.isFinite then sign ++ l.writeDecimal (Shortest.digits l.tie x)
    else sign ++ "inf"

end Layout

/-! ## The layouts at their bounds -/

example : plain.write 1e21 = "1000000000000000000000" := by decide +kernel
example : plain.write (0.1 + 0.2) = "0.30000000000000004" := by decide +kernel
example : plain.write (-0.0) = "-0" := by decide +kernel
example : exact.write 1e15 = "1000000000000000.0" := by decide +kernel
example : exact.write 1e16 = "1e16" := by decide +kernel
example : exact.write 0.00012 = "0.00012" := by decide +kernel
example : exact.write 0.000012 = "1.2e-5" := by decide +kernel
example : wire.write 0.000012 = "0.000012" := by decide +kernel
example : wire.write 1e16 = "1e+16" := by decide +kernel
example : wire.write 5e-324 = "5e-324" := by decide +kernel

end Formula.Number
