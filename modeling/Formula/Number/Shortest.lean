import Formula.Number.Binary

/-!
# The fewest digits that read back

The reals that round to a double form an interval around it. `Shortest.digits` finds the decimal
with the fewest digits in that interval, and of those the nearest to the double, by testing for
each count of digits the two neighbours of the double on that decimal grid.

All arithmetic is on natural numbers over one denominator (`Interval`).
-/

namespace Formula

/-- `digits · 10 ^ exponent`. -/
structure Decimal where
  digits : Nat
  exponent : Int
deriving DecidableEq, Repr

/-- Which of two equally near neighbours is taken. -/
inductive Tie
  | up
  | toEven
deriving DecidableEq, Repr

namespace Shortest

/-- A positive number with the numbers that round to it, as numerators over one denominator. The
ends belong to the interval when it is `closed`. -/
structure Interval where
  low : Nat
  value : Nat
  high : Nat
  denominator : Nat
  closed : Bool
deriving DecidableEq, Repr

/-- The interval of a positive finite double: half a place to each side, and a quarter below the
first number of a binade. -/
def Interval.ofBinary (b : Binary) : Interval :=
  let quarter := b.exponent - 2
  let scale := Nat.pow 2 quarter.toNat
  let below := if b.mantissa = Nat.pow 2 52 ∧ b.exponent > -1074 then 1 else 2
  { low := (4 * b.mantissa - below) * scale
    value := 4 * b.mantissa * scale
    high := (4 * b.mantissa + 2) * scale
    denominator := Nat.pow 2 (-quarter).toNat
    closed := b.mantissa % 2 == 0 }

/-- Multiplies the numbers of an interval by `10 ^ places`. -/
def Interval.shift (i : Interval) (places : Int) : Interval :=
  let up := Nat.pow 10 places.toNat
  { i with
    low := i.low * up
    value := i.value * up
    high := i.high * up
    denominator := i.denominator * Nat.pow 10 (-places).toNat }

/-- Whether the integer `n` lies in the interval. -/
def Interval.holds (i : Interval) (n : Nat) : Bool :=
  let point := n * i.denominator
  if i.closed then i.low ≤ point && point ≤ i.high else i.low < point && point < i.high

/-- The integer of the interval nearest to its value, if one of the value's two neighbours is in
the interval. -/
def Interval.nearest? (i : Interval) (tie : Tie) : Option Nat :=
  let below := i.value / i.denominator
  let rest := i.value % i.denominator
  match i.holds below, i.holds (below + 1) with
  | false, false => none
  | true, false => some below
  | false, true => some (below + 1)
  | true, true =>
    match compare (2 * rest) i.denominator with
    | .lt => some below
    | .gt => some (below + 1)
    | .eq => match tie with
      | .up => some (below + 1)
      | .toEven => some (if below % 2 = 0 then below else below + 1)

/-- The number of decimal digits of `n`, and 0 for 0. -/
def digitCount (n : Nat) : Nat := if n = 0 then 0 else (Nat.toDigits 10 n).length

/-- The least `k` with `value < 10 ^ k`; every positive double is at least `10 ^ -400`. -/
def Interval.magnitude (i : Interval) : Int :=
  (digitCount (i.value * Nat.pow 10 400 / i.denominator) : Int) - 400

/-- Takes the zeros at the end of the digits into the exponent. -/
def stripZeros : Nat → Decimal → Decimal
  | 0, d => d
  | fuel + 1, d =>
    if d.digits ≠ 0 ∧ d.digits % 10 = 0 then
      stripZeros fuel { digits := d.digits / 10, exponent := d.exponent + 1 }
    else d

/-- The first hit among the grids of `count`, `count + 1`, … digits, for `tries` grids. -/
def search (i : Interval) (tie : Tie) (magnitude : Int) : (tries count : Nat) → Decimal
  | 0, _ => { digits := 0, exponent := 0 }
  | tries + 1, count =>
    let places := (count : Int) - magnitude
    match (i.shift places).nearest? tie with
    | some n => stripZeros 20 { digits := n, exponent := -places }
    | none => search i tie magnitude tries (count + 1)

/-- The decimal with the fewest digits that reads back as the finite double `x`, without its sign;
17 digits always suffice. -/
def digits (tie : Tie) (x : Float) : Decimal :=
  let b := Binary.ofFloat x
  if b.mantissa = 0 then { digits := 0, exponent := 0 }
  else
    let i := Interval.ofBinary b
    search i tie i.magnitude 17 1

end Shortest

end Formula
