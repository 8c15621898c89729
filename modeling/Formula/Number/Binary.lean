/-!
# Doubles as a sign, a mantissa and a power of two

A finite double is `± mantissa · 2 ^ exponent`. This module reads that form off the bits
(`Binary.ofFloat`), writes it back (`Binary.toFloat`), and defines on it, in exact integer
arithmetic, the operations that cut a number to an integer (`truncate`, `floor`, `ceiling`), the
remainder of a division (`remainder`) and the total order of doubles, on their bits (`rank`).
-/

namespace Formula

/-- A finite double: `mantissa · 2 ^ exponent`, negated when `negative`. -/
structure Binary where
  negative : Bool
  mantissa : Nat
  exponent : Int
deriving DecidableEq, Repr

namespace Binary

/-- The biased exponent field of a double. -/
def exponentField (x : Float) : Nat := x.toBits.toNat / Nat.pow 2 52 % Nat.pow 2 11

/-- The fraction field of a double. -/
def fractionField (x : Float) : Nat := x.toBits.toNat % Nat.pow 2 52

/-- Whether the sign bit of a double is set. -/
def signBit (x : Float) : Bool := x.toBits.toNat / Nat.pow 2 63 % 2 == 1

/-- The parts of a finite double; a normal number has a hidden leading one. -/
def ofFloat (x : Float) : Binary :=
  let field := exponentField x
  if field = 0 then
    { negative := signBit x, mantissa := fractionField x, exponent := -1074 }
  else
    { negative := signBit x
      mantissa := fractionField x + Nat.pow 2 52
      exponent := (field : Int) - 1075 }

/-- The bits of the magnitude `mantissa · 2 ^ exponent`, for one that a finite double holds. -/
def magnitudeBits (mantissa : Nat) (exponent : Int) : Nat :=
  if mantissa = 0 then 0
  else
    -- the exponent of the last place that the double of this magnitude has
    let last := max (exponent + mantissa.log2 - 52) (-1074)
    let shift := exponent - last
    let whole := if shift < 0 then mantissa >>> (-shift).toNat else mantissa <<< shift.toNat
    if whole < Nat.pow 2 52 then whole
    else (last + 1075).toNat * Nat.pow 2 52 + (whole - Nat.pow 2 52)

/-- The double with these parts, for parts that a finite double holds. -/
def toFloat (b : Binary) : Float :=
  let sign := if b.negative then Nat.pow 2 63 else 0
  Float.ofBits (UInt64.ofNat (sign + magnitudeBits b.mantissa b.exponent))

/-- The integer part of the magnitude. -/
def whole (b : Binary) : Nat :=
  if b.exponent < 0 then b.mantissa >>> (-b.exponent).toNat else b.mantissa <<< b.exponent.toNat

/-- Whether the number is an integer. -/
def isWhole (b : Binary) : Bool :=
  b.exponent ≥ 0 || b.mantissa % Nat.pow 2 (-b.exponent).toNat == 0

end Binary

namespace Number

/-- The double `± n`, with the sign kept on zero. -/
def signed (negative : Bool) (n : Nat) : Float := Binary.toFloat ⟨negative, n, 0⟩

/-- Applies a rule for finite numbers that are no integers; all others are left as they are. -/
def cut (rule : Binary → Nat) (x : Float) : Float :=
  if x.isFinite then
    let b := Binary.ofFloat x
    if b.isWhole then x else signed b.negative (rule b)
  else x

/-- The next integer toward zero. -/
def truncate : Float → Float := cut Binary.whole

/-- The next integer below. -/
def floor : Float → Float := cut fun b => if b.negative then b.whole + 1 else b.whole

/-- The next integer above. -/
def ceiling : Float → Float := cut fun b => if b.negative then b.whole else b.whole + 1

/-- Whether a double is a finite integer. -/
def isInteger (x : Float) : Bool := x.isFinite && (Binary.ofFloat x).isWhole

/-- What is left of `x` after taking away the divisor as often as it fits, with the sign of `x`. -/
def remainder (x y : Float) : Float :=
  if !x.isFinite || y.isNaN || y == 0 then 0.0 / 0.0
  else if !y.isFinite then x
  else
    let a := Binary.ofFloat x
    let b := Binary.ofFloat y
    let common := min a.exponent b.exponent
    let dividend := a.mantissa <<< (a.exponent - common).toNat
    let divisor := b.mantissa <<< (b.exponent - common).toNat
    Binary.toFloat ⟨a.negative, dividend % divisor, common⟩

/-- The place in the total order of the double with these bits: those behind the sign bit, counted down where it is
set. -/
def rank (bits : Nat) : Int :=
  let magnitude : Int := Int.ofNat (bits % Nat.pow 2 63)
  if bits / Nat.pow 2 63 % 2 == 1 then -magnitude - 1 else magnitude

/-- The integer part of a number, clamped to `[0, limit]`; that of `NaN` is 0. -/
def wholeUpTo (limit : Nat) (x : Float) : Nat :=
  if x.isNaN || x ≤ 0 then 0
  else if x.isFinite then min limit (Binary.ofFloat x).whole
  else limit

end Number

end Formula
