import Formula.Number.Binary

/-!
# Doubles with all their bits

`Float` has one `NaN`. A double has one for each sign and for each fraction that is not zero, and the total order of
doubles tells them apart (`Double.rank`).

An operation that gets a `NaN` hands it on, the first of two, with the leading bit of the fraction set; one that has no
result for the numbers it gets yields `NaN.indefinite`. That is how the processors of the x86-64 family compute; other
processors choose other signs. Negation and the absolute value only touch the sign bit.
-/

namespace Formula

/-- The bits of a double that is no number: its sign bit and its fraction, which is not zero. -/
structure NaN where
  negative : Bool
  fraction : Nat
  fraction_pos : 0 < fraction
  fraction_lt : fraction < Nat.pow 2 52
deriving DecidableEq, Repr

namespace NaN

/-- The one that a text denotes. -/
def positive : NaN := ⟨false, Nat.pow 2 51, by decide, by decide⟩

/-- The result of an operation that has none for its operands. -/
def indefinite : NaN := ⟨true, Nat.pow 2 51, by decide, by decide⟩

/-- The same with the leading bit of the fraction set. -/
def quiet (n : NaN) : NaN :=
  if h : n.fraction < Nat.pow 2 51 then
    { n with
      fraction := n.fraction + Nat.pow 2 51
      fraction_pos := Nat.add_pos_left n.fraction_pos _
      fraction_lt := Nat.add_lt_add_right h (Nat.pow 2 51) }
  else n

/-- The bits as a number. -/
def bits (n : NaN) : Nat :=
  (if n.negative then Nat.pow 2 63 else 0) + (0x7ff * Nat.pow 2 52 + n.fraction)

end NaN

/-- A double: a number, an infinity, or one of those that are neither. -/
inductive Double
  | number (x : Float) (h : x.isNaN = false)
  | nan (n : NaN)
deriving DecidableEq

namespace Double

/-- The double without the bits of a `NaN`. -/
def toFloat : Double → Float
  | number x _ => x
  | nan _ => 0.0 / 0.0

/-- The double for a result, with the bits that it has where it is no number. -/
def result (n : NaN) (x : Float) : Double := if h : x.isNaN = false then number x h else nan n

/-- The double for a result of an operation on numbers. -/
def ofFloat (x : Float) : Double := result .indefinite x

/-- The double of a natural number. -/
def ofNat (n : Nat) : Double := ofFloat (Float.ofNat n)

/-- An operation on one double. -/
def lift (f : Float → Float) (x : Double) : Double :=
  let n := match x with
    | nan n => n.quiet
    | number _ _ => .indefinite
  result n (f x.toFloat)

/-- An operation on two doubles. -/
def lift₂ (f : Float → Float → Float) (x y : Double) : Double :=
  let n := match x, y with
    | nan n, _ => n.quiet
    | number _ _, nan n => n.quiet
    | number _ _, number _ _ => .indefinite
  result n (f x.toFloat y.toFloat)

/-- The opposite number. -/
def neg : Double → Double
  | number x _ => ofFloat (-x)
  | nan n => nan { n with negative := !n.negative }

/-- The absolute value. -/
def abs : Double → Double
  | number x _ => ofFloat x.abs
  | nan n => nan { n with negative := false }

instance {n : Nat} : OfNat Double n := ⟨ofFloat (OfNat.ofNat n)⟩
instance : OfScientific Double := ⟨fun m s e => ofFloat (OfScientific.ofScientific m s e)⟩
instance : Inhabited Double := ⟨0⟩
instance : Neg Double := ⟨neg⟩
instance : Add Double := ⟨lift₂ (· + ·)⟩
instance : Sub Double := ⟨lift₂ (· - ·)⟩
instance : Mul Double := ⟨lift₂ (· * ·)⟩
instance : Div Double := ⟨lift₂ (· / ·)⟩

/-! Comparisons are those of the numbers, and none holds of a `NaN`. -/

instance : LT Double := ⟨fun x y => x.toFloat < y.toFloat⟩
instance : LE Double := ⟨fun x y => x.toFloat ≤ y.toFloat⟩
instance : BEq Double := ⟨fun x y => x.toFloat == y.toFloat⟩
instance (x y : Double) : Decidable (x < y) := inferInstanceAs (Decidable (x.toFloat < y.toFloat))
instance (x y : Double) : Decidable (x ≤ y) := inferInstanceAs (Decidable (x.toFloat ≤ y.toFloat))

/-- Whether a double is no number. -/
def isNaN : Double → Bool
  | number _ _ => false
  | nan _ => true

/-- Whether a double is neither infinite nor a `NaN`. -/
def isFinite (x : Double) : Bool := x.toFloat.isFinite

/-- Whether a double is infinite. -/
def isInf (x : Double) : Bool := x.toFloat.isInf

/-- The next integer toward zero. -/
def truncate : Double → Double := lift Number.truncate

/-- The next integer below. -/
def floor : Double → Double := lift Number.floor

/-- The next integer above. -/
def ceiling : Double → Double := lift Number.ceiling

/-- What is left of a division, with the sign of the dividend. -/
def remainder : Double → Double → Double := lift₂ Number.remainder

/-- The power of a double. -/
def pow : Double → Double → Double := lift₂ Float.pow

/-- The 64 bits. -/
def bits : Double → Nat
  | number x _ => x.toBits.toNat
  | nan n => n.bits

/-- The place of a double in the total order: the bits behind the sign bit count up, and down where that bit is set. -/
def rank (x : Double) : Int := Number.rank x.bits

end Double

end Formula
