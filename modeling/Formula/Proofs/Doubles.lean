import Formula.Number.Binary
import Mathlib

/-!
# The parts of a double

Two descriptions of a double meet here: its fields in the 64 bits, which `Formula.Binary` reads, and
the form that the operations of doubles compute with. `Binary.fields` gives the fields for each form,
and `Binary.ofFloat_of_finite` the form for the parts of a finite number. `Binary.canonical_unpack`
says that a form has one mantissa and one exponent only.
-/

namespace Formula

open Float.Model (UnpackedFloat Format)
open Float.Model.UnpackedFloat (Sign unpackExponent unpackMantissa unpackSign)

namespace Binary

/-! ## Fields -/

section Fields

variable (x : Float)

/-- The exponent field is the one that a double is unpacked from. -/
theorem exponentField_eq : exponentField x = (@unpackExponent .binary64 x.toBits.toBitVec).toNat := by
  rw [Float.Model.UnpackedFloat.unpackExponent_def, BitVec.extractLsb'_toNat, Nat.shiftRight_eq_div_pow]
  rfl

/-- The fraction field is the one that a double is unpacked from. -/
theorem fractionField_eq : fractionField x = (@unpackMantissa .binary64 x.toBits.toBitVec).toNat := by
  rw [Float.Model.UnpackedFloat.unpackMantissa_def, BitVec.extractLsb'_toNat, Nat.shiftRight_zero]
  rfl

/-- The sign bit is the one that a double is unpacked from. -/
theorem signBit_eq :
    signBit x = (Sign.ofBitVec (@unpackSign .binary64 x.toBits.toBitVec) == .negative) := by
  have hs : (@unpackSign .binary64 x.toBits.toBitVec).toNat = x.toBits.toNat / Nat.pow 2 63 % 2 := by
    rw [Float.Model.UnpackedFloat.unpackSign_def, BitVec.extractLsb'_toNat, Nat.shiftRight_eq_div_pow]
    rfl
  rw [signBit, ← hs]
  generalize @unpackSign .binary64 x.toBits.toBitVec = b
  revert b
  decide

end Fields

/-- The fields of a double of each form. -/
inductive Fields (x : Float) : UnpackedFloat → Prop
  | notANumber : x.toBits = 0x7ff8000000000000 → Fields x .notANumber
  | infinity {s : Sign} : signBit x = (s == .negative) → exponentField x = 2047 → fractionField x = 0 →
      Fields x (.infinity s)
  | zero {s : Sign} : signBit x = (s == .negative) → exponentField x = 0 → fractionField x = 0 →
      Fields x (.zero s)
  | subnormal {s : Sign} {m : Nat} {h : 0 < m} : signBit x = (s == .negative) → exponentField x = 0 →
      fractionField x = m → Fields x (.finite s m (-1074) h)
  | normal {s : Sign} {m : Nat} {e : Int} {h : 0 < m} : signBit x = (s == .negative) → 0 < exponentField x →
      exponentField x < 2047 → fractionField x + Nat.pow 2 52 = m → (exponentField x : Int) - 1075 = e →
      Fields x (.finite s m e h)

/-- A double has the fields of the form that its bits are unpacked to. -/
theorem fields (x : Float) : Fields x x.toModel.unpack := by
  have he := exponentField_eq x
  have hm := fractionField_eq x
  have hs := signBit_eq x
  have hbound : exponentField x < 2 ^ 11 := Nat.mod_lt _ (by decide)
  have hvalid : Format.binary64.Valid x.toBits.toBitVec := x.toModel.valid
  have hnan := Float.Model.UnpackedFloat.unpack_eq_notANumber_iff_of_valid hvalid
  show Fields x (UnpackedFloat.unpack .binary64 x.toBits.toBitVec)
  generalize hu : UnpackedFloat.unpack .binary64 x.toBits.toBitVec = u at hnan
  rw [UnpackedFloat.unpack] at hu
  split at hu
  · next hinf =>
    split at hu
    · next hzero =>
      subst hu
      exact .infinity hs (by rw [he, hinf]; rfl) (by rw [hm, hzero]; rfl)
    · subst hu
      refine .notANumber (UInt64.toBitVec_inj.1 (hnan.1 rfl))
  · next hinf =>
    split at hu
    · next hexp =>
      split at hu
      · next hzero =>
        subst hu
        exact .zero hs (by rw [he, hexp]; rfl) (by rw [hm, hzero]; rfl)
      · next hzero =>
        have hexp0 : exponentField x = 0 := by rw [he, hexp]; rfl
        have hlast : ((@unpackExponent .binary64 x.toBits.toBitVec).toNat : Int) -
            (Format.binary64.exponentBias + Format.binary64.mantissaBitsWithoutImplicit) + 1 = -1074 := by
          rw [← he, hexp0]
          rfl
        rw [hlast] at hu
        subst hu
        exact .subnormal hs hexp0 hm
    · next hexp =>
      have hpos : exponentField x ≠ 0 := fun h => hexp (BitVec.eq_of_toNat_eq (by rw [← he, h]; rfl))
      have hne : exponentField x ≠ 2047 := fun h => hinf (BitVec.eq_of_toNat_eq (by rw [← he, h]; rfl))
      have hmantissa : fractionField x + Nat.pow 2 52 =
          (1#1 ++ @unpackMantissa .binary64 x.toBits.toBitVec).toNat := by
        rw [hm, BitVec.toNat_append, ← Nat.shiftLeft_add_eq_or_of_lt (BitVec.isLt _), Nat.add_comm]
        rfl
      subst hu
      refine .normal hs (Nat.pos_of_ne_zero hpos) (by omega) hmantissa ?_
      rw [← he]
      rfl

/-! ## Parts -/

/-- The sign, the mantissa and the exponent of a finite number. -/
theorem ofFloat_of_finite {x : Float} {s : Sign} {m : Nat} {e : Int} {h : 0 < m}
    (hx : x.toModel.unpack = .finite s m e h) : ofFloat x = ⟨s == .negative, m, e⟩ := by
  have hf := fields x
  rw [hx] at hf
  cases hf with
  | subnormal hs he hm => rw [ofFloat, if_pos he, hs, hm]
  | normal hs hpos _ hm he =>
    rw [ofFloat, if_neg (Nat.ne_of_gt hpos), hs, hm, ← he]

/-- A zero has no mantissa. -/
theorem ofFloat_of_zero {x : Float} {s : Sign} (hx : x.toModel.unpack = .zero s) :
    ofFloat x = ⟨s == .negative, 0, -1074⟩ := by
  have hf := fields x
  rw [hx] at hf
  cases hf with
  | zero hs he hm => rw [ofFloat, if_pos he, hs, hm]

/-- A form whose mantissa has 53 bits, and fewer only at the least exponent. -/
def Canonical : UnpackedFloat → Prop
  | .finite _ m e _ => m < 2 ^ 53 ∧ -1074 ≤ e ∧ e ≤ 971 ∧ (e = -1074 ∨ 2 ^ 52 ≤ m)
  | _ => True

/-- The form of a double is the only one of its value. -/
theorem canonical_unpack (x : Float) : Canonical x.toModel.unpack := by
  have hbound : fractionField x < 2 ^ 52 := Nat.mod_lt _ (by decide)
  have hf := fields x
  generalize x.toModel.unpack = u at hf
  cases hf with
  | notANumber | infinity | zero => trivial
  | subnormal hs he hm =>
    refine ⟨?_, ?_, ?_, ?_⟩ <;> omega
  | normal hs hpos hlt hm he =>
    change fractionField x + 2 ^ 52 = _ at hm
    refine ⟨?_, ?_, ?_, ?_⟩ <;> omega

end Binary

end Formula
