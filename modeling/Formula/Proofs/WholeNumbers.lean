import Formula.Proofs.TotalOrder

/-!
# Integers as doubles

A double that is an integer (`Number.Denotes`) is compared with zero and cut to an index as the integer is
(`Number.Denotes.lt_zero`, `Number.Denotes.wholeUpTo`). Integers up to `2 ^ 53` in magnitude are doubles exactly: a
natural number is converted to itself (`Number.denotes_ofNat`), and a sum is the sum of the integers
(`Number.Denotes.add`).

Both come down to rounding. A number that has a mantissa of 53 bits is the result of rounding any form of it
(`Binary.round_exact`), since the digits that are shifted out are zeros only, and it is read back from its bits
(`Binary.Normal.unpack_pack`).
-/

namespace Formula

open Float.Model (UnpackedFloat Format totalExponent)
open Float.Model.UnpackedFloat (Sign ExtendedMantissa packComponents decreaseExponent shiftToExponent
  shiftToTargetExponent roundWithAccuracy)

namespace Binary

/-! ## Mantissas of 53 bits -/

/-- A finite form with a mantissa of 53 bits and an exponent that a double has. -/
structure Normal (m : Nat) (e : Int) : Prop where
  log2 : m.log2 = 52
  least : -1074 ≤ e
  greatest : e ≤ 971

namespace Normal

variable {m : Nat} {e : Int}

theorem bounds (h : Normal m e) : 0x10000000000000 ≤ m ∧ m < 0x20000000000000 := by
  have hne : m ≠ 0 := by
    rintro rfl
    exact absurd h.log2 (by decide)
  exact (Nat.log2_eq_iff hne).1 h.log2

theorem pos (h : Normal m e) : 0 < m := by
  have := h.bounds
  omega

theorem targetExponent (h : Normal m e) : Format.binary64.targetExponent (totalExponent m e) = e := by
  have := h.least
  rw [Format.targetExponent, totalExponent, h.log2]
  change max (52 + 1 + e - 53) (-1074) = e
  omega

/-- A mantissa of full length is read back from its bits. -/
theorem unpack_pack (h : Normal m e) (s : Sign) :
    UnpackedFloat.unpack .binary64 (UnpackedFloat.pack .binary64 (.finite s m e h.pos)) = .finite s m e h.pos := by
  obtain ⟨hlow, hhigh⟩ := h.bounds
  obtain ⟨hlog, hleast, hgreatest⟩ := h
  have hbiased : (e + Format.binary64.exponentBias + Format.binary64.mantissaBitsWithoutImplicit).toNat =
      (e + 1075).toNat := by
    change (e + 1023 + 52).toNat = _
    omega
  have hexponent : (BitVec.ofNat 11 (e + 1075).toNat).toNat = (e + 1075).toNat := by
    rw [BitVec.toNat_ofNat]
    omega
  have hmantissa : (1#1 ++ BitVec.ofNat 52 m).toNat = m := by
    rw [BitVec.toNat_append, ← Nat.shiftLeft_add_eq_or_of_lt (BitVec.isLt _), BitVec.toNat_ofNat]
    change 0x10000000000000 + m % 0x10000000000000 = m
    omega
  have hne : BitVec.ofNat 11 (e + 1075).toNat ≠ -1#11 := by
    intro heq
    rw [← BitVec.toNat_inj, hexponent] at heq
    change _ = 2047 at heq
    omega
  have hne0 : BitVec.ofNat 11 (e + 1075).toNat ≠ 0#11 := by
    intro heq
    rw [← BitVec.toNat_inj, hexponent] at heq
    change _ = 0 at heq
    omega
  have hpack : ∀ h, UnpackedFloat.pack .binary64 (.finite s m e h) =
      packComponents .binary64 s (BitVec.ofNat 11 (e + 1075).toNat) (BitVec.ofNat 52 m) := by
    intro h
    rw [UnpackedFloat.pack]
    simp only [hbiased]
    rw [if_neg (by change ¬ 2048 ≤ _; omega), if_pos (by rw [hlog]; rfl)]
  rw [hpack, UnpackedFloat.unpack]
  simp only [UnpackedFloat.unpackMantissa_packComponents, UnpackedFloat.unpackExponent_packComponents,
    UnpackedFloat.unpackSign_packComponents, Sign.ofBitVec_toBitVec]
  rw [if_neg hne, if_neg hne0]
  simp only [hmantissa, hexponent, UnpackedFloat.finite.injEq, true_and]
  change _ - (1023 + 52 : Int) = e
  omega

end Normal

/-! ## Rounding that changes nothing -/

/-- Only zeros are shifted out. -/
theorem shiftRight_exact (m j : Nat) : (ExtendedMantissa.mk (m * 2 ^ j) false false) >>> j = ⟨m, false, false⟩ := by
  induction j generalizing m with
  | zero =>
    rw [Nat.pow_zero, Nat.mul_one]
    rfl
  | succ j ih =>
    show ((ExtendedMantissa.mk (m * 2 ^ (j + 1)) false false) >>> j).shiftRightOne = _
    rw [Nat.pow_succ', ← Nat.mul_assoc, ih (m * 2), ExtendedMantissa.shiftRightOne]
    simp

theorem log2_mul_pow {m : Nat} (h : 0 < m) (j : Nat) : (m * 2 ^ j).log2 = m.log2 + j := by
  rw [Nat.log2_eq_iff (Nat.ne_of_gt (Nat.mul_pos h (Nat.two_pow_pos j)))]
  obtain ⟨hlow, hhigh⟩ := (Nat.log2_eq_iff (Nat.ne_of_gt h)).1 rfl
  constructor
  · rw [Nat.pow_add]
    exact Nat.mul_le_mul_right _ hlow
  · rw [Nat.add_right_comm, Nat.pow_add]
    exact Nat.mul_lt_mul_of_pos_right hhigh (Nat.two_pow_pos j)

/-- Zeros behind the mantissa do not change the place of its first digit. -/
theorem totalExponent_mul_pow {m : Nat} (h : 0 < m) (e : Int) (j : Nat) :
    totalExponent (m * 2 ^ j) (e - j) = totalExponent m e := by
  rw [totalExponent, totalExponent, log2_mul_pow h]
  omega

/-- Equal numbers with a smaller and a larger exponent. -/
theorem mul_pow_of_value {n m j : Nat} {e : Int} (h : (n : ℚ) * 2 ^ (e + (j : Int)) = m * 2 ^ e) : n * 2 ^ j = m := by
  have h2 : (2 : ℚ) ≠ 0 := by norm_num
  rw [zpow_add₀ h2, mul_comm ((2 : ℚ) ^ e), ← mul_assoc, zpow_natCast] at h
  exact_mod_cast mul_right_cancel₀ (zpow_ne_zero e h2) h

section Round

variable {s : Sign} {m : Nat} {e : Int}

theorem Normal.shiftToTargetExponent (h : Normal m e) (j : Nat) :
    shiftToTargetExponent .binary64 (m * 2 ^ j) (e - j) .exact = (⟨m, false, false⟩, e) := by
  have hj : (e - (e - (j : Int))).toNat = j := by omega
  rw [UnpackedFloat.shiftToTargetExponent, totalExponent_mul_pow h.pos, h.targetExponent, shiftToExponent]
  simp only [hj, ExtendedMantissa.ofMantissaAndAccuracy, shiftRight_exact]
  congr 1
  omega

theorem roundWithAccuracy_exact (h : Normal m e) (j : Nat) :
    roundWithAccuracy .binary64 s (m * 2 ^ j) (e - j) .exact = .finite s m e h.pos := by
  have hagain := h.shiftToTargetExponent 0
  rw [Nat.pow_zero, Nat.mul_one, Nat.cast_zero, Int.sub_zero] at hagain
  rw [roundWithAccuracy, h.shiftToTargetExponent]
  simp only [ExtendedMantissa.roundedMantissa, ExtendedMantissa.accuracy,
    UnpackedFloat.Accuracy.roundToNearestEven, hagain]
  rw [dif_neg (Nat.ne_of_gt h.pos)]

/-- A number that has a mantissa of 53 bits is not changed by rounding, in whatever form it is given. -/
theorem round_exact {n : Nat} {a : Int} (h : Normal m e) (hvalue : (n : ℚ) * 2 ^ a = m * 2 ^ e) :
    UnpackedFloat.round .binary64 s n a = .finite s m e h.pos := by
  rcases Int.le_total e a with hle | hle
  · -- the exponent is lowered first
    obtain ⟨j, rfl⟩ := Int.le.dest hle
    have hn : n * 2 ^ j = m := mul_pow_of_value hvalue
    have hpos : 0 < n := by
      refine Nat.pos_of_ne_zero fun h0 => ?_
      rw [h0, Nat.zero_mul] at hn
      exact absurd h.pos (hn ▸ Nat.lt_irrefl 0)
    have htotal : totalExponent n (e + j) = totalExponent m e := by
      rw [← hn, ← totalExponent_mul_pow hpos (e + j) j, Int.add_sub_cancel]
    have hj : (e + (j : Int) - e).toNat = j := by omega
    have hround := roundWithAccuracy_exact (s := s) h 0
    rw [Nat.pow_zero, Nat.mul_one, Nat.cast_zero, Int.sub_zero] at hround
    rw [UnpackedFloat.round, htotal, h.targetExponent]
    simp only [decreaseExponent, hj, Nat.shiftLeft_eq, hn, Int.add_sub_cancel, hround]
  · obtain ⟨j, rfl⟩ := Int.le.dest hle
    have hn : n = m * 2 ^ j := (mul_pow_of_value hvalue.symm).symm
    have htotal : totalExponent n a = totalExponent m (a + j) := by
      rw [hn, ← totalExponent_mul_pow h.pos (a + j) j, Int.add_sub_cancel]
    have hj : (a - (a + (j : Int))).toNat = 0 := by omega
    have hround := roundWithAccuracy_exact (s := s) h j
    rw [Int.add_sub_cancel, ← hn] at hround
    rw [UnpackedFloat.round, htotal, h.targetExponent]
    simp only [decreaseExponent, hj, Nat.shiftLeft_zero, Int.sub_zero, hround, Nat.cast_zero]

end Round

/-! ## Integers of at most 53 bits -/

/-- Natural numbers of at most 53 bits can be given a mantissa of exactly 53 bits. -/
theorem exists_normal {n : Nat} (h : 0 < n) (hn : n ≤ 0x20000000000000) :
    ∃ (m : Nat) (e : Int), Normal m e ∧ (n : ℚ) = m * 2 ^ e := by
  have hlog : n.log2 < 54 := (Nat.log2_lt (Nat.ne_of_gt h)).2 (by omega)
  rcases Nat.lt_or_ge 52 n.log2 with hlt | hle
  · have hmax : n = 0x20000000000000 := by
      have := (Nat.le_log2 (Nat.ne_of_gt h)).1 (Nat.succ_le_of_lt hlt)
      omega
    exact ⟨0x10000000000000, 1, ⟨by decide, by decide, by decide⟩, by rw [hmax]; norm_num⟩
  · obtain ⟨j, hj⟩ := Nat.le.dest hle
    refine ⟨n * 2 ^ j, -j, ⟨by rw [log2_mul_pow h, hj], by omega, by omega⟩, ?_⟩
    rw [zpow_neg, zpow_natCast]
    push_cast
    field_simp

/-- The number of this form is the integer. -/
def Represents : UnpackedFloat → Int → Prop
  | .zero _, k => k = 0
  | .finite s m e _, k => (s.apply m : ℚ) * 2 ^ e = k
  | _, _ => False

/-- The magnitude of a number that is an integer. -/
theorem abs_of_value {q : ℚ} {a k : Int} (h : q * 2 ^ a = k) : |q| * 2 ^ a = (k.natAbs : Nat) := by
  rw [Nat.cast_natAbs, Int.cast_abs, ← h, abs_mul, abs_of_pos (zpow_pos (by norm_num : (0 : ℚ) < 2) a)]

/-- An integer other than zero comes out of rounding as itself. -/
theorem normalize_exact {n a k : Int} (z : Sign) (hn : n ≠ 0) (hvalue : (n : ℚ) * 2 ^ a = k)
    (hk : k.natAbs ≤ 0x20000000000000) : ∃ s m e, ∃ h : Normal m e,
      UnpackedFloat.normalize .binary64 n a z = .finite s m e h.pos ∧ Represents (.finite s m e h.pos) k := by
  have h2 : (0 : ℚ) < 2 ^ a := zpow_pos (by norm_num) a
  have hmagnitude : ((n.natAbs : Nat) : ℚ) * 2 ^ a = (k.natAbs : Nat) := by
    rw [Nat.cast_natAbs, Int.cast_abs, abs_of_value hvalue]
  have hpos : 0 < k.natAbs := by
    have hprod : (0 : ℚ) < (n.natAbs : Nat) * 2 ^ a := mul_pos (by exact_mod_cast Int.natAbs_pos.2 hn) h2
    rw [hmagnitude] at hprod
    exact_mod_cast hprod
  obtain ⟨m, e, h, hkm⟩ := exists_normal hpos hk
  have hround : ∀ s, UnpackedFloat.round .binary64 s n.natAbs a = .finite s m e h.pos :=
    fun s => round_exact h (hmagnitude.trans hkm)
  rw [hkm] at hmagnitude
  rcases Int.lt_or_gt_of_ne hn with hlt | hgt
  · refine ⟨.negative, m, e, h, ?_, ?_⟩
    · unfold UnpackedFloat.normalize
      rw [Int.compare_eq_lt.2 hlt, ← hround, show n.natAbs = (-n).toNat by omega]
    · have hsign : (n : ℚ) = -(n.natAbs : Nat) := by
        rw [Nat.cast_natAbs, abs_of_neg hlt]
        push_cast
        ring
      rw [hsign, neg_mul, hmagnitude] at hvalue
      rw [Represents, ← hvalue, Sign.apply]
      push_cast
      ring
  · refine ⟨.positive, m, e, h, ?_, ?_⟩
    · unfold UnpackedFloat.normalize
      rw [Int.compare_eq_gt.2 hgt, ← hround, show n.natAbs = n.toNat by omega]
    · have hsign : (n : ℚ) = (n.natAbs : Nat) := by
        rw [Nat.cast_natAbs, abs_of_pos hgt]
      rw [hsign, hmagnitude] at hvalue
      exact hvalue

/-- Rounding and packing leave an integer of at most 53 bits as it is. -/
theorem represents_normalize {n a k : Int} (hvalue : (n : ℚ) * 2 ^ a = k) (hk : k.natAbs ≤ 0x20000000000000) :
    Represents (UnpackedFloat.unpack .binary64
      (UnpackedFloat.pack .binary64 (UnpackedFloat.normalize .binary64 n a .positive))) k := by
  rcases Int.decEq n 0 with hn | rfl
  · obtain ⟨s, m, e, h, hnormalize, hrep⟩ := normalize_exact .positive hn hvalue hk
    rw [hnormalize, h.unpack_pack]
    exact hrep
  · rw [Int.cast_zero, zero_mul] at hvalue
    show Represents (UnpackedFloat.unpack .binary64 (UnpackedFloat.packedZero .binary64 .positive)) k
    rw [UnpackedFloat.unpack_packedZero]
    exact_mod_cast hvalue.symm

/-- A smaller exponent is made up for by the mantissa. -/
theorem shiftLeft_value (s : Sign) (m : Nat) {a e : Int} (hle : a ≤ e) :
    (s.apply (m <<< (e - a).toNat : Nat) : ℚ) * 2 ^ a = (s.apply m : ℚ) * 2 ^ e := by
  obtain ⟨j, rfl⟩ := Int.le.dest hle
  have hj : (a + (j : Int) - a).toNat = j := by omega
  have hpow : (2 : ℚ) ^ (a + (j : Int)) = 2 ^ j * 2 ^ a := by
    rw [zpow_add₀ (by norm_num), zpow_natCast, mul_comm]
  rw [hj, Nat.shiftLeft_eq, hpow]
  cases s <;> (simp only [Sign.apply]; push_cast; ring)

/-- Compared with zero, the number is as the integer. -/
theorem compare_zero {u : UnpackedFloat} {k : Int} (h : Represents u k) (s : Sign) :
    u.compare (.zero s) = some (compare k 0) := by
  cases u with
  | notANumber | infinity => exact h.elim
  | zero s' =>
    cases h
    rfl
  | finite s' m e hm =>
    have hpos : (0 : ℚ) < (m : ℚ) * 2 ^ e := mul_pos (by exact_mod_cast hm) (zpow_pos (by norm_num) e)
    cases s' with
    | positive =>
      have hk : 0 < k := by
        rw [Represents, Sign.apply, Int.cast_natCast] at h
        rw [h] at hpos
        exact_mod_cast hpos
      rw [Int.compare_eq_gt.2 hk]
      rfl
    | negative =>
      have hk : k < 0 := by
        rw [Represents, Sign.apply, Int.cast_neg, Int.cast_natCast, neg_mul] at h
        have hneg : (k : ℚ) < 0 := h ▸ neg_neg_of_pos hpos
        exact_mod_cast hneg
      rw [Int.compare_eq_lt.2 hk]
      rfl

/-- The number with these parts. -/
def value (b : Binary) : ℚ := (if b.negative then -(b.mantissa : ℚ) else b.mantissa) * 2 ^ b.exponent

/-- An integer has no fraction, and its magnitude is that of the number. -/
theorem whole_of_value {b : Binary} {k : Int} (h : b.value = k) : b.isWhole = true ∧ b.whole = k.natAbs := by
  have h2 : (2 : ℚ) ≠ 0 := by norm_num
  have hmagnitude : (b.mantissa : ℚ) * 2 ^ b.exponent = (k.natAbs : Nat) := by
    rw [← abs_of_value h]
    split
    · rw [abs_neg, Nat.abs_cast]
    · rw [Nat.abs_cast]
  rcases Int.lt_or_le b.exponent 0 with hlt | hle
  · obtain ⟨j, hj⟩ := Int.le.dest (Int.le_of_lt hlt)
    have hexponent : b.exponent = -(j : Int) := by omega
    have hm : b.mantissa = k.natAbs * 2 ^ j := by
      rw [hexponent, zpow_neg, zpow_natCast, mul_inv_eq_iff_eq_mul₀ (pow_ne_zero j h2)] at hmagnitude
      exact_mod_cast hmagnitude
    have hshift : (-b.exponent).toNat = j := by omega
    constructor
    · rw [isWhole, hshift, hm]
      simp
    · rw [whole, if_pos hlt, hshift, hm, Nat.shiftRight_eq_div_pow, Nat.mul_div_cancel _ (Nat.two_pow_pos j)]
  · obtain ⟨j, hj⟩ := Int.le.dest hle
    have hexponent : b.exponent = (j : Int) := by omega
    have hm : b.mantissa * 2 ^ j = k.natAbs := by
      rw [hexponent, zpow_natCast] at hmagnitude
      exact_mod_cast hmagnitude
    have hshift : b.exponent.toNat = j := by omega
    constructor
    · rw [isWhole, decide_eq_true hle, Bool.true_or]
    · rw [whole, if_neg (Int.not_lt.2 hle), hshift, Nat.shiftLeft_eq, hm]

end Binary

namespace Number

open Binary (Represents Normal)

/-- No integer part exceeds the limit. -/
theorem wholeUpTo_le (limit : Nat) (x : Float) : wholeUpTo limit x ≤ limit := by
  rw [wholeUpTo]
  split
  · exact Nat.zero_le limit
  · split
    · exact Nat.min_le_left _ _
    · exact Nat.le_refl limit

/-! ## Doubles that are integers -/

/-- The double is the integer. -/
def Denotes (x : Float) (k : Int) : Prop := x.isFinite = true ∧ (Binary.ofFloat x).value = k

theorem denotes_iff {x : Float} {k : Int} : Denotes x k ↔ Represents x.toModel.unpack k := by
  have hfinite : x.isFinite = x.toModel.unpack.isFinite := rfl
  rw [Denotes, hfinite]
  cases hu : x.toModel.unpack with
  | notANumber | infinity s => exact ⟨fun h => (nomatch h.1), False.elim⟩
  | zero s =>
    rw [Binary.ofFloat_of_zero hu, Represents, Binary.value]
    simp only [Nat.cast_zero, neg_zero, ite_self, zero_mul]
    exact ⟨fun h => Int.cast_eq_zero.1 h.2.symm, fun h => ⟨rfl, (Int.cast_eq_zero.2 h).symm⟩⟩
  | finite s m e h =>
    rw [Binary.ofFloat_of_finite hu, Represents, Binary.value]
    cases s <;> simp [UnpackedFloat.isFinite, Sign.apply]

theorem unpack_pack_unpack (x : Float) :
    UnpackedFloat.unpack .binary64 (UnpackedFloat.pack .binary64 x.toModel.unpack) = x.toModel.unpack :=
  congrArg (UnpackedFloat.unpack .binary64) (UnpackedFloat.pack_unpack_of_valid x.toModel.valid)

theorem unpack_add (x y : Float) : (x + y).toModel.unpack = UnpackedFloat.unpack .binary64
    (UnpackedFloat.pack .binary64 (UnpackedFloat.add .binary64 x.toModel.unpack y.toModel.unpack)) := rfl

namespace Denotes

variable {x y : Float} {a b k : Int}

/-- The sum of two integers is exact where it has 53 bits at most. -/
theorem add (hx : Denotes x a) (hy : Denotes y b) (hbound : (a + b).natAbs ≤ 0x20000000000000) :
    Denotes (x + y) (a + b) := by
  have hpx := unpack_pack_unpack x
  have hpy := unpack_pack_unpack y
  rw [denotes_iff] at hx hy ⊢
  rw [unpack_add]
  generalize x.toModel.unpack = u at hx hpx
  generalize y.toModel.unpack = v at hy hpy
  cases u with
  | notANumber | infinity => exact hx.elim
  | zero s =>
    cases hx
    rw [Int.zero_add]
    cases v with
    | notANumber | infinity => exact hy.elim
    | zero s' =>
      cases hy
      rw [UnpackedFloat.add]
      split <;> (rw [UnpackedFloat.pack, UnpackedFloat.unpack_packedZero]; rfl)
    | finite s' m' e' h' => exact hpy.symm ▸ hy
  | finite s m e h =>
    cases v with
    | notANumber | infinity => exact hy.elim
    | zero s' =>
      cases hy
      rw [Int.add_zero]
      exact hpx.symm ▸ hx
    | finite s' m' e' h' =>
      rw [Represents] at hx hy
      refine Binary.represents_normalize ?_ hbound
      rw [Int.cast_add, add_mul, Binary.shiftLeft_value s m (Int.min_le_left e e'),
        Binary.shiftLeft_value s' m' (Int.min_le_right e e'), hx, hy, Int.cast_add]

theorem truncate (h : Denotes x k) : truncate x = x := by
  show (if x.isFinite then _ else x) = x
  rw [if_pos h.1]
  exact if_pos (Binary.whole_of_value h.2).1

theorem lt_zero (h : Denotes x k) : x < 0 ↔ k < 0 := by
  rw [lt_iff, show (0 : Float).toModel.unpack = .zero .positive from rfl,
    Binary.compare_zero (denotes_iff.1 h), Option.some_inj, Int.compare_eq_lt]

theorem le_zero (h : Denotes x k) : x ≤ 0 ↔ k ≤ 0 := by
  show decide ((x.toModel.unpack.compare (0 : Float).toModel.unpack).any (·.isLE) = true) = true ↔ _
  rw [show (0 : Float).toModel.unpack = .zero .positive from rfl, Binary.compare_zero (denotes_iff.1 h),
    decide_eq_true_iff, Option.any_some, Int.isLE_compare]

/-- An integer is cut to the range of an index as it is. -/
theorem wholeUpTo (h : Denotes x k) (limit : Nat) : wholeUpTo limit x = min limit k.toNat := by
  have hnan : x.isNaN = false := by
    refine Bool.eq_false_iff.2 fun hn => ?_
    have hrep := denotes_iff.1 h
    rw [isNaN_iff.1 hn] at hrep
    exact hrep
  rw [Number.wholeUpTo, hnan, h.1]
  rcases Int.lt_or_le 0 k with hlt | hle
  · have hx : ¬ x ≤ 0 := fun hx => by
      have := h.le_zero.1 hx
      omega
    rw [decide_eq_false hx]
    show min limit (Binary.ofFloat x).whole = _
    rw [(Binary.whole_of_value h.2).2]
    omega
  · rw [decide_eq_true (h.le_zero.2 hle)]
    show 0 = _
    omega

end Denotes

/-- A natural number of fewer than 53 bits is converted in one step. -/
theorem ofNat_of_lt {n : Nat} (hn : n < 0x20000000000000) : Float.ofNat n = n.toUInt64.toFloat * 1 := by
  have hsize : 0 < Float.exactlyRepresentablePowersOfTen.size := by decide
  have hone : Float.exactlyRepresentablePowersOfTen[0] = 1 := rfl
  show Float.ofScientific n false 0 = _
  rw [Float.ofScientific, dif_pos ⟨hn, by decide⟩]
  exact congrArg (n.toUInt64.toFloat * ·) hone

theorem unpack_mul_one {x : Float} {s : Sign} {m : Nat} {e : Int} (h : Normal m e)
    (hx : x.toModel.unpack = .finite s m e h.pos) : (x * 1).toModel.unpack = .finite s m e h.pos := by
  have hone : (1 : Float).toModel.unpack = .finite .positive (2 ^ 52) (-52) (by decide) := rfl
  have hs : s * .positive = s := by
    cases s <;> rfl
  show UnpackedFloat.unpack .binary64
    (UnpackedFloat.pack .binary64 (UnpackedFloat.mul .binary64 x.toModel.unpack (1 : Float).toModel.unpack)) = _
  rw [hx, hone, UnpackedFloat.mul, hs]
  exact (congrArg _ (congrArg _ (Binary.roundWithAccuracy_exact h 52))).trans (h.unpack_pack s)

/-- A natural number of at most 53 bits is a double. -/
theorem denotes_ofNat {n : Nat} (hn : n ≤ 0x20000000000000) : Denotes (Float.ofNat n) n := by
  rw [denotes_iff]
  rcases Nat.lt_or_eq_of_le hn with hlt | rfl
  · rcases Nat.eq_zero_or_pos n with rfl | hpos
    · rfl
    · obtain ⟨s, m, e, h, hnormalize, hrep⟩ := Binary.normalize_exact (n := n) (a := 0) (k := n) .positive (by omega)
        (by rw [zpow_zero, mul_one]) (by omega)
      have hword : n.toUInt64.toNat = n := Nat.mod_eq_of_lt (by omega)
      have hunpack : n.toUInt64.toFloat.toModel.unpack = .finite s m e h.pos := by
        show UnpackedFloat.unpack .binary64 (UnpackedFloat.pack .binary64
          (UnpackedFloat.normalize .binary64 (n.toUInt64.toNat : Int) 0 .positive)) = _
        rw [hword, hnormalize, h.unpack_pack]
      rw [ofNat_of_lt hlt, unpack_mul_one h hunpack]
      exact hrep
  · show Represents (.finite .positive 0x10000000000000 1 (by decide)) _
    rw [Represents, Sign.apply]
    norm_num

end Number

end Formula
