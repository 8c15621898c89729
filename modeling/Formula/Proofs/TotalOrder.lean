import Formula.Number.Double
import Formula.Proofs.Doubles

/-!
# The total order of doubles

`Double.rank` ranks doubles by their bits. `Double.rank_le_iff` says what order that is: by value, with `-0` in front of
`0`; those that are no numbers stand behind all others, and in front of them where the sign bit is set, the further out
the larger the fraction. Two doubles never share a rank (`Double.rank_injective`), so a list of doubles has one order
only.

Comparing is done on the sign, the exponent and the mantissa one after the other. `Number.weight` is the one integer
that they make, and `Number.compare_lt_iff` compares by it.
-/

namespace Formula

open Float.Model (UnpackedFloat)
open Float.Model.UnpackedFloat (Sign)

namespace Number

open Binary (Canonical canonical_unpack)

/-! ## Bits with a sign -/

/-- Whether the sign bit of a double of this form is set. -/
def isNegative : UnpackedFloat → Bool
  | .notANumber => false
  | .infinity s => s == .negative
  | .zero s => s == .negative
  | .finite s _ _ _ => s == .negative

/-- The bits of a double of this form behind the sign bit. -/
def magnitude : UnpackedFloat → Int
  | .notANumber => 0x7ff8000000000000
  | .infinity _ => 0x7ff0000000000000
  | .zero _ => 0
  | .finite _ m e _ => (e + 1074) * 0x10000000000000 + m

/-- The rank read off the form of a double. -/
theorem rank_eq (x : Float) :
    rank x.toBits.toNat = if isNegative x.toModel.unpack then -magnitude x.toModel.unpack - 1
      else magnitude x.toModel.unpack := by
  have hbits : x.toBits.toNat % 0x8000000000000000 =
      Binary.exponentField x * 0x10000000000000 + Binary.fractionField x := by
    change _ = x.toBits.toNat / 0x10000000000000 % 0x800 * 0x10000000000000 + x.toBits.toNat % 0x10000000000000
    omega
  have hrank : rank x.toBits.toNat = if Binary.signBit x
      then -((Binary.exponentField x * 0x10000000000000 + Binary.fractionField x : Nat) : Int) - 1
      else ((Binary.exponentField x * 0x10000000000000 + Binary.fractionField x : Nat) : Int) := by
    rw [← hbits]
    rfl
  have hf := Binary.fields x
  generalize x.toModel.unpack = u at hf
  cases hf with
  | notANumber hbits => rw [hbits]; decide
  | @infinity s hs he hm | @zero s hs he hm | @subnormal s m h hs he hm =>
    rw [hrank, hs, he, hm]
    cases s <;> simp [isNegative, magnitude]
  | @normal s m e h hs hpos hlt hm he =>
    change Binary.fractionField x + 0x10000000000000 = _ at hm
    rw [hrank, hs]
    cases s <;> simp [isNegative, magnitude] <;> omega

/-- Bits never share a rank. -/
theorem rank_inj {a b : Nat} (ha : a < 2 ^ 64) (hb : b < 2 ^ 64) (h : rank a = rank b) : a = b := by
  simp only [rank, beq_iff_eq] at h
  change (if a / 2 ^ 63 % 2 = 1 then -Int.ofNat (a % 2 ^ 63) - 1 else Int.ofNat (a % 2 ^ 63)) =
    (if b / 2 ^ 63 % 2 = 1 then -Int.ofNat (b % 2 ^ 63) - 1 else Int.ofNat (b % 2 ^ 63)) at h
  simp only [Int.ofNat_eq_natCast] at h
  split at h <;> split at h <;> omega

/-- Floats never share the rank of their bits. -/
theorem eq_of_rank_eq {x y : Float} (h : rank x.toBits.toNat = rank y.toBits.toNat) : x = y :=
  Float.toBits_inj.1 (UInt64.toNat_inj.1 (rank_inj (UInt64.toNat_lt _) (UInt64.toNat_lt _) h))

/-- The bits behind the sign bit, with the sign. -/
def weight (u : UnpackedFloat) : Int := if isNegative u then -magnitude u else magnitude u

/-- The rank is the weight, and one less where the sign bit is set. -/
theorem rank_eq_weight (x : Float) :
    rank x.toBits.toNat = weight x.toModel.unpack - if isNegative x.toModel.unpack then 1 else 0 := by
  rw [rank_eq, weight]
  split <;> simp

section Compare

variable {u v : UnpackedFloat} {s : Sign} {m : Nat} {e : Int} {h : 0 < m}

/-- The bits behind the sign bit are a natural number, and `NaN` has larger ones than infinity. -/
theorem magnitude_bounds (hu : Canonical u) :
    0 ≤ magnitude u ∧ (u ≠ .notANumber → magnitude u ≤ 0x7ff0000000000000) := by
  cases u with
  | notANumber | infinity | zero => simp [magnitude]
  | finite s m e h =>
    obtain ⟨hm, he, he', -⟩ := hu
    simp only [magnitude]
    omega

theorem weight_infinity (s : Sign) :
    weight (.infinity s) = if s == .negative then -0x7ff0000000000000 else 0x7ff0000000000000 := rfl

theorem weight_zero (s : Sign) : weight (.zero s) = 0 := by
  cases s <;> rfl

theorem weight_negative (hu : Canonical (.finite .negative m e h)) : weight (.finite .negative m e h) < 0 := by
  obtain ⟨-, he, -⟩ := hu
  show -((e + 1074) * 0x10000000000000 + (m : Int)) < 0
  omega

theorem weight_positive (hu : Canonical (.finite .positive m e h)) : 0 < weight (.finite .positive m e h) := by
  obtain ⟨-, he, -⟩ := hu
  show 0 < (e + 1074) * 0x10000000000000 + (m : Int)
  omega

/-- Finite numbers stand between the infinities. -/
theorem weight_bounds (hu : Canonical u) (hnan : u ≠ .notANumber) (hinf : ∀ s, u = .infinity s → False) :
    -0x7ff0000000000000 < weight u ∧ weight u < 0x7ff0000000000000 := by
  cases u with
  | notANumber => exact absurd rfl hnan
  | infinity s => exact (hinf s rfl).elim
  | zero s => simp [weight_zero]
  | finite s m e h =>
    obtain ⟨hm, he, he', -⟩ := hu
    cases s <;> simp [weight, isNegative, magnitude] <;> omega

/-- With mantissas of full length, or at the least exponent, magnitudes are ordered by their exponents
and then by their mantissas. -/
theorem compare_lex {m₁ m₂ : Nat} {e₁ e₂ : Int} {h₁ : 0 < m₁} {h₂ : 0 < m₂}
    (hu : Canonical (.finite s m₁ e₁ h₁)) (hv : Canonical (.finite s m₂ e₂ h₂)) :
    (compare e₁ e₂).then (compare m₁ m₂) = .lt ↔
      magnitude (.finite s m₁ e₁ h₁) < magnitude (.finite s m₂ e₂ h₂) := by
  obtain ⟨hm₁, he₁, -, hn₁⟩ := hu
  obtain ⟨hm₂, he₂, -, hn₂⟩ := hv
  rw [Ordering.then_eq_lt, compare_lt_iff_lt, compare_lt_iff_lt, compare_eq_iff_eq, magnitude, magnitude]
  omega

/-- Numbers are compared as their bits with the sign. -/
theorem compare_lt_iff (hu : Canonical u) (hv : Canonical v) (hun : u ≠ .notANumber) (hvn : v ≠ .notANumber) :
    u.compare v = some .lt ↔ weight u < weight v := by
  fun_cases UnpackedFloat.compare u v with
  | case1 => exact absurd rfl hun
  | case2 => exact absurd rfl hvn
  | case3 s s' => cases s <;> cases s' <;> decide
  | case4 _ _ hinf | case5 _ _ hinf =>
    have hbounds := weight_bounds hv hvn hinf
    simp [weight_infinity]
    omega
  | case6 _ _ hinf | case7 _ _ hinf =>
    have hbounds := weight_bounds hu hun hinf
    simp [weight_infinity]
    omega
  | case8 =>
    have hpos := weight_positive hu
    simp [weight_zero]
    omega
  | case9 =>
    have hneg := weight_negative hu
    simp [weight_zero]
    omega
  | case10 =>
    have hpos := weight_positive hv
    simp [weight_zero]
    omega
  | case11 =>
    have hneg := weight_negative hv
    simp [weight_zero]
    omega
  | case12 => simp [weight_zero]
  | case13 =>
    rw [Option.some_inj, Ordering.swap_then, ← Std.OrientedOrd.eq_swap, ← Std.OrientedOrd.eq_swap,
      compare_lex hv hu]
    exact neg_lt_neg_iff.symm
  | case14 =>
    have hneg := weight_negative hu
    have hpos := weight_positive hv
    simp
    omega
  | case15 =>
    have hneg := weight_negative hv
    have hpos := weight_positive hu
    simp
    omega
  | case16 => exact (Option.some_inj ..).trans (compare_lex hu hv)

end Compare

/-! ## The order of numbers -/

theorem lt_iff {x y : Float} : x < y ↔ x.toModel.unpack.compare y.toModel.unpack = some .lt := by
  show decide ((x.toModel.unpack.compare y.toModel.unpack == some .lt) = true) = true ↔ _
  simp

theorem isNaN_iff {x : Float} : x.isNaN = true ↔ x.toModel.unpack = .notANumber :=
  Float.Model.UnpackedFloat.isNaN_iff

/-- `NaN` is not comparable. -/
theorem not_lt_of_isNaN {x y : Float} (h : x.isNaN = true ∨ y.isNaN = true) : ¬ x < y := by
  rw [lt_iff]
  rcases h with h | h <;> rw [isNaN_iff.1 h]
  · simp [UnpackedFloat.compare]
  · cases x.toModel.unpack <;> simp [UnpackedFloat.compare]

section Numbers

variable {x y : Float} (hx : x.isNaN = false) (hy : y.isNaN = false)

include hx in
theorem unpack_ne_notANumber : x.toModel.unpack ≠ .notANumber := by
  rw [Ne, ← isNaN_iff, hx]
  decide

include hx hy in
/-- Numbers are compared by their weights. -/
theorem lt_iff_weight : x < y ↔ weight x.toModel.unpack < weight y.toModel.unpack := by
  rw [lt_iff, compare_lt_iff (canonical_unpack x) (canonical_unpack y) (unpack_ne_notANumber hx)
    (unpack_ne_notANumber hy)]

include hx in
theorem rank_bounds :
    -0x7ff0000000000001 ≤ rank x.toBits.toNat ∧ rank x.toBits.toNat ≤ 0x7ff0000000000000 := by
  obtain ⟨hpos, hle⟩ := magnitude_bounds (canonical_unpack x)
  have hle := hle (unpack_ne_notANumber hx)
  rw [rank_eq]
  split <;> omega

/-- A double of magnitude zero is zero. -/
theorem eq_of_magnitude_eq_zero (h : magnitude x.toModel.unpack = 0) :
    x = if isNegative x.toModel.unpack then -0.0 else 0 := by
  refine eq_of_rank_eq ?_
  rw [rank_eq, h]
  split <;> rfl

/-- Only zeros share a weight without sharing the sign bit. -/
theorem magnitude_eq_zero_of_weight {u v : UnpackedFloat} (hu : 0 ≤ magnitude u) (hv : 0 ≤ magnitude v)
    (hweight : weight u = weight v) (hu' : isNegative u = true) (hv' : isNegative v = false) :
    magnitude u = 0 ∧ magnitude v = 0 := by
  rw [weight, if_pos hu', weight, if_neg (by simp [hv'])] at hweight
  omega

include hx hy in
/-- The ranks of numbers are ordered as the numbers are, with `-0` in front of `0`. -/
theorem rank_le_iff : rank x.toBits.toNat ≤ rank y.toBits.toNat ↔ x = y ∨ x < y ∨ x = -0.0 ∧ y = 0 := by
  have hrx := rank_eq_weight x
  have hry := rank_eq_weight y
  have hmx := (magnitude_bounds (canonical_unpack x)).1
  have hmy := (magnitude_bounds (canonical_unpack y)).1
  constructor
  · intro hle
    rcases Int.lt_trichotomy (weight x.toModel.unpack) (weight y.toModel.unpack) with hlt | hweight | hgt
    · exact .inr (.inl ((lt_iff_weight hx hy).2 hlt))
    · cases hsx : isNegative x.toModel.unpack <;> cases hsy : isNegative y.toModel.unpack <;>
        rw [hsx] at hrx <;> rw [hsy] at hry
      · exact .inl (eq_of_rank_eq (by rw [hrx, hry, hweight]))
      · simp only [Bool.false_eq_true, if_false, if_true] at hrx hry
        omega
      · obtain ⟨hzx, hzy⟩ := magnitude_eq_zero_of_weight hmx hmy hweight hsx hsy
        refine .inr (.inr ⟨?_, ?_⟩)
        · rw [eq_of_magnitude_eq_zero hzx, if_pos hsx]
        · rw [eq_of_magnitude_eq_zero hzy, if_neg (by simp [hsy])]
      · exact .inl (eq_of_rank_eq (by rw [hrx, hry, hweight]))
    · rw [weight] at hrx hgt
      rw [weight] at hry hgt
      split_ifs at hrx hry hgt <;> omega
  · rintro (rfl | hlt | ⟨rfl, rfl⟩)
    · exact Int.le_refl _
    · have hw := (lt_iff_weight hx hy).1 hlt
      split_ifs at hrx hry <;> omega
    · decide

end Numbers

end Number

/-! ## The order of all doubles -/

namespace Double

open Number (rank_bounds)

theorem rank_number (x : Float) (h : x.isNaN = false) : rank (.number x h) = Number.rank x.toBits.toNat := rfl

/-- Those that are no numbers stand outside of all numbers, on the side of their sign. -/
theorem rank_nan (n : NaN) : rank (.nan n) =
    if n.negative then -(0x7ff0000000000000 + (n.fraction : Int)) - 1 else 0x7ff0000000000000 + (n.fraction : Int) := by
  have hlt : n.fraction < 0x10000000000000 := n.fraction_lt
  have hbits : n.bits = (if n.negative then 0x8000000000000000 else 0) + (0x7ff0000000000000 + n.fraction) := rfl
  show (if n.bits / 0x8000000000000000 % 2 == 1 then -Int.ofNat (n.bits % 0x8000000000000000) - 1
      else Int.ofNat (n.bits % 0x8000000000000000)) = _
  simp only [hbits, beq_iff_eq, Int.ofNat_eq_natCast]
  cases n.negative <;> simp only [Bool.false_eq_true, if_true, if_false] <;> split <;> omega

section Sides

variable {x : Float} {hx : x.isNaN = false} {n : NaN}

/-- With the sign bit set, all numbers are ranked behind it. -/
theorem rank_nan_lt_number (hn : n.negative = true) : rank (.nan n) < rank (.number x hx) := by
  have hbounds := rank_bounds hx
  have hpos := n.fraction_pos
  rw [rank_number, rank_nan, hn, if_pos rfl]
  omega

/-- Otherwise all numbers are ranked in front of it. -/
theorem rank_number_lt_nan (hn : n.negative = false) : rank (.number x hx) < rank (.nan n) := by
  have hbounds := rank_bounds hx
  have hpos := n.fraction_pos
  rw [rank_number, rank_nan, hn, if_neg (by decide)]
  omega

theorem rank_number_ne_nan : rank (.number x hx) ≠ rank (.nan n) := by
  cases hn : n.negative with
  | false => exact Int.ne_of_lt (rank_number_lt_nan hn)
  | true => exact (Int.ne_of_lt (rank_nan_lt_number hn)).symm

end Sides

theorem rank_nan_inj {n m : NaN} (h : rank (.nan n) = rank (.nan m)) : n = m := by
  rw [rank_nan, rank_nan] at h
  obtain ⟨sn, fn, _, _⟩ := n
  obtain ⟨sm, fm, _, _⟩ := m
  cases sn <;> cases sm <;> simp only [Bool.false_eq_true, if_true, if_false] at h
  · obtain rfl : fn = fm := by omega
    rfl
  · omega
  · omega
  · obtain rfl : fn = fm := by omega
    rfl

/-- Two doubles never share a rank. -/
theorem rank_injective : Function.Injective rank := by
  intro x y h
  cases x with
  | number x hx =>
    cases y with
    | number y hy =>
      obtain rfl : x = y := Number.eq_of_rank_eq h
      rfl
    | nan n => exact absurd h rank_number_ne_nan
  | nan n =>
    cases y with
    | number y hy => exact absurd h.symm rank_number_ne_nan
    | nan m => rw [rank_nan_inj h]

/-- The total order of doubles: by value, with `-0` in front of `0`. Those that are no numbers stand in front of all
numbers where the sign bit is set, and else behind all numbers, the further out the larger the fraction. -/
inductive Precedes (x y : Double) : Prop
  | equal : x = y → Precedes x y
  | less : x < y → Precedes x y
  | zeros : x = -0.0 → y = 0 → Precedes x y
  | below {n : NaN} : n.negative = true → x = .nan n → y.isNaN = false → Precedes x y
  | above {n : NaN} : n.negative = false → x.isNaN = false → y = .nan n → Precedes x y
  | signs {n m : NaN} : n.negative = true → m.negative = false → x = .nan n → y = .nan m → Precedes x y
  | fractions {n m : NaN} : n.negative = false → m.negative = false → n.fraction ≤ m.fraction → x = .nan n →
      y = .nan m → Precedes x y
  | fractionsBelow {n m : NaN} : n.negative = true → m.negative = true → m.fraction ≤ n.fraction → x = .nan n →
      y = .nan m → Precedes x y

theorem isNaN_toFloat (x : Double) : x.toFloat.isNaN = x.isNaN := by
  cases x with
  | number x h => exact h
  | nan n =>
    show (0.0 / 0.0 : Float).isNaN = true
    decide

/-- Nothing is less than a double that is no number, and nothing is greater. -/
theorem not_lt_nan {x y : Double} (h : x.isNaN = true ∨ y.isNaN = true) : ¬ x < y := by
  rw [← isNaN_toFloat, ← isNaN_toFloat] at h
  exact Number.not_lt_of_isNaN h

theorem zero_eq : (0 : Double) = .number 0 rfl := rfl

theorem neg_zero_eq : (-0.0 : Double) = .number (-0.0) rfl := rfl

section Numbers

variable {x y : Float} {hx : x.isNaN = false} {hy : y.isNaN = false}

theorem rank_number_le_iff : rank (.number x hx) ≤ rank (.number y hy) ↔ Precedes (.number x hx) (.number y hy) := by
  rw [rank_number, rank_number, Number.rank_le_iff hx hy]
  constructor
  · rintro (rfl | hlt | ⟨rfl, rfl⟩)
    · exact .equal rfl
    · exact .less hlt
    · exact .zeros neg_zero_eq.symm zero_eq.symm
  · intro h
    cases h with
    | equal h => exact .inl (Double.number.inj h)
    | less h => exact .inr (.inl h)
    | zeros hx hy => exact .inr (.inr ⟨Double.number.inj (hx.trans neg_zero_eq), Double.number.inj (hy.trans zero_eq)⟩)
    | below _ h | above _ _ h | signs _ _ h | fractions _ _ _ h | fractionsBelow _ _ _ h => cases h

theorem rank_number_le_nan_iff {n : NaN} :
    rank (.number x hx) ≤ rank (.nan n) ↔ Precedes (.number x hx) (.nan n) := by
  constructor
  · intro h
    cases hn : n.negative with
    | false => exact .above hn rfl rfl
    | true => exact absurd h (Int.not_le.2 (rank_nan_lt_number hn))
  · intro h
    cases h with
    | above hn _ h =>
      cases h
      exact Int.le_of_lt (rank_number_lt_nan hn)
    | less h => exact absurd h (not_lt_nan (.inr rfl))
    | equal h | zeros _ h | below _ h | signs _ _ h | fractions _ _ _ h | fractionsBelow _ _ _ h => cases h

theorem rank_nan_le_number_iff {n : NaN} :
    rank (.nan n) ≤ rank (.number y hy) ↔ Precedes (.nan n) (.number y hy) := by
  constructor
  · intro h
    cases hn : n.negative with
    | true => exact .below hn rfl rfl
    | false => exact absurd h (Int.not_le.2 (rank_number_lt_nan hn))
  · intro h
    cases h with
    | below hn h =>
      cases h
      exact Int.le_of_lt (rank_nan_lt_number hn)
    | less h => exact absurd h (not_lt_nan (.inl rfl))
    | equal h | zeros h | above _ _ h | signs _ _ _ h | fractions _ _ _ _ h | fractionsBelow _ _ _ _ h => cases h

end Numbers

theorem rank_nan_le_iff {n m : NaN} : rank (.nan n) ≤ rank (.nan m) ↔ Precedes (.nan n) (.nan m) := by
  constructor
  · intro h
    rw [rank_nan, rank_nan] at h
    cases hn : n.negative <;> cases hm : m.negative <;> simp only [hn, hm, Bool.false_eq_true, if_true, if_false] at h
    · exact .fractions hn hm (by omega) rfl rfl
    · omega
    · exact .signs hn hm rfl rfl
    · exact .fractionsBelow hn hm (by omega) rfl rfl
  · intro h
    cases h with
    | equal h =>
      rw [h]
    | less h => exact absurd h (not_lt_nan (.inl rfl))
    | signs hn hm h h' | fractions hn hm hle h h' | fractionsBelow hn hm hle h h' =>
      cases h
      cases h'
      simp only [rank_nan, hn, hm, Bool.false_eq_true, if_true, if_false]
      omega
    | zeros h | below _ _ h | above _ h => cases h

/-- Ranks are ordered as the doubles are. -/
theorem rank_le_iff {x y : Double} : rank x ≤ rank y ↔ Precedes x y := by
  cases x <;> cases y
  · exact rank_number_le_iff
  · exact rank_number_le_nan_iff
  · exact rank_nan_le_number_iff
  · exact rank_nan_le_iff

instance (x y : Double) : Decidable (Precedes x y) := decidable_of_iff _ rank_le_iff

end Double

end Formula
