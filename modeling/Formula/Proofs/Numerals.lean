import Formula.Json.Grammar
import Formula.Json.Numeral
import Formula.Number.Layout
import Formula.Proofs.Lexemes

/-!
# Numbers that are written and read in documents

Whatever the layout, a finite number is written as a numeral (`Number.Layout.write_spelled`): an optional sign, digits
without a zero in front of them, digits behind a point, an exponent. A numeral is read up to the character behind it
(`Json.Numeral.Spelled.read`).
-/

namespace Formula

open Scanner (Stops span_iff stops_cons stops_nil)

/-- A finite number is a number. -/
theorem Number.isNaN_of_isFinite {x : Float} (h : x.isFinite = true) : x.isNaN = false := by
  change x.toModel.unpack.isFinite = true at h
  change x.toModel.unpack.isNaN = false
  cases hu : x.toModel.unpack with
  | notANumber => rw [hu] at h; cases h
  | infinity | zero | finite => rfl

/-! ## Digits -/

namespace Shortest

theorem stripZeros_ne_zero {d : Decimal} (hd : d.digits ≠ 0) (fuel : Nat) : (stripZeros fuel d).digits ≠ 0 := by
  induction fuel generalizing d with
  | zero => exact hd
  | succ fuel ih =>
    rw [stripZeros]
    split
    · exact ih (by simp only; omega)
    · exact hd

/-- An integer in an interval of positive numbers is positive. -/
theorem Interval.holds_pos {i : Interval} (hi : 0 < i.low) {n : Nat} (h : i.holds n = true) : n ≠ 0 := by
  rintro rfl
  simp only [holds, Nat.zero_mul] at h
  split at h <;>
  · simp only [Bool.and_eq_true, decide_eq_true_eq] at h
    omega

theorem Interval.nearest?_ne_zero {i : Interval} (hi : 0 < i.low) {tie : Tie} {n : Nat} (h : i.nearest? tie = some n) :
    n ≠ 0 := by
  have hbelow {m : Nat} (hm : i.holds m = true) (h : some m = some n) : n ≠ 0 := by
    rw [← Option.some.inj h]
    exact Interval.holds_pos hi hm
  simp only [nearest?] at h
  split at h
  · cases h
  · next hb _ => exact hbelow hb h
  · next _ hb => exact hbelow hb h
  · next hb hb' =>
    split at h
    · exact hbelow hb h
    · exact hbelow hb' h
    · split at h
      · exact hbelow hb' h
      · split at h
        · exact hbelow hb h
        · exact hbelow hb' h

theorem search_exponent {i : Interval} (hi : 0 < i.low) {tie : Tie} {magnitude : Int} (tries count : Nat)
    (h : (search i tie magnitude tries count).digits = 0) : (search i tie magnitude tries count).exponent = 0 := by
  induction tries generalizing count with
  | zero => rfl
  | succ tries ih =>
    rw [search] at h ⊢
    split at h
    · next n hn =>
      have hlow : 0 < (i.shift ((count : Int) - magnitude)).low := Nat.mul_pos hi (Nat.pow_pos (by decide))
      exact absurd h (stripZeros_ne_zero (Interval.nearest?_ne_zero hlow hn) 20)
    · exact ih (count + 1) h

/-- Zero is written without an exponent. -/
theorem exponent_of_digits {tie : Tie} {x : Float} (h : (digits tie x).digits = 0) : (digits tie x).exponent = 0 := by
  simp only [digits] at h ⊢
  split at h
  · next hm => rw [if_pos hm]
  · next hm =>
    rw [if_neg hm]
    have hlow : 0 < (Interval.ofBinary (Binary.ofFloat x)).low := by
      refine Nat.mul_pos ?_ (Nat.pow_pos (by decide))
      split <;> omega
    exact search_exponent hlow 17 1 h

end Shortest

/-- A positive number has a first digit. -/
theorem Json.isLeading_toDigits {n : Nat} (h : 0 < n) : IsLeading (Nat.toDigits 10 n) := by
  induction n using Nat.strongRecOn with
  | ind n ih =>
    by_cases hn : n < 10
    · rw [Nat.toDigits_of_lt_base hn]
      have hdigit : ∀ n < 10, 0 < n → n.digitChar ≠ '0' ∧ n.digitChar.isDigit = true := by decide
      exact ⟨n.digitChar, [], rfl, (hdigit n hn h).1, (hdigit n hn h).2, fun c hc => by cases hc⟩
    · obtain ⟨d, more, hmore, hd, hdigit, hall⟩ := ih (n / 10) (by omega) (by omega)
      rw [Nat.toDigits_of_base_le (by decide) (Nat.le_of_not_lt hn), hmore]
      refine ⟨d, more ++ [(n % 10).digitChar], rfl, hd, hdigit, List.forall_mem_append.2 ⟨hall, ?_⟩⟩
      have hdigit : ∀ n < 10, n.digitChar.isDigit = true := by decide
      exact List.forall_mem_singleton.2 (hdigit _ (Nat.mod_lt _ (by decide)))

theorem Json.isDigits_toDigits (n : Nat) : IsDigits (Nat.toDigits 10 n) :=
  ⟨Nat.toDigits_ne_nil, fun _ hd => Nat.isDigit_of_mem_toDigits (by decide) (by decide) hd⟩

/-! ## Numerals -/

namespace Number.Layout

open Json Json.Numeral

variable (l : Layout) {ds : List Char} {exponent : Int}

/-- The digits in front of the point have no zero in front of them, wherever the exponent puts the point. -/
theorem splitPoint_spelled (hd : IsLeading ds ∨ ds = ['0'] ∧ exponent = 0) :
    Whole (splitPoint ds exponent).1 ∧ ∀ d ∈ (splitPoint ds exponent).2, d.isDigit = true := by
  have hall : ∀ d ∈ ds, d.isDigit = true := by
    rcases hd with ⟨d, more, rfl, -, hd, hmore⟩ | ⟨rfl, -⟩
    · exact List.forall_mem_cons.2 ⟨hd, hmore⟩
    · exact List.forall_mem_singleton.2 rfl
  have hzeros (n : Nat) : ∀ d ∈ List.replicate n '0', d.isDigit = true := by
    intro d hd
    rw [(List.mem_replicate.1 hd).2]
    rfl
  unfold splitPoint
  by_cases he : exponent ≥ 0
  · rw [if_pos he]
    refine ⟨?_, fun d hd => by cases hd⟩
    rcases hd with ⟨d, more, rfl, hne, hd, hmore⟩ | ⟨rfl, rfl⟩
    · exact .leading ⟨d, _, rfl, hne, hd, List.forall_mem_append.2 ⟨hmore, hzeros _⟩⟩
    · exact .zero
  · rw [if_neg he]
    simp only
    by_cases hlen : ds.length > (-exponent).toNat
    · rw [if_pos hlen, List.splitAt_eq]
      refine ⟨?_, fun d hd => hall d (List.mem_of_mem_drop hd)⟩
      rcases hd with ⟨d, more, rfl, hne, hd, hmore⟩ | ⟨rfl, rfl⟩
      · rw [List.length_cons, Nat.succ_sub (Nat.le_of_lt_succ hlen), List.take_succ_cons]
        exact .leading ⟨d, _, rfl, hne, hd, fun c hc => hmore c (List.mem_of_mem_take hc)⟩
      · exact absurd (Int.le_refl 0) he
    · rw [if_neg hlen]
      exact ⟨.zero, List.forall_mem_append.2 ⟨hzeros _, hall⟩⟩

/-- Positional digits are a numeral. -/
theorem writePositional_unsigned (hd : IsLeading ds ∨ ds = ['0'] ∧ exponent = 0) :
    Unsigned (l.writePositional ds exponent).toList := by
  have hintro {whole fraction : List Char} (hw : Whole whole) (hf : Fraction fraction) :
      Unsigned (whole ++ fraction) := by
    have h := Unsigned.intro hw hf .nothing
    rwa [List.append_nil] at h
  obtain ⟨hwhole, hfraction⟩ := splitPoint_spelled hd
  unfold writePositional
  generalize splitPoint ds exponent = point at hwhole hfraction ⊢
  obtain ⟨whole, fraction⟩ := point
  cases fraction with
  | nil =>
    simp only [String.toList_append, String.toList_ofList]
    split
    · exact hintro hwhole (show Fraction ['.', '0'] from .point ⟨by decide, List.forall_mem_singleton.2 rfl⟩)
    · exact hintro hwhole .nothing
  | cons d fraction =>
    simp only [String.toList_append, String.toList_ofList, List.append_assoc]
    exact hintro hwhole (.point ⟨List.cons_ne_nil d fraction, hfraction⟩)

/-- Digits with an exponent are a numeral. -/
theorem writeScientific_unsigned (hd : IsLeading ds) (e : Int) : Unsigned (l.writeScientific ds e).toList := by
  obtain ⟨d, more, rfl, hne, hdigit, hmore⟩ := hd
  have hwhole : Whole [d] := .leading ⟨d, [], rfl, hne, hdigit, fun c hc => by cases hc⟩
  have hdigits : IsDigits (toString e.natAbs).toList := by
    rw [Nat.toString_eq_ofList_toDigits, String.toList_ofList]
    exact isDigits_toDigits _
  have hsign : (if e < 0 then "-" else if l.plusSign then "+" else "").toList ∈ [[], ['+'], ['-']] := by
    split
    · decide
    · split <;> decide
  have hexponent := @Exponent.marker 'e' _ _ List.mem_cons_self hsign hdigits
  unfold writeScientific
  cases more with
  | nil =>
    have h := Unsigned.intro hwhole .nothing hexponent
    simp only [String.toList_append, String.toList_ofList, List.append_assoc]
    exact h
  | cons c more =>
    have h := Unsigned.intro hwhole (.point ⟨List.cons_ne_nil c more, hmore⟩) hexponent
    rw [List.cons_append] at h
    simp only [String.toList_append, String.toList_ofList, List.append_assoc]
    exact h

/-- A finite number is written as a numeral. -/
theorem write_spelled {x : Float} (hx : x.isFinite = true) : Spelled (l.write x).toList := by
  have hdecimal : Unsigned (l.writeDecimal (Shortest.digits l.tie x)).toList := by
    have hexponent := @Shortest.exponent_of_digits l.tie x
    generalize Shortest.digits l.tie x = d at hexponent ⊢
    simp only [writeDecimal]
    split
    · refine writePositional_unsigned l ?_
      by_cases hd : d.digits = 0
      · exact .inr ⟨by rw [hd]; rfl, hexponent hd⟩
      · exact .inl (isLeading_toDigits (Nat.pos_of_ne_zero hd))
    · next h =>
      refine writeScientific_unsigned l (isLeading_toDigits (Nat.pos_of_ne_zero fun hd => h ?_)) _
      rw [hd]
      rfl
  rw [write, if_neg (by rw [Number.isNaN_of_isFinite hx]; decide), if_pos hx]
  split
  · rw [String.toList_append]
    exact .negative hdecimal
  · rw [String.toList_append]
    exact .positive hdecimal

end Number.Layout

namespace Json

/-! ## Reading numerals -/

/-- What may stand behind a part of a document. -/
def Behind (rest : List Char) : Prop := ∀ c, rest.head? = some c → c = ',' ∨ c = ']' ∨ c = '\x7d'

theorem behind_nil : Behind [] := fun _ h => by cases h

theorem behind_cons {c : Char} {rest : List Char} (hc : c = ',' ∨ c = ']' ∨ c = '\x7d') : Behind (c :: rest) := by
  rintro d hd
  cases hd
  exact hc

/-- A class of characters that numerals are made of stops there. -/
theorem Behind.stops {rest : List Char} (h : Behind rest) {p : Char → Bool}
    (hp : p ',' = false ∧ p ']' = false ∧ p '\x7d' = false) : Stops p rest := by
  intro c hc
  rcases h c hc with rfl | rfl | rfl
  · exact hp.1
  · exact hp.2.1
  · exact hp.2.2

namespace Numeral

variable {cs rest : List Char}

theorem Whole.read (h : Whole cs) (hrest : Stops Char.isDigit rest) : readWhole? (cs ++ rest) = some (cs, rest) := by
  cases h with
  | zero =>
    obtain ⟨htake, hdrop⟩ := span_iff.2 ⟨rfl, List.forall_mem_singleton.2 (show '0'.isDigit = true from rfl), hrest⟩
    simp only [readWhole?, htake, hdrop]
  | leading h =>
    obtain ⟨d, more, rfl, hne, hd, hmore⟩ := h
    obtain ⟨htake, hdrop⟩ := span_iff.2 ⟨rfl, List.forall_mem_cons.2 ⟨hd, hmore⟩, hrest⟩
    simp only [readWhole?, htake, hdrop]
    split
    · next h => cases h
    · rfl
    · next h => exact absurd (List.cons.inj h).1 hne
    · rfl

theorem Fraction.read (h : Fraction cs) : ∃ digits, ∀ rest, Stops (fun c => c == '.' || c.isDigit) rest →
    readFraction? (cs ++ rest) = some (digits, rest) := by
  cases h with
  | nothing =>
    refine ⟨[], fun rest hrest => ?_⟩
    unfold readFraction?
    split
    · next more h =>
      rw [List.nil_append] at h
      exact absurd (hrest '.' (by rw [h]; rfl)) (by decide)
    · rfl
  | @point ds hd =>
    refine ⟨ds, fun rest hrest => ?_⟩
    have hdigit : Stops Char.isDigit rest := fun c hc => (Bool.or_eq_false_iff.1 (hrest c hc)).2
    obtain ⟨htake, hdrop⟩ := span_iff.2 ⟨rfl, hd.2, hdigit⟩
    simp only [List.cons_append, readFraction?, htake, hdrop]
    rw [if_neg (by simpa using hd.1)]

theorem Exponent.read (h : Exponent cs) : ∃ exponent?, ∀ rest, Behind rest →
    readExponent? (cs ++ rest) = some (exponent?, rest) := by
  cases h with
  | nothing =>
    refine ⟨none, fun rest hrest => ?_⟩
    cases rest with
    | nil => rfl
    | cons c rest =>
      have hc : ¬ (c = 'e' ∨ c = 'E') := by
        rcases hrest c rfl with rfl | rfl | rfl <;> decide
      simp only [List.nil_append, readExponent?, if_neg hc]
  | @marker marker sign ds hmarker hsign hd =>
    have hmarker : marker = 'e' ∨ marker = 'E' := by simpa using hmarker
    obtain ⟨hne, hd⟩ := hd
    cases ds with
    | nil => exact absurd rfl hne
    | cons d more =>
      have hplus : d ≠ '+' := by rintro rfl; exact absurd (hd '+' List.mem_cons_self) (by decide)
      have hminus : d ≠ '-' := by rintro rfl; exact absurd (hd '-' List.mem_cons_self) (by decide)
      have hspan {rest : List Char} (hrest : Behind rest) :
          (d :: (more ++ rest)).takeWhile Char.isDigit = d :: more ∧
            (d :: (more ++ rest)).dropWhile Char.isDigit = rest :=
        span_iff.2 ⟨rfl, hd, hrest.stops (by decide)⟩
      simp only [List.mem_cons, List.not_mem_nil, or_false] at hsign
      let n : Int := Number.ofDigits (d :: more)
      refine ⟨some (if sign = ['-'] then -n else n), fun rest hrest => ?_⟩
      obtain ⟨htake, hdrop⟩ := hspan hrest
      rcases hsign with rfl | rfl | rfl <;> simp [readExponent?, hmarker, hplus, hminus, htake, hdrop, n]

theorem Exponent.stops (h : Exponent cs) (hrest : Behind rest) :
    Stops (fun c => c == '.' || c.isDigit) (cs ++ rest) := by
  cases h with
  | nothing => exact hrest.stops (by decide)
  | marker hmarker =>
    simp only [List.mem_cons, List.not_mem_nil, or_false] at hmarker
    rcases hmarker with rfl | rfl <;> exact stops_cons.2 (by decide)

theorem Fraction.stops (h : Fraction cs) (hrest : Stops (fun c => c == '.' || c.isDigit) rest) :
    Stops Char.isDigit (cs ++ rest) := by
  cases h with
  | nothing => exact fun c hc => (Bool.or_eq_false_iff.1 (hrest c hc)).2
  | point => exact stops_cons.2 (by decide)

/-- The parts of a numeral without a sign are read one behind the other. -/
theorem Unsigned.read (h : Unsigned cs) : ∃ whole fraction exponent?, ∀ rest, Behind rest →
    ∃ text text', readWhole? (cs ++ rest) = some (whole, text) ∧ readFraction? text = some (fraction, text') ∧
      readExponent? text' = some (exponent?, rest) := by
  obtain @⟨whole, _, _, hwhole, hfraction, hexponent⟩ := h
  obtain ⟨fraction, hreadFraction⟩ := hfraction.read
  obtain ⟨exponent?, hreadExponent⟩ := hexponent.read
  refine ⟨whole, fraction, exponent?, fun rest hrest => ?_⟩
  have hbehind := hexponent.stops hrest
  refine ⟨_, _, ?_, hreadFraction _ hbehind, hreadExponent rest hrest⟩
  rw [List.append_assoc, List.append_assoc]
  exact hwhole.read (hfraction.stops hbehind)

theorem Unsigned.first (h : Unsigned cs) : ∃ c more, cs = c :: more ∧ c.isDigit = true := by
  obtain ⟨hwhole, -, -⟩ := h
  cases hwhole with
  | zero => exact ⟨'0', _, rfl, rfl⟩
  | leading h =>
    obtain ⟨d, more, rfl, -, hd, -⟩ := h
    exact ⟨d, _, rfl, hd⟩

/-- A numeral starts with a digit or with its sign. -/
theorem Spelled.first (h : Spelled cs) : ∃ c more, cs = c :: more ∧ (c = '-' ∨ c.isDigit = true) := by
  cases h with
  | positive h =>
    obtain ⟨c, more, hcs, hc⟩ := h.first
    exact ⟨c, more, hcs, .inr hc⟩
  | negative h => exact ⟨'-', _, rfl, .inl rfl⟩

/-- A numeral is read up to what stands behind it. -/
theorem Spelled.read (h : Spelled cs) : ∃ n, ∀ rest, Behind rest → read? (cs ++ rest) = some (n, rest) := by
  cases h with
  | positive h =>
    obtain ⟨whole, fraction, exponent?, hread⟩ := h.read
    obtain ⟨c, more, rfl, hc⟩ := h.first
    have hminus : c ≠ '-' := by rintro rfl; cases hc
    refine ⟨⟨false, whole, fraction, exponent?⟩, fun rest hrest => ?_⟩
    obtain ⟨text, text', h₁, h₂, h₃⟩ := hread rest hrest
    rw [List.cons_append] at h₁ ⊢
    simp [read?, hminus, h₁, h₂, h₃]
  | negative h =>
    obtain ⟨whole, fraction, exponent?, hread⟩ := h.read
    refine ⟨⟨true, whole, fraction, exponent?⟩, fun rest hrest => ?_⟩
    obtain ⟨text, text', h₁, h₂, h₃⟩ := hread rest hrest
    simp [read?, h₁, h₂, h₃]

end Numeral

end Json

end Formula
