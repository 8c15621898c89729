import Mathlib

/-!
# The order of bytes

Texts are ordered by their characters, and the bytes that encode them are in the same order (`compare_bytes`). Of two
characters the smaller one has the smaller encoding: its first byte is smaller, or else the encodings are equally long
and agree in their first byte, which says how long they are, and the bytes behind it are the digits of a number in base
64 (`continuation_lt`). The bytes of the characters that follow are then not looked at.
-/

namespace Formula.Text

/-- The bytes that encode a text. -/
def bytes (s : String) : List UInt8 := s.toUTF8.data.toList

theorem bytes_eq (s : String) : bytes s = s.toList.flatMap String.utf8EncodeChar := by
  conv_lhs => rw [bytes, String.toUTF8_eq_toByteArray, ← String.ofList_toList (s := s), String.toByteArray_ofList]
  exact List.toList_data_toByteArray

/-! ## Characters -/

/-- The bytes behind the first one: the last `k` digits of the number in base 64. -/
def continuation (v : Nat) : (k : Nat) → List UInt8
  | 0 => []
  | k + 1 => UInt8.ofNat (v / 64 ^ k % 64 + 128) :: continuation v k

theorem toNat_byte {n : Nat} (h : n < 256) : (UInt8.ofNat n).toNat = n := by
  rw [UInt8.toNat_ofNat', Nat.mod_eq_of_lt h]

theorem byte_lt {m n : Nat} (hn : n < 256) (h : m < n) : UInt8.ofNat m < UInt8.ofNat n := by
  rw [UInt8.lt_iff_toNat_lt, toNat_byte (h.trans hn), toNat_byte hn]
  exact h

/-- Digits are ordered as their numbers. -/
theorem continuation_lt (xs ys : List UInt8) {v w : Nat} : ∀ {k : Nat}, v % 64 ^ k < w % 64 ^ k →
    continuation v k ++ xs < continuation w k ++ ys
  | 0, h => by
    rw [pow_zero, Nat.mod_one, Nat.mod_one] at h
    exact absurd h (Nat.lt_irrefl 0)
  | k + 1, h => by
    rw [Nat.mod_pow_succ, Nat.mod_pow_succ] at h
    have hdigit : w / 64 ^ k % 64 < 64 := Nat.mod_lt _ (by decide)
    have hrest : w % 64 ^ k < 64 ^ k := Nat.mod_lt _ (by positivity)
    show _ :: (continuation v k ++ xs) < _ :: (continuation w k ++ ys)
    rw [List.cons_lt_cons_iff]
    rcases Nat.lt_trichotomy (v / 64 ^ k % 64) (w / 64 ^ k % 64) with hlt | heq | hgt
    · exact .inl (byte_lt (by omega) (by omega))
    · refine .inr ⟨by rw [heq], continuation_lt xs ys ?_⟩
      rw [heq] at h
      exact Nat.lt_of_add_lt_add_right h
    · have hmul := Nat.mul_le_mul_left (64 ^ k) hgt
      rw [Nat.mul_succ] at hmul
      omega

/-- Numbers of the same length are ordered by what is in front of the digits, and then by the digits. -/
theorem lead_lt (xs ys : List UInt8) {v w k marker : Nat} (h : v < w) (hbyte : w / 64 ^ k + marker < 256) :
    UInt8.ofNat (v / 64 ^ k + marker) :: (continuation v k ++ xs) <
      UInt8.ofNat (w / 64 ^ k + marker) :: (continuation w k ++ ys) := by
  rw [List.cons_lt_cons_iff]
  rcases Nat.lt_or_eq_of_le (Nat.div_le_div_right (c := 64 ^ k) h.le) with hlt | heq
  · exact .inl (byte_lt hbyte (Nat.add_lt_add_right hlt marker))
  · refine .inr ⟨by rw [heq], continuation_lt xs ys ?_⟩
    have hv := Nat.div_add_mod v (64 ^ k)
    have hw := Nat.div_add_mod w (64 ^ k)
    rw [heq] at hv
    omega

/-- The encoding of a character: a first byte, which says by its range how many digits follow, and the digits. -/
inductive Encodes (v : Nat) : List UInt8 → Prop
  | one : v < 0x80 → Encodes v (UInt8.ofNat (v / 64 ^ 0 + 0) :: continuation v 0)
  | two : 0x80 ≤ v → v < 0x800 → Encodes v (UInt8.ofNat (v / 64 ^ 1 + 0xc0) :: continuation v 1)
  | three : 0x800 ≤ v → v < 0x10000 → Encodes v (UInt8.ofNat (v / 64 ^ 2 + 0xe0) :: continuation v 2)
  | four : 0x10000 ≤ v → v < 0x110000 → Encodes v (UInt8.ofNat (v / 64 ^ 3 + 0xf0) :: continuation v 3)

theorem encodes (c : Char) : Encodes c.val.toNat (String.utf8EncodeChar c) := by
  have hvalid : c.val.toNat < 0x110000 := by
    rcases c.valid with h | ⟨-, h⟩
    · exact h.trans (by decide)
    · exact h
  unfold String.utf8EncodeChar
  dsimp only
  generalize c.val.toNat = v at hvalid
  split_ifs with h₁ h₂ h₃
  · simpa [continuation] using Encodes.one (v := v) (by omega)
  · rw [Nat.mod_eq_of_lt (by omega)]
    simpa [continuation] using Encodes.two (v := v) (by omega) (by omega)
  · rw [Nat.mod_eq_of_lt (a := v / 4096) (by omega)]
    simpa [continuation] using Encodes.three (v := v) (by omega) (by omega)
  · rw [Nat.mod_eq_of_lt (a := v / 262144) (by omega)]
    simpa [continuation] using Encodes.four (v := v) (by omega) (by omega)

/-- The smaller number has the smaller encoding, whatever follows. -/
theorem Encodes.lt {v w : Nat} {a b : List UInt8} (ha : Encodes v a) (hb : Encodes w b) (h : v < w)
    (xs ys : List UInt8) : a ++ xs < b ++ ys := by
  cases ha with
  | one => cases hb with
    | one => exact lead_lt (k := 0) xs ys h (by omega)
    | two | three | four => exact List.cons_lt_cons_iff.2 (.inl (byte_lt (by omega) (by omega)))
  | two => cases hb with
    | one => omega
    | two => exact lead_lt (k := 1) xs ys h (by omega)
    | three | four => exact List.cons_lt_cons_iff.2 (.inl (byte_lt (by omega) (by omega)))
  | three => cases hb with
    | one | two => omega
    | three => exact lead_lt (k := 2) xs ys h (by omega)
    | four => exact List.cons_lt_cons_iff.2 (.inl (byte_lt (by omega) (by omega)))
  | four => cases hb with
    | one | two | three => omega
    | four => exact lead_lt (k := 3) xs ys h (by omega)

/-! ## Texts -/

theorem flatMap_lt {cs ds : List Char} (h : cs < ds) :
    cs.flatMap String.utf8EncodeChar < ds.flatMap String.utf8EncodeChar := by
  induction show List.Lex (· < ·) cs ds from h with
  | @nil d ds =>
    obtain ⟨first, rest, hd⟩ := List.exists_cons_of_ne_nil (String.utf8EncodeChar_ne_nil (c := d))
    rw [List.flatMap_nil, List.flatMap_cons, hd]
    exact .nil
  | rel hchars => exact (encodes _).lt (encodes _) hchars _ _
  | cons hrest ih => exact List.append_left_lt (ih hrest)

/-- Lists of bytes are compared as they are ordered. -/
theorem compare_eq_lt : ∀ {l m : List UInt8}, l < m → compare l m = .lt
  | _, _, .nil => rfl
  | x :: _, y :: _, .rel h => by
    have hxy : compare x y = .lt := compareOfLessAndEq_eq_lt.2 h
    rw [List.compare_cons_cons, hxy]
    rfl
  | x :: _, _, .cons h => by
    rw [List.compare_cons_cons, @Std.ReflCmp.compare_self _ compare _ x, compare_eq_lt h]
    rfl

/-- The bytes of texts are ordered as the texts are. -/
theorem compare_bytes (s t : String) : compare (bytes s) (bytes t) = compare s t := by
  have hlt {s t : String} (h : s < t) : compare (bytes s) (bytes t) = .lt ∧ compare s t = .lt := by
    refine ⟨?_, compareOfLessAndEq_eq_lt.2 h⟩
    rw [bytes_eq, bytes_eq]
    exact compare_eq_lt (flatMap_lt (String.lt_iff_toList_lt.1 h))
  rcases lt_trichotomy s t with h | rfl | h
  · rw [(hlt h).1, (hlt h).2]
  · rw [@Std.ReflCmp.compare_self _ compare, @Std.ReflCmp.compare_self _ compare]
  · rw [Std.OrientedOrd.eq_swap, (hlt h).1, Std.OrientedOrd.eq_swap (a := s), (hlt h).2]

end Formula.Text
