import Formula.Proofs.DotSyntax
import Formula.Proofs.WholeNumbers

/-!
# Slices

`sliceA` gives the elements of an array from one bound up to another. A bound that is an integer stands for an index
(`Library.resolved`): a negative one counts from the end, and none leaves the array. The slice is then the elements with
the indices in between (`Node.Calls.evaluate_slice`), and the elements in front of a bound with those from it on are the
whole array.

The bounds are doubles, so the index of a negative one is a sum of doubles. It is exact as long as neither the length of
the array nor the bound exceeds `2 ^ 53` (`Library.Bound`); a bound that is not negative may be any integer.
-/

namespace Formula

open Number (Denotes)

namespace Library

/-! ## Indices -/

/-- The index that an integer stands for in an array of this length. -/
def resolved (length : Nat) (k : Int) : Int := if k < 0 then max 0 (length + k) else min k length

theorem resolved_zero (length : Nat) : resolved length 0 = 0 := by
  rw [resolved, if_neg (Int.lt_irrefl 0)]
  omega

/-- A double that is an integer, and a negative one only where doubles are all integers. -/
structure Bound (length : Nat) (x : Double) (k : Int) : Prop where
  denotes : Denotes x.toFloat k
  exact : k < 0 → -0x20000000000000 ≤ k ∧ length ≤ 0x20000000000000

theorem resolved_nonneg (length : Nat) (k : Int) : 0 ≤ resolved length k := by
  rw [resolved]
  split <;> omega

/-- Whatever the double is, its index is not behind the end of the array. -/
theorem sliceIndex_le (length : Nat) (x : Float) : sliceIndex length x ≤ length := Number.wholeUpTo_le length _

/-- The index of a bound is that of its integer. -/
theorem Bound.sliceIndex_eq {length : Nat} {x : Double} {k : Int} (h : Bound length x k) :
    (sliceIndex length x.toFloat : Int) = resolved length k := by
  rw [sliceIndex, resolved, h.denotes.truncate]
  by_cases hk : k < 0
  · obtain ⟨hleast, hlength⟩ := h.exact hk
    have hsum : Denotes (Float.ofNat length + x.toFloat) (length + k) :=
      (Number.denotes_ofNat hlength).add h.denotes (by omega)
    rw [if_pos (h.denotes.lt_zero.2 hk), if_pos hk, hsum.wholeUpTo]
    omega
  · rw [if_neg (fun hx => hk (h.denotes.lt_zero.1 hx)), if_neg hk, h.denotes.wholeUpTo]
    omega

/-! ## Elements -/

/-- The elements with an index from `start` on and below `stop`. -/
def between {α : Type} (items : List α) (start stop : Int) : List α :=
  (items.zipIdx.filter fun element => start ≤ element.2 ∧ element.2 < stop).map Prod.fst

/-- The elements from an index on, which are numbered from `n` on. -/
theorem filter_zipIdx {α : Type} (start stop : Nat) : ∀ (items : List α) (n : Nat),
    ((items.zipIdx n).filter fun element => (start : Int) ≤ element.2 ∧ (element.2 : Int) < stop).map Prod.fst =
      (items.drop (start - n)).take (stop - max start n)
  | [], n => by simp
  | x :: items, n => by
    rw [List.zipIdx_cons, List.filter_cons]
    rcases Nat.lt_or_ge n start with hlt | hge
    · -- in front of the slice
      obtain ⟨d, hd⟩ : ∃ d, start - n = d + 1 := ⟨start - n - 1, by omega⟩
      have hmax : max start (n + 1) = max start n := by omega
      have hdrop : start - (n + 1) = d := by omega
      rw [if_neg (by simp; omega), filter_zipIdx start stop items (n + 1), hmax, hdrop, hd, List.drop_succ_cons]
    · have hdrop : start - n = 0 := by omega
      have hdrop' : start - (n + 1) = 0 := by omega
      rcases Nat.lt_or_ge n stop with hlt | hge'
      · obtain ⟨t, ht⟩ : ∃ t, stop - max start n = t + 1 := ⟨stop - max start n - 1, by omega⟩
        have htake : stop - max start (n + 1) = t := by omega
        rw [if_pos (by simp; omega), List.map_cons, filter_zipIdx start stop items (n + 1), hdrop, hdrop', ht, htake]
        rfl
      · -- behind the slice
        have htake : stop - max start n = 0 := by omega
        have htake' : stop - max start (n + 1) = 0 := by omega
        rw [if_neg (by simp; omega), filter_zipIdx start stop items (n + 1), htake, htake', List.take_zero,
          List.take_zero]

/-- The slice is made of the elements between the indices. -/
theorem slice_eq_between (items : List Value) (start stop : Nat) :
    slice items start stop = between items start stop := by
  have h := filter_zipIdx start stop items 0
  rw [Nat.sub_zero, Nat.max_zero] at h
  exact h.symm

variable {items : List Value}

theorem between_eq_nil {i j : Int} (h : resolved items.length j ≤ resolved items.length i) :
    between items (resolved items.length i) (resolved items.length j) = [] := by
  rw [between, List.map_eq_nil_iff, List.filter_eq_nil_iff]
  simp
  omega

/-- An index cuts the array in two. -/
theorem between_append {k : Int} :
    between items 0 (resolved items.length k) ++ between items (resolved items.length k) items.length = items := by
  obtain ⟨n, hn⟩ := Int.eq_ofNat_of_zero_le (resolved_nonneg items.length k)
  rw [hn]
  rw [← Int.natCast_zero, ← slice_eq_between, ← slice_eq_between, slice, slice, List.drop_zero, Nat.sub_zero,
    List.take_of_length_le (Nat.le_of_eq List.length_drop), List.take_append_drop]

end Library

namespace Node

open Library (Bound resolved between sliceRule sliceIndex)

variable {reentry : Reentry} {items : List Value}

/-- The calls of `sliceA` with this array and these bounds have the elements for their value. -/
def Slices (reentry : Reentry) (items : List Value) (bounds : List Double) (elements : List Value) : Prop :=
  ∀ call draws draws', Calls reentry draws "sliceA" (.array items :: bounds.map .number) call draws' →
    call.evaluate reentry none draws = .ok (.array elements) draws'

theorem slices_of_rule {bounds : List Double} {elements : List Value}
    (h : sliceRule ⟨"sliceA", .array items :: bounds.map .number⟩ = .ok (.array elements)) :
    Slices reentry items bounds elements := by
  intro call draws draws' hcall
  have hget : Evaluator.standard.symbols.get? "sliceA" = some (.function "sliceA" .exact (.ofPure sliceRule)) := rfl
  have hrule : sliceRule ⟨"sliceA", ArgumentMode.exact.arrange (.array items :: bounds.map .number)⟩ =
      .ok (.array elements) := h
  rw [hcall.evaluate_eq hget rfl, FunctionRule.ofPure]
  simp only [Symbol.function, hrule]
  rfl

variable {x y : Double} {i j : Int}

theorem slices_both (hx : Bound items.length x i) (hy : Bound items.length y j) :
    Slices reentry items [x, y] (between items (resolved items.length i) (resolved items.length j)) := by
  rw [← hx.sliceIndex_eq, ← hy.sliceIndex_eq, ← Library.slice_eq_between]
  exact slices_of_rule rfl

theorem slices_start (hx : Bound items.length x i) :
    Slices reentry items [x] (between items (resolved items.length i) items.length) := by
  rw [← hx.sliceIndex_eq, ← Library.slice_eq_between]
  exact slices_of_rule rfl

theorem slices_none : Slices reentry items [] (between items 0 items.length) := by
  rw [← Int.natCast_zero, ← Library.slice_eq_between]
  exact slices_of_rule rfl

/-- A slice has the elements with the indices from the first bound up to the second one, which are none where the bounds
cross. A bound that is missing is the start or the end of the array, and no bound leaves it. So the elements in front of
a bound and those from it on are the whole array. -/
theorem slices_between (reentry : Reentry) (hx : Bound items.length x i) (hy : Bound items.length y j) :
    let r := resolved items.length
    Slices reentry items [x, y] (between items (r i) (r j)) ∧
      (r j ≤ r i → between items (r i) (r j) = []) ∧
      Slices reentry items [x] (between items (r i) items.length) ∧
      Slices reentry items [] (between items 0 items.length) ∧
      (∀ bound, sliceIndex items.length bound ≤ items.length) ∧
      ∀ zero : Double, Denotes zero.toFloat 0 → ∃ front back, Slices reentry items [zero, x] front ∧
        Slices reentry items [x] back ∧ front ++ back = items := by
  refine ⟨slices_both hx hy, Library.between_eq_nil, slices_start hx, slices_none,
    Library.sliceIndex_le items.length, ?_⟩
  intro zero hzero
  have hz : Bound items.length zero 0 := ⟨hzero, fun h => absurd h (Int.lt_irrefl 0)⟩
  refine ⟨_, _, slices_both hz hx, slices_start hx, ?_⟩
  rw [Library.resolved_zero, Library.between_append]

/-- `sliceA([1, 2, 3], -2, 2)` -/
theorem slices_between_middle :
    let reentry := Evaluator.standard.reentry 1
    let sliceA : Head := ⟨.function "sliceA" .exact (.ofPure sliceRule), none⟩
    let items : List Value := [.number 1, .number 2, .number 3]
    let call : Node := .sequence sliceA (Value.nodes [.array items, .number (-2), .number 2])
    Bound items.length (-2) (-2) ∧ Bound items.length 2 2 ∧
      call.evaluate reentry none default = .ok (.array [.number 2]) default := by
  intro reentry sliceA items call
  have hx : Bound items.length (-2) (-2) := by
    refine ⟨Number.denotes_iff.2 ?_, by decide⟩
    show ((-((0x10000000000000 : Nat) : Int) : Int) : ℚ) * 2 ^ (-51 : Int) = (-2 : Int)
    norm_num
  have hy : Bound items.length 2 2 := ⟨Number.denotes_ofNat (by decide), by decide⟩
  exact ⟨hx, hy, (slices_between reentry hx hy).1 call default default (.plain rfl rfl)⟩

end Node

end Formula
