import Formula.Proofs.DotSyntax
import Formula.Proofs.TotalOrder

/-!
# Medians

The median of some numbers is the middle one of them in total order, or half the sum of the two in the middle
(`Library.Middle`). Numbers have one order only (`Library.InOrder.unique`), so it does not matter in which order they
are given, nor whether they are the arguments of `median`, the elements of an array that is its argument, or those of an
array that `medianA` gets (`Node.MedianOf.evaluate_middle`).
-/

namespace Formula

open Double (Precedes rank rank_injective rank_le_iff)

namespace Library

/-! ## Numbers in order -/

/-- The numbers of a list in total order. -/
structure InOrder (xs ordered : List Double) : Prop where
  perm : ordered.Perm xs
  pairwise : ordered.Pairwise Precedes

theorem inOrder_sorted (xs : List Double) : InOrder xs (sorted xs) where
  perm := List.mergeSort_perm xs _
  pairwise := by
    have htrans : ∀ x y z : Double, decide (rank x ≤ rank y) = true → decide (rank y ≤ rank z) = true →
        decide (rank x ≤ rank z) = true := by
      simp only [decide_eq_true_iff]
      omega
    have htotal : ∀ x y : Double, (decide (rank x ≤ rank y) || decide (rank y ≤ rank x)) = true := by
      simp only [Bool.or_eq_true, decide_eq_true_iff]
      omega
    exact (List.pairwise_mergeSort htrans htotal xs).imp fun h => rank_le_iff.1 (of_decide_eq_true h)

/-- No other list holds the same numbers in order. -/
theorem InOrder.unique {xs ys ordered other : List Double} (h : InOrder xs ordered) (h' : InOrder ys other)
    (hperm : xs.Perm ys) : ordered = other := by
  refine List.Perm.eq_of_pairwise (fun x y _ _ hxy hyx => ?_) h.pairwise h'.pairwise
    (h.perm.trans (hperm.trans h'.perm.symm))
  exact rank_injective (Int.le_antisymm (rank_le_iff.2 hxy) (rank_le_iff.2 hyx))

/-! ## The middle -/

/-- The number in the middle of a list, or half the sum of the two in the middle. -/
inductive Middle (ordered : List Double) : Double → Prop
  | odd {x : Double} : ordered.length % 2 = 1 → ordered[ordered.length / 2]? = some x → Middle ordered x
  | even {x y : Double} : ordered.length % 2 = 0 → ordered[ordered.length / 2 - 1]? = some x →
      ordered[ordered.length / 2]? = some y → Middle ordered ((x + y) / 2)

theorem middle_median {xs : List Double} (h : xs ≠ []) : Middle (sorted xs) (median xs) := by
  have hpos : 0 < (sorted xs).length := by
    rw [(inOrder_sorted xs).perm.length_eq]
    exact List.length_pos_of_ne_nil h
  have hget : ∀ i, i < (sorted xs).length → (sorted xs)[i]? = some ((sorted xs).getD i 0) := by
    intro i hi
    rw [List.getD_eq_getElem?_getD, List.getElem?_eq_getElem hi, Option.getD_some]
  rw [median]
  split
  · next heven => exact .even heven (hget _ (by omega)) (hget _ (by omega))
  · next hodd => exact .odd (by omega) (hget _ (by omega))

/-- The median does not depend on the order in which the numbers are given. -/
theorem median_perm {xs ys : List Double} (h : ys.Perm xs) : median ys = median xs := by
  rw [median, median, (inOrder_sorted ys).unique (inOrder_sorted xs) h]

/-! ## The functions -/

theorem numbersOf_number (call : Call) (xs : List Double) : call.numbersOf (xs.map .number) = .ok xs := by
  induction xs with
  | nil => rfl
  | cons x xs ih =>
    rw [Call.numbersOf] at ih ⊢
    rw [List.map_cons, List.mapM_cons, ih]
    rfl

variable {xs : List Double}

theorem ofSome_number (f : List Double → Double) (name : String) (h : xs ≠ []) :
    ofSome f ⟨name, xs.map .number⟩ = .ok (.number (f xs)) := by
  cases xs with
  | nil => exact absurd rfl h
  | cons x xs =>
    rw [ofSome, Call.numbers, numbersOf_number]
    rfl

theorem ofSomeElements_array (f : List Double → Double) (name : String) (rest : List Value) (h : xs ≠ []) :
    ofSomeElements f ⟨name, .array (xs.map .number) :: rest⟩ = .ok (.number (f xs)) := by
  cases xs with
  | nil => exact absurd rfl h
  | cons x xs =>
    have harray : Call.array ⟨name, .array ((x :: xs).map .number) :: rest⟩ 0 = .ok ((x :: xs).map .number) := rfl
    have hnumbers : arrayNumbers ⟨name, .array ((x :: xs).map .number) :: rest⟩ = .ok (x :: xs) := by
      rw [arrayNumbers, harray]
      exact numbersOf_number _ _
    rw [ofSomeElements, hnumbers]
    rfl

end Library

open Library (InOrder Middle)

namespace Node

/-- The calls that ask for the median of some numbers, with the draws that the evaluation of their arguments leaves. -/
inductive MedianOf (reentry : Reentry) (draws : Draws) (xs : List Double) (call : Node) (draws' : Draws) : Prop
  /-- `median(a, b, c)` -/
  | separate : Calls reentry draws "median" (xs.map .number) call draws' → MedianOf reentry draws xs call draws'
  /-- `median([a, b, c])` -/
  | spread : Calls reentry draws "median" [.array (xs.map .number)] call draws' → MedianOf reentry draws xs call draws'
  /-- `medianA([a, b, c])` -/
  | elements : Calls reentry draws "medianA" [.array (xs.map .number)] call draws' →
      MedianOf reentry draws xs call draws'

section Rules

open Library (ofSome ofSomeElements median)

variable {reentry : Reentry} {draws draws' : Draws} {xs : List Double} {call : Node}

theorem Calls.evaluate_ofSome {values : List Value} (h : Calls reentry draws "median" values call draws')
    (harrange : ArgumentMode.spread.arrange values = xs.map .number) (hxs : xs ≠ []) :
    call.evaluate reentry none draws = .ok (.number (median xs)) draws' := by
  have hget : Evaluator.standard.symbols.get? "median" =
      some (.function "median" .spread (.ofPure (ofSome median))) := rfl
  rw [h.evaluate_eq hget rfl, harrange, FunctionRule.ofPure, Library.ofSome_number median _ hxs]
  rfl

/-- Whatever the form of the call, it has the median of the numbers for its value. -/
theorem MedianOf.evaluate_median (h : MedianOf reentry draws xs call draws') (hxs : xs ≠ []) :
    call.evaluate reentry none draws = .ok (.number (median xs)) draws' := by
  cases h with
  | separate h =>
    refine h.evaluate_ofSome ?_ hxs
    cases xs <;> rfl
  | spread h => exact h.evaluate_ofSome (List.append_nil _) hxs
  | elements h =>
    have hget : Evaluator.standard.symbols.get? "medianA" =
        some (.function "medianA" .exact (.ofPure (ofSomeElements median))) := rfl
    have harrange : ArgumentMode.exact.arrange [.array (xs.map .number)] = [.array (xs.map .number)] := rfl
    rw [h.evaluate_eq hget rfl, harrange, FunctionRule.ofPure, Library.ofSomeElements_array median _ _ hxs]
    rfl

end Rules

/-- All calls that ask for the median of the same numbers, in any order and form, have the same number for their value:
the middle one of the numbers in their only order, or half the sum of the two in the middle. -/
theorem MedianOf.evaluate_middle (reentry : Reentry) {xs : List Double} (hxs : xs ≠ []) :
    ∃ ordered m, InOrder xs ordered ∧ (∀ other, InOrder xs other → other = ordered) ∧ Middle ordered m ∧
      ∀ ys call draws draws', ys.Perm xs → MedianOf reentry draws ys call draws' →
        call.evaluate reentry none draws = .ok (.number m) draws' := by
  refine ⟨Library.sorted xs, Library.median xs, Library.inOrder_sorted xs, ?_, Library.middle_median hxs, ?_⟩
  · intro other hother
    exact hother.unique (Library.inOrder_sorted xs) (List.Perm.refl xs)
  · intro ys call draws draws' hperm hcall
    have hys : ys ≠ [] := fun h => hxs (List.nil_perm.1 (h ▸ hperm))
    rw [hcall.evaluate_median hys, Library.median_perm hperm]

/-- `median(NaN, 0, -NaN, -0, 1)` and `medianA([-0, -NaN, 1, NaN, 0])`, where `-NaN` has its sign bit set -/
theorem MedianOf.evaluate_middle_zeros :
    let reentry := Evaluator.standard.reentry 1
    let median : Head := ⟨.function "median" .spread (.ofPure (Library.ofSome Library.median)), none⟩
    let medianA : Head := ⟨.function "medianA" .exact (.ofPure (Library.ofSomeElements Library.median)), none⟩
    let leaf (x : Double) : Node := .leaf (.literal (.number x))
    let nan : Double := .nan .positive
    (Node.sequence median [leaf nan, leaf 0, leaf (-nan), leaf (-0.0), leaf 1]).evaluate reentry none default =
        .ok (.number 0) default ∧
      (Node.sequence medianA [.sequence .arrayBracket [leaf (-0.0), leaf (-nan), leaf 1, leaf nan, leaf 0]]).evaluate
          reentry none default = .ok (.number 0) default := by
  intro reentry median medianA leaf nan
  obtain ⟨ordered, m, -, hunique, hmiddle, h⟩ :=
    evaluate_middle reentry (List.cons_ne_nil nan [0, -nan, -0.0, 1])
  have hordered : [-nan, -0.0, 0, 1, nan] = ordered :=
    hunique _ ⟨by decide, by decide⟩
  subst hordered
  have hm : m = 0 := by
    cases hmiddle with
    | odd _ hget => simpa using hget.symm
    | even heven => exact absurd heven (by simp)
  rw [hm] at h
  refine ⟨?_, ?_⟩
  · exact h _ _ _ _ (List.Perm.refl _) (.separate (.plain rfl rfl))
  · exact h [-0.0, -nan, 1, nan, 0] _ _ _ (by decide) (.elements (.plain rfl rfl))

end Node

end Formula
