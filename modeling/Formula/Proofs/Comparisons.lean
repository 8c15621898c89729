import Formula.Proofs.ByteOrder
import Formula.Proofs.Evaluations
import Formula.Proofs.TotalOrder

/-!
# Comparisons

Two numbers or two strings can be compared, and nothing else (`Value.order_eq_error_iff`). The operators for it all take
the one comparison and differ in the orders that they accept (`Node.gives_comparison`). Strings are ordered by the bytes
that encode them, a total order in which only equal strings are equal, so of `<`, `==` and `>` one is true of two
strings. Numbers without an order, of which one is `NaN`, compare false (`Value.orderNumbers_of_isNaN`).
-/

namespace Formula

namespace Value

/-! ## Values that can be compared -/

/-- Two numbers or two strings. -/
inductive Comparable : Value → Value → Prop
  | numbers (x y : Double) : Comparable (.number x) (.number y)
  | strings (s t : String) : Comparable (.string s) (.string t)

/-- The kind that a value asks what it is compared with to have. -/
def counterpart : Value → String
  | .number _ => "number"
  | .string _ => "string"
  | .array _ => "number or string"

/-- The value at fault where two values cannot be compared: an array in the first place, or else what is in the second
one. -/
def atFault (a b : Value) : Value := if a.isArray then a else b

/-- Why two values cannot be compared. -/
def incomparable (operation : String) (a b : Value) : EvalError :=
  .typeMismatch operation a.counterpart (atFault a b).kindName

theorem order_eq_error_iff {operation : String} {a b : Value} {e : EvalError} :
    a.order operation b = .error e ↔ ¬ Comparable a b ∧ e = incomparable operation a b := by
  have hok {order? : Option Ordering} (hab : Comparable a b) :
      Except.ok order? = Except.error e ↔ ¬ Comparable a b ∧ e = incomparable operation a b :=
    ⟨nofun, fun h => absurd hab h.1⟩
  have herror (hab : ¬ Comparable a b) : (Except.error (incomparable operation a b) : Except _ (Option Ordering)) =
      .error e ↔ ¬ Comparable a b ∧ e = incomparable operation a b := by
    rw [Except.error.injEq, eq_comm]
    exact (and_iff_right hab).symm
  cases a with
  | number x => cases b with
    | number y => exact hok (.numbers x y)
    | string | array => exact herror nofun
  | string s => cases b with
    | string t => exact hok (.strings s t)
    | number | array => exact herror nofun
  | array items => exact herror nofun

/-- Strings are compared by their bytes. -/
theorem order_strings (operation s t : String) :
    order operation (.string s) (.string t) = .ok (some (compare (Text.bytes s) (Text.bytes t))) := by
  rw [Text.compare_bytes]
  rfl

theorem orderNumbers_of_isNaN {x y : Double} (h : x.isNaN = true ∨ y.isNaN = true) : orderNumbers x y = none := by
  have hne : (x == y) = false := by
    show (x.toFloat.toModel.unpack.compare y.toFloat.toModel.unpack == some .eq) = false
    rw [← Double.isNaN_toFloat, ← Double.isNaN_toFloat] at h
    rcases h with h | h <;> rw [Number.isNaN_iff.1 h]
    · rfl
    · cases x.toFloat.toModel.unpack <;> rfl
  rw [orderNumbers, if_neg (Double.not_lt_nan h), hne, if_neg (by decide), if_neg (Double.not_lt_nan h.symm)]

/-! ## The order of strings -/

/-- The first string is compared as smaller than the second one or equal to it. -/
def AtMost (s t : String) : Prop :=
  ∃ o, (∀ operation, order operation (.string s) (.string t) = .ok (some o)) ∧ o ≠ .gt

theorem atMost_iff {s t : String} : AtMost s t ↔ s ≤ t := by
  rw [← not_lt, ← compare_gt_iff_gt]
  constructor
  · rintro ⟨o, horder, ho⟩ hgt
    have h : Except.ok (some o) = Except.ok (some (compare s t)) := (horder "").symm
    rw [Except.ok.injEq, Option.some.injEq, hgt] at h
    exact ho h
  · exact fun h => ⟨compare s t, fun _ => rfl, h⟩

theorem order_eq_iff_same {operation s t : String} :
    order operation (.string s) (.string t) = .ok (some .eq) ↔ same (.string s) (.string t) = true := by
  show Except.ok (some (compare s t)) = .ok (some .eq) ↔ (s == t) = true
  rw [Except.ok.injEq, Option.some.injEq, compare_eq_iff_eq, beq_iff_eq]

/-- Of two strings one is smaller, or they are the same. -/
theorem count_orders (s t : String) :
    [compare s t == .lt, same (.string s) (.string t), compare s t == .gt].count true = 1 := by
  have hsame : same (.string s) (.string t) = (compare s t == .eq) := by
    show (s == t) = _
    rw [Bool.eq_iff_iff, beq_iff_eq, beq_iff_eq, compare_eq_iff_eq]
  rw [hsame]
  cases compare s t <;> rfl

end Value

namespace Node

/-! ## Operators -/

/-- The operators that compare. -/
def orderings : List String := ["<", "<=", ">", ">="]

/-- The library's operator of this spelling has this result between operands that have these values, whatever the
operands are. -/
def Gives (reentry : Reentry) (op : String) (a b : Value) (result : Except EvalError Value) : Prop :=
  ∃ s, Evaluator.standard.symbols.get? op = some s ∧ ∀ x y draws draws₁ draws₂,
    x.evaluate reentry none draws = .ok a draws₁ → y.evaluate reentry none draws₁ = .ok b draws₂ →
      (Node.binary ⟨s, none⟩ x y).evaluate reentry none draws = EvalM.ofExcept result draws₂

/-- The operator has a truth value. -/
def Holds (reentry : Reentry) (op : String) (a b : Value) (truth : Bool) : Prop :=
  Gives reentry op a b (.ok (.ofBool truth))

section Operators

variable {reentry : Reentry} {op : String} {a b : Value}

/-- A comparison is true if it accepts the order of the values. -/
theorem gives_comparison (reentry : Reentry) (a b : Value) {accepts : Ordering → Bool}
    (hs : Evaluator.standard.symbols.get? op = some (.binary op .relational (Library.comparison accepts))) :
    Gives reentry op a b ((a.order op b).map fun order? => .ofBool (order?.any accepts)) := by
  refine ⟨_, hs, fun x y draws draws₁ draws₂ hx hy => ?_⟩
  show ((x.evaluate reentry none >>= fun a => y.evaluate reentry none >>= fun b =>
    EvalM.ofExcept (a.order op b) >>= fun order? => pure (.ofBool (order?.any accepts))) : EvalM Value) draws = _
  simp only [bind, EStateM.bind, hx, hy]
  cases a.order op b <;> rfl

theorem holds_equals : Holds reentry "==" a b (a.same b) := by
  refine ⟨.binary "==" .relational Library.equals, rfl, fun x y draws draws₁ draws₂ hx hy => ?_⟩
  show ((x.evaluate reentry none >>= fun a => y.evaluate reentry none >>= fun b =>
    pure (.ofBool (a.same b))) : EvalM Value) draws = _
  simp only [bind, EStateM.bind, hx, hy]
  rfl

/-- Each of the operators that compare accepts some orders. -/
theorem exists_accepts (h : op ∈ orderings) : ∃ accepts,
    Evaluator.standard.symbols.get? op = some (.binary op .relational (Library.comparison accepts)) := by
  simp only [orderings, List.mem_cons, List.not_mem_nil, or_false] at h
  rcases h with rfl | rfl | rfl | rfl
  · exact ⟨_, rfl⟩
  · exact ⟨_, rfl⟩
  · exact ⟨_, rfl⟩
  · exact ⟨_, rfl⟩

theorem holds_of_order {accepts : Ordering → Bool} {order? : Option Ordering}
    (hs : Evaluator.standard.symbols.get? op = some (.binary op .relational (Library.comparison accepts)))
    (horder : a.order op b = .ok order?) : Holds reentry op a b (order?.any accepts) := by
  have h := gives_comparison reentry a b hs
  rw [horder] at h
  exact h

end Operators

open Value (Comparable AtMost incomparable order_eq_error_iff order_strings order_eq_iff_same atMost_iff)

/-- Comparing fails exactly for values that are not both numbers or both strings, and so do the operators. Strings are
compared by their bytes, which is a total order whose equality is that of `==`: of two strings one of `<`, `==` and `>`
is true, and `<=` and `>=` are true where `>` and `<` are false. Where a number is `NaN`, no comparison is true. -/
theorem comparisons_coherent (reentry : Reentry) :
    (∀ operation a b e, Value.order operation a b = .error e ↔
      ¬ Comparable a b ∧ e = incomparable operation a b) ∧
    (∀ op ∈ orderings, ∀ a b, ¬ Comparable a b → Gives reentry op a b (.error (incomparable op a b))) ∧
    (∀ operation s t, Value.order operation (.string s) (.string t) =
      .ok (some (compare (Text.bytes s) (Text.bytes t)))) ∧
    (∀ operation s t, Value.order operation (.string s) (.string t) = .ok (some .eq) ↔
      Value.same (.string s) (.string t) = true) ∧
    ((∀ s t, AtMost s t → AtMost t s → s = t) ∧ (∀ s t u, AtMost s t → AtMost t u → AtMost s u) ∧
      ∀ s t, AtMost s t ∨ AtMost t s) ∧
    (∀ s t, ∃ less equal greater, Holds reentry "<" (.string s) (.string t) less ∧
      Holds reentry "==" (.string s) (.string t) equal ∧ Holds reentry ">" (.string s) (.string t) greater ∧
      [less, equal, greater].count true = 1 ∧ Holds reentry "<=" (.string s) (.string t) (!greater) ∧
      Holds reentry ">=" (.string s) (.string t) (!less)) ∧
    ∀ x y : Double, x.isNaN = true ∨ y.isNaN = true →
      ∀ op ∈ orderings, Holds reentry op (.number x) (.number y) false := by
  refine ⟨fun _ _ _ _ => order_eq_error_iff, fun op hop a b hab => ?_, order_strings, fun _ _ _ => order_eq_iff_same,
    ⟨fun s t => ?_, fun s t u => ?_, fun s t => ?_⟩, fun s t => ?_, fun x y hnan op hop => ?_⟩
  · obtain ⟨accepts, hs⟩ := exists_accepts hop
    have h := gives_comparison reentry a b hs
    rw [order_eq_error_iff.2 ⟨hab, rfl⟩] at h
    exact h
  · simpa only [atMost_iff] using le_antisymm
  · simpa only [atMost_iff] using le_trans
  · simpa only [atMost_iff] using le_total s t
  · have horder (op : String) : Value.order op (.string s) (.string t) = .ok (some (compare s t)) := rfl
    exact ⟨_, _, _, holds_of_order rfl (horder "<"), holds_equals, holds_of_order rfl (horder ">"),
      Value.count_orders s t, holds_of_order rfl (horder "<="), holds_of_order rfl (horder ">=")⟩
  · obtain ⟨accepts, hs⟩ := exists_accepts hop
    have horder : Value.order op (.number x) (.number y) = .ok none := by
      rw [Value.order, Value.orderNumbers_of_isNaN hnan]
    exact holds_of_order hs horder

/-- `"z" < "é"`, of which the second one starts with the larger byte, `[] > "a"` and `0/0 <= 1`. -/
theorem comparisons_coherent_cases :
    let reentry := Evaluator.standard.reentry 1
    Value.order "<" (.string "z") (.string "é") = .ok (some .lt) ∧
      Gives reentry ">" (.array []) (.string "a") (.error (.typeMismatch ">" "number or string" "array")) ∧
      Holds reentry "<=" (.number (0.0 / 0.0)) (.number 1) false := by
  intro reentry
  obtain ⟨-, hfails, hbytes, -, -, -, hnan⟩ := comparisons_coherent reentry
  refine ⟨?_, hfails ">" (by decide) _ _ nofun, hnan _ 1 (.inl (by decide)) "<=" (by decide)⟩
  rw [hbytes]
  decide

end Node

end Formula
