import Formula.Proofs.DotSyntax

/-!
# Arguments in an array

A function that spreads an array in the first place gets the same arguments whether they are written one by one, or some
of them from the first one on in an array, which may stand before a dot as well (`SpreadForm`). In every form the
expressions are evaluated from left to right and the function is called with all their values
(`SpreadForm.evaluate_eq`), so the forms have the same value or fail alike (`SpreadForm.evaluate_congr`). Where the
arguments are written one by one the first of them must not be an array itself, since it would be spread.
-/

namespace Formula

/-! ## Values of several items -/

/-- The items of two lists are evaluated one list after the other. -/
theorem Operands.itemValues_append (xs ys : List (EvalM Value)) :
    itemValues (xs ++ ys) = itemValues xs >>= fun vs => itemValues ys >>= fun ws => pure (vs ++ ws) := by
  induction xs with
  | nil =>
    simp only [List.nil_append, itemValues, pure_bind, List.nil_append]
    exact (bind_pure (itemValues ys)).symm
  | cons x xs ih => simp only [List.cons_append, itemValues, ih, bind_assoc, pure_bind, List.cons_append]

namespace Node

variable {reentry : Reentry} {s : Symbol} {rule : FunctionRule} {items first rest : List Node}

theorem evaluateAll_append (first rest : List Node) :
    evaluateAll reentry (first ++ rest) = evaluateAll reentry first ++ evaluateAll reentry rest := by
  induction first with
  | nil => rfl
  | cons a first ih => simp only [List.cons_append, evaluateAll, ih]

/-! ## Forms of a call -/

/-- The ways to write a call of a function with these arguments. -/
inductive SpreadForm (head : Head) (items : List Node) : Node → Prop
  /-- One by one: `f(a, b, c)` -/
  | separate : SpreadForm head items (.sequence head items)
  /-- The first of them in an array: `f([a, b], c)` -/
  | leading (first rest : List Node) : items = first ++ rest →
      SpreadForm head items (.sequence head (.sequence .arrayBracket first :: rest))
  /-- The first of them in an array before a dot: `[a, b].f(c)` -/
  | dot (first rest : List Node) : items = first ++ rest →
      SpreadForm head items (.binary .dot (.sequence .arrayBracket first) (.sequence head rest))

/-- The function on the values of its arguments. -/
def onValues (reentry : Reentry) (s : Symbol) (rule : FunctionRule) (items : List Node) : EvalM Value := do
  let values ← Operands.itemValues (evaluateAll reentry items)
  rule reentry ⟨s.id, values⟩

theorem evaluate_array (items : List Node) : (Node.sequence .arrayBracket items).evaluate reentry none =
    Operands.itemValues (evaluateAll reentry items) >>= fun values => pure (.array values) := rfl

/-- What is in the array in the first place is spread. -/
theorem evaluate_leading (hk : s.kind = .function rule .spread) (first rest : List Node) :
    (Node.sequence ⟨s, none⟩ (.sequence .arrayBracket first :: rest)).evaluate reentry none =
      onValues reentry s rule (first ++ rest) := by
  rw [evaluate_function hk]
  simp only [onValues, evaluateAll, evaluateAll_append, Operands.itemValues, Operands.itemValues_append, evaluate_array,
    bind_assoc, pure_bind]
  rfl

/-- Before a dot the array is the first argument. -/
theorem evaluate_array_dot (hk : s.kind = .function rule .spread) (first rest : List Node) :
    (Node.binary .dot (.sequence .arrayBracket first) (.sequence ⟨s, none⟩ rest)).evaluate reentry none =
      onValues reentry s rule (first ++ rest) := by
  rw [evaluate_dot reentry hk rfl]
  exact evaluate_leading hk first rest

/-- Nothing is spread where the first argument is no array. -/
theorem evaluate_separate (hk : s.kind = .function rule .spread) {draws : Draws}
    (hfirst : ∀ a rest, items = a :: rest → ∀ v draws', a.evaluate reentry none draws = .ok v draws' →
      v.isArray = false) :
    (Node.sequence ⟨s, none⟩ items).evaluate reentry none draws = onValues reentry s rule items draws := by
  rw [evaluate_function hk, onValues]
  cases items with
  | nil => rfl
  | cons a rest =>
    simp only [evaluateAll, Operands.itemValues, bind_assoc, pure_bind]
    cases ha : a.evaluate reentry none draws with
    | error stop draws₁ => simp only [bind, EStateM.bind, ha]
    | ok v draws₁ =>
      have hv := hfirst a rest rfl v draws₁ ha
      have harrange : ∀ vs, ArgumentMode.spread.arrange (v :: vs) = v :: vs := by
        intro vs
        cases v with
        | array items => cases hv
        | number x => rfl
        | string t => rfl
      simp only [bind, EStateM.bind, ha, harrange]

/-- In every form the arguments are evaluated from left to right, and the function is called with all their values. -/
theorem SpreadForm.evaluate_eq (hk : s.kind = .function rule .spread) {draws : Draws}
    (hfirst : ∀ a rest, items = a :: rest → ∀ v draws', a.evaluate reentry none draws = .ok v draws' →
      v.isArray = false) {a : Node} (ha : SpreadForm ⟨s, none⟩ items a) :
    a.evaluate reentry none draws = onValues reentry s rule items draws := by
  cases ha with
  | separate => exact evaluate_separate hk hfirst
  | leading first rest h => rw [evaluate_leading hk, h]
  | dot first rest h => rw [evaluate_array_dot hk, h]

/-- All forms of a call of a function that spreads an array have the same value or fail alike, if the first argument,
where there is one, has no array for its value: they come to the function on the values of all arguments. -/
theorem SpreadForm.evaluate_congr (hk : s.kind = .function rule .spread) {draws : Draws}
    (hfirst : ∀ a rest, items = a :: rest → ∀ v draws', a.evaluate reentry none draws = .ok v draws' →
      v.isArray = false) {a b : Node} (ha : SpreadForm ⟨s, none⟩ items a) (hb : SpreadForm ⟨s, none⟩ items b) :
    a.evaluate reentry none draws = b.evaluate reentry none draws ∧
      a.evaluate reentry none draws = onValues reentry s rule items draws := by
  have h := ha.evaluate_eq hk hfirst
  exact ⟨h.trans (hb.evaluate_eq hk hfirst).symm, h⟩

/-- `list("a", ["b"])` and `["a"].list(["b"])`, where `list` gives its arguments back. -/
theorem SpreadForm.evaluate_congr_list :
    let list : Symbol := .function "list" .spread fun _ call => pure (.array call.arguments)
    let a : Node := .leaf (.text "a")
    let b : Node := .sequence .arrayBracket [.leaf (.text "b")]
    let reentry := Evaluator.standard.reentry 1
    (Node.sequence ⟨list, none⟩ [a, b]).evaluate reentry none default =
        (Node.binary .dot (.sequence .arrayBracket [a]) (.sequence ⟨list, none⟩ [b])).evaluate reentry none default ∧
      (Node.sequence ⟨list, none⟩ [a, b]).evaluate reentry none default =
        .ok (.array [.string "a", .array [.string "b"]]) default := by
  intro list a b reentry
  have hforms : SpreadForm ⟨list, none⟩ [a, b] (.sequence ⟨list, none⟩ [a, b]) := .separate
  refine ⟨(evaluate_congr rfl ?_ hforms (.dot [a] [b] rfl)).1, rfl⟩
  intro _ _ h v draws' hv
  cases h
  cases hv
  rfl

end Node

end Formula
