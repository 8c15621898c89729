import Formula.Proofs.Evaluations
import Formula.Proofs.Spelling

/-!
# What operators ask for

A value of an operator is made from a value of its first operand, and all operators of the library but three always ask
for the second one as well (`Library.symbols_ask`): `&&` and `||` skip it where the first one decides, and `?` asks for
one of the other two. So an operator that lacks an operand that it asks for has no value.
-/

namespace Formula

/-! ## Operands -/

namespace Operands

variable {operands : Operands} {operand? : Option Operand} {v : Value} {draws draws' : Draws}

/-- An operand is there and has a value, whatever is handed to it. -/
def Yields (operand? : Option Operand) (draws : Draws) : Prop :=
  ∃ operand receiver? v draws', operand? = some operand ∧ operand receiver? draws = .ok v draws'

theorem value_ok : operands.value operand? draws = .ok v draws' ↔
    ∃ operand, operand? = some operand ∧ operand none draws = .ok v draws' := by
  cases operand? with
  | none => simp [value, EvalM.fail_ok]
  | some operand => simp [value]

theorem yields_of_value (h : operands.value operand? draws = .ok v draws') : Yields operand? draws := by
  obtain ⟨operand, ho, h⟩ := value_ok.1 h
  exact ⟨operand, none, v, draws', ho, h⟩

theorem firstNumber_ok {x : Double} : operands.firstNumber draws = .ok x draws' ↔
    ∃ a, operands.first draws = .ok a draws' ∧ a.asNumber operands.id = .ok x := by
  simp only [firstNumber, bind_ok, EvalM.ofExcept_ok]
  constructor
  · rintro ⟨a, _, ha, hx, rfl⟩
    exact ⟨a, ha, hx⟩
  · rintro ⟨a, ha, hx⟩
    exact ⟨a, _, ha, hx, rfl⟩

theorem secondNumber_ok {x : Double} : operands.secondNumber draws = .ok x draws' ↔
    ∃ b, operands.second draws = .ok b draws' ∧ b.asNumber operands.id = .ok x := by
  simp only [secondNumber, bind_ok, EvalM.ofExcept_ok]
  constructor
  · rintro ⟨b, _, hb, hx, rfl⟩
    exact ⟨b, hb, hx⟩
  · rintro ⟨b, hb, hx⟩
    exact ⟨b, _, hb, hx, rfl⟩

/-- Behind the first operand the second one is asked for, unless the operator is a sign or the value decides. -/
def SecondUnless (skips : Value → Bool) (operands : Operands) (a : Value) (draws : Draws) : Prop :=
  operands.isSign = false → skips a = false → Yields operands.second? draws

/-- Behind the first operand one of the others is asked for. -/
def Branch (operands : Operands) (a : Value) (draws : Draws) : Prop :=
  if a.isTruthy then Yields operands.second? draws else Yields operands.third? draws

end Operands

open Operands

/-! ## Rules -/

/-- A value of the rule is made from one of the first operand, and from what is asked for behind it. -/
def OperatorRule.Asks (rule : OperatorRule) (more : Operands → Value → Draws → Prop) : Prop :=
  ∀ ⦃operands : Operands⦄ ⦃draws draws' : Draws⦄ ⦃v : Value⦄, rule operands draws = .ok v draws' →
    ∃ a draws₁, operands.first draws = .ok a draws₁ ∧ more operands a draws₁

/-- A value of the rule is made from those of all items. -/
def OperatorRule.AsksItems (rule : OperatorRule) : Prop :=
  ∀ ⦃operands : Operands⦄ ⦃draws draws' : Draws⦄ ⦃v : Value⦄, rule operands draws = .ok v draws' →
    ∃ vs draws₁, itemValues operands.items draws = .ok vs draws₁

namespace Library

variable {skips : Value → Bool}

theorem group_asks : OperatorRule.Asks group fun _ _ _ => True :=
  fun _ _ draws' v h => ⟨v, draws', h, trivial⟩

theorem negate_asks : OperatorRule.Asks negate fun _ _ _ => True := by
  intro operands draws draws' v h
  simp only [negate, bind_ok] at h
  obtain ⟨a, draws₁, ha, -⟩ := h
  exact ⟨a, draws₁, ha, trivial⟩

theorem elements_asks : OperatorRule.AsksItems elements := by
  intro operands draws draws' v h
  simp only [elements, bind_ok] at h
  obtain ⟨vs, draws₁, hvs, -⟩ := h
  exact ⟨vs, draws₁, hvs⟩

/-- A rule that starts with the values of both operands. -/
theorem asks_of_values {rule : OperatorRule} {next : Operands → Value → Value → EvalM Value}
    (h : ∀ operands, rule operands = operands.first >>= fun a => operands.second >>= next operands a) :
    rule.Asks (SecondUnless skips) := by
  intro operands draws draws' v hv
  rw [h] at hv
  simp only [bind_ok] at hv
  obtain ⟨a, draws₁, ha, b, draws₂, hb, -⟩ := hv
  exact ⟨a, draws₁, ha, fun _ _ => yields_of_value hb⟩

/-- A rule that starts with the numbers of both operands. -/
theorem asks_of_numbers {rule : OperatorRule} {next : Operands → Double → Double → EvalM Value}
    (h : ∀ operands, rule operands = operands.firstNumber >>= fun x => operands.secondNumber >>= next operands x) :
    rule.Asks (SecondUnless skips) := by
  intro operands draws draws' v hv
  rw [h] at hv
  simp only [bind_ok, firstNumber_ok, secondNumber_ok] at hv
  obtain ⟨x, draws₁, ⟨a, ha, -⟩, y, draws₂, ⟨b, hb, -⟩, -⟩ := hv
  exact ⟨a, draws₁, ha, fun _ _ => yields_of_value hb⟩

theorem member_asks : OperatorRule.Asks member (SecondUnless skips) := by
  intro operands draws draws' v h
  simp only [member, bind_ok] at h
  obtain ⟨a, draws₁, ha, hv⟩ := h
  refine ⟨a, draws₁, ha, fun _ _ => ?_⟩
  cases hs : operands.second? with
  | none =>
    rw [hs] at hv
    exact absurd hv EvalM.fail_ok
  | some function =>
    rw [hs] at hv
    exact ⟨function, some a, v, draws', rfl, hv⟩

theorem subtract_asks : OperatorRule.Asks subtract (SecondUnless skips) := by
  intro operands draws draws' v h
  simp only [subtract, bind_ok, firstNumber_ok] at h
  obtain ⟨x, draws₁, ⟨a, ha, -⟩, hv⟩ := h
  refine ⟨a, draws₁, ha, fun hsign _ => ?_⟩
  rw [if_neg (by simp [hsign])] at hv
  simp only [bind_ok, secondNumber_ok] at hv
  obtain ⟨y, draws₂, ⟨b, hb, -⟩, -⟩ := hv
  exact yields_of_value hb

theorem choice_asks : OperatorRule.Asks choice Branch := by
  intro operands draws draws' v h
  simp only [choice, bind_ok] at h
  obtain ⟨a, draws₁, ha, hv⟩ := h
  refine ⟨a, draws₁, ha, ?_⟩
  unfold Branch
  split at hv
  · next ht => rw [if_pos ht]; exact yields_of_value hv
  · next ht => rw [if_neg ht]; exact yields_of_value hv

theorem both_asks : OperatorRule.Asks both (SecondUnless fun a => !a.isTruthy) := by
  intro operands draws draws' v h
  simp only [both, bind_ok] at h
  obtain ⟨a, draws₁, ha, hv⟩ := h
  refine ⟨a, draws₁, ha, fun _ ht => ?_⟩
  rw [if_pos (by simpa using ht)] at hv
  obtain ⟨b, draws₂, hb, -⟩ := bind_ok.1 hv
  exact yields_of_value hb

theorem either_asks : OperatorRule.Asks either (SecondUnless Value.isTruthy) := by
  intro operands draws draws' v h
  simp only [either, bind_ok] at h
  obtain ⟨a, draws₁, ha, hv⟩ := h
  refine ⟨a, draws₁, ha, fun _ ht => ?_⟩
  rw [if_neg (by simp [ht])] at hv
  obtain ⟨b, draws₂, hb, -⟩ := bind_ok.1 hv
  exact yields_of_value hb

end Library

/-! ## Symbols -/

/-- The rule of an operator. -/
def SymbolKind.rule? : SymbolKind → Option OperatorRule
  | .leading rule _ => some rule
  | .leftward rule _ _ => some rule
  | .rightward rule => some rule
  | _ => none

namespace Symbol

/-- Whether the operator needs no second operand behind this value of the first one. -/
def skips (s : Symbol) (a : Value) : Bool :=
  if s.id = "&&" then !a.isTruthy else if s.id = "||" then a.isTruthy else false

/-- An operator asks for the operands that its form reads, except for those that it skips. -/
structure Asks (s : Symbol) : Prop where
  array : s.kind.leadingForm? = some .array → ∃ rule, s.kind.rule? = some rule ∧ rule.AsksItems
  leading : ∀ {form}, s.kind.leadingForm? = some form → form ≠ .array →
    ∃ rule more, s.kind.rule? = some rule ∧ rule.Asks more
  binary : s.kind.trailingForm? = some .binary → ∃ rule, s.kind.rule? = some rule ∧ rule.Asks (SecondUnless s.skips)
  ternary : s.kind.trailingForm? = some .ternary → ∃ rule, s.kind.rule? = some rule ∧ rule.Asks Branch

namespace Asks

variable {s : Symbol} {id : String} {power : BindingPower} {rule : OperatorRule}
  {more : Operands → Value → Draws → Prop}

theorem of_none (hl : s.kind.leadingForm? = none) (hf : s.kind.trailingForm? = none) : s.Asks where
  array h := by rw [hl] at h; cases h
  leading h := by rw [hl] at h; cases h
  binary h := by rw [hf] at h; cases h
  ternary h := by rw [hf] at h; cases h

theorem of_leading {form : LeadingForm} (hne : form ≠ .array) (h : rule.Asks more) :
    (Symbol.leading id form rule).Asks where
  array hl := absurd (Option.some.inj hl) hne
  leading _ _ := ⟨rule, more, rfl, h⟩
  binary hf := by cases hf
  ternary hf := by cases hf

theorem of_array (h : rule.AsksItems) : (Symbol.leading id .array rule).Asks where
  array _ := ⟨rule, rfl, h⟩
  leading hl hne := absurd (Option.some.inj hl).symm hne
  binary hf := by cases hf
  ternary hf := by cases hf

theorem of_leftward {leading? : Option LeadingForm} (hne : leading? ≠ some .array)
    (h : rule.Asks (SecondUnless (skips ⟨id, power, .leftward rule .binary leading?⟩))) :
    Asks ⟨id, power, .leftward rule .binary leading?⟩ where
  array hl := absurd hl hne
  leading _ _ := ⟨rule, _, rfl, h⟩
  binary _ := ⟨rule, rfl, h⟩
  ternary hf := by cases hf

theorem of_ternary (h : rule.Asks Branch) : Asks ⟨id, power, .leftward rule .ternary none⟩ where
  array hl := by cases hl
  leading hl := by cases hl
  binary hf := by cases hf
  ternary _ := ⟨rule, rfl, h⟩

theorem of_rightward (h : rule.Asks (SecondUnless (Symbol.rightward id power rule).skips)) :
    (Symbol.rightward id power rule).Asks where
  array hl := by cases hl
  leading hl := by cases hl
  binary _ := ⟨rule, rfl, h⟩
  ternary hf := by cases hf

theorem trailing (hs : s.Asks) {form : TrailingForm} (hf : s.kind.trailingForm? = some form) :
    ∃ rule more, s.kind.rule? = some rule ∧ rule.Asks more := by
  cases form with
  | binary =>
    obtain ⟨rule, hr, h⟩ := hs.binary hf
    exact ⟨rule, _, hr, h⟩
  | ternary =>
    obtain ⟨rule, hr, h⟩ := hs.ternary hf
    exact ⟨rule, _, hr, h⟩

end Asks

end Symbol

namespace Library

theorem operatorSymbols_ask : ∀ s ∈ operatorSymbols, s.Asks := by
  have values (id : String) (power : BindingPower) {rule : OperatorRule}
      {next : Operands → Value → Value → EvalM Value}
      (h : ∀ operands, rule operands = operands.first >>= fun a => operands.second >>= next operands a) :
      (Symbol.binary id power rule).Asks := .of_leftward (by simp) (asks_of_values h)
  have numbers (id : String) (power : BindingPower) {rule : OperatorRule}
      {next : Operands → Double → Double → EvalM Value}
      (h : ∀ operands, rule operands = operands.firstNumber >>= fun x => operands.secondNumber >>= next operands x) :
      (Symbol.binary id power rule).Asks := .of_leftward (by simp) (asks_of_numbers h)
  simp only [operatorSymbols, List.forall_mem_cons]
  exact ⟨.of_leading (by decide) negate_asks, .of_array elements_asks, .of_leading (by simp) group_asks,
    .of_leftward (by simp) member_asks, values _ _ fun _ => rfl, .of_leftward (by simp) subtract_asks,
    numbers _ _ fun _ => rfl, numbers _ _ fun _ => rfl, numbers _ _ fun _ => rfl, numbers _ _ fun _ => rfl,
    values _ _ fun _ => rfl, values _ _ fun _ => rfl, values _ _ fun _ => rfl, values _ _ fun _ => rfl,
    values _ _ fun _ => rfl, values _ _ fun _ => rfl, .of_ternary choice_asks, .of_rightward both_asks,
    .of_rightward either_asks, by simp⟩

theorem structuralSymbols_ask : ∀ s ∈ structuralSymbols, s.Asks := by
  intro s hs
  rcases List.mem_append.mp hs with hs | hs
  · obtain ⟨id, -, rfl⟩ := List.mem_map.mp hs
    exact .of_none rfl rfl
  · simp only [List.mem_cons, List.not_mem_nil, or_false] at hs
    rcases hs with rfl | rfl
    · exact .of_none rfl rfl
    · exact .of_leading (by simp) group_asks

/-- The symbols of the library ask for the operands that they read. -/
theorem symbols_ask : ∀ s ∈ symbols, s.Asks := by
  intro s hs
  simp only [symbols, standardSymbols, List.mem_append] at hs
  rcases hs with hs | (hs | hs) | hs
  · exact structuralSymbols_ask s hs
  · exact operatorSymbols_ask s hs
  · obtain ⟨⟨id, x⟩, -, rfl⟩ := List.mem_map.mp hs
    exact .of_none rfl rfl
  · obtain ⟨id, mode, rule, rfl⟩ := mem_functionSymbols hs
    exact .of_none rfl rfl

end Library

/-! ## Uses -/

namespace Head

variable {reentry : Reentry} {head : Head} {operands : Operands} {receiver? : Option Value} {draws draws' : Draws}
  {v : Value}

/-- The value of an operator is that of its rule. -/
theorem evaluate_rule {rule : OperatorRule} (hr : head.symbol.kind.rule? = some rule)
    (h : head.evaluate reentry operands receiver? draws = .ok v draws') : rule operands draws = .ok v draws' := by
  unfold evaluate at h
  split at h
  · exact absurd h EvalM.fail_ok
  · cases hk : head.symbol.kind <;> simp_all [SymbolKind.rule?]

/-- The value of a function is made from those of its arguments. -/
theorem evaluate_mode {mode : ArgumentMode} (hm : head.symbol.kind.mode? = some mode)
    (h : head.evaluate reentry operands receiver? draws = .ok v draws') :
    ∃ vs draws₁, itemValues operands.items draws = .ok vs draws₁ := by
  unfold evaluate at h
  split at h
  · exact absurd h EvalM.fail_ok
  · cases hk : head.symbol.kind with
    | function rule mode' =>
      rw [hk] at h
      obtain ⟨vs, draws₁, hvs, -⟩ := bind_ok.1 h
      exact ⟨vs, draws₁, hvs⟩
    | _ => simp [hk, SymbolKind.mode?] at hm

/-- What is no expression has no value. -/
theorem evaluate_hole (hs : head.symbol.Asks) (hh : head.isHole = true) :
    ¬ head.evaluate reentry head.noOperands receiver? draws = .ok v draws' := by
  intro h
  -- an operator asks for its first operand, and here there is none
  have operator {form : TrailingForm} (hf : head.symbol.kind.trailingForm? = some form) : False := by
    obtain ⟨rule, more, hr, hask⟩ := hs.trailing hf
    obtain ⟨a, draws₁, ha, -⟩ := hask (evaluate_rule hr h)
    exact EvalM.fail_ok ha
  cases hk : head.symbol.kind with
  | leftward rule form leading? => exact @operator form (by rw [hk]; rfl)
  | rightward rule => exact @operator .binary (by rw [hk]; rfl)
  | punctuation | literal =>
    unfold evaluate at h
    split at h
    · exact EvalM.fail_ok h
    · simp_all [isHole, EvalM.fail_ok]
  | _ => simp [isHole, hk] at hh

end Head

end Formula
