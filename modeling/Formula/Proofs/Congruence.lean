import Formula.Proofs.Operands
import Mathlib.Data.List.Basic
import Mathlib.Data.Option.Basic

/-!
# Relations between evaluations

A rule sees its operands only through their evaluations. So a relation between evaluations that sequences keep
(`EvalM.Congruence`) holds between what a rule of the library makes of related operands (`Library.symbols_respect`), and
between the values of trees that are alike but for related parts (`Node.Alike.respects`). Where the relation speaks of
one of the two evaluations only, it is a property that evaluations keep.
-/

namespace Formula

/-- A relation that holds between an evaluation without steps and itself, and between sequences of related parts. -/
structure EvalM.Congruence (R : ∀ {α : Type}, EvalM α → EvalM α → Prop) : Prop where
  pure {α : Type} (a : α) : R (pure a) (pure a)
  fail {α : Type} (e : EvalError) : R (EvalM.fail e : EvalM α) (EvalM.fail e)
  bind {α β : Type} {x y : EvalM α} {f g : α → EvalM β} : R x y → (∀ a, R (f a) (g a)) → R (x >>= f) (y >>= g)

variable {R : ∀ {α : Type}, EvalM α → EvalM α → Prop}

theorem EvalM.Congruence.ofExcept (hR : Congruence R) {α : Type} (x : Except EvalError α) :
    R (EvalM.ofExcept x) (EvalM.ofExcept x) := by
  cases x with
  | ok a => exact hR.pure a
  | error e => exact hR.fail e

/-! ## Operands -/

/-- Operands whose evaluations are related, whatever is handed to them. -/
def Operand.Related (R : ∀ {α : Type}, EvalM α → EvalM α → Prop) (f g : Operand) : Prop :=
  ∀ receiver?, R (f receiver?) (g receiver?)

namespace Operands

/-- Two uses of an operator with related operands. -/
structure Related (R : ∀ {α : Type}, EvalM α → EvalM α → Prop) (o p : Operands) : Prop where
  id : o.id = p.id
  isSign : o.isSign = p.isSign
  first? : Option.Rel (Operand.Related R) o.first? p.first?
  second? : Option.Rel (Operand.Related R) o.second? p.second?
  third? : Option.Rel (Operand.Related R) o.third? p.third?
  items : List.Forall₂ R o.items p.items

variable {o p : Operands}

namespace Related

theorem value (hR : EvalM.Congruence R) (h : o.Related R p) {f? g? : Option Operand}
    (ho : Option.Rel (Operand.Related R) f? g?) : R (o.value f?) (p.value g?) := by
  cases ho with
  | none =>
    rw [Operands.value, h.id]
    exact hR.fail _
  | some hf => exact hf none

theorem first (hR : EvalM.Congruence R) (h : o.Related R p) : R o.first p.first := h.value hR h.first?

theorem second (hR : EvalM.Congruence R) (h : o.Related R p) : R o.second p.second := h.value hR h.second?

theorem third (hR : EvalM.Congruence R) (h : o.Related R p) : R o.third p.third := h.value hR h.third?

theorem firstNumber (hR : EvalM.Congruence R) (h : o.Related R p) : R o.firstNumber p.firstNumber := by
  unfold Operands.firstNumber
  rw [h.id]
  exact hR.bind (h.first hR) fun a => hR.ofExcept _

theorem secondNumber (hR : EvalM.Congruence R) (h : o.Related R p) : R o.secondNumber p.secondNumber := by
  unfold Operands.secondNumber
  rw [h.id]
  exact hR.bind (h.second hR) fun b => hR.ofExcept _

end Related

theorem itemValues_related (hR : EvalM.Congruence R) {xs ys : List (EvalM Value)} (h : List.Forall₂ R xs ys) :
    R (itemValues xs) (itemValues ys) := by
  induction h with
  | nil => exact hR.pure []
  | cons hx _ ih => exact hR.bind hx fun v => hR.bind ih fun vs => hR.pure (v :: vs)

end Operands

/-! ## Operators -/

/-- What the rule makes of related operands is related. -/
def OperatorRule.Respects (R : ∀ {α : Type}, EvalM α → EvalM α → Prop) (rule : OperatorRule) : Prop :=
  ∀ ⦃o p : Operands⦄, o.Related R p → R (rule o) (rule p)

namespace Library

variable (hR : EvalM.Congruence R)
include hR

theorem group_respects : OperatorRule.Respects R group := fun _ _ h => h.first hR

theorem negate_respects : OperatorRule.Respects R negate :=
  fun _ _ h => hR.bind (h.first hR) fun _ => hR.pure _

theorem elements_respects : OperatorRule.Respects R elements :=
  fun _ _ h => hR.bind (Operands.itemValues_related hR h.items) fun _ => hR.pure _

theorem member_respects : OperatorRule.Respects R member := by
  intro o p h
  refine hR.bind (h.first hR) fun receiver => ?_
  have hs := h.second?
  generalize o.second? = f?, p.second? = g? at hs ⊢
  cases hs with
  | none =>
    rw [h.id]
    exact hR.fail _
  | some hf => exact hf (some receiver)

/-- A rule that goes on with the values of both operands. -/
theorem onValues_respects (f : Value → Value → Value) :
    OperatorRule.Respects R fun o => o.first >>= fun a => o.second >>= fun b => pure (f a b) :=
  fun _ _ h => hR.bind (h.first hR) fun a => hR.bind (h.second hR) fun b => hR.pure (f a b)

theorem add_respects : OperatorRule.Respects R add := by
  intro o p h
  refine hR.bind (h.first hR) fun a => hR.bind (h.second hR) fun b => ?_
  rw [h.id]
  exact hR.ofExcept _

theorem subtract_respects : OperatorRule.Respects R subtract := by
  intro o p h
  refine hR.bind (h.firstNumber hR) fun x => ?_
  rw [h.isSign]
  split
  · exact hR.pure _
  · exact hR.bind (h.secondNumber hR) fun y => hR.pure _

theorem comparison_respects (accepts : Ordering → Bool) : OperatorRule.Respects R (comparison accepts) := by
  intro o p h
  refine hR.bind (h.first hR) fun a => hR.bind (h.second hR) fun b => ?_
  rw [h.id]
  exact hR.bind (hR.ofExcept _) fun _ => hR.pure _

theorem choice_respects : OperatorRule.Respects R choice := by
  intro o p h
  refine hR.bind (h.first hR) fun a => ?_
  split
  · exact h.second hR
  · exact h.third hR

theorem both_respects : OperatorRule.Respects R both := by
  intro o p h
  refine hR.bind (h.first hR) fun a => ?_
  split
  · exact hR.bind (h.second hR) fun b => hR.pure _
  · exact hR.pure _

theorem either_respects : OperatorRule.Respects R either := by
  intro o p h
  refine hR.bind (h.first hR) fun a => ?_
  split
  · exact hR.pure _
  · exact hR.bind (h.second hR) fun b => hR.pure _

theorem onNumbers_respects (f : Double → Double → Double) : OperatorRule.Respects R (onNumbers f) := by
  intro o p h
  exact hR.bind (h.firstNumber hR) fun x => hR.bind (h.secondNumber hR) fun y => hR.pure _

theorem onQuotient_respects (f : Double → Double → Double) : OperatorRule.Respects R (onQuotient f) := by
  intro o p h
  refine hR.bind (h.firstNumber hR) fun x => hR.bind (h.secondNumber hR) fun y => ?_
  rw [h.id]
  split
  · exact hR.fail _
  · exact hR.pure _

/-- The rules of all operators of the table. -/
theorem operatorSymbols_respect : ∀ s ∈ operatorSymbols, ∀ rule, s.kind.rule? = some rule → rule.Respects R := by
  have of {kind : SymbolKind} {rule : OperatorRule} (hk : kind.rule? = some rule) (h : rule.Respects R) :
      ∀ rule, kind.rule? = some rule → rule.Respects R := by
    intro rule' h'
    rw [hk] at h'
    cases h'
    exact h
  simp only [operatorSymbols, List.forall_mem_cons]
  exact ⟨of rfl (negate_respects hR), of rfl (elements_respects hR), of rfl (group_respects hR),
    of rfl (member_respects hR), of rfl (add_respects hR), of rfl (subtract_respects hR),
    of rfl (onNumbers_respects hR _), of rfl (onQuotient_respects hR _), of rfl (onQuotient_respects hR _),
    of rfl (onNumbers_respects hR _), of rfl (onValues_respects hR _), of rfl (onValues_respects hR _),
    of rfl (comparison_respects hR _), of rfl (comparison_respects hR _), of rfl (comparison_respects hR _),
    of rfl (comparison_respects hR _), of rfl (choice_respects hR), of rfl (both_respects hR),
    of rfl (either_respects hR), by simp⟩

/-- The rules of all operators of the library. -/
theorem symbols_respect : ∀ s ∈ symbols, ∀ rule, s.kind.rule? = some rule → rule.Respects R := by
  intro s hs rule hr
  simp only [symbols, standardSymbols, structuralSymbols, List.mem_append, List.mem_cons, List.not_mem_nil,
    or_false] at hs
  rcases hs with (hs | rfl | rfl) | (hs | hs) | hs
  · obtain ⟨id, -, rfl⟩ := List.mem_map.mp hs
    cases hr
  · cases hr
  · cases hr
    exact group_respects hR
  · exact operatorSymbols_respect hR s hs rule hr
  · obtain ⟨⟨id, x⟩, -, rfl⟩ := List.mem_map.mp hs
    cases hr
  · obtain ⟨id, mode, rule, rfl⟩ := mem_functionSymbols hs
    cases hr

end Library

/-! ## Functions -/

/-- What the rule makes of a call is related, for the two ways of evaluating further formulas. -/
def FunctionRule.Respects (R : ∀ {α : Type}, EvalM α → EvalM α → Prop) (reentry reentry' : Reentry)
    (rule : FunctionRule) : Prop :=
  ∀ call, R (rule reentry call) (rule reentry' call)

/-- The calls that the functions of the library make, with one argument or with the four of a fold, are related. -/
structure Reentry.Related (R : ∀ {α : Type}, EvalM α → EvalM α → Prop) (reentry reentry' : Reentry) : Prop where
  one (function : String) (v : Value) : R (reentry.call function [v]) (reentry'.call function [v])
  fold (function : String) (items : List Value) (accumulator item : Value) (index : Nat) :
    R (Library.foldStep reentry function items accumulator item index)
      (Library.foldStep reentry' function items accumulator item index)

namespace Library

/-- A function of the library draws, or calls functions by their names, or does neither. -/
theorem functionSymbols_cases {s : Symbol} (h : s ∈ functionSymbols) :
    (∃ rule mode, s.kind = .function (.ofPure rule) mode) ∨ s ∈ randomSymbols ∨
      ∃ rule, s.kind = .function rule .exact ∧ rule ∈ callbackRules.map Prod.snd := by
  simp only [functionSymbols, List.mem_append, List.mem_map] at h
  rcases h with ((⟨⟨id, rule⟩, -, rfl⟩ | h) | ⟨⟨id, rule⟩, -, rfl⟩) | ⟨⟨id, rule⟩, hr, rfl⟩
  · exact .inl ⟨rule, .spread, rfl⟩
  · exact .inr (.inl h)
  · exact .inl ⟨rule, .exact, rfl⟩
  · exact .inr (.inr ⟨rule, rfl, List.mem_map_of_mem hr⟩)

variable (hR : EvalM.Congruence R) {reentry reentry' : Reentry}
include hR

theorem ofPure_respects (rule : Call → Except EvalError Value) :
    FunctionRule.Respects R reentry reentry' (.ofPure rule) := fun _ => hR.ofExcept _

theorem randomSymbols_respect (hdraw : R EvalM.draw EvalM.draw) :
    ∀ s ∈ randomSymbols, ∀ rule mode, s.kind = .function rule mode → rule.Respects R reentry reentry' := by
  intro s hs rule mode hk call
  simp only [randomSymbols, List.mem_cons, List.not_mem_nil, or_false] at hs
  rcases hs with rfl | rfl | rfl <;> cases hk
  · exact hR.bind hdraw fun _ => hR.pure _
  · exact hR.bind (hR.ofExcept _) fun _ => hR.bind hdraw fun _ => hR.pure _
  · exact hR.bind (hR.ofExcept _) fun _ => hR.bind hdraw fun _ => hR.pure _

section Items

variable {f g : OnElement} (hf : ∀ v, R (f v) (g v))
include hf

theorem mapItems_related (items : List Value) : R (mapItems f items) (mapItems g items) := by
  induction items with
  | nil => exact hR.pure []
  | cons v items ih => exact hR.bind (hf v) fun _ => hR.bind ih fun _ => hR.pure _

theorem filterItems_related (items : List Value) : R (filterItems f items) (filterItems g items) := by
  induction items with
  | nil => exact hR.pure []
  | cons v items ih => exact hR.bind (hf v) fun _ => hR.bind ih fun _ => hR.pure _

theorem everyItem_related (items : List Value) : R (everyItem f items) (everyItem g items) := by
  induction items with
  | nil => exact hR.pure true
  | cons v items ih =>
    refine hR.bind (hf v) fun w => ?_
    split
    · exact ih
    · exact hR.pure false

theorem someItem_related (items : List Value) : R (someItem f items) (someItem g items) := by
  induction items with
  | nil => exact hR.pure false
  | cons v items ih =>
    refine hR.bind (hf v) fun w => ?_
    split
    · exact hR.pure true
    · exact ih

end Items

theorem foldItems_related {f g : Value → Value → Nat → EvalM Value} (hf : ∀ a v i, R (f a v i) (g a v i)) :
    ∀ (items : List Value) (i : Nat) (a : Value), R (foldItems f i a items) (foldItems g i a items)
  | [], _, a => hR.pure a
  | v :: items, i, a => hR.bind (hf a v i) fun b => foldItems_related hf items (i + 1) b

/-- A rule that goes on with the array and the callback of a call. -/
theorem respects_of_items {α : Type} {walk : OnElement → List Value → EvalM α} {last : α → Value}
    (hwalk : ∀ f g, (∀ v, R (f v) (g v)) → ∀ items, R (walk f items) (walk g items))
    (hone : ∀ function v, R (reentry.call function [v]) (reentry'.call function [v])) :
    FunctionRule.Respects R reentry reentry' fun reentry call =>
      arrayAndCallback reentry call >>= fun (items, f) => walk f items >>= fun a => pure (last a) := by
  intro call
  simp only [arrayAndCallback, bind_assoc, pure_bind]
  exact hR.bind (hR.ofExcept _) fun items => hR.bind (hR.ofExcept _) fun function =>
    hR.bind (hwalk _ _ (fun v => hone function v) items) fun a => hR.pure _

theorem reduceRule_respects (hcall : reentry.Related R reentry') :
    FunctionRule.Respects R reentry reentry' reduceRule := by
  intro call
  refine hR.bind (hR.ofExcept _) fun items => hR.bind (hR.ofExcept _) fun function => ?_
  have hfold := foldItems_related hR (hcall.fold function items)
  split
  · exact hfold _ 0 _
  · exact hfold _ 1 _
  · exact hR.fail _

/-- A callback is called for the elements one by one, except in a fold. -/
theorem callbackRules_respect_or (hone : ∀ function v, R (reentry.call function [v]) (reentry'.call function [v])) :
    ∀ rule ∈ callbackRules.map Prod.snd, FunctionRule.Respects R reentry reentry' rule ∨ rule = reduceRule := by
  simp only [callbackRules, List.map_cons, List.map_nil, List.forall_mem_cons]
  exact ⟨.inl (respects_of_items hR (fun _ _ h => mapItems_related hR h) hone),
    .inl (respects_of_items hR (fun _ _ h => filterItems_related hR h) hone),
    .inl (respects_of_items hR (fun _ _ h => everyItem_related hR h) hone),
    .inl (respects_of_items hR (fun _ _ h => someItem_related hR h) hone), .inr trivial, by simp⟩

theorem callbackRules_respect (hcall : reentry.Related R reentry') :
    ∀ rule ∈ callbackRules.map Prod.snd, FunctionRule.Respects R reentry reentry' rule := by
  intro rule hrule
  rcases callbackRules_respect_or hR hcall.one rule hrule with h | rfl
  · exact h
  · exact reduceRule_respects hR hcall

end Library

/-! ## Trees -/

/-- The rules behind a use keep the relation. -/
structure Head.Respects (R : ∀ {α : Type}, EvalM α → EvalM α → Prop) (reentry reentry' : Reentry) (head : Head) :
    Prop where
  operator : ∀ rule, head.symbol.kind.rule? = some rule → rule.Respects R
  function : ∀ rule mode, head.symbol.kind = .function rule mode → rule.Respects R reentry reentry'

theorem Head.Respects.evaluate (hR : EvalM.Congruence R) {reentry reentry' : Reentry} {head : Head}
    (hh : head.Respects R reentry reentry') {o p : Operands} (ho : o.Related R p) (receiver? : Option Value) :
    R (head.evaluate reentry o receiver?) (head.evaluate reentry' p receiver?) := by
  unfold Head.evaluate
  split
  · exact hR.fail _
  · cases hk : head.symbol.kind with
    | punctuation => exact hR.fail _
    | literal =>
      cases head.literal? with
      | some v => exact hR.pure v
      | none => exact hR.fail _
    | constant v => exact hR.pure v
    | leading rule form => exact hh.operator rule (by rw [hk]; rfl) ho
    | leftward rule form leading? => exact hh.operator rule (by rw [hk]; rfl) ho
    | rightward rule => exact hh.operator rule (by rw [hk]; rfl) ho
    | function rule mode =>
      exact hR.bind (Operands.itemValues_related hR ho.items) fun values => hh.function rule mode hk _

namespace Node

section Alike

variable (uses : Head → Prop) (instead : Node → Node → Prop)

mutual

/-- Trees of the same uses, but for subtrees of which one stands instead of the other. -/
inductive Alike : Node → Node → Prop
  | instead {a b : Node} : instead a b → Alike a b
  | leaf {head : Head} : uses head → Alike (.leaf head) (.leaf head)
  | unary {head : Head} {sign : Bool} {a a' : Node} : uses head → Alike a a' →
      Alike (.unary head sign a) (.unary head sign a')
  | binary {head : Head} {a a' b b' : Node} : uses head → Alike a a' → Alike b b' →
      Alike (.binary head a b) (.binary head a' b')
  | ternary {head : Head} {a a' b b' c c' : Node} : uses head → Alike a a' → Alike b b' → Alike c c' →
      Alike (.ternary head a b c) (.ternary head a' b' c')
  | sequence {head : Head} {items items' : List Node} : uses head → AlikeAll items items' →
      Alike (.sequence head items) (.sequence head items')

/-- Lists of such trees. -/
inductive AlikeAll : List Node → List Node → Prop
  | nil : AlikeAll [] []
  | cons {a a' : Node} {items items' : List Node} : Alike a a' → AlikeAll items items' →
      AlikeAll (a :: items) (a' :: items')

end

end Alike

variable {uses : Head → Prop} {instead : Node → Node → Prop} {reentry reentry' : Reentry}

theorem AlikeAll.refl : ∀ {items : List Node}, (∀ a ∈ items, Alike uses instead a a) →
    AlikeAll uses instead items items
  | [], _ => .nil
  | _ :: _, h => .cons (h _ List.mem_cons_self) (.refl fun a ha => h a (List.mem_cons_of_mem _ ha))

/-- A tree is alike itself. -/
theorem Formed.alike {a : Node} (h : Formed uses a) : Alike uses instead a a := by
  induction h with
  | leaf hu _ _ => exact .leaf hu
  | unary hu _ _ _ ih => exact .unary hu ih
  | array hu _ _ ih => exact .sequence hu (.refl ih)
  | bareCall hu _ => exact .sequence hu .nil
  | call hu _ _ _ ih => exact .sequence hu (.refl ih)
  | binary hu _ _ _ _ iha ihb => exact .binary hu iha ihb
  | ternary hu _ _ _ _ _ iha ihb ihc => exact .ternary hu iha ihb ihc

mutual

/-- Trees that are alike have related values, if the rules behind their uses keep the relation and it holds between the
values of the subtrees that stand instead of each other. -/
theorem Alike.related (hR : EvalM.Congruence R) (huses : ∀ head, uses head → head.Respects R reentry reentry')
    (hinstead : ∀ a b, instead a b → Operand.Related R (a.evaluate reentry) (b.evaluate reentry')) {a b : Node} :
    Alike uses instead a b → Operand.Related R (a.evaluate reentry) (b.evaluate reentry')
  | .instead h => hinstead _ _ h
  | .leaf hu => fun receiver? => by
    simp only [evaluate]
    refine (huses _ hu).evaluate hR ?_ receiver?
    exact ⟨rfl, rfl, .none, .none, .none, .nil⟩
  | .unary hu ha => fun receiver? => by
    simp only [evaluate]
    refine (huses _ hu).evaluate hR ?_ receiver?
    exact ⟨rfl, rfl, .some (ha.related hR huses hinstead), .none, .none, .nil⟩
  | .binary hu ha hb => fun receiver? => by
    simp only [evaluate]
    refine (huses _ hu).evaluate hR ?_ receiver?
    exact ⟨rfl, rfl, .some (ha.related hR huses hinstead), .some (hb.related hR huses hinstead), .none, .nil⟩
  | .ternary hu ha hb hc => fun receiver? => by
    simp only [evaluate]
    refine (huses _ hu).evaluate hR ?_ receiver?
    exact ⟨rfl, rfl, .some (ha.related hR huses hinstead), .some (hb.related hR huses hinstead),
      .some (hc.related hR huses hinstead), .nil⟩
  | .sequence hu hi => fun receiver? => by
    simp only [evaluate]
    refine (huses _ hu).evaluate hR ?_ receiver?
    exact ⟨rfl, rfl, .none, .none, .none, hi.related hR huses hinstead⟩

theorem AlikeAll.related (hR : EvalM.Congruence R) (huses : ∀ head, uses head → head.Respects R reentry reentry')
    (hinstead : ∀ a b, instead a b → Operand.Related R (a.evaluate reentry) (b.evaluate reentry'))
    {items items' : List Node} :
    AlikeAll uses instead items items' → List.Forall₂ R (evaluateAll reentry items) (evaluateAll reentry' items')
  | .nil => .nil
  | .cons ha hi => .cons (ha.related hR huses hinstead none) (hi.related hR huses hinstead)

end

/-- The values of a tree for two ways of evaluating further formulas are related if the rules behind its uses keep the
relation. -/
theorem Formed.related (hR : EvalM.Congruence R) (huses : ∀ head, uses head → head.Respects R reentry reentry')
    {a : Node} (h : Formed uses a) : Operand.Related R (a.evaluate reentry) (a.evaluate reentry') :=
  h.alike.related hR huses fun _ _ hinstead => (show False from hinstead).elim

end Node

end Formula
