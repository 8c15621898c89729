import Formula.Proofs.NestedCalls
import Formula.Proofs.RoundTrip

/-!
# What is refused as too deep

There is one reason only for which the tokens of a complete tree may not be read, if its operators stand as their powers
ask for: the tree needs more levels than are left, and then it is refused as too deep, whatever stands behind its tokens
(`Complete.refused`, `Complete.ofTokens_or_refused`). An operand that fits is read up to the operator behind it, with
the levels open that its own operators opened (`Complete.readExpression_eq`), so the refusal comes from an operand that
does not fit, or from the operator itself.
-/

namespace Formula

open Cursor

/-! ## Steps that are refused -/

section Steps

variable {α β : Type} {x y : CursorM α} {f g : α → CursorM β} {a : α} {c c₁ : Cursor}

theorem bind_eq_of_ok (h : x c = .ok a c₁) : (x >>= f) c = f a c₁ := by
  simp only [bind, EStateM.bind, h]

/-- The second step is taken from the results of the first one only. -/
theorem bind_congr_at (hx : x c = y c) (hf : ∀ a c', y c = .ok a c' → f a c' = g a c') : (x >>= f) c = (y >>= g) c := by
  simp only [bind, EStateM.bind, hx]
  cases hy : y c with
  | ok a c' => exact hf a c' hy
  | error e c' => rfl

theorem bind_congr_of_ok (h : ∀ a c', x c = .ok a c' → f a c' = g a c') : (x >>= f) c = (x >>= g) c :=
  bind_congr_at rfl h

theorem current_bind {f : Head → CursorM β} : (current >>= f) c = f c.active c := rfl

theorem descend_bind_of_lt {z : CursorM β} (hd : c.depth < maxDepth) :
    (descend >>= fun _ => z) c = z (c.atDepth (c.depth + 1)) := by
  simp only [bind, EStateM.bind, descend_of_lt hd]
  rfl

theorem descend_bind_of_not_lt {z : CursorM β} (hd : ¬ c.depth < maxDepth) :
    (descend >>= fun _ => z) c = tooDeep c := by
  simp only [bind, EStateM.bind, descend_of_not_lt hd]
  rfl

/-- From `c` the step is refused as too deep. -/
def Refused (x : CursorM α) (c : Cursor) : Prop := ∃ found c', x c = .error (depthError found) c'

theorem Refused.tooDeep : Refused (tooDeep : CursorM α) c := ⟨c.active.id, c, rfl⟩

theorem Refused.bind (h : Refused x c) : Refused (x >>= f) c := by
  obtain ⟨found, c', h⟩ := h
  exact ⟨found, c', by simp only [Bind.bind, EStateM.bind, h]⟩

theorem Refused.after (hx : x c = .ok a c₁) (h : Refused (f a) c₁) : Refused (x >>= f) c := by
  obtain ⟨found, c', h⟩ := h
  exact ⟨found, c', (bind_eq_of_ok hx).trans h⟩

theorem Refused.of_eq {y : CursorM α} {d : Cursor} (h : x c = y d) (hy : Refused y d) : Refused x c := by
  obtain ⟨found, c', hy⟩ := hy
  exact ⟨found, c', h.trans hy⟩

end Steps

namespace Node

variable {table : SymbolTable} {head : Head} {t a b d left : Node} {items : List Node} {levels opened : Nat}
  {power : BindingPower} {c c₁ c₂ : Cursor} {rest : List Token} {closing : String}

/-- The levels that are left follow from those that are open. -/
theorem expression_eq (hd : c.depth + levels = maxDepth) :
    expression table power c = readExpression table levels power c := by
  refine (bind_eq_of_ok (get_ok.2 ⟨rfl, rfl⟩)).trans ?_
  rw [← hd, Nat.add_sub_cancel_left]

/-- An expression opens a level, and is a leading form and what extends it. -/
theorem readExpression_of_lt (hd : c.depth < maxDepth) :
    readExpression table (levels + 1) power c =
      (advance table >>= fun head =>
        readLeading table (readExpression table levels) head >>= extend table levels power 1)
        (c.atDepth (c.depth + 1)) := by
  rw [readExpression]
  exact descend_bind_of_lt hd

theorem readExpression_succ (hd : c.depth + (levels + 1) = maxDepth) (hm : Moves table (c.atDepth (c.depth + 1)) c₁) :
    readExpression table (levels + 1) power c =
      (readLeading table (readExpression table levels) c.active >>= extend table levels power 1) c₁ :=
  (readExpression_of_lt (by omega)).trans (bind_eq_of_ok (advance_ok.2 ⟨rfl, hm⟩))

/-- In front of an operator that binds tighter than the power, a trailing form opens one more level. -/
theorem extend_of_lt (hp : power < c.active.power) (hd : c.depth < maxDepth) :
    extend table (levels + 1) power opened left c =
      (advance table >>= fun head => readTrailing table (readExpression table levels) head left >>=
        extend table levels power (opened + 1)) (c.atDepth (c.depth + 1)) := by
  rw [extend]
  refine current_bind.trans ?_
  rw [if_pos hp]
  exact descend_bind_of_lt hd

theorem extend_succ (hp : power < c.active.power) (hd : c.depth + (levels + 1) = maxDepth)
    (hm : Moves table (c.atDepth (c.depth + 1)) c₁) :
    extend table (levels + 1) power opened left c =
      (readTrailing table (readExpression table levels) c.active left >>= extend table levels power (opened + 1)) c₁ :=
  (extend_of_lt hp (by omega)).trans (bind_eq_of_ok (advance_ok.2 ⟨rfl, hm⟩))

/-- In front of an operator that binds tighter than the power, no trailing form is read without a level for it. -/
theorem extend_zero (hp : power < c.active.power) : extend table 0 power opened left c = tooDeep c := by
  rw [extend]
  refine current_bind.trans ?_
  rw [if_pos hp]

/-- In front of anything else the tree is left as it is. -/
theorem extend_of_not_lt (hp : ¬ power < c.active.power) :
    extend table levels power opened left c = (ascend opened >>= fun _ => pure left) c := by
  cases levels <;>
  · rw [extend]
    refine current_bind.trans ?_
    rw [if_neg hp]

/-- The reader finds the readings of the rules at the depth that leaves it these levels. -/
theorem readsAt_of_depth (hd : c.depth + levels = maxDepth) : ReadsAt table (readExpression table levels) c.depth := by
  rw [show c.depth = maxDepth - levels by omega]
  exact readExpression_ok (by omega)

/-! ## Operands that fit -/

/-- With enough levels, what is read in front of the tree is the tree, extended by what stands behind its tokens with
the levels open that its own operators opened. -/
def ReadsUpTo (table : SymbolTable) (t : Node) : Prop :=
  ∀ ⦃levels : Nat⦄ ⦃power : BindingPower⦄ ⦃c c₂ : Cursor⦄ ⦃rest : List Token⦄, c.depth + levels = maxDepth →
    t.levels ≤ levels → Stands table (t.tokens ++ rest) c → Stands table rest c₂ → c₂.depth = c.depth + t.spine + 1 →
    (∀ p ∈ t.leftEdge, power < p) → (∀ p ∈ t.rightEdge, c₂.active.power ≤ p) →
    readExpression table levels power c = extend table (levels - (t.spine + 1)) power (t.spine + 1) t c₂

theorem LeadsInto.readsUpTo (hspine : t.spine = 0) (h : LeadsInto table t) : ReadsUpTo table t := by
  intro levels power c c₂ rest hd hlev hs hs₂ hd₂ _ hr
  rw [hspine] at hd₂ ⊢
  have hpos := levels_pos t
  obtain ⟨n, rfl⟩ : ∃ n, levels = n + 1 := ⟨levels - 1, by omega⟩
  obtain ⟨c₁, hm, hlead⟩ := h hs hs₂ (by omega) hd₂ hr
  have hat : ReadsAt table (readExpression table n) c₁.depth := readsAt_of_depth (by rw [hm.2, atDepth_depth]; omega)
  rw [readExpression_succ hd hm]
  exact bind_eq_of_ok ((readLeading_ok hat rfl).2 hlead)

theorem Trailing.readsUpTo {more : List Token} {m : Nat} (h : Trailing table head a t more m) (hu : head.IsUse table)
    (ha : ReadsUpTo table a) (hpa : ∀ p ∈ a.rightEdge, head.power ≤ p) : ReadsUpTo table t := by
  intro levels power c c₂ rest hd hlev hs hs₂ hd₂ hl hr
  rw [h.leftEdge] at hl
  obtain ⟨hl₁, hl₂⟩ := List.forall_mem_cons.1 hl
  rw [h.levels] at hlev
  rw [h.spine] at hd₂ ⊢
  rw [h.tokens, List.append_assoc, List.cons_append] at hs
  have hs₀ := hu.stands (more ++ rest) (c.depth + a.spine + 1)
  obtain ⟨c₁, hs₁, hd₁⟩ := h.stands rest (c.depth + a.spine + 2)
  obtain ⟨k, hk⟩ : ∃ k, levels - (a.spine + 1) = k + 1 := ⟨levels - (a.spine + 2), by omega⟩
  have hat : ReadsAt table (readExpression table k) c₁.depth := readsAt_of_depth (by omega)
  have hreads := h.reads hs₁ hs₂ (by omega) (by omega) hr
  rw [ha hd (by omega) hs hs₀ rfl hl₂ hpa, hk,
    extend_succ hl₁ (by simp only; omega) ((stands_atDepth.2 hs₀).move hs₁ hd₁),
    show levels - (a.spine + 1 + 1) = k by omega]
  exact bind_eq_of_ok ((readTrailing_ok hat rfl).2 hreads)

theorem Complete.readsUpTo (ht : table.Regular) (hc : Complete table t) (hp : PrecedenceCorrect t) :
    ReadsUpTo table t := by
  have hlead := (hc.leadsInto_readsInto ht hp).1
  obtain ⟨hf, hh⟩ := hc
  induction hf with
  | leaf | unary | array | bareCall | call => exact (hlead rfl).readsUpTo rfl
  | @binary head a b hu hf _ hfa hfb iha _ =>
    cases hp with
    | binary hpa hpb hr hl =>
      have ha := fun head h => hh head (List.mem_append_left _ h)
      have hb := fun head h => hh head (List.mem_append_right _ h)
      have hcb : Complete table b := ⟨hfb, hb⟩
      have ha' := iha hpa (Complete.leadsInto_readsInto ht ⟨hfa, ha⟩ hpa).1 ha
      exact (Trailing.binary ht hf (hcb.readsInto ht hpb) hcb hl).readsUpTo hu ha' hr
  | @ternary head a b d hu hf _ hfa hfb hfd iha _ _ =>
    cases hp with
    | ternary hpa hpb hpd hr =>
      have ha := fun head h => hh head (List.mem_append_left _ h)
      have hb := fun head h => hh head (List.mem_append_right _ (List.mem_append_left _ h))
      have hd := fun head h => hh head (List.mem_append_right _ (List.mem_append_right _ h))
      have hcb : Complete table b := ⟨hfb, hb⟩
      have hcd : Complete table d := ⟨hfd, hd⟩
      have ha' := iha hpa (Complete.leadsInto_readsInto ht ⟨hfa, ha⟩ hpa).1 ha
      exact (Trailing.ternary ht hf (hcb.readsInto ht hpb) (hcd.readsInto ht hpd) hcb hcd).readsUpTo hu ha' hr

/-! ## Operands that do not fit -/

/-- With too few levels for the tree, what is read in front of it is refused. -/
def Refuses (table : SymbolTable) (t : Node) : Prop :=
  ∀ ⦃levels : Nat⦄ ⦃power : BindingPower⦄ ⦃c : Cursor⦄ ⦃rest : List Token⦄, c.depth + levels = maxDepth →
    levels < t.levels → Stands table (t.tokens ++ rest) c → (∀ p ∈ t.leftEdge, power < p) →
    Refused (readExpression table levels power) c

/-- A leading form that is refused. -/
theorem Refuses.leading (hlead : ∀ ⦃levels : Nat⦄ ⦃c : Cursor⦄ ⦃rest : List Token⦄, c.depth + (levels + 1) = maxDepth →
      levels + 1 < t.levels → Stands table (t.tokens ++ rest) c → ∃ c₁, Moves table (c.atDepth (c.depth + 1)) c₁ ∧
        Refused (readLeading table (readExpression table levels) c.active) c₁) : Refuses table t := by
  intro levels power c rest hd hlev hs _
  cases levels with
  | zero => exact .tooDeep
  | succ levels =>
    obtain ⟨c₁, hm, h⟩ := hlead hd hlev hs
    exact .of_eq (readExpression_succ hd hm) h.bind

/-- An operator whose operands behind it are refused, or that opens one level too many itself. -/
theorem Trailing.refuses {more : List Token} {m : Nat} (h : Trailing table head a t more m) (hu : head.IsUse table)
    (ha : ReadsUpTo table a) (ha' : Refuses table a) (hpa : ∀ p ∈ a.rightEdge, head.power ≤ p)
    (hmore : ∀ ⦃levels : Nat⦄ ⦃c₁ : Cursor⦄ ⦃rest : List Token⦄, c₁.depth + levels = maxDepth → levels < m →
      Stands table (more ++ rest) c₁ → Refused (readTrailing table (readExpression table levels) head a) c₁) :
    Refuses table t := by
  intro levels power c rest hd hlev hs hl
  rw [h.leftEdge] at hl
  obtain ⟨hl₁, hl₂⟩ := List.forall_mem_cons.1 hl
  rw [h.levels] at hlev
  rw [h.tokens, List.append_assoc, List.cons_append] at hs
  by_cases hfits : a.levels ≤ levels
  · have hs₀ := hu.stands (more ++ rest) (c.depth + a.spine + 1)
    obtain ⟨c₁, hs₁, hd₁⟩ := h.stands rest (c.depth + a.spine + 2)
    refine .of_eq (ha hd hfits hs hs₀ rfl hl₂ hpa) ?_
    cases hk : levels - (a.spine + 1) with
    | zero => exact .of_eq (extend_zero hl₁) .tooDeep
    | succ k =>
      have hm := (stands_atDepth.2 hs₀).move hs₁ hd₁
      refine .of_eq (extend_succ hl₁ (by simp only; omega) hm) ?_
      exact (hmore (by omega) (by omega) hs₁).bind
  · exact ha' hd (by omega) hs hl₂

/-- A list of which some item does not fit; the budget covers the commas. -/
theorem readItems_refuses (ht : table.Regular) (hclosing : closing ∈ Library.simpleIds) :
    ∀ {items : List Node} {budget : Nat} {c : Cursor},
      (∀ a ∈ items, Complete table a ∧ ReadsInto table a ∧ Refuses table a) → c.depth + levels = maxDepth →
      levels < levelsAll items → Stands table (tokensAll items ++ .operator closing :: rest) c →
      items.length ≤ budget + 1 → Refused (readItems table (readExpression table levels) budget) c
  | [], _, _, _, _, hlev, _, _ => absurd hlev (Nat.not_lt_zero _)
  | a :: items, budget, c, hi, hd, hlev, hs, hb => by
    obtain ⟨hc, ha, ha'⟩ := hi a List.mem_cons_self
    by_cases hfits : a.levels ≤ levels
    · -- the item fits, so there are others behind a comma
      cases items with
      | nil =>
        simp only [levelsAll] at hlev
        omega
      | cons b items =>
        have hi' := fun x hx => hi x (List.mem_cons_of_mem a hx)
        obtain ⟨budget, rfl⟩ : ∃ n, budget = n + 1 := ⟨budget - 1, by simp only [List.length_cons] at hb; omega⟩
        rw [tokensAll, List.append_assoc, List.cons_append] at hs
        have hread := (readsAt_of_depth hd rfl).2 (ha.before ht hc (by decide) hs (by omega))
        obtain ⟨c₁, hs₁, hd₁⟩ := list_stands ht hclosing (fun x hx => (hi' x hx).1) rest c.depth
        rw [levelsAll] at hlev
        rw [readItems]
        refine .after hread (.after (current_ok.2 ⟨rfl, rfl⟩) ?_)
        rw [if_pos]
        · refine .after (advance_ok.2 ⟨rfl, hs₁, hd₁⟩) ?_
          exact (readItems_refuses ht hclosing hi' (hd₁ ▸ hd) (by omega) hs₁ (Nat.le_of_succ_le_succ hb)).bind
        · rfl
    · obtain ⟨more, hmore⟩ := tokensAll_cons a items
      rw [hmore, List.append_assoc] at hs
      have h := ha' hd (by omega) hs hc.1.leftEdge_pos
      cases budget <;>
      · rw [readItems]
        exact h.bind

theorem length_le_tokensAll (ht : table.Regular) : ∀ {items : List Node}, (∀ a ∈ items, Complete table a) →
    items.length ≤ (tokensAll items).length
  | [], _ => Nat.le_refl 0
  | [a], hi => by
    obtain ⟨hf, hh⟩ := hi a List.mem_cons_self
    obtain ⟨head, more, htok, -⟩ := hf.first ht hh
    simp [tokensAll, htok]
  | a :: b :: items, hi => by
    have := length_le_tokensAll ht fun x hx => hi x (List.mem_cons_of_mem a hx)
    simp only [tokensAll, List.length_append, List.length_cons] at this ⊢
    omega

theorem readList_refuses (ht : table.Regular) (hclosing : closing ∈ Library.simpleIds)
    (hi : ∀ a ∈ items, Complete table a ∧ ReadsInto table a ∧ Refuses table a) (hd : c.depth + levels = maxDepth)
    (hlev : levels < levelsAll items) (hs : Stands table (tokensAll items ++ .operator closing :: rest) c) :
    Refused (readList table (readExpression table levels) closing) c := by
  have hlen := length_le_tokensAll ht fun a ha => (hi a ha).1
  refine .after (get_ok.2 ⟨rfl, rfl⟩) ?_
  rw [if_neg]
  · refine (readItems_refuses ht hclosing hi hd hlev hs ?_).bind
    rw [hs.unread_eq, List.length_tail, List.length_append, List.length_cons]
    omega
  · cases items with
    | nil => exact absurd hlev (Nat.not_lt_zero _)
    | cons a items =>
      obtain ⟨more, hmore⟩ := tokensAll_cons a items
      rw [hmore, List.append_assoc] at hs
      exact (hi a List.mem_cons_self).1.active_ne ht hs hclosing

/-! ## Trees that do not fit -/

theorem Refuses.operand (hu : head.IsUse table) {form : LeadingForm} (hl : head.symbol.kind.leadingForm? = some form)
    (hform : form = .operand ∨ form = .sign) (ht : table.Regular) (hc : Complete table a) (ha : Refuses table a)
    (hp : ∀ p ∈ a.leftEdge, BindingPower.unary < p) : Refuses table (.unary head (decide (form = .sign)) a) := by
  refine .leading fun levels c rest hd hlev hs => ?_
  rw [tokens, Head.closing_operand hl hform, List.append_nil, List.cons_append] at hs
  obtain ⟨c₁, hs₁, hd₁⟩ := hc.stands ht rest (c.depth + 1)
  simp only [Node.levels] at hlev
  refine ⟨c₁, (stands_atDepth.2 hs).move hs₁ hd₁, ?_⟩
  rw [hu.active hs, readLeading_form hl]
  have h : Refused (readExpression table levels .unary) c₁ := ha (by omega) (Nat.lt_of_succ_lt_succ hlev) hs₁ hp
  rcases hform with rfl | rfl
  · exact h.bind
  · exact h.bind

theorem Refuses.grouping (ht : table.Regular) (hu : head.IsUse table)
    (hl : head.symbol.kind.leadingForm? = some (.grouping closing)) (hc : Complete table a) (ha : Refuses table a) :
    Refuses table (.unary head false a) := by
  refine .leading fun levels c rest hd hlev hs => ?_
  rw [tokens, Head.closing_grouping hl, List.cons_append, List.append_assoc, List.singleton_append] at hs
  obtain ⟨c₁, hs₁, hd₁⟩ := hc.stands ht (.operator closing :: rest) (c.depth + 1)
  simp only [Node.levels] at hlev
  refine ⟨c₁, (stands_atDepth.2 hs).move hs₁ hd₁, ?_⟩
  rw [hu.active hs, readLeading_form hl]
  exact (ha (by omega) (Nat.lt_of_succ_lt_succ hlev) hs₁ hc.1.leftEdge_pos).bind

theorem Refuses.array (ht : table.Regular) (hu : head.IsUse table) (hl : head.symbol.kind.leadingForm? = some .array)
    (hi : ∀ a ∈ items, Complete table a ∧ ReadsInto table a ∧ Refuses table a) :
    Refuses table (.sequence head items) := by
  refine .leading fun levels c rest hd hlev hs => ?_
  rw [tokens, Head.opening_array hl, Head.closing_array hl, List.nil_append, List.cons_append, List.append_assoc,
    List.singleton_append] at hs
  have hid : "]" ∈ Library.simpleIds := by decide
  obtain ⟨c₁, hs₁, hd₁⟩ := list_stands ht hid (fun a ha => (hi a ha).1) rest (c.depth + 1)
  simp only [Node.levels] at hlev
  refine ⟨c₁, (stands_atDepth.2 hs).move hs₁ hd₁, ?_⟩
  rw [hu.active hs, readLeading_form hl]
  exact (readList_refuses ht hid hi (by omega) (Nat.lt_of_succ_lt_succ hlev) hs₁).bind

theorem Refuses.call (ht : table.Regular) (hu : head.IsUse table) {mode : ArgumentMode}
    (hm : head.symbol.kind.mode? = some mode) (hbare : mode ≠ .bare)
    (hi : ∀ a ∈ items, Complete table a ∧ ReadsInto table a ∧ Refuses table a) :
    Refuses table (.sequence head items) := by
  refine .leading fun levels c rest hd hlev hs => ?_
  rw [tokens, Head.opening_call hm, Head.closing_call hm, List.singleton_append, List.cons_append, List.cons_append,
    List.append_assoc, List.singleton_append] at hs
  have hid : ")" ∈ Library.simpleIds := by decide
  obtain ⟨c₁, hs₁, hd₁, hopen⟩ := opening_stands ht (tokensAll items ++ .operator ")" :: rest) (c.depth + 1)
  obtain ⟨c', hs', hd'⟩ := list_stands ht hid (fun a ha => (hi a ha).1) rest (c.depth + 1)
  have hp : Passes table "(" c₁ c' := ⟨hopen, hs₁.move hs' (by rw [hd', hd₁])⟩
  simp only [Node.levels] at hlev
  refine ⟨c₁, (stands_atDepth.2 hs).move hs₁ hd₁, ?_⟩
  rw [hu.active hs, readLeading_mode hm]
  refine .after (expect_ok.2 ⟨rfl, hp⟩) ?_
  rw [if_neg hbare]
  exact (readList_refuses ht hid hi (by omega) (Nat.lt_of_succ_lt_succ hlev) hs').bind

/-- A complete tree whose operators stand as their powers ask for is refused with too few levels for it. -/
theorem Complete.refuses (ht : table.Regular) (hc : Complete table t) (hp : PrecedenceCorrect t) : Refuses table t := by
  have small {t : Node} (hlev : t.levels = 1) : Refuses table t :=
    .leading fun levels c rest _ h _ => absurd h (by omega)
  obtain ⟨hf, hh⟩ := hc
  induction hf with
  | leaf | bareCall => exact small rfl
  | @unary head form a hu hl hne hf ih =>
    cases hp with
    | unary hp hedge =>
      have ha := ih hp hh
      cases form with
      | operand => exact .operand hu hl (.inl rfl) ht ⟨hf, hh⟩ ha (hedge (Head.closing_operand hl (.inl rfl)))
      | sign => exact .operand hu hl (.inr rfl) ht ⟨hf, hh⟩ ha (hedge (Head.closing_operand hl (.inr rfl)))
      | grouping closing => exact .grouping ht hu hl ⟨hf, hh⟩ ha
      | array => exact absurd rfl hne
  | array hu hl hf ih =>
    cases hp with
    | sequence hp =>
      have hitem := fun a ha head (h : head ∈ leaves a) => hh head (mem_leavesAll ha h)
      refine .array ht hu hl fun a ha => ?_
      have hc : Complete table a := ⟨hf a ha, hitem a ha⟩
      exact ⟨hc, hc.readsInto ht (hp a ha), ih a ha (hp a ha) (hitem a ha)⟩
  | call hu hm hne hf ih =>
    cases hp with
    | sequence hp =>
      have hitem := fun a ha head (h : head ∈ leaves a) => hh head (mem_leavesAll ha h)
      refine .call ht hu hm hne fun a ha => ?_
      have hc : Complete table a := ⟨hf a ha, hitem a ha⟩
      exact ⟨hc, hc.readsInto ht (hp a ha), ih a ha (hp a ha) (hitem a ha)⟩
  | @binary head a b hu hf _ hfa hfb iha ihb =>
    cases hp with
    | binary hpa hpb hr hl =>
      have ha := fun head h => hh head (List.mem_append_left _ h)
      have hb := fun head h => hh head (List.mem_append_right _ h)
      have hca : Complete table a := ⟨hfa, ha⟩
      have hcb : Complete table b := ⟨hfb, hb⟩
      refine (Trailing.binary ht hf (hcb.readsInto ht hpb) hcb hl).refuses hu (hca.readsUpTo ht hpa) (iha hpa ha) hr ?_
      intro levels c₁ rest hd hlev hs₁
      rw [readTrailing_binary hf]
      exact (ihb hpb hb hd hlev hs₁ hl).bind
  | @ternary head a b d hu hf _ hfa hfb hfd iha ihb ihd =>
    cases hp with
    | ternary hpa hpb hpd hr =>
      have ha := fun head h => hh head (List.mem_append_left _ h)
      have hb := fun head h => hh head (List.mem_append_right _ (List.mem_append_left _ h))
      have hd := fun head h => hh head (List.mem_append_right _ (List.mem_append_right _ h))
      have hca : Complete table a := ⟨hfa, ha⟩
      have hcb : Complete table b := ⟨hfb, hb⟩
      have hcd : Complete table d := ⟨hfd, hd⟩
      have hb' := hcb.readsInto ht hpb
      refine (Trailing.ternary ht hf hb' (hcd.readsInto ht hpd) hcb hcd).refuses hu (hca.readsUpTo ht hpa)
        (iha hpa ha) hr ?_
      intro levels c₁ rest hdepth hlev hs₁
      rw [List.append_assoc, List.cons_append] at hs₁
      rw [readTrailing_ternary hf]
      by_cases hfits : b.levels ≤ levels
      · obtain ⟨c', hs', hd'⟩ := hcd.stands ht rest c₁.depth
        have hread := (readsAt_of_depth hdepth rfl).2 (hb'.before ht hcb (by decide) hs₁ (by omega))
        refine .after hread (.after (expect_ok.2 ⟨rfl, passes_simple hs' hd'⟩) ?_)
        exact (ihd hpd hd (by omega) (by omega) hs' hfd.leftEdge_pos).bind
      · exact (ihb hpb hb hdepth (by omega) hs₁ hfb.leftEdge_pos).bind

/-- The tokens of a complete tree whose operators stand as their powers ask for are read as that tree, or they are
refused as too deep. -/
theorem Complete.ofTokens_or_refused (ht : table.Regular) (hc : Complete table t) (hp : PrecedenceCorrect t) :
    ofTokens table t.tokens = .ok t ∨ ∃ found, ofTokens table t.tokens = .error (depthError found) := by
  obtain ⟨c, hs, hd⟩ := hc.stands ht [] 0
  rw [List.append_nil] at hs
  have hstart : start table t.tokens = .ok c := start_ok.2 ⟨hs, hd⟩
  by_cases hlev : t.levels ≤ maxDepth
  · obtain ⟨c', hs', hread⟩ := hc.reads ht hp hc.1.leftEdge_pos hlev
    exact .inl (ofTokens_ok.2 ⟨c', _, hs', hread, rfl⟩)
  · have hs' : Stands table (t.tokens ++ []) c := by rwa [List.append_nil]
    have hdepth : c.depth + maxDepth = maxDepth := by rw [hd, Nat.zero_add]
    obtain ⟨found, c', h⟩ := hc.refuses ht hp hdepth (Nat.lt_of_not_le hlev) hs' hc.1.leftEdge_pos
    have hexpression : expression table .none c = .error (depthError found) c' := (expression_eq hdepth).trans h
    refine .inr ⟨found, ?_⟩
    simp only [ofTokens, hstart, hexpression]

end Node

end Formula
