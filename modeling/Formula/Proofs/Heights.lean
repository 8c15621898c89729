import Formula.Proofs.RoundTrip
import Mathlib.Data.Nat.Choose.Basic
import Mathlib.Order.Interval.Set.Defs

/-!
# How deep trees are

A reading counts the levels that it has open, and an operator after an operand closes its own level only when the whole
expression ends. So a tree is as deep as the levels that were open one after the other for the nodes of one path, which
may be many more than were open at once: behind a closing bracket the levels of what stands between the brackets can
be opened again.

The levels bound the paths into all operands but those in front of an operator (`height_le_of_leftOperand`), so a tree
that is read keeps to the bound on levels exactly where its left operands do (`height_le_maxDepth_iff`). Whatever these
are, `height_le_tallest` bounds the height by the levels, `terms` builds trees that reach this bound, and `heights_eq`
says which heights the trees have that can be read at all.
-/

namespace Formula.Node

open Cursor

/-! ## Heights -/

mutual

/-- The number of nodes on the longest path from the root to a leaf. -/
def height : Node → Nat
  | .leaf _ => 1
  | .unary _ _ a => a.height + 1
  | .binary _ a b => max a.height b.height + 1
  | .ternary _ a b c => max a.height (max b.height c.height) + 1
  | .sequence _ items => heightAll items + 1

/-- The height of the highest of several trees. -/
def heightAll : List Node → Nat
  | [] => 0
  | a :: rest => max a.height (heightAll rest)

end

/-- The height that trees with this many levels do not exceed. -/
def tallest (levels : Nat) : Nat := levels.choose 2 + 1

theorem tallest_succ (n : Nat) : tallest (n + 1) = tallest n + n := by
  have h : (n + 1).choose 2 = n.choose 1 + n.choose 2 := Nat.choose_succ_succ' n 1
  rw [Nat.choose_one_right] at h
  simp only [tallest]
  omega

theorem tallest_pos (n : Nat) : 0 < tallest n := Nat.succ_pos _

theorem tallest_mono {m n : Nat} (h : m ≤ n) : tallest m ≤ tallest n :=
  Nat.succ_le_succ (Nat.choose_le_choose 2 h)

/-- From the first level on, each further one adds at least one node. -/
theorem tallest_add_sub_le {m n : Nat} (hm : 0 < m) (h : m ≤ n) : tallest m + (n - m) ≤ tallest n := by
  induction n, h using Nat.le_induction with
  | base => omega
  | succ n hn ih =>
    have hs := tallest_succ n
    omega

/-- The last of the levels adds a node for each of the others. -/
theorem tallest_add_pred_le {m n : Nat} (h : m < n) : tallest m + (n - 1) ≤ tallest n := by
  obtain ⟨k, rfl⟩ : ∃ k, n = k + 1 := ⟨n - 1, by omega⟩
  have hs := tallest_succ k
  have hm := tallest_mono (Nat.le_of_lt_succ h)
  omega

/-- The height is within the bound, by as many nodes as there is room for further operators on the spine. -/
def Within (t : Node) : Prop :=
  t.height ≤ tallest t.levels ∧ t.height + t.levels ≤ tallest t.levels + t.spine + 2

/-- The step to an operator of the spine, whose first operand is `a`; its other operands have at most `m` levels and the
height `k`. -/
theorem Within.step {a t : Node} {k m : Nat} (ha : a.Within) (hk : k ≤ tallest m)
    (hlevels : t.levels = max a.levels (a.spine + m + 2)) (hm : 0 < m) (hheight : t.height = max a.height k + 1)
    (hspine : t.spine = a.spine + 1) : t.Within := by
  obtain ⟨-, ha⟩ := ha
  have hfirst : tallest a.levels + (t.levels - a.levels) ≤ tallest t.levels :=
    tallest_add_sub_le (levels_pos a) (by omega)
  have hother : tallest m + (t.levels - 1) ≤ tallest t.levels := tallest_add_pred_le (by omega)
  constructor <;> omega

/-- The step to a node that starts with its own symbol, whose operands have at most `m` levels and the height `k`. -/
theorem Within.close {t : Node} {k m : Nat} (hk : k ≤ tallest m) (hm : m = 0 → k = 0) (hlevels : t.levels = m + 1)
    (hheight : t.height = k + 1) : t.Within := by
  have hs := tallest_succ m
  rw [← hlevels] at hs
  have hpos := tallest_pos m
  constructor <;> omega

mutual

theorem within : ∀ t : Node, t.Within
  | .leaf _ => .close (Nat.zero_le _) (fun _ => rfl) rfl rfl
  | .unary _ _ a => .close (within a).1 (fun h => absurd (levels_pos a) (by omega)) rfl rfl
  | .binary _ a b => (within a).step (within b).1 (by simp only [levels]) (levels_pos b) rfl rfl
  | .ternary _ a b c => by
    have hb := tallest_mono (Nat.le_max_left b.levels c.levels)
    have hc := tallest_mono (Nat.le_max_right b.levels c.levels)
    have hk : max b.height c.height ≤ tallest (max b.levels c.levels) :=
      Nat.max_le.2 ⟨(within b).1.trans hb, (within c).1.trans hc⟩
    exact (within a).step hk (by simp only [levels]) ((levels_pos b).trans_le (Nat.le_max_left _ _)) rfl rfl
  | .sequence _ items => .close (heightAll_le_tallest items).1 (heightAll_le_tallest items).2 rfl rfl

theorem heightAll_le_tallest : ∀ items : List Node,
    heightAll items ≤ tallest (levelsAll items) ∧ (levelsAll items = 0 → heightAll items = 0)
  | [] => ⟨Nat.zero_le _, fun _ => rfl⟩
  | a :: rest => by
    have ha := tallest_mono (Nat.le_max_left a.levels (levelsAll rest))
    have hr := tallest_mono (Nat.le_max_right a.levels (levelsAll rest))
    have hpos := levels_pos a
    refine ⟨Nat.max_le.2 ⟨(within a).1.trans ha, (heightAll_le_tallest rest).1.trans hr⟩, fun h => ?_⟩
    simp only [levelsAll] at h
    omega

end

/-- With `n` levels open at once, each of them closed and opened again as often as possible, a tree has at most
`n (n - 1) / 2 + 1` nodes on a path. -/
theorem height_le_tallest (t : Node) : t.height ≤ tallest t.levels := (within t).1

theorem height_pos : ∀ t : Node, 0 < t.height
  | .leaf _ => Nat.zero_lt_one
  | .unary .. | .binary .. | .ternary .. | .sequence .. => Nat.succ_pos _

/-! ## Left operands -/

/-- The operands of a node, in their order. -/
def operands : Node → List Node
  | .leaf _ => []
  | .unary _ _ a => [a]
  | .binary _ a b => [a, b]
  | .ternary _ a b c => [a, b, c]
  | .sequence _ items => items

/-- What stands in front of an operator of the tree, with the number of nodes above it. -/
inductive LeftOperand : Node → Nat → Node → Prop
  | binary {head : Head} {a b : Node} : LeftOperand (.binary head a b) 1 a
  | ternary {head : Head} {a b c : Node} : LeftOperand (.ternary head a b c) 1 a
  | deeper {t a left : Node} {depth : Nat} : a ∈ t.operands → LeftOperand a depth left →
      LeftOperand t (depth + 1) left

section LeftOperands

variable {t a : Node} {n : Nat}

theorem height_le_heightAll : ∀ {items : List Node}, a ∈ items → a.height ≤ heightAll items
  | _ :: _, ha => by
    rcases List.mem_cons.1 ha with rfl | ha
    · exact Nat.le_max_left _ _
    · exact (height_le_heightAll ha).trans (Nat.le_max_right _ _)

theorem heightAll_le : ∀ {items : List Node}, (∀ a ∈ items, a.height ≤ n) → heightAll items ≤ n
  | [], _ => Nat.zero_le _
  | _ :: _, h => Nat.max_le.2 ⟨(List.forall_mem_cons.1 h).1, heightAll_le (List.forall_mem_cons.1 h).2⟩

theorem height_lt_of_operand (ha : a ∈ t.operands) : a.height < t.height := by
  cases t with
  | leaf => cases ha
  | unary =>
    rw [List.mem_singleton.1 ha]
    exact Nat.lt_succ_self _
  | binary head first second =>
    simp only [operands, List.mem_cons, List.not_mem_nil, or_false] at ha
    simp only [height]
    rcases ha with rfl | rfl <;> omega
  | ternary head first second third =>
    simp only [operands, List.mem_cons, List.not_mem_nil, or_false] at ha
    simp only [height]
    rcases ha with rfl | rfl | rfl <;> omega
  | sequence => exact Nat.lt_succ_of_le (height_le_heightAll ha)

theorem height_le_of_operands (h : ∀ a ∈ t.operands, a.height ≤ n) : t.height ≤ n + 1 := by
  cases t with
  | leaf => exact Nat.succ_le_succ (Nat.zero_le n)
  | unary => exact Nat.succ_le_succ (h _ List.mem_cons_self)
  | binary head first second =>
    have hfirst := h first (by simp [operands])
    have hsecond := h second (by simp [operands])
    simp only [height]
    omega
  | ternary head first second third =>
    have hfirst := h first (by simp [operands])
    have hsecond := h second (by simp [operands])
    have hthird := h third (by simp [operands])
    simp only [height]
    omega
  | sequence => exact Nat.succ_le_succ (heightAll_le h)

/-- An operand that is no left operand is read with the level of its node open. -/
theorem leftOperand_or_levels_lt (ha : a ∈ t.operands) : t.LeftOperand 1 a ∨ a.levels < t.levels := by
  cases t with
  | leaf => cases ha
  | unary =>
    rw [List.mem_singleton.1 ha]
    exact .inr (Nat.lt_succ_self _)
  | binary head first second =>
    simp only [operands, List.mem_cons, List.not_mem_nil, or_false] at ha
    simp only [levels]
    rcases ha with rfl | rfl
    · exact .inl .binary
    · exact .inr (by omega)
  | ternary head first second third =>
    simp only [operands, List.mem_cons, List.not_mem_nil, or_false] at ha
    simp only [levels]
    rcases ha with rfl | rfl | rfl
    · exact .inl .ternary
    · exact .inr (by omega)
    · exact .inr (by omega)
  | sequence => exact .inr (Nat.lt_succ_of_le (levels_le_levelsAll ha))

theorem LeftOperand.add_height_le {depth : Nat} (h : t.LeftOperand depth a) : depth + a.height ≤ t.height := by
  induction h with
  | binary =>
    simp only [height]
    omega
  | ternary =>
    simp only [height]
    omega
  | deeper hmem _ ih =>
    have hlt := height_lt_of_operand hmem
    omega

/-- The levels bound each path that goes into no left operand. -/
theorem height_le_of_leftOperand (hlev : t.levels ≤ n)
    (h : ∀ depth a, t.LeftOperand depth a → depth + a.height ≤ n) : t.height ≤ n := by
  induction n generalizing t with
  | zero => exact absurd (levels_pos t) (by omega)
  | succ n ih =>
    refine height_le_of_operands fun a ha => ?_
    rcases leftOperand_or_levels_lt ha with hleft | hlt
    · have hle := h 1 a hleft
      omega
    · refine ih (by omega) fun depth left hleft => ?_
      have hle := h (depth + 1) left (.deeper ha hleft)
      omega

end LeftOperands

/-! ## Trees of every height -/

/-- The use of an opening bracket. -/
def bracket : Head := ⟨.leading "(" (.grouping ")") Library.group, none⟩

/-- The use of an addition. -/
def addition : Head := ⟨.binary "+" .additive Library.add, none⟩

/-- A string. -/
def term : Node := .leaf (.text "a")

/-- The tree between brackets, and behind it a number of further terms. -/
def terms (t : Node) : Nat → Node
  | 0 => .unary bracket false t
  | n + 1 => .binary addition (terms t n) term

section Terms

variable {t : Node} {table : SymbolTable}

theorem terms_height (n : Nat) : (terms t n).height = t.height + n + 1 := by
  induction n with
  | zero => rfl
  | succ n ih =>
    simp only [terms, term, height, ih]
    omega

theorem terms_spine (n : Nat) : (terms t n).spine = n := by
  induction n with
  | zero => rfl
  | succ n ih => simp only [terms, spine, ih]

/-- The terms open one level each above their own, and none of those that have been closed between the brackets. -/
theorem terms_levels (n : Nat) : (terms t n).levels ≤ max (t.levels + 1) (n + 2) := by
  induction n with
  | zero => exact Nat.le_max_left _ _
  | succ n ih =>
    simp only [terms, term, levels, terms_spine]
    omega

theorem terms_precedenceCorrect (ht : PrecedenceCorrect t) (n : Nat) : PrecedenceCorrect (terms t n) := by
  induction n with
  | zero => exact .unary ht fun h => by cases h
  | succ n ih =>
    refine .binary ih .leaf (fun p hp => ?_) (fun p hp => by cases hp)
    cases n with
    | zero => cases hp
    | succ n =>
      simp only [terms, term, rightEdge, List.mem_singleton] at hp
      exact Nat.le_of_eq hp.symm

theorem term_formed (ht : table.Regular) : Formed (Head.IsUse table) term :=
  .leaf (Head.isUse_text ht "a") rfl rfl

theorem terms_complete (ht : table.Regular) (hb : bracket.IsUse table) (ha : addition.IsUse table)
    (hc : Complete table t) (n : Nat) : Complete table (terms t n) := by
  induction n with
  | zero => exact ⟨.unary hb rfl (by decide) hc.1, hc.2⟩
  | succ n ih =>
    refine ⟨.binary ha rfl (by decide) ih.1 (term_formed ht), fun head h => ?_⟩
    rcases List.mem_append.1 h with h | h
    · exact ih.2 head h
    · rw [List.mem_singleton.1 h]
      rfl

/-- A string between brackets. -/
def nested : Nat → Node
  | 0 => term
  | n + 1 => terms (nested n) 0

theorem nested_reads (ht : table.Regular) (hb : bracket.IsUse table) (ha : addition.IsUse table) (n : Nat) :
    Complete table (nested n) ∧ PrecedenceCorrect (nested n) ∧ (nested n).levels ≤ n + 1 ∧
      (nested n).height = n + 1 := by
  induction n with
  | zero =>
    refine ⟨⟨term_formed ht, fun head hm => ?_⟩, .leaf, Nat.le_refl 1, rfl⟩
    rw [List.mem_singleton.1 hm]
    rfl
  | succ n ih =>
    obtain ⟨hc, hp, hlev, hh⟩ := ih
    have hlevels := terms_levels (t := nested n) 0
    refine ⟨terms_complete ht hb ha hc 0, terms_precedenceCorrect hp 0, ?_, ?_⟩
    · simp only [nested]
      omega
    · simp only [nested, terms_height, hh]

/-- Every height up to that of the highest trees is that of one with no more levels. -/
theorem exists_height (ht : table.Regular) (hb : bracket.IsUse table) (ha : addition.IsUse table) {n h : Nat}
    (hpos : 0 < h) (hle : h ≤ tallest (n + 1)) :
    ∃ t, Complete table t ∧ PrecedenceCorrect t ∧ t.levels ≤ n + 1 ∧ t.height = h := by
  induction n generalizing h with
  | zero =>
    obtain ⟨hc, hp, hlev, hh⟩ := nested_reads ht hb ha 0
    exact ⟨nested 0, hc, hp, hlev, hh.trans (Nat.le_antisymm hpos hle)⟩
  | succ n ih =>
    by_cases hn : h ≤ tallest (n + 1)
    · obtain ⟨t, hc, hp, hlev, hh⟩ := ih hpos hn
      exact ⟨t, hc, hp, Nat.le_succ_of_le hlev, hh⟩
    · -- what the bound has gained with the new level is made up by terms behind a bracket
      obtain ⟨t, hc, hp, hlev, hh⟩ := ih (tallest_pos (n + 1)) (Nat.le_refl _)
      have hs := tallest_succ (n + 1)
      have hk := terms_levels (t := t) (h - tallest (n + 1) - 1)
      refine ⟨terms t (h - tallest (n + 1) - 1), terms_complete ht hb ha hc _, terms_precedenceCorrect hp _, ?_, ?_⟩
      · omega
      · rw [terms_height, hh]
        omega

end Terms

/-! ## Trees that are read -/

section Readings

variable {table : SymbolTable} {tokens : List Token} {power : BindingPower} {c c' : Cursor} {t : Node}

theorem levels_le_maxDepth (hs : start table tokens = .ok c) (ht : expression table power c = .ok t c') :
    t.levels ≤ maxDepth := by
  have hlev := (expression_ok.1 ht).levels_le
  rwa [(start_ok.1 hs).2, Nat.zero_add] at hlev

theorem bracket_isUse : bracket.IsUse Evaluator.standard.symbols :=
  Head.isUse_of_get? (SymbolTable.get?_standard (s := bracket.symbol)
    (by simp [bracket, Library.symbols, Library.structuralSymbols]))

theorem addition_isUse : addition.IsUse Evaluator.standard.symbols :=
  Head.isUse_of_get? (SymbolTable.get?_standard (s := addition.symbol)
    (by simp [addition, Library.symbols, Library.standardSymbols, Library.operatorSymbols]))

/-- Whatever the symbols and the tokens, a tree that is read keeps to `maxDepth` exactly where its left operands do. The
other operands are counted with the levels above them, but a left operand is closed before the operator behind it is
opened. -/
theorem height_le_maxDepth_iff (hs : start table tokens = .ok c) (ht : expression table power c = .ok t c') :
    t.height ≤ maxDepth ↔ ∀ depth a, t.LeftOperand depth a → depth + a.height ≤ maxDepth := by
  constructor
  · exact fun h depth a ha => ha.add_height_le.trans h
  · exact height_le_of_leftOperand (levels_le_maxDepth hs ht)

/-- As many brackets as there are levels, and a term behind them. -/
theorem leftOperand_of_nested :
    ∃ c c' t, start Evaluator.standard.symbols (terms (nested 254) 1).tokens = .ok c ∧
      expression Evaluator.standard.symbols 0 c = .ok t c' ∧ t.height = 257 ∧
      ∃ depth a, t.LeftOperand depth a ∧ maxDepth < depth + a.height := by
  have hr := SymbolTable.Extended.standard.regular
  obtain ⟨hc, hp, hlev, hh⟩ := nested_reads hr bracket_isUse addition_isUse 254
  have hlevels : (terms (nested 254) 1).levels ≤ maxDepth := (terms_levels 1).trans (by simp only [maxDepth]; omega)
  have hcomplete := terms_complete hr bracket_isUse addition_isUse hc 1
  obtain ⟨c, hs, hread⟩ := hcomplete.reads hr (terms_precedenceCorrect hp 1) hcomplete.1.leftEdge_pos hlevels
  have hheight : (terms (nested 254) 1).height = 257 := by rw [terms_height, hh]
  have hnot := mt (height_le_maxDepth_iff hs (expression_ok.2 hread)).2 (by rw [hheight]; decide)
  simp only [not_forall, Nat.not_le] at hnot
  obtain ⟨depth, a, ha, hlt⟩ := hnot
  exact ⟨c, _, _, hs, expression_ok.2 hread, hheight, depth, a, ha, hlt⟩

/-- Whatever the symbols and the tokens, a tree that is read has no more than `tallest maxDepth` nodes on a path, and
there are trees of every height up to that one. -/
theorem heights_eq :
    {h | ∃ (table : SymbolTable) (tokens : List Token) (power : BindingPower) (c c' : Cursor) (t : Node),
      start table tokens = .ok c ∧ expression table power c = .ok t c' ∧ t.height = h} =
      Set.Icc 1 (tallest maxDepth) := by
  ext h
  constructor
  · rintro ⟨table, tokens, power, c, c', t, hs, ht, rfl⟩
    exact ⟨height_pos t, (height_le_tallest t).trans (tallest_mono (levels_le_maxDepth hs ht))⟩
  · rintro ⟨hpos, hle⟩
    have hr := SymbolTable.Extended.standard.regular
    obtain ⟨t, hc, hp, hlev, hh⟩ := exists_height (n := maxDepth - 1) hr bracket_isUse addition_isUse hpos hle
    obtain ⟨c, hs, hread⟩ := hc.reads hr hp hc.1.leftEdge_pos hlev
    exact ⟨_, _, _, c, _, t, hs, expression_ok.2 hread, hh⟩

/-- The bound is far above the number of levels. -/
example : tallest maxDepth = 32641 := by decide +kernel

end Readings

end Formula.Node
