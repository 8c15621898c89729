import Formula.Proofs.Refusals

/-!
# The levels that are open

Each expression opens a level, and so does each operator that is chained onto it; when the expression is read, all of
them are closed at once, counted by its reader. The count is never off:

- a reader that succeeds closes exactly the levels that it was handed open, and one that fails has opened no more than
  `maxDepth` (`Closes`, `Closes.expression`);
- fewer levels than are to be closed are never open, so that whatever were done in that case, nothing would be read
  differently (`expressionWith_eq`);
- what is read does not depend on the levels that were open before, as long as there are enough left (`Reads.lower`);
- whatever steps are taken, also those that fail, no more than `maxDepth` levels are open (`Reachable.depth_le`).
-/

namespace Formula

open Cursor

/-! ## Steps that close levels -/

section Steps

variable {α β : Type} {n : Nat} {table : SymbolTable}

/-- A step that succeeds closes this many levels, if so many are open, and a step that fails leaves no more of them open
than there may be. -/
structure Closes (n : Nat) (x : CursorM α) : Prop where
  ok {c c' : Cursor} {a : α} : x c = .ok a c' → n ≤ c.depth → c'.depth + n = c.depth
  error {c c' : Cursor} {e : EvalError} : x c = .error e c' → c.depth ≤ maxDepth → c'.depth ≤ maxDepth

namespace Closes

/-- A step that neither fails nor moves the cursor. -/
theorem of_ok {x : CursorM α} (h : ∀ c, ∃ a, x c = .ok a c) : Closes 0 x where
  ok {c _ _} hx _ := by
    obtain ⟨a, ha⟩ := h c
    rw [ha] at hx
    cases hx
    rfl
  error {c _ _} hx _ := by
    obtain ⟨a, ha⟩ := h c
    rw [ha] at hx
    cases hx

protected theorem pure (a : α) : Closes 0 (pure a) := .of_ok fun _ => ⟨a, rfl⟩

protected theorem current : Closes 0 current := .of_ok fun c => ⟨c.active, rfl⟩

protected theorem get : Closes 0 (get : CursorM Cursor) := .of_ok fun c => ⟨c, rfl⟩

/-- A step that always fails, and does not move the cursor. -/
theorem of_error {x : CursorM α} (h : ∀ c, ∃ e, x c = .error e c) : Closes n x where
  ok {c _ _} hx _ := by
    obtain ⟨e, he⟩ := h c
    rw [he] at hx
    cases hx
  error {c _ _} hx hd := by
    obtain ⟨e, he⟩ := h c
    rw [he] at hx
    cases hx
    exact hd

protected theorem throw (e : EvalError) : Closes n (throw e : CursorM α) := .of_error fun _ => ⟨e, rfl⟩

protected theorem tooDeep : Closes n (tooDeep : CursorM α) := .of_error fun _ => ⟨_, rfl⟩

protected theorem bind {x : CursorM α} {f : α → CursorM β} (hx : Closes 0 x) (hf : ∀ a, Closes n (f a)) :
    Closes n (x >>= f) where
  ok {c c' b} h hn := by
    obtain ⟨a, c₁, ha, hb⟩ := bind_ok.1 h
    have hd := hx.ok ha (Nat.zero_le _)
    have hd' := (hf a).ok hb (by omega)
    omega
  error {c c' e} h hd := by
    rcases bind_error.1 h with ha | ⟨a, c₁, ha, hb⟩
    · exact hx.error ha hd
    · have hd₁ := hx.ok ha (Nat.zero_le _)
      exact (hf a).error hb (by omega)

/-- What is done on a level of its own closes that level as well. -/
theorem descend {x : CursorM α} (hx : Closes (n + 1) x) : Closes n (Cursor.descend >>= fun _ => x) where
  ok {c c' a} h hn := by
    obtain ⟨_, c₁, hd, ha⟩ := bind_ok.1 h
    obtain ⟨-, rfl⟩ := descend_ok.1 hd
    have h' := hx.ok ha (by rw [atDepth_depth]; omega)
    rw [atDepth_depth] at h'
    omega
  error {c c' e} h hmax := by
    by_cases hlt : c.depth < maxDepth
    · rw [descend_bind_of_lt hlt] at h
      exact hx.error h hlt
    · rw [descend_bind_of_not_lt hlt] at h
      cases h
      exact hmax

/-- The end of a reader, which closes the levels that were opened. -/
theorem closing (a : α) : Closes n (ascend n >>= fun _ => (pure a : CursorM α)) where
  ok {c c' _} h hn := by
    obtain ⟨_, c₁, h₁, h₂⟩ := bind_ok.1 h
    rw [← (pure_ok.1 h₂).2, ascend_ok.1 h₁, atDepth_depth]
    omega
  error h _ := by cases h

protected theorem advance : Closes 0 (advance table) where
  ok h _ := (advance_ok.1 h).2.2
  error {c c' e} h hd := by
    unfold Cursor.advance at h
    split at h
    · cases h
    · cases h
      exact hd

protected theorem expect (id : String) : Closes 0 (expect table id) := by
  refine .bind .current fun active => ?_
  split
  · exact .advance
  · exact .throw _

end Closes

end Steps

namespace Node

variable {table : SymbolTable}

/-! ## Readers -/

section Readers

variable {read : Reader} (hread : ∀ power, Closes 0 (read power))
include hread

theorem closes_readItems : ∀ budget, Closes 0 (readItems table read budget)
  | 0 => .bind (hread 0) fun _ => .pure _
  | budget + 1 => by
    refine .bind (hread 0) fun item => .bind .current fun active => ?_
    split
    · exact .bind .advance fun _ => .bind (closes_readItems budget) fun _ => .pure _
    · exact .pure _

theorem closes_readList (closing : String) : Closes 0 (readList table read closing) := by
  refine .bind .get fun c => ?_
  split
  · exact .bind (.expect closing) fun _ => .pure _
  · exact .bind (closes_readItems hread _) fun _ => .bind (.expect closing) fun _ => .pure _

theorem closes_readLeadingForm (head : Head) (form : LeadingForm) :
    Closes 0 (readLeadingForm table read head form) := by
  cases form with
  | operand | sign => exact .bind (hread .unary) fun _ => .pure _
  | grouping closing => exact .bind (hread 0) fun _ => .bind (.expect closing) fun _ => .pure _
  | array => exact .bind (closes_readList hread "]") fun _ => .pure _

theorem closes_readCall (head : Head) (mode : ArgumentMode) : Closes 0 (readCall table read head mode) := by
  refine .bind (.expect "(") fun _ => ?_
  split
  · exact .bind (.expect ")") fun _ => .pure _
  · exact .bind (closes_readList hread ")") fun _ => .pure _

theorem closes_readLeading (head : Head) : Closes 0 (readLeading table read head) := by
  unfold readLeading
  split
  · exact closes_readLeadingForm hread head _
  · exact closes_readLeadingForm hread head _
  · exact closes_readCall hread head _
  · exact .pure _

theorem closes_readTrailing (head : Head) (left : Node) : Closes 0 (readTrailing table read head left) := by
  unfold readTrailing
  split
  · exact .bind (hread _) fun _ => .pure _
  · exact .bind (hread 0) fun _ => .bind (.expect ":") fun _ => .bind (hread 0) fun _ => .pure _
  · exact .bind (hread _) fun _ => .pure _
  · exact .pure _

end Readers

/-- What extends a tree closes the levels that were opened for it, and an expression the one that it opened. -/
theorem closes_readExpression_extend : ∀ levels,
    (∀ power, Closes 0 (readExpression table levels power)) ∧
      ∀ power opened left, Closes opened (extend table levels power opened left)
  | 0 => by
    refine ⟨fun _ => .tooDeep, fun power opened left => .bind .current fun active => ?_⟩
    split
    · exact .tooDeep
    · exact .closing left
  | levels + 1 => by
    obtain ⟨hread, hextend⟩ := closes_readExpression_extend levels
    constructor
    · intro power
      refine .descend (.bind .advance fun head => .bind (closes_readLeading hread head) fun left => ?_)
      exact hextend power 1 left
    · intro power opened left
      refine .bind .current fun active => ?_
      split
      · refine .descend (.bind .advance fun head => .bind (closes_readTrailing hread head left) fun whole => ?_)
        exact hextend power (opened + 1) whole
      · exact .closing left

theorem closes_expression (power : BindingPower) : Closes 0 (expression table power) :=
  .bind .get fun _ => (closes_readExpression_extend _).1 power

/-! ## Levels that are closed -/

section Close

variable (close : Nat → CursorM Unit)

mutual

/-- The reader of an expression with another way to close its levels. -/
def readExpressionWith (table : SymbolTable) : (levels : Nat) → Reader
  | 0, _ => tooDeep
  | levels + 1, power => do
    descend
    let head ← advance table
    let left ← readLeading table (readExpressionWith table levels) head
    extendWith table levels power 1 left

/-- The reader of trailing forms with another way to close the levels. -/
def extendWith (table : SymbolTable) : (levels : Nat) → BindingPower → (opened : Nat) → Node → CursorM Node
  | 0, power, opened, left => do
    let active ← current
    if power < active.power then tooDeep
    else
      close opened
      pure left
  | levels + 1, power, opened, left => do
    let active ← current
    if power < active.power then
      descend
      let head ← advance table
      let whole ← readTrailing table (readExpressionWith table levels) head left
      extendWith table levels power (opened + 1) whole
    else
      close opened
      pure left

end

/-- The reader of an expression, with another way to close levels in the place of `ascend`. -/
def expressionWith (table : SymbolTable) (power : BindingPower) : CursorM Node := do
  let c ← get
  readExpressionWith close table (maxDepth - c.depth) power

variable {close} (hclose : ∀ n c, n ≤ c.depth → close n c = ascend n c)
include hclose

theorem close_eq {opened : Nat} {left : Node} {c : Cursor} (h : opened ≤ c.depth) :
    (close opened >>= fun _ => (pure left : CursorM Node)) c = (ascend opened >>= fun _ => pure left) c := by
  simp only [bind, EStateM.bind, hclose opened c h]

/-- At least the levels that are to be closed are open. -/
theorem readExpressionWith_extendWith_eq : ∀ levels,
    readExpressionWith close table levels = readExpression table levels ∧
      ∀ power opened left c, opened ≤ c.depth →
        extendWith close table levels power opened left c = extend table levels power opened left c
  | 0 => by
    refine ⟨rfl, fun power opened left c hopened => ?_⟩
    unfold extendWith extend
    refine bind_congr_of_ok fun active c₁ hactive => ?_
    obtain ⟨-, rfl⟩ := current_ok.1 hactive
    split
    · rfl
    · exact close_eq hclose hopened
  | levels + 1 => by
    obtain ⟨hread, hextend⟩ := readExpressionWith_extendWith_eq levels
    have hcloses : ∀ power, Closes 0 (readExpression table levels power) := (closes_readExpression_extend levels).1
    constructor
    · funext power c
      unfold readExpressionWith readExpression
      rw [hread]
      refine bind_congr_of_ok fun _ c₁ hdescend => bind_congr_of_ok fun head c₂ hadvance =>
        bind_congr_of_ok fun left c₃ hleading => hextend _ _ _ _ ?_
      have h₁ := (descend_ok.1 hdescend).2
      have h₂ := Closes.advance.ok hadvance (Nat.zero_le _)
      have h₃ := (closes_readLeading hcloses head).ok hleading (Nat.zero_le _)
      rw [h₁, atDepth_depth] at h₂
      omega
    · intro power opened left c hopened
      unfold extendWith extend
      rw [hread]
      refine bind_congr_of_ok fun active c₀ hactive => ?_
      obtain ⟨-, rfl⟩ := current_ok.1 hactive
      split
      · refine bind_congr_of_ok fun _ c₁ hdescend => bind_congr_of_ok fun head c₂ hadvance =>
          bind_congr_of_ok fun whole c₃ htrailing => hextend _ _ _ _ ?_
        have h₁ := (descend_ok.1 hdescend).2
        have h₂ := Closes.advance.ok hadvance (Nat.zero_le _)
        have h₃ := (closes_readTrailing hcloses head left).ok htrailing (Nat.zero_le _)
        rw [h₁, atDepth_depth] at h₂
        omega
      · exact close_eq hclose hopened

/-- Whatever were done where fewer levels are open than are to be closed, nothing would be read differently. -/
theorem expressionWith_eq (power : BindingPower) : expressionWith close table power = expression table power := by
  funext c
  refine bind_congr_of_ok fun c₀ _ _ => ?_
  rw [(readExpressionWith_extendWith_eq hclose _).1]

end Close

end Node

/-! ## Fewer levels open before -/

/-- The cursor with this many levels less. -/
def Cursor.lower (n : Nat) (c : Cursor) : Cursor := c.atDepth (c.depth - n)

namespace Cursor

variable {table : SymbolTable} {c c' : Cursor} {n : Nat}

theorem Moves.lower (h : Moves table c c') : Moves table (c.lower n) (c'.lower n) :=
  ⟨h.1, by simp only [Cursor.lower, atDepth_depth, h.2]⟩

theorem Passes.lower {id : String} (h : Passes table id c c') : Passes table id (c.lower n) (c'.lower n) :=
  ⟨h.1, h.2.lower⟩

/-- The move onto the first token of what has a level of its own. -/
theorem Moves.lower_succ (h : Moves table (c.atDepth (c.depth + 1)) c') (hn : n ≤ c.depth) :
    Moves table ((c.lower n).atDepth ((c.lower n).depth + 1)) (c'.lower n) := by
  have hd : (c.lower n).depth + 1 = c.depth + 1 - n := by
    simp only [Cursor.lower, atDepth_depth]
    omega
  rw [hd]
  exact h.lower

end Cursor

namespace Node

variable {table : SymbolTable} {n : Nat}

/-! What is read with some levels open is read with fewer of them open. -/

mutual

theorem Reads.lower {power : BindingPower} {c c' : Cursor} {node : Node} :
    Reads table power c node c' → n ≤ c.depth → Reads table power (c.lower n) node (c'.lower n)
  | .intro hlt hm hl he, hn => by
    have hd : c.depth + 1 = _ := hm.2.symm
    have hl' := hl.lower (by omega)
    have he' := he.lower (by rw [hl.depth_eq]; omega)
    have hread := Reads.intro (Nat.lt_of_le_of_lt (Nat.sub_le _ _) hlt) (hm.lower_succ hn) hl' he'
    exact hread

theorem Extends.lower {power : BindingPower} {left node : Node} {c c' : Cursor} :
    Extends table power left c node c' → n ≤ c.depth → Extends table power left (c.lower n) node (c'.lower n)
  | .stop hp, _ => .stop hp
  | .step hp hlt hm ht he, hn => by
    have hd : c.depth + 1 = _ := hm.2.symm
    have ht' := ht.lower (by omega)
    have he' := he.lower (by rw [ht.depth_eq]; omega)
    exact .step hp (Nat.lt_of_le_of_lt (Nat.sub_le _ _) hlt) (hm.lower_succ hn) ht' he'

theorem ReadsLeading.lower {head : Head} {c c' : Cursor} {node : Node} :
    ReadsLeading table head c node c' → n ≤ c.depth → ReadsLeading table head (c.lower n) node (c'.lower n)
  | .leaf hl hm, _ => .leaf hl hm
  | .operand hl h, hn => .operand hl (h.lower hn)
  | .sign hl h, hn => .sign hl (h.lower hn)
  | .grouping hl h hp, hn => .grouping hl (h.lower hn) hp.lower
  | .array hl h, hn => .array hl (h.lower hn)
  | .bareCall hm hp hp', _ => .bareCall hm hp.lower hp'.lower
  | .call hm hb hp h, hn => .call hm hb hp.lower (h.lower (by rw [hp.2.2]; exact hn))

theorem ReadsTrailing.lower {head : Head} {left node : Node} {c c' : Cursor} :
    ReadsTrailing table head left c node c' → n ≤ c.depth →
      ReadsTrailing table head left (c.lower n) node (c'.lower n)
  | .leaf hf, _ => .leaf hf
  | .binary hf h, hn => .binary hf (h.lower hn)
  | .ternary hf h hp h', hn =>
    .ternary hf (h.lower hn) hp.lower (h'.lower (by rw [hp.2.2, h.depth_eq]; exact hn))

theorem ReadsList.lower {closing : String} {c c' : Cursor} {items : List Node} :
    ReadsList table closing c items c' → n ≤ c.depth → ReadsList table closing (c.lower n) items (c'.lower n)
  | .empty hp, _ => .empty hp.lower
  | .filled hc h hp, hn => .filled hc (h.lower hn) hp.lower

theorem ReadsItems.lower {c c' : Cursor} {items : List Node} :
    ReadsItems table c items c' → n ≤ c.depth → ReadsItems table (c.lower n) items (c'.lower n)
  | .last h hc, hn => .last (h.lower hn) hc
  | .more h hp hr, hn => .more (h.lower hn) hp.lower (hr.lower (by rw [hp.2.2, h.depth_eq]; exact hn))

end

/-- An expression that is read is read with fewer levels open before it, and the cursor behind it is the same but for
them. -/
theorem expression_atDepth {power : BindingPower} {c c' : Cursor} {node : Node}
    (h : expression table power c = .ok node c') {depth : Nat} (hd : depth ≤ c.depth) :
    expression table power (c.atDepth depth) = .ok node (c'.atDepth depth) := by
  have hread := expression_ok.1 h
  have hlower := hread.lower (Nat.sub_le c.depth depth)
  have hdepth : c.depth - (c.depth - depth) = depth := by omega
  simp only [Cursor.lower, hread.depth_eq, hdepth] at hlower
  exact expression_ok.2 hlower

end Node

/-! ## Any steps -/

/-- The cursor that a step leaves, whether it succeeds or fails. -/
def Cursor.leftBy {α : Type} : EStateM.Result EvalError Cursor α → Cursor
  | .ok _ c => c
  | .error _ c => c

/-- A cursor that comes about by any steps from the start of the tokens, also by steps that fail. -/
inductive Cursor.Reachable (table : SymbolTable) (tokens : List Token) : Cursor → Prop
  | start {c : Cursor} : Cursor.start table tokens = .ok c → Reachable table tokens c
  | advance {c : Cursor} : Reachable table tokens c → Reachable table tokens (leftBy (Cursor.advance table c))
  | expect {c : Cursor} (id : String) : Reachable table tokens c →
      Reachable table tokens (leftBy (Cursor.expect table id c))
  | expression {c : Cursor} (power : BindingPower) : Reachable table tokens c →
      Reachable table tokens (leftBy (Node.expression table power c))
  | descend {c : Cursor} : Reachable table tokens c → Reachable table tokens (leftBy (Cursor.descend c))
  | ascend {c : Cursor} (levels : Nat) : Reachable table tokens c →
      Reachable table tokens (leftBy (Cursor.ascend levels c))

/-- A step that closes what it opens leaves no more levels open than there may be. -/
theorem Closes.leftBy_le {α : Type} {x : CursorM α} (hx : Closes 0 x) {c : Cursor} (hd : c.depth ≤ maxDepth) :
    (leftBy (x c)).depth ≤ maxDepth := by
  cases h : x c with
  | ok a c' =>
    have h' := hx.ok h (Nat.zero_le _)
    simp only [leftBy]
    omega
  | error e c' => exact hx.error h hd

theorem Cursor.descend_leftBy_le {c : Cursor} (hd : c.depth ≤ maxDepth) : (leftBy (descend c)).depth ≤ maxDepth := by
  by_cases hlt : c.depth < maxDepth
  · rw [descend_of_lt hlt]
    exact hlt
  · rw [descend_of_not_lt hlt]
    exact hd

theorem Cursor.Reachable.depth_le {table : SymbolTable} {tokens : List Token} {c : Cursor}
    (h : Reachable table tokens c) : c.depth ≤ maxDepth := by
  induction h with
  | start hs =>
    rw [(start_ok.1 hs).2]
    exact Nat.zero_le _
  | advance _ ih => exact Closes.advance.leftBy_le ih
  | expect id _ ih => exact (Closes.expect id).leftBy_le ih
  | expression power _ ih => exact (Node.closes_expression power).leftBy_le ih
  | descend _ ih => exact descend_leftBy_le ih
  | ascend levels _ ih => exact Nat.le_trans (Nat.sub_le _ _) ih

/-- When an expression is read, as many levels are open as before, and with fewer of them open before it is read
alike, up to the same token; no more levels are closed than are open, since nothing that were done in that case would
make a difference; and whatever steps a cursor takes, also those that fail, no more than `maxDepth` levels are open. -/
theorem Node.expression_levels (table : SymbolTable) :
    (∀ power c node c', expression table power c = .ok node c' → c'.depth = c.depth ∧
      ∀ depth ≤ c.depth, expression table power (c.atDepth depth) = .ok node (c'.atDepth depth)) ∧
    (∀ close : Nat → CursorM Unit, (∀ n c, n ≤ c.depth → close n c = ascend n c) →
      ∀ power, expressionWith close table power = expression table power) ∧
    ∀ tokens c, Reachable table tokens c → c.depth ≤ maxDepth := by
  refine ⟨fun power c node c' h => ⟨(expression_ok.1 h).depth_eq, fun depth hd => ?_⟩, fun close hclose power => ?_,
    fun tokens c hc => hc.depth_le⟩
  · exact expression_atDepth h hd
  · exact expressionWith_eq hclose power

/-- `"a" + "b"` with seven levels open, with a way to close levels that looks how many are open, and steps of which the
first one fails. -/
theorem Node.expression_levels_sum :
    let table := Evaluator.standard.symbols
    let c : Cursor := ⟨[.operator "+", .string "b"], .text "a", 7⟩
    let close n : CursorM Unit := fun c => if n ≤ c.depth then ascend n c else tooDeep c
    (∃ node c', expression table .none c = .ok node c' ∧ c'.depth = 7 ∧
      expression table .none (c.atDepth 0) = .ok node (c'.atDepth 0) ∧
      expressionWith close table .none c = .ok node c') ∧
    (leftBy (expression table .none (leftBy (descend (leftBy (expect table ")" (c.atDepth 0))))))).depth ≤ 256 := by
  intro table c close
  obtain ⟨hread, hwith, hreachable⟩ := expression_levels table
  obtain ⟨node, c', h⟩ : ∃ node c', expression table .none c = .ok node c' := ⟨_, _, rfl⟩
  have hclose : ∀ n c, n ≤ c.depth → close n c = ascend n c := fun n c hn => if_pos hn
  have hstart : start table [.string "a", .operator "+", .string "b"] = .ok (c.atDepth 0) := rfl
  obtain ⟨hdepth, hfewer⟩ := hread .none c node c' h
  refine ⟨⟨node, c', h, hdepth, hfewer 0 (Nat.zero_le _), ?_⟩, ?_⟩
  · rw [hwith close hclose]
    exact h
  · exact hreachable _ _ (.expression .none (.descend (.expect ")" (.start hstart))))

end Formula
