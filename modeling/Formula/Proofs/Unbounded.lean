import Formula.Proofs.OpenLevels
import Formula.Proofs.SideBySide

/-!
# Reading without bounds

The readers of expressions and lists are handed what bounds them: the levels that are left, and the number of unread
tokens. Nothing needs to bound them. `Node.pass` is one pass of each procedure without bounds, with the nested calls left
to procedures that it is given; the bounded ones do what it does (`Node.pass_readers`). `Node.unrolled` is that many
passes above procedures that are never to be called.

Levels are given back when an expression is closed, and at the end of the tokens nothing is consumed, so neither of the
two goes down from call to call. Their sum does, with a level counted twice (`Cursor.measure`): a nested expression or
extension has a level more open, and the rest of a list has fewer tokens unread, since the end is no comma
(`Reads.unread_lt`). So a pass needs the answers to calls of lower measure only (`AnswersBelow.pass`), and from
each cursor a number of passes known beforehand settles the answer, whatever symbols the table has
(`Node.unrolled_settles`).
-/

namespace Formula

open Cursor

/-- The levels that are left, counted twice, and the unread tokens. -/
def Cursor.measure (c : Cursor) : Nat := 2 * (maxDepth - c.depth) + c.unread.length

namespace Node

/-! ## Procedures without bounds -/

/-- The procedures that call each other: the reader of an expression, of what extends a tree, and of a list. -/
@[ext]
structure Readers where
  expression : Reader
  extension : BindingPower → (opened : Nat) → Node → CursorM Node
  items : CursorM (List Node)

namespace Readers

variable (table : SymbolTable) (r : Readers)

/-- `readList` with the procedures that are given. -/
def list (closing : String) : CursorM (List Node) := do
  let active ← current
  if active.id = closing then
    let _ ← expect table closing
    pure []
  else
    let items ← r.items
    let _ ← expect table closing
    pure items

/-- `readLeadingForm` with the procedures that are given. -/
def leadingForm (head : Head) : LeadingForm → CursorM Node
  | .operand => do
    let operand ← r.expression .unary
    pure (.unary head false operand)
  | .sign => do
    let operand ← r.expression .unary
    pure (.unary head true operand)
  | .grouping closing => do
    let operand ← r.expression 0
    let _ ← expect table closing
    pure (.unary head false operand)
  | .array => do
    let items ← r.list table "]"
    pure (.sequence head items)

/-- `readCall` with the procedures that are given. -/
def call (head : Head) (mode : ArgumentMode) : CursorM Node := do
  let _ ← expect table "("
  if mode = .bare then
    let _ ← expect table ")"
    pure (.sequence head [])
  else
    let items ← r.list table ")"
    pure (.sequence head items)

/-- `readLeading` with the procedures that are given. -/
def leading (head : Head) : CursorM Node :=
  match head.symbol.kind with
  | .leading _ form => r.leadingForm table head form
  | .leftward _ _ (some form) => r.leadingForm table head form
  | .function _ mode => r.call table head mode
  | _ => pure (.leaf head)

end Readers

/-- One pass of each procedure. The loop over trailing forms is a call of the procedure itself at its end, and so is the
loop over a list. -/
def pass (table : SymbolTable) (r : Readers) : Readers where
  expression power := do
    descend
    let head ← advance table
    let left ← r.leading table head
    r.extension power 1 left
  extension power opened left := do
    let active ← current
    if power < active.power then
      descend
      let head ← advance table
      let whole ← readTrailing table r.expression head left
      r.extension power (opened + 1) whole
    else
      ascend opened
      pure left
  items := do
    let item ← r.expression 0
    let active ← current
    if active.id = "," then
      let _ ← advance table
      let rest ← r.items
      pure (item :: rest)
    else pure [item]

/-- This many passes, and what is called beyond them. -/
def unrolled (table : SymbolTable) (beyond : Readers) : Nat → Readers
  | 0 => beyond
  | n + 1 => pass table (unrolled table beyond n)

/-- The bounded procedures, with the bounds that the cursor gives. -/
def readers (table : SymbolTable) : Readers where
  expression := expression table
  extension power opened left := fun c => extend table (maxDepth - c.depth) power opened left c
  items := fun c => readItems table (expression table) c.unread.length c

/-- The procedures on calls below a measure, and others on the rest of the calls. A list is above its first item. -/
def Readers.below (r : Readers) (m : Nat) (beyond : Readers) : Readers where
  expression power := fun c => if c.measure < m then r.expression power c else beyond.expression power c
  extension power opened left := fun c =>
    if c.measure < m then r.extension power opened left c else beyond.extension power opened left c
  items := fun c => if c.measure + 1 < m then r.items c else beyond.items c

/-! ## Cursors behind a step -/

/-- `c'` has the levels open that `c` has, and no more unread tokens. -/
def Behind (c c' : Cursor) : Prop := c'.depth = c.depth ∧ c'.unread.length ≤ c.unread.length

section Behind

variable {table : SymbolTable} {c c' : Cursor}

theorem Behind.refl (c : Cursor) : Behind c c := ⟨rfl, Nat.le_refl _⟩

theorem Behind.trans {c'' : Cursor} (h : Behind c c') (h' : Behind c' c'') : Behind c c'' :=
  ⟨h'.1.trans h.1, h'.2.trans h.2⟩

theorem behind_advance {head : Head} (h : advance table c = .ok head c') : Behind c c' := by
  obtain ⟨-, hm⟩ := advance_ok.1 h
  exact ⟨hm.2, hm.onward.reaches.shorter⟩

theorem behind_expect {id : String} {head : Head} (h : expect table id c = .ok head c') : Behind c c' := by
  obtain ⟨-, hp⟩ := expect_ok.1 h
  exact ⟨hp.2.2, hp.2.onward.reaches.shorter⟩

theorem readsAt_expression {depth : Nat} : ReadsAt table (expression table) depth := fun _ _ _ _ _ => expression_ok

theorem behind_expression {power : BindingPower} {node : Node} (h : expression table power c = .ok node c') :
    Behind c c' := by
  have hr := expression_ok.1 h
  exact ⟨hr.depth_eq, hr.onward.reaches.shorter⟩

theorem behind_leading {head : Head} {node : Node} (h : readLeading table (expression table) head c = .ok node c') :
    Behind c c' := by
  have hr := (readLeading_ok readsAt_expression rfl).1 h
  exact ⟨hr.depth_eq, hr.reaches.shorter⟩

theorem behind_trailing {head : Head} {left node : Node}
    (h : readTrailing table (expression table) head left c = .ok node c') : Behind c c' := by
  have hr := (readTrailing_ok readsAt_expression rfl).1 h
  exact ⟨hr.depth_eq, hr.reaches.shorter⟩

end Behind

/-! ## Procedures that answer alike -/

/-- From the cursors behind `c`, the procedures answer as the bounded ones with this reader do. -/
structure AnswersBehind (table : SymbolTable) (r : Readers) (read : Reader) (c : Cursor) : Prop where
  expression {power : BindingPower} {c' : Cursor} : Behind c c' → r.expression power c' = read power c'
  items {c' : Cursor} : Behind c c' → r.items c' = readItems table read c'.unread.length c'

section Forms

variable {table : SymbolTable} {r : Readers} {read : Reader} {head : Head} {c c' : Cursor}

theorem AnswersBehind.behind (h : AnswersBehind table r read c) (hb : Behind c c') : AnswersBehind table r read c' where
  expression hb' := h.expression (hb.trans hb')
  items hb' := h.items (hb.trans hb')

theorem list_eq (h : AnswersBehind table r read c) (closing : String) :
    r.list table closing c = readList table read closing c := by
  show (if c.active.id = closing then _ else _ : CursorM (List Node)) c =
    (if c.active.id = closing then _ else _ : CursorM (List Node)) c
  split
  · rfl
  · exact bind_congr_at (h.items (.refl c)) fun _ _ _ => rfl

theorem leadingForm_eq (h : AnswersBehind table r read c) (form : LeadingForm) :
    r.leadingForm table head form c = readLeadingForm table read head form c := by
  cases form with
  | operand | sign | grouping => exact bind_congr_at (h.expression (.refl c)) fun _ _ _ => rfl
  | array => exact bind_congr_at (list_eq h "]") fun _ _ _ => rfl

theorem call_eq (h : AnswersBehind table r read c) (mode : ArgumentMode) :
    r.call table head mode c = readCall table read head mode c := by
  refine bind_congr_of_ok fun _ c₁ hexpect => ?_
  split
  · rfl
  · exact bind_congr_at (list_eq (h.behind (behind_expect hexpect)) ")") fun _ _ _ => rfl

theorem leading_eq (h : AnswersBehind table r read c) : r.leading table head c = readLeading table read head c := by
  unfold Readers.leading readLeading
  generalize head.symbol.kind = kind
  cases kind with
  | leading _ form => exact leadingForm_eq h form
  | leftward _ _ form? =>
    cases form? with
    | none => rfl
    | some form => exact leadingForm_eq h form
  | function _ mode => exact call_eq h mode
  | _ => rfl

theorem readTrailing_eq (h : ∀ {power : BindingPower} {c' : Cursor}, Behind c c' → read power c' = expression table power c')
    (left : Node) : readTrailing table read head left c = readTrailing table (expression table) head left c := by
  unfold readTrailing
  generalize head.symbol.kind = kind
  cases kind with
  | leftward _ form _ =>
    cases form with
    | binary => exact bind_congr_at (h (.refl c)) fun _ _ _ => rfl
    | ternary =>
      refine bind_congr_at (h (.refl c)) fun second c₁ hsecond => bind_congr_of_ok fun _ c₂ hexpect => ?_
      exact bind_congr_at (h ((behind_expression hsecond).trans (behind_expect hexpect))) fun _ _ _ => rfl
  | rightward => exact bind_congr_at (h (.refl c)) fun _ _ _ => rfl
  | _ => rfl

end Forms

/-! ## The bounded procedures -/

section Bounded

variable {table : SymbolTable} {levels : Nat} {head : Head} {c : Cursor}

theorem readItems_eq : ∀ {budget : Nat} {c : Cursor}, c.depth + levels = maxDepth →
    readItems table (readExpression table levels) budget c = readItems table (expression table) budget c
  | 0, c, hd => bind_congr_at (expression_eq hd).symm fun _ _ _ => rfl
  | budget + 1, c, hd => by
    refine bind_congr_at (expression_eq hd).symm fun item c₁ hitem => bind_congr_of_ok fun active c₂ hactive => ?_
    obtain ⟨-, rfl⟩ := current_ok.1 hactive
    split
    · refine bind_congr_of_ok fun _ c₂ hadvance => bind_congr_at (readItems_eq ?_) fun _ _ _ => rfl
      rw [((behind_expression hitem).trans (behind_advance hadvance)).1, hd]
    · rfl

/-- A leading form is read alike with the levels that are left and with those that follow from the levels open. -/
theorem readLeading_eq (hd : c.depth + levels = maxDepth) :
    readLeading table (readExpression table levels) head c = readLeading table (expression table) head c := by
  let r : Readers := {
    expression := readExpression table levels
    extension := extend table levels
    items := fun c => readItems table (readExpression table levels) c.unread.length c }
  have hself : AnswersBehind table r (readExpression table levels) c := ⟨fun _ => rfl, fun _ => rfl⟩
  have hexpression : AnswersBehind table r (expression table) c :=
    ⟨fun hb => (expression_eq (hb.1 ▸ hd)).symm, fun hb => readItems_eq (hb.1 ▸ hd)⟩
  exact (leading_eq hself).symm.trans (leading_eq hexpression)

end Bounded

/-! ## A pass -/

/-- On calls below a measure, the procedures answer as the bounded ones do. -/
structure AnswersBelow (table : SymbolTable) (r : Readers) (m : Nat) : Prop where
  expression {power : BindingPower} {c : Cursor} : c.measure < m → r.expression power c = expression table power c
  extension {power : BindingPower} {opened : Nat} {left : Node} {c : Cursor} : c.measure < m →
    r.extension power opened left c = (readers table).extension power opened left c
  items {c : Cursor} : c.measure + 1 < m → r.items c = (readers table).items c

theorem Behind.measure_le {c c' : Cursor} (h : Behind c c') : c'.measure ≤ c.measure := by
  unfold Cursor.measure
  rw [h.1]
  exact Nat.add_le_add_left h.2 _

section Pass

variable {table : SymbolTable} {r : Readers} {m levels opened : Nat} {power : BindingPower} {left : Node}
  {c : Cursor}

variable (h : AnswersBelow table r m)
include h

theorem AnswersBelow.behind (hm : c.measure + 1 < m) : AnswersBehind table r (Node.expression table) c where
  expression hb := h.expression (Nat.lt_of_le_of_lt hb.measure_le (Nat.lt_of_succ_lt hm))
  items hb := h.items (Nat.lt_of_le_of_lt (Nat.succ_le_succ hb.measure_le) hm)

/-- Behind a form with a level of its own, what extends it is a call of lower measure. -/
theorem extension_then {x y : Head → CursorM Node} (hd : c.depth + (levels + 1) = maxDepth) (hm : c.measure ≤ m)
    (hx : ∀ head c₁, c₁.depth + levels = maxDepth → c₁.measure + 1 < m →
      x head c₁ = y head c₁ ∧ ∀ whole c₂, y head c₁ = .ok whole c₂ → Behind c₁ c₂) :
    (descend >>= fun _ => advance table >>= fun head => x head >>= fun whole => r.extension power opened whole) c =
      (advance table >>= fun head => y head >>= extend table levels power opened) (c.atDepth (c.depth + 1)) := by
  refine (descend_bind_of_lt (by omega)).trans (bind_congr_of_ok fun head c₁ hadvance => ?_)
  have hb := behind_advance hadvance
  have hd₁ : c₁.depth + levels = maxDepth := by rw [hb.1, atDepth_depth]; omega
  have hm₁ : c₁.measure + 1 < m := by
    have hu : c₁.unread.length ≤ c.unread.length := hb.2
    simp only [Cursor.measure] at hm ⊢
    omega
  obtain ⟨hxy, hbehind⟩ := hx head c₁ hd₁ hm₁
  refine bind_congr_at hxy fun whole c₂ hwhole => ?_
  have hb₂ := hbehind whole c₂ hwhole
  have hm₂ := hb₂.measure_le
  refine (h.extension (by omega)).trans ?_
  show extend table (maxDepth - c₂.depth) power opened whole c₂ = extend table levels power opened whole c₂
  rw [hb₂.1, ← hd₁, Nat.add_sub_cancel_left]

theorem pass_expression (hm : c.measure ≤ m) : (pass table r).expression power c = expression table power c := by
  by_cases hd : c.depth < maxDepth
  · obtain ⟨levels, hlevels⟩ : ∃ levels, c.depth + (levels + 1) = maxDepth := ⟨maxDepth - c.depth - 1, by omega⟩
    rw [expression_eq hlevels, readExpression_of_lt hd]
    refine extension_then h hlevels hm fun head c₁ hd₁ hm₁ => ?_
    rw [readLeading_eq hd₁]
    exact ⟨leading_eq (h.behind hm₁), fun _ _ => behind_leading⟩
  · refine (descend_bind_of_not_lt hd).trans (.symm ((bind_eq_of_ok (get_ok.2 ⟨rfl, rfl⟩)).trans ?_))
    rw [Nat.sub_eq_zero_of_le (Nat.le_of_not_lt hd), readExpression]

theorem pass_extension (hm : c.measure ≤ m) :
    (pass table r).extension power opened left c = (readers table).extension power opened left c := by
  show _ = extend table (maxDepth - c.depth) power opened left c
  refine current_bind.trans ?_
  by_cases hp : power < c.active.power
  · rw [if_pos hp]
    by_cases hd : c.depth < maxDepth
    · obtain ⟨levels, hlevels⟩ : ∃ levels, c.depth + (levels + 1) = maxDepth := ⟨maxDepth - c.depth - 1, by omega⟩
      rw [show maxDepth - c.depth = levels + 1 by omega, extend_of_lt hp hd]
      refine extension_then h hlevels hm fun head c₁ hd₁ hm₁ => ?_
      have hexpression {power : BindingPower} {c' : Cursor} (hb : Behind c₁ c') :
          readExpression table levels power c' = expression table power c' := (expression_eq (hb.1 ▸ hd₁)).symm
      rw [readTrailing_eq hexpression]
      exact ⟨readTrailing_eq (h.behind hm₁).expression left, fun _ _ => behind_trailing⟩
    · rw [Nat.sub_eq_zero_of_le (Nat.le_of_not_lt hd), extend_zero hp]
      exact descend_bind_of_not_lt hd
  · rw [if_neg hp, extend_of_not_lt hp]

theorem pass_items (hm : c.measure + 1 ≤ m) : (pass table r).items c = (readers table).items c := by
  show (r.expression 0 >>= _) c = readItems table (expression table) c.unread.length c
  -- behind a comma fewer tokens are unread than in front of the item
  have hcomma {item : Node} {c₁ : Cursor} (hitem : expression table 0 c = .ok item c₁) (hid : c₁.active.id = ",") :
      c₁.unread.length < c.unread.length := (expression_ok.1 hitem).unread_lt hid
  cases hu : c.unread.length with
  | zero =>
    refine bind_congr_at (h.expression hm) fun item c₁ hitem => current_bind.trans ?_
    have hne : c₁.active.id ≠ "," := fun hid => absurd (hcomma hitem hid) (by omega)
    rw [if_neg hne]
  | succ budget =>
    refine bind_congr_at (h.expression hm) fun item c₁ hitem => bind_congr_of_ok fun active c₂ hactive => ?_
    obtain ⟨rfl, rfl⟩ := current_ok.1 hactive
    split
    · next hid =>
      refine bind_congr_of_ok fun _ c₂ hadvance => bind_congr_at ?_ fun _ _ _ => rfl
      have hlt := hcomma hitem hid
      have hb := (behind_expression hitem).trans (behind_advance hadvance)
      have hle := (behind_advance hadvance).2
      have hm₂ : c₂.measure + 1 < m := by
        simp only [Cursor.measure, hb.1] at hm ⊢
        omega
      exact (h.items hm₂).trans (readItems_budget readsAt_expression rfl (Nat.le_refl _) (by omega))
    · rfl

/-- One pass more answers the calls of the next measure. -/
theorem AnswersBelow.pass : AnswersBelow table (Node.pass table r) (m + 1) where
  expression hm := pass_expression h (Nat.le_of_lt_succ hm)
  extension hm := pass_extension h (Nat.le_of_lt_succ hm)
  items hm := pass_items h (Nat.le_of_lt_succ hm)

end Pass

/-! ## Passes -/

section Passes

variable (table : SymbolTable) (beyond : Readers)

theorem answersBelow_unrolled : ∀ n, AnswersBelow table (unrolled table beyond n) n
  | 0 => ⟨fun hm => absurd hm (Nat.not_lt_zero _), fun hm => absurd hm (Nat.not_lt_zero _),
      fun hm => absurd hm (Nat.not_lt_zero _)⟩
  | n + 1 => (answersBelow_unrolled n).pass

theorem answersBelow_below (m : Nat) : AnswersBelow table ((readers table).below m beyond) m where
  expression hm := if_pos hm
  extension hm := if_pos hm
  items hm := if_pos hm

/-- The bounded procedures do what a pass of the unbounded ones does. -/
theorem pass_readers : pass table (readers table) = readers table := by
  have h (m : Nat) : AnswersBelow table (readers table) m := ⟨fun _ => rfl, fun _ => rfl, fun _ => rfl⟩
  refine Readers.ext ?_ ?_ ?_
  · funext power c
    exact pass_expression (h c.measure) (Nat.le_refl _)
  · funext power opened left c
    exact pass_extension (h c.measure) (Nat.le_refl _)
  · funext c
    exact pass_items (h (c.measure + 1)) (Nat.le_refl _)

end Passes

/-- Whatever is answered to other calls, a pass answers as the bounded procedures do if the calls of lower measure are
answered so, and what is called beyond a number of passes known beforehand is never asked for. -/
theorem unrolled_settles (table : SymbolTable) (beyond : Readers) :
    (∀ power c, (pass table ((readers table).below c.measure beyond)).expression power c = expression table power c) ∧
    (∀ power opened left c, (pass table ((readers table).below c.measure beyond)).extension power opened left c =
      (readers table).extension power opened left c) ∧
    (∀ c, (pass table ((readers table).below (c.measure + 1) beyond)).items c = (readers table).items c) ∧
    ∀ power c n, (unrolled table beyond (c.measure + 1 + n)).expression power c = expression table power c := by
  have hbelow := answersBelow_below table beyond
  refine ⟨fun power c => ?_, fun power opened left c => ?_, fun c => ?_, fun power c n => ?_⟩
  · exact pass_expression (hbelow c.measure) (Nat.le_refl _)
  · exact pass_extension (hbelow c.measure) (Nat.le_refl _)
  · exact pass_items (hbelow (c.measure + 1)) (Nat.le_refl _)
  · exact (answersBelow_unrolled table beyond (c.measure + 1 + n)).expression (by omega)

end Node

end Formula
