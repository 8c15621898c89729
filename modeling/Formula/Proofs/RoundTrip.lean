import Formula.Proofs.Spelling

/-!
# Reading what a tree writes

The tokens of a complete tree whose operators stand as their powers ask for read as that tree
(`expression_tokens_iff`), as long as the tree needs no more levels than a reading may open. The proof follows the
tree: its tokens lead from any cursor in front of them into the extension of the tree by what stands behind them
(`ReadsInto`), one lemma for each shape of a node. An operator after its first operand extends that operand, so the
operators of the spine are passed one by one while the extension is put together from the outside.
-/

namespace Formula

open Cursor

variable {table : SymbolTable}

/-! ## Places in front of tokens -/

theorem Head.IsUse.stands {head : Head} (h : head.IsUse table) (rest : List Token) (d : Nat) :
    Stands table (head.token :: rest) ⟨rest, head, d⟩ := by
  rw [Stands, next, h]

theorem Head.IsUse.active {head : Head} (h : head.IsUse table) {rest : List Token} {c : Cursor}
    (hs : Stands table (head.token :: rest) c) : c.active = head := by
  have := hs.cons.1
  rw [h] at this
  exact (Except.ok.inj this).symm

theorem SymbolTable.Regular.stands (ht : table.Regular) {id : String} (hid : id ∈ Library.simpleIds)
    (rest : List Token) (d : Nat) : Stands table (.operator id :: rest) ⟨rest, .simple id, d⟩ := by
  rw [Stands, next, Head.resolve_simple ht hid]

theorem Cursor.Stands.move {t : Token} {rest : List Token} {c c' : Cursor} (h : Stands table (t :: rest) c)
    (h' : Stands table rest c') (hd : c'.depth = c.depth) : Moves table c c' :=
  h.moves.2 ⟨h', hd⟩

namespace Node

/-! ## The first token -/

/-- A use with a value is written by its token. -/
theorem tokens_of_not_hole (ht : table.Regular) {head : Head} (hu : head.IsUse table) (hh : head.isHole = false) :
    head.tokens = [head.token] :=
  Head.tokens_of_kind ht hu fun hk => by simp [Head.isHole, hk] at hh

/-- The tokens of a complete tree start with a use that is no punctuation. -/
theorem Formed.first (ht : table.Regular) {t : Node} (hf : Formed (Head.IsUse table) t)
    (hh : ∀ head ∈ t.leaves, head.isHole = false) :
    ∃ (head : Head) (more : List Token), t.tokens = head.token :: more ∧ head.IsUse table ∧
      head.symbol.kind ≠ .punctuation := by
  induction hf with
  | @leaf head hu _ _ =>
    have hh := hh head (List.mem_singleton_self head)
    exact ⟨head, [], tokens_of_not_hole ht hu hh, hu, fun hk => by simp [Head.isHole, hk] at hh⟩
  | unary hu hl _ _ _ => exact ⟨_, _, rfl, hu, SymbolKind.ne_punctuation_of_leadingForm? hl⟩
  | array hu hl _ _ => exact ⟨_, _, rfl, hu, SymbolKind.ne_punctuation_of_leadingForm? hl⟩
  | bareCall hu hm => exact ⟨_, _, rfl, hu, SymbolKind.ne_punctuation_of_mode? hm⟩
  | call hu hm _ _ _ => exact ⟨_, _, rfl, hu, SymbolKind.ne_punctuation_of_mode? hm⟩
  | binary _ _ _ _ _ iha _ =>
    obtain ⟨head, more, htok, hu, hk⟩ := iha fun head hm => hh head (List.mem_append_left _ hm)
    exact ⟨head, _, by rw [tokens, htok]; rfl, hu, hk⟩
  | ternary _ _ _ _ _ _ iha _ _ =>
    obtain ⟨head, more, htok, hu, hk⟩ := iha fun head hm => hh head (List.mem_append_left _ hm)
    exact ⟨head, _, by rw [tokens, htok]; rfl, hu, hk⟩

/-- A cursor in front of a complete tree. -/
theorem Complete.stands (ht : table.Regular) {t : Node} (hc : Complete table t) (rest : List Token) (d : Nat) :
    ∃ c, Stands table (t.tokens ++ rest) c ∧ c.depth = d := by
  obtain ⟨head, more, htok, hu, -⟩ := hc.1.first ht hc.2
  exact ⟨_, by rw [htok]; exact hu.stands (more ++ rest) d, rfl⟩

/-- No complete tree starts with a closing bracket. -/
theorem Complete.active_ne (ht : table.Regular) {t : Node} (hc : Complete table t) {rest : List Token} {c : Cursor}
    (hs : Stands table (t.tokens ++ rest) c) {id : String} (hid : id ∈ Library.simpleIds) :
    c.active.id ≠ id := by
  obtain ⟨head, more, htok, hu, hk⟩ := hc.1.first ht hc.2
  rw [htok, List.cons_append] at hs
  rw [hu.active hs]
  intro he
  have hg := SymbolTable.resolve_get? hu
  rw [he, ht.simple id hid] at hg
  exact hk (by rw [← Option.some.inj hg]; rfl)

theorem Formed.leftEdge_pos {t : Node} (hf : Formed (Head.IsUse table) t) : ∀ p ∈ t.leftEdge, 0 < p := by
  induction hf with
  | binary _ _ hp _ _ iha _ => exact List.forall_mem_cons.2 ⟨hp, iha⟩
  | ternary _ _ hp _ _ _ iha _ _ => exact List.forall_mem_cons.2 ⟨hp, iha⟩
  | leaf | unary | array | bareCall | call => intro p h; cases h

/-! ## Reading into what follows -/

/-- From any cursor in front of its tokens, a tree is read into whatever extends it behind them. -/
def ReadsInto (table : SymbolTable) (t : Node) : Prop :=
  ∀ ⦃power : BindingPower⦄ ⦃c c₂ c₃ : Cursor⦄ ⦃rest : List Token⦄ ⦃node : Node⦄, Stands table (t.tokens ++ rest) c →
    Stands table rest c₂ → c.depth + t.levels ≤ maxDepth → c₂.depth = c.depth + t.spine + 1 →
    (∀ p ∈ t.leftEdge, power < p) → (∀ p ∈ t.rightEdge, c₂.active.power ≤ p) → Extends table power t c₂ node c₃ →
    Reads table power c node (c₃.atDepth c.depth)

/-- From any cursor in front of its tokens, a tree is the leading form that is read there. -/
def LeadsInto (table : SymbolTable) (t : Node) : Prop :=
  ∀ ⦃c c₂ : Cursor⦄ ⦃rest : List Token⦄, Stands table (t.tokens ++ rest) c → Stands table rest c₂ →
    c.depth + t.levels ≤ maxDepth → c₂.depth = c.depth + 1 → (∀ p ∈ t.rightEdge, c₂.active.power ≤ p) →
    ∃ c₁, Moves table (c.atDepth (c.depth + 1)) c₁ ∧ ReadsLeading table c.active c₁ t c₂

variable {head : Head} {a b t : Node} {c c' : Cursor} {rest : List Token} {power : BindingPower}

/-- What extends a leading form extends it behind its tokens. -/
theorem LeadsInto.readsInto (hspine : t.spine = 0) (h : LeadsInto table t) : ReadsInto table t := by
  intro power c c₂ c₃ rest node hs hs₂ hlev hd₂ _ hr he
  obtain ⟨c₁, hm, hl⟩ := h hs hs₂ hlev (by rw [hd₂, hspine]) hr
  have hpos := levels_pos t
  exact .intro (by omega) hm hl he

/-- Where nothing extends it, the tree itself is read. -/
theorem ReadsInto.alone (h : ReadsInto table t) (hs : Stands table (t.tokens ++ rest) c) (hs' : Stands table rest c')
    (hd : c'.depth = c.depth) (hlev : c.depth + t.levels ≤ maxDepth) (hl : ∀ p ∈ t.leftEdge, power < p)
    (hr : ∀ p ∈ t.rightEdge, c'.active.power ≤ p) (hp : c'.active.power ≤ power) : Reads table power c t c' := by
  have he : Extends table power t (c'.atDepth (c.depth + t.spine + 1)) t (c'.atDepth (c.depth + t.spine + 1)) :=
    .stop hp
  have hread := h hs (stands_atDepth.2 hs') hlev rfl hl hr he
  rwa [atDepth_atDepth, ← hd] at hread

/-- The tree is read where its operators all bind tighter than nothing, and a bracket or separator stands behind it. -/
theorem ReadsInto.before (ht : table.Regular) (h : ReadsInto table t) (hc : Complete table t) {id : String}
    (hid : id ∈ Library.simpleIds) (hs : Stands table (t.tokens ++ .operator id :: rest) c)
    (hlev : c.depth + t.levels ≤ maxDepth) : Reads table 0 c t ⟨rest, .simple id, c.depth⟩ :=
  h.alone hs (ht.stands hid rest c.depth) rfl hlev hc.1.leftEdge_pos (fun _ _ => Nat.zero_le _) (Nat.le_refl _)

/-- Passing the bracket or separator. -/
theorem passes_simple {id : String} {d : Nat} (hs : Stands table rest c') (hd : c'.depth = d) :
    Passes table id ⟨rest, .simple id, d⟩ c' :=
  ⟨rfl, hs, hd⟩

theorem LeadsInto.leaf (ht : table.Regular) (hu : head.IsUse table) (hh : head.isHole = false)
    (hl : head.symbol.kind.leadingForm? = none) (hm : head.symbol.kind.mode? = none) :
    LeadsInto table (.leaf head) := by
  intro c c₂ rest hs hs₂ hlev hd₂ _
  rw [tokens, tokens_of_not_hole ht hu hh, List.singleton_append] at hs
  refine ⟨c₂, (stands_atDepth.2 hs).move hs₂ hd₂, ?_⟩
  rw [hu.active hs]
  exact .leaf hl hm

theorem LeadsInto.operand (hu : head.IsUse table) {form : LeadingForm}
    (hl : head.symbol.kind.leadingForm? = some form) (hform : form = .operand ∨ form = .sign) (ht : table.Regular)
    (hc : Complete table a) (ha : ReadsInto table a) (hp : ∀ p ∈ a.leftEdge, BindingPower.unary < p) :
    LeadsInto table (.unary head (decide (form = .sign)) a) := by
  intro c c₂ rest hs hs₂ hlev hd₂ hr
  have hclose := Head.closing_operand hl hform
  rw [rightEdge, if_pos hclose] at hr
  obtain ⟨hr₁, hr₂⟩ := List.forall_mem_cons.1 hr
  rw [tokens, hclose, List.append_nil, List.cons_append] at hs
  obtain ⟨c₁, hs₁, hd₁⟩ := hc.stands ht rest (c.depth + 1)
  simp only [levels] at hlev
  have hread : Reads table .unary c₁ a c₂ := ha.alone hs₁ hs₂ (by rw [hd₂, hd₁]) (by omega) hp hr₂ hr₁
  refine ⟨c₁, (stands_atDepth.2 hs).move hs₁ hd₁, ?_⟩
  rw [hu.active hs]
  rcases hform with rfl | rfl
  · exact .operand hl hread
  · exact .sign hl hread

theorem LeadsInto.grouping (ht : table.Regular) (hu : head.IsUse table) {closing : String}
    (hl : head.symbol.kind.leadingForm? = some (.grouping closing)) (hc : Complete table a)
    (ha : ReadsInto table a) : LeadsInto table (.unary head false a) := by
  intro c c₂ rest hs hs₂ hlev hd₂ _
  have hid : closing ∈ Library.simpleIds := by
    rcases ht.closing (SymbolTable.resolve_get? hu) hl with rfl | rfl <;> decide
  rw [tokens, Head.closing_grouping hl, List.cons_append, List.append_assoc, List.singleton_append] at hs
  obtain ⟨c₁, hs₁, hd₁⟩ := hc.stands ht (.operator closing :: rest) (c.depth + 1)
  simp only [levels] at hlev
  have hread := ha.before ht hc hid hs₁ (by omega)
  refine ⟨c₁, (stands_atDepth.2 hs).move hs₁ hd₁, ?_⟩
  rw [hu.active hs]
  exact .grouping hl hread (passes_simple hs₂ (by rw [hd₂, hd₁]))

/-! ## Lists -/

theorem tokensAll_cons (a : Node) (items : List Node) : ∃ more, tokensAll (a :: items) = a.tokens ++ more := by
  cases items with
  | nil => exact ⟨[], (List.append_nil _).symm⟩
  | cons b items => exact ⟨_, rfl⟩

/-- Items are read in front of a bracket. -/
theorem readsItems_of (ht : table.Regular) {closing : String}
    (hclosing : closing ∈ Library.simpleIds) (hne : closing ≠ ",") :
    ∀ {items : List Node} {c : Cursor}, items ≠ [] → (∀ a ∈ items, Complete table a ∧ ReadsInto table a) →
      Stands table (tokensAll items ++ .operator closing :: rest) c → c.depth + levelsAll items ≤ maxDepth →
      ReadsItems table c items ⟨rest, .simple closing, c.depth⟩
  | [a], c, _, hi, hs, hlev => by
    obtain ⟨hc, ha⟩ := hi a List.mem_cons_self
    simp only [levelsAll] at hlev
    exact .last (ha.before ht hc hclosing hs (by omega)) hne
  | a :: b :: items, c, _, hi, hs, hlev => by
    obtain ⟨hc, ha⟩ := hi a List.mem_cons_self
    have hi' := fun x hx => hi x (List.mem_cons_of_mem _ hx)
    rw [tokensAll, List.append_assoc, List.cons_append] at hs
    obtain ⟨more, hmore⟩ := tokensAll_cons b items
    obtain ⟨c₁, hs₁, hd₁⟩ := (hi' b List.mem_cons_self).1.stands ht (more ++ .operator closing :: rest) c.depth
    rw [← List.append_assoc, ← hmore] at hs₁
    rw [levelsAll] at hlev
    have hrest := readsItems_of ht hclosing hne (List.cons_ne_nil b items) hi' hs₁ (by omega)
    rw [hd₁] at hrest
    exact .more (ha.before ht hc (by decide) hs (by omega)) (passes_simple hs₁ hd₁) hrest

/-- A list is read up to its bracket. -/
theorem readsList_of (ht : table.Regular) {closing : String}
    (hclosing : closing ∈ Library.simpleIds) (hne : closing ≠ ",") {items : List Node}
    (hi : ∀ a ∈ items, Complete table a ∧ ReadsInto table a)
    (hs : Stands table (tokensAll items ++ .operator closing :: rest) c) (hs' : Stands table rest c')
    (hd : c'.depth = c.depth) (hlev : c.depth + levelsAll items ≤ maxDepth) : ReadsList table closing c items c' := by
  cases items with
  | nil =>
    obtain ⟨hr, hu⟩ := hs.cons
    have hid : c.active.id = closing := SymbolTable.use_id hr
    exact .empty ⟨hid, hs.move hs' hd⟩
  | cons a items =>
    obtain ⟨more, hmore⟩ := tokensAll_cons a items
    have hc := (hi a List.mem_cons_self).1
    have hread := readsItems_of ht hclosing hne (List.cons_ne_nil a items) hi hs hlev
    rw [hmore, List.append_assoc] at hs
    exact .filled (hc.active_ne ht hs hclosing) hread (passes_simple hs' hd)

/-- A cursor in front of a list and its bracket. -/
theorem list_stands (ht : table.Regular) {closing : String}
    (hclosing : closing ∈ Library.simpleIds) :
    ∀ {items : List Node}, (∀ a ∈ items, Complete table a) → ∀ (rest : List Token) (d : Nat),
      ∃ c, Stands table (tokensAll items ++ .operator closing :: rest) c ∧ c.depth = d
  | [], _, rest, d => ⟨_, ht.stands hclosing rest d, rfl⟩
  | a :: items, hi, rest, d => by
    obtain ⟨more, hmore⟩ := tokensAll_cons a items
    obtain ⟨c, hs, hd⟩ := (hi a List.mem_cons_self).stands ht (more ++ .operator closing :: rest) d
    exact ⟨c, by rwa [hmore, List.append_assoc], hd⟩

theorem LeadsInto.array (ht : table.Regular) (hu : head.IsUse table)
    (hl : head.symbol.kind.leadingForm? = some .array) {items : List Node}
    (hi : ∀ a ∈ items, Complete table a ∧ ReadsInto table a) : LeadsInto table (.sequence head items) := by
  intro c c₂ rest hs hs₂ hlev hd₂ _
  rw [tokens, Head.opening_array hl, Head.closing_array hl, List.nil_append, List.cons_append, List.append_assoc,
    List.singleton_append] at hs
  have hid : "]" ∈ Library.simpleIds := by decide
  obtain ⟨c₁, hs₁, hd₁⟩ := list_stands ht hid (fun a ha => (hi a ha).1) rest (c.depth + 1)
  simp only [levels] at hlev
  refine ⟨c₁, (stands_atDepth.2 hs).move hs₁ hd₁, ?_⟩
  rw [hu.active hs]
  exact .array hl (readsList_of ht hid (by decide) hi hs₁ hs₂ (by rw [hd₂, hd₁]) (by omega))

/-- A cursor in front of the brackets of a call. -/
theorem opening_stands (ht : table.Regular) (rest : List Token) (d : Nat) :
    ∃ c, Stands table (.operator "(" :: rest) c ∧ c.depth = d ∧ c.active.id = "(" := by
  obtain ⟨s, hs⟩ := ht.opening
  have hr : table.resolve (.operator "(") = .ok ⟨s, none⟩ := SymbolTable.use_ok.2 ⟨hs, rfl⟩
  exact ⟨⟨rest, ⟨s, none⟩, d⟩, by rw [Stands, next, hr], rfl, SymbolTable.get?_id hs⟩

theorem LeadsInto.call (ht : table.Regular) (hu : head.IsUse table) {mode : ArgumentMode}
    (hm : head.symbol.kind.mode? = some mode) {items : List Node} (hbare : mode = .bare → items = [])
    (hi : ∀ a ∈ items, Complete table a ∧ ReadsInto table a) : LeadsInto table (.sequence head items) := by
  intro c c₂ rest hs hs₂ hlev hd₂ _
  rw [tokens, Head.opening_call hm, Head.closing_call hm, List.singleton_append, List.cons_append, List.cons_append,
    List.append_assoc, List.singleton_append] at hs
  obtain ⟨c₁, hs₁, hd₁, hid⟩ := opening_stands ht (tokensAll items ++ .operator ")" :: rest) (c.depth + 1)
  have hclosing : ")" ∈ Library.simpleIds := by decide
  obtain ⟨c', hs', hd'⟩ := list_stands ht hclosing (fun a ha => (hi a ha).1) rest (c.depth + 1)
  have hp : Passes table "(" c₁ c' := ⟨hid, hs₁.move hs' (by rw [hd', hd₁])⟩
  simp only [levels] at hlev
  refine ⟨c₁, (stands_atDepth.2 hs).move hs₁ hd₁, ?_⟩
  rw [hu.active hs]
  by_cases hb : mode = .bare
  · obtain rfl := hbare hb
    have hid' : c'.active.id = ")" := SymbolTable.use_id hs'.cons.1
    exact .bareCall (hb ▸ hm) hp ⟨hid', hs'.move hs₂ (by rw [hd₂, hd'])⟩
  · exact .call hm hb hp (readsList_of ht hclosing (by decide) hi hs' hs₂ (by rw [hd₂, hd']) (by omega))

/-! ## Operators after an operand -/

/-- `t` is an operator around its first operand `a`; what stands behind the operator are the tokens `more`, which take
`m` levels to read. -/
structure Trailing (table : SymbolTable) (head : Head) (a t : Node) (more : List Token) (m : Nat) : Prop where
  tokens : t.tokens = a.tokens ++ head.token :: more
  levels : t.levels = max a.levels (a.spine + m + 2)
  spine : t.spine = a.spine + 1
  leftEdge : t.leftEdge = head.power :: a.leftEdge
  stands : ∀ (rest : List Token) (d : Nat), ∃ c, Stands table (more ++ rest) c ∧ c.depth = d
  reads : ∀ {c₁ c₂ : Cursor} {rest : List Token}, Stands table (more ++ rest) c₁ → Stands table rest c₂ →
    c₂.depth = c₁.depth → c₁.depth + m ≤ maxDepth → (∀ p ∈ t.rightEdge, c₂.active.power ≤ p) →
    ReadsTrailing table head a c₁ t c₂

theorem Trailing.binary (ht : table.Regular) (hf : head.symbol.kind.trailingForm? = some .binary)
    (hb : ReadsInto table b) (hcb : Complete table b) (hpb : ∀ p ∈ b.leftEdge, head.rightPower < p) :
    Trailing table head a (.binary head a b) b.tokens b.levels where
  tokens := rfl
  levels := rfl
  spine := rfl
  leftEdge := rfl
  stands := hcb.stands ht
  reads hs₁ hs₂ hd hlev hr := by
    obtain ⟨hr₁, hr₂⟩ := List.forall_mem_cons.1 hr
    exact .binary hf (hb.alone hs₁ hs₂ hd hlev hpb hr₂ hr₁)

/-- An operator with three operands reads the last one at the lowest power. -/
theorem rightPower_of_ternary (hf : head.symbol.kind.trailingForm? = some .ternary) : head.rightPower = 0 := by
  unfold Head.rightPower
  cases hk : head.symbol.kind with
  | leftward rule form leading? =>
    rw [hk] at hf
    cases hf
    rfl
  | rightward rule => rw [hk] at hf; cases hf
  | _ => rfl

theorem Trailing.ternary (ht : table.Regular) (hf : head.symbol.kind.trailingForm? = some .ternary) {d : Node}
    (hb : ReadsInto table b) (hd : ReadsInto table d) (hcb : Complete table b) (hcd : Complete table d) :
    Trailing table head a (.ternary head a b d) (b.tokens ++ .operator ":" :: d.tokens) (max b.levels d.levels) where
  tokens := rfl
  levels := rfl
  spine := rfl
  leftEdge := rfl
  stands rest n := by
    rw [List.append_assoc, List.cons_append]
    exact hcb.stands ht _ n
  reads {c₁ c₂ rest} hs₁ hs₂ hd₂ hlev hr := by
    obtain ⟨hr₁, hr₂⟩ := List.forall_mem_cons.1 hr
    rw [rightPower_of_ternary hf] at hr₁
    rw [List.append_assoc, List.cons_append] at hs₁
    obtain ⟨c', hs', hd'⟩ := hcd.stands ht rest c₁.depth
    have hsecond := hb.before ht hcb (by decide) hs₁ (by omega)
    have hthird : Reads table 0 c' d c₂ :=
      hd.alone hs' hs₂ (by rw [hd₂, hd']) (by omega) hcd.1.leftEdge_pos hr₂ hr₁
    exact .ternary hf hsecond (passes_simple hs' hd') hthird

/-- The first operand is read into the operator behind it. -/
theorem Trailing.readsInto {more : List Token} {m : Nat} (h : Trailing table head a t more m) (hu : head.IsUse table)
    (ha : ReadsInto table a) (hpa : ∀ p ∈ a.rightEdge, head.power ≤ p) : ReadsInto table t := by
  intro power c c₂ c₃ rest node hs hs₂ hlev hd₂ hl hr he
  rw [h.leftEdge] at hl
  obtain ⟨hl₁, hl₂⟩ := List.forall_mem_cons.1 hl
  rw [h.levels] at hlev
  rw [h.spine] at hd₂
  rw [h.tokens, List.append_assoc, List.cons_append] at hs
  -- the cursor in front of the operator, and the one behind it
  have hs₀ := hu.stands (more ++ rest) (c.depth + a.spine + 1)
  obtain ⟨c₁, hs₁, hd₁⟩ := h.stands rest (c.depth + a.spine + 2)
  refine ha hs hs₀ (by omega) rfl hl₂ hpa ?_
  exact .step hl₁ (by simp only; omega) ((stands_atDepth.2 hs₀).move hs₁ hd₁)
    (h.reads hs₁ hs₂ (by omega) (by omega) hr) he

/-- A complete tree whose operators stand as their powers ask for is read into whatever extends it; one that starts with
its own symbol is a leading form. -/
theorem Complete.leadsInto_readsInto (ht : table.Regular) (hc : Complete table t) (hp : PrecedenceCorrect t) :
    (t.spine = 0 → LeadsInto table t) ∧ ReadsInto table t := by
  have leading {t : Node} (hspine : t.spine = 0) (h : LeadsInto table t) :
      (t.spine = 0 → LeadsInto table t) ∧ ReadsInto table t := ⟨fun _ => h, h.readsInto hspine⟩
  obtain ⟨hf, hh⟩ := hc
  induction hf with
  | leaf hu hl hm => exact leading rfl (.leaf ht hu (hh _ (List.mem_singleton_self _)) hl hm)
  | @unary head form a hu hl hne hf ih =>
    cases hp with
    | unary hp hedge =>
      have ha := (ih hp hh).2
      refine leading rfl ?_
      cases form with
      | operand => exact .operand hu hl (.inl rfl) ht ⟨hf, hh⟩ ha (hedge (Head.closing_operand hl (.inl rfl)))
      | sign => exact .operand hu hl (.inr rfl) ht ⟨hf, hh⟩ ha (hedge (Head.closing_operand hl (.inr rfl)))
      | grouping closing => exact .grouping ht hu hl ⟨hf, hh⟩ ha
      | array => exact absurd rfl hne
  | array hu hl hf ih =>
    cases hp with
    | sequence hp =>
      have hitem := fun a ha head (h : head ∈ leaves a) => hh head (mem_leavesAll ha h)
      exact leading rfl (.array ht hu hl fun a ha => ⟨⟨hf a ha, hitem a ha⟩, (ih a ha (hp a ha) (hitem a ha)).2⟩)
  | bareCall hu hm => exact leading rfl (.call ht hu hm (fun _ => rfl) fun a ha => by cases ha)
  | call hu hm hne hf ih =>
    cases hp with
    | sequence hp =>
      have hitem := fun a ha head (h : head ∈ leaves a) => hh head (mem_leavesAll ha h)
      exact leading rfl (.call ht hu hm (fun hb => absurd hb hne)
        fun a ha => ⟨⟨hf a ha, hitem a ha⟩, (ih a ha (hp a ha) (hitem a ha)).2⟩)
  | binary hu ht' _ hfa hfb iha ihb =>
    cases hp with
    | binary hpa hpb hr hl =>
      have ha := fun head h => hh head (List.mem_append_left _ h)
      have hb := fun head h => hh head (List.mem_append_right _ h)
      refine ⟨fun hspine => absurd hspine (Nat.succ_ne_zero _), ?_⟩
      exact (Trailing.binary ht ht' (ihb hpb hb).2 ⟨hfb, hb⟩ hl).readsInto hu (iha hpa ha).2 hr
  | ternary hu ht' _ hfa hfb hfd iha ihb ihd =>
    cases hp with
    | ternary hpa hpb hpd hr =>
      have ha := fun head h => hh head (List.mem_append_left _ h)
      have hb := fun head h => hh head (List.mem_append_right _ (List.mem_append_left _ h))
      have hd := fun head h => hh head (List.mem_append_right _ (List.mem_append_right _ h))
      refine ⟨fun hspine => absurd hspine (Nat.succ_ne_zero _), ?_⟩
      exact (Trailing.ternary ht ht' (ihb hpb hb).2 (ihd hpd hd).2 ⟨hfb, hb⟩ ⟨hfd, hd⟩).readsInto hu (iha hpa ha).2 hr

theorem Complete.readsInto (ht : table.Regular) (hc : Complete table t) (hp : PrecedenceCorrect t) :
    ReadsInto table t :=
  (hc.leadsInto_readsInto ht hp).2

/-! ## Levels -/

theorem ReadsLeading.spine_eq {head : Head} {node : Node} {c c' : Cursor}
    (h : ReadsLeading table head c node c') : node.spine = 0 := by
  cases h <;> rfl

mutual

/-- A reading opens the levels of its tree. -/
theorem Reads.levels_le {power : BindingPower} {c c' : Cursor} {node : Node} :
    Reads table power c node c' → c.depth + node.levels ≤ maxDepth
  | .intro hlt hm hl he => by
    have hd := hm.2
    rw [atDepth_depth] at hd
    have hlev := hl.levels_le (by omega)
    exact he.levels_le (by omega) (Nat.le_of_eq (by rw [hl.spine_eq, hl.depth_eq, hd]))

/-- The levels of an extended tree are counted from below the cursor, which has one open for each operator of the
spine. -/
theorem Extends.levels_le {power : BindingPower} {base : Nat} {c c' : Cursor} {left node : Node} :
    Extends table power left c node c' → base + left.levels ≤ maxDepth → base + left.spine + 1 ≤ c.depth →
      base + node.levels ≤ maxDepth
  | .stop _, hlev, _ => hlev
  | .step _ hlt hm ht he, hlev, hd => by
    have hd₁ := hm.2
    rw [atDepth_depth] at hd₁
    obtain ⟨hlev', hspine⟩ := ht.levels_le hlev (by omega) (by omega)
    exact he.levels_le hlev' (by rw [ht.depth_eq]; omega)

theorem ReadsLeading.levels_le {head : Head} {c c' : Cursor} {node : Node} :
    ReadsLeading table head c node c' → c.depth ≤ maxDepth → c.depth + node.levels ≤ maxDepth + 1
  | .leaf _ _, hd | .bareCall _ _ _, hd => Nat.succ_le_succ hd
  | .operand _ h, _ | .sign _ h, _ | .grouping _ h _, _ => Nat.succ_le_succ h.levels_le
  | .array _ h, hd => Nat.succ_le_succ (h.levels_le hd)
  | .call _ _ hp h, hd => by
    have := h.levels_le (by rw [hp.2.2]; exact hd)
    rw [hp.2.2] at this
    exact Nat.succ_le_succ this

theorem ReadsTrailing.levels_le {head : Head} {base : Nat} {c c' : Cursor} {left node : Node} :
    ReadsTrailing table head left c node c' → base + left.levels ≤ maxDepth → base + left.spine + 2 ≤ c.depth →
      c.depth ≤ maxDepth → base + node.levels ≤ maxDepth ∧ base + node.spine + 1 ≤ c.depth
  | .leaf _, _, hd, hmax => by
    simp only [levels, spine]
    omega
  | .binary _ h, hlev, hd, _ => by
    have := h.levels_le
    simp only [levels, spine]
    omega
  | .ternary _ h hp h', hlev, hd, _ => by
    have hb := h.levels_le
    have hc := h'.levels_le
    rw [hp.2.2, h.depth_eq] at hc
    simp only [levels, spine]
    omega

theorem ReadsList.levels_le {closing : String} {items : List Node} {c c' : Cursor} :
    ReadsList table closing c items c' → c.depth ≤ maxDepth → c.depth + levelsAll items ≤ maxDepth
  | .empty _, hd => hd
  | .filled _ h _, _ => h.levels_le

theorem ReadsItems.levels_le {items : List Node} {c c' : Cursor} :
    ReadsItems table c items c' → c.depth + levelsAll items ≤ maxDepth
  | .last h _ => by
    have := h.levels_le
    simp only [levelsAll]
    omega
  | .more h hp hr => by
    have ha := h.levels_le
    have hb := hr.levels_le
    rw [hp.2.2, h.depth_eq] at hb
    simp only [levelsAll]
    omega

end

/-! ## Whole lists -/

/-- Behind all tokens a cursor stands on the end. -/
theorem stands_end (ht : table.Regular) : Stands table [] ⟨[], .simple endId, 0⟩ := by
  have hu : table.use endId none = .ok (.simple endId) := SymbolTable.use_ok.2 ⟨ht.simple endId (by decide), rfl⟩
  rw [Stands, next, hu]

/-- With enough levels the tokens of a tree are read as that tree, up to the end. -/
theorem Complete.reads (ht : table.Regular) (hc : Complete table t) (hp : PrecedenceCorrect t)
    (hl : ∀ p ∈ t.leftEdge, power < p) (hlev : t.levels ≤ maxDepth) :
    ∃ c, start table t.tokens = .ok c ∧ Reads table power c t ⟨[], .simple endId, 0⟩ := by
  obtain ⟨c, hs, hd⟩ := hc.stands ht [] 0
  have hread := (hc.readsInto ht hp).alone hs (stands_end ht) hd.symm (by omega) hl
    (fun _ _ => Nat.zero_le _) (Nat.zero_le _)
  rw [List.append_nil] at hs
  exact ⟨c, start_ok.2 ⟨hs, hd⟩, hread⟩

/-- A complete tree whose operators stand as their powers ask for is what its tokens are read as, at any power that
those at its left edge bind tighter than and by themselves, exactly if it needs no more levels than a reading may open;
it needs at most one for each of its nodes. -/
theorem expression_tokens_iff (ht : table.Extended) (hc : Complete table t) (hp : PrecedenceCorrect t)
    (hl : ∀ p ∈ t.leftEdge, power < p) :
    t.levels ≤ t.size ∧
      (t.levels ≤ maxDepth ↔
        ∃ c, start table t.tokens = .ok c ∧ expression table power c = .ok t ⟨[], .simple endId, 0⟩) ∧
      (t.levels ≤ maxDepth ↔ ofTokens table t.tokens = .ok t) := by
  have hr := ht.regular
  refine ⟨levels_le_size t, ⟨fun hlev => ?_, ?_⟩, ⟨fun hlev => ?_, fun h => ?_⟩⟩
  · obtain ⟨c, hs, hread⟩ := hc.reads hr hp hl hlev
    exact ⟨c, hs, expression_ok.2 hread⟩
  · rintro ⟨c, hs, hread⟩
    have hlev := (expression_ok.1 hread).levels_le
    rw [(start_ok.1 hs).2] at hlev
    omega
  · obtain ⟨c, hs, hread⟩ := hc.reads hr hp hc.1.leftEdge_pos hlev
    exact ofTokens_ok.2 ⟨c, _, hs, hread, rfl⟩
  · obtain ⟨c, c', hs, hread, -⟩ := ofTokens_ok.1 h
    have hlev := hread.levels_le
    rw [(start_ok.1 hs).2] at hlev
    omega

/-- `"a" + -"b"`: the sign is an operand of the sum. -/
theorem ofTokens_sum_of_sign :
    ofTokens Evaluator.standard.symbols [.string "a", .operator "+", .operator "-", .string "b"] =
      .ok (.binary ⟨.binary "+" .additive Library.add, none⟩ (.leaf (.text "a"))
        (.unary ⟨⟨"-", .additive, .leftward Library.subtract .binary (some .sign)⟩, none⟩ true
          (.leaf (.text "b")))) := by
  have hr := SymbolTable.Extended.standard.regular
  have hleaf (s : String) : Formed (Head.IsUse Evaluator.standard.symbols) (.leaf (.text s)) :=
    .leaf (Head.isUse_text hr s) rfl rfl
  have hadd := Head.isUse_of_get? (SymbolTable.get?_standard (s := .binary "+" .additive Library.add)
    (by simp [Library.symbols, Library.standardSymbols, Library.operatorSymbols]))
  have hsign := Head.isUse_of_get? (SymbolTable.get?_standard
    (s := ⟨"-", .additive, .leftward Library.subtract .binary (some .sign)⟩)
    (by simp [Library.symbols, Library.standardSymbols, Library.operatorSymbols]))
  have hf := Formed.binary hadd rfl (by decide) (hleaf "a") (.unary hsign rfl (by decide) (hleaf "b"))
  refine (expression_tokens_iff .standard ⟨hf, ?_⟩ (.binary .leaf (.unary .leaf ?_) ?_ ?_) hf.leftEdge_pos).2.2.1
    (by decide)
  · simp [leaves, Head.isHole, Head.text]
  · intro _ p h
    cases h
  · intro p h
    cases h
  · intro p h
    cases h

end Node

end Formula
