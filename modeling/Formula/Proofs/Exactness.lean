import Formula.Proofs.RoundTrip
import Formula.Proofs.Scanning

/-!
# What is read is what the tree writes

A tree that is read from the tokens of a text writes the tokens that the cursor has passed, every node has the operands
that its form asks for, and the operators stand as their powers ask for (`expression_written`). The proof keeps this of
the tree that has been read so far (`Written`) through every rule of a reading; a use that is no operator never takes
the place of an operand, because only operators bind to their left.
-/

namespace Formula

open Cursor

variable {table : SymbolTable} {ts rest : List Token} {c c₁ c' : Cursor}

/-! ## Uses in front of a cursor -/

/-- The tokens from which a tree can be read back: those of a text, but not the end or a literal spelled out. -/
def Token.Readable (t : Token) : Prop := t.Spelled ∧ t ≠ .symbol endId ∧ t ≠ .symbol literalId

/-- A use of a token that is read back has that token. -/
theorem Token.Readable.token_eq {t : Token} (ht : t.Readable) {head : Head} (h : table.resolve t = .ok head) :
    head.token = t ∧ head.id ≠ endId := by
  obtain ⟨hspell, hend, hlit⟩ := ht
  cases hspell with
  | number x =>
    have hu := SymbolTable.use_ok.1 h
    exact ⟨by rw [Head.token, hu.2], by rw [SymbolTable.use_id h]; decide⟩
  | string s =>
    have hu := SymbolTable.use_ok.1 h
    exact ⟨by rw [Head.token, hu.2]; rfl, by rw [SymbolTable.use_id h]; decide⟩
  | symbol id =>
    rw [SymbolTable.resolve_symbol] at h
    have hid := SymbolTable.use_id h
    refine ⟨by rw [Head.token, (SymbolTable.use_ok.1 h).2, hid], fun he => hend ?_⟩
    rw [← hid, he]

/-- In front of readable tokens stands the use of the first of them or the end, and writes what it stands on. -/
theorem Cursor.Stands.written (hs : Stands table ts c) (ht : ∀ t ∈ ts, t.Readable) :
    c.active.IsUse table ∧ ts = c.active.tokens ++ ts.tail := by
  cases ts with
  | nil =>
    have hu := hs.nil.1
    have hid := SymbolTable.use_id hu
    have hlit := (SymbolTable.use_ok.1 hu).2
    refine ⟨?_, by rw [Head.tokens, if_pos hid]; rfl⟩
    rw [Head.IsUse, Head.token, hlit, SymbolTable.resolve_symbol, hid]
    exact hu
  | cons t rest =>
    have hu := hs.cons.1
    obtain ⟨htok, hid⟩ := (ht t List.mem_cons_self).token_eq hu
    refine ⟨by rw [Head.IsUse, htok]; exact hu, ?_⟩
    rw [Head.tokens, if_neg hid, htok]
    rfl

/-- Brackets and separators. -/
def brackets : List String := [":", ",", "(", ")", "]", "\x7d"]

theorem symbol_of_mem_brackets : ∀ id ∈ brackets, Token.symbol id = .operator id ∧ id ≠ endId ∧ id ≠ literalId := by
  decide

/-- A bracket or separator that a cursor passes stands among the tokens. -/
theorem Cursor.Passes.written {id : String} (hid : id ∈ brackets) (hp : Passes table id c c')
    (hs : Stands table ts c) (ht : ∀ t ∈ ts, t.Readable) :
    ∃ rest, ts = .operator id :: rest ∧ Stands table rest c' := by
  obtain ⟨hsymbol, hend, hlit⟩ := symbol_of_mem_brackets id hid
  cases ts with
  | nil => exact absurd (hp.1.symm.trans (SymbolTable.use_id hs.nil.1)) hend
  | cons t rest =>
    refine ⟨rest, ?_, (hs.moves.1 hp.2).1⟩
    have hu := hs.cons.1
    obtain ⟨hspell, -, -⟩ := ht t List.mem_cons_self
    cases hspell with
    | number | string => exact absurd (hp.1.symm.trans (SymbolTable.use_id hu)) hlit
    | symbol id' =>
      rw [SymbolTable.resolve_symbol] at hu
      rw [← hsymbol, ← hp.1, SymbolTable.use_id hu]

namespace Node

variable {head : Head} {power : BindingPower} {a node : Node} {items : List Node}

/-! ## What has been read -/

/-- The tree writes the tokens up to the cursor, and its operators stand as their powers ask for, those at its left edge
against the power and those at its right edge against the active symbol. -/
structure Written (table : SymbolTable) (power : BindingPower) (ts : List Token) (node : Node) (c : Cursor) :
    Prop where
  behind : ∃ rest, ts = node.tokens ++ rest ∧ Stands table rest c
  formed : Formed (Head.IsUse table) node
  correct : PrecedenceCorrect node
  left : ∀ p ∈ node.leftEdge, power < p
  right : ∀ p ∈ node.rightEdge, c.active.power ≤ p

/-- The trees write the tokens up to the cursor, with commas between them. -/
structure WrittenAll (table : SymbolTable) (ts : List Token) (items : List Node) (c : Cursor) : Prop where
  behind : ∃ rest, ts = tokensAll items ++ rest ∧ Stands table rest c
  formed : ∀ a ∈ items, Formed (Head.IsUse table) a
  correct : ∀ a ∈ items, PrecedenceCorrect a

theorem Written.leaf (hu : head.IsUse table) (hl : head.symbol.kind.leadingForm? = none)
    (hm : head.symbol.kind.mode? = none) (htok : ts = head.tokens ++ rest) (hs : Stands table rest c) :
    Written table power ts (.leaf head) c where
  behind := ⟨rest, htok, hs⟩
  formed := .leaf hu hl hm
  correct := .leaf
  left _ h := by cases h
  right _ h := by cases h

theorem Written.operand (hr : table.Regular) (hu : head.IsUse table) {form : LeadingForm}
    (hl : head.symbol.kind.leadingForm? = some form) (hform : form = .operand ∨ form = .sign)
    (htok : ts = head.tokens ++ rest) (ha : Written table .unary rest a c) (hp : c.active.power ≤ .unary) :
    Written table power ts (.unary head (decide (form = .sign)) a) c := by
  have hclose := Head.closing_operand hl hform
  have hne : form ≠ .array := by rcases hform with rfl | rfl <;> decide
  have htoken := Head.tokens_of_kind hr hu (SymbolKind.ne_punctuation_of_leadingForm? hl)
  obtain ⟨behind, hrest, hs⟩ := ha.behind
  refine ⟨⟨behind, ?_, hs⟩, .unary hu hl hne ha.formed, .unary ha.correct fun _ => ha.left,
    (fun _ h => by cases h), ?_⟩
  · rw [htok, htoken, hrest, Node.tokens, hclose, List.append_nil]
    rfl
  · rw [rightEdge, if_pos hclose]
    exact List.forall_mem_cons.2 ⟨hp, ha.right⟩

theorem Written.grouping (hr : table.Regular) (hu : head.IsUse table) {closing : String}
    (hl : head.symbol.kind.leadingForm? = some (.grouping closing)) (htok : ts = head.tokens ++ rest)
    (ht : ∀ t ∈ rest, t.Readable) (ha : Written table 0 rest a c) (hp : Passes table closing c c') :
    Written table power ts (.unary head false a) c' := by
  have hid : closing ∈ brackets := by
    rcases hr.closing (SymbolTable.resolve_get? hu) hl with rfl | rfl <;> decide
  have hclose := Head.closing_grouping hl
  have htoken := Head.tokens_of_kind hr hu (SymbolKind.ne_punctuation_of_leadingForm? hl)
  obtain ⟨behind, rfl, hs⟩ := ha.behind
  obtain ⟨behind', rfl, hs'⟩ := hp.written hid hs fun t h => ht t (List.mem_append_right _ h)
  refine ⟨⟨behind', ?_, hs'⟩, .unary hu hl (by simp) ha.formed, .unary ha.correct fun h => ?_,
    (fun _ h => by cases h), ?_⟩
  · rw [htok, htoken, Node.tokens, hclose]
    simp
  · rw [hclose] at h
    cases h
  · rw [rightEdge, hclose]
    intro p h
    cases h

/-- An operator around the tree that has been read, and the operand behind it. -/
theorem Written.binary {b : Node} (ha : Written table power ts a c) (hu : c.active.IsUse table)
    (hf : c.active.symbol.kind.trailingForm? = some .binary) (hpos : power < c.active.power)
    (htok : ts = a.tokens ++ c.active.token :: rest) (hb : Written table c.active.rightPower rest b c')
    (hp : c'.active.power ≤ c.active.rightPower) : Written table power ts (.binary c.active a b) c' := by
  obtain ⟨behind, rfl, hs⟩ := hb.behind
  exact
    { behind := ⟨behind, by simp [htok, Node.tokens], hs⟩
      formed := .binary hu hf (Nat.zero_lt_of_lt hpos) ha.formed hb.formed
      correct := .binary ha.correct hb.correct ha.right hb.left
      left := List.forall_mem_cons.2 ⟨hpos, ha.left⟩
      right := List.forall_mem_cons.2 ⟨hp, hb.right⟩ }

theorem Written.ternary {b d : Node} {rest' : List Token} (ha : Written table power ts a c)
    (hu : c.active.IsUse table) (hf : c.active.symbol.kind.trailingForm? = some .ternary)
    (hpos : power < c.active.power) (htok : ts = a.tokens ++ c.active.token :: rest) (hb : Written table 0 rest b c₁)
    (htok' : rest = b.tokens ++ .operator ":" :: rest') (hd : Written table 0 rest' d c') (hp : c'.active.power ≤ 0) :
    Written table power ts (.ternary c.active a b d) c' := by
  obtain ⟨behind, rfl, hs⟩ := hd.behind
  have hle : c'.active.power ≤ c.active.rightPower := Nat.le_trans hp (Nat.zero_le _)
  exact
    { behind := ⟨behind, by simp [htok, htok', Node.tokens], hs⟩
      formed := .ternary hu hf (Nat.zero_lt_of_lt hpos) ha.formed hb.formed hd.formed
      correct := .ternary ha.correct hb.correct hd.correct ha.right
      left := List.forall_mem_cons.2 ⟨hpos, ha.left⟩
      right := List.forall_mem_cons.2 ⟨hle, hd.right⟩ }

theorem WrittenAll.single (h : Written table 0 ts a c) : WrittenAll table ts [a] c where
  behind := h.behind
  formed := List.forall_mem_singleton.2 h.formed
  correct := List.forall_mem_singleton.2 h.correct

theorem WrittenAll.cons (h : Written table 0 ts a c) (htok : ts = a.tokens ++ .operator "," :: rest)
    (hne : items ≠ []) (hi : WrittenAll table rest items c') : WrittenAll table ts (a :: items) c' := by
  obtain ⟨behind, rfl, hs⟩ := hi.behind
  refine ⟨⟨behind, ?_, hs⟩, List.forall_mem_cons.2 ⟨h.formed, hi.formed⟩,
    List.forall_mem_cons.2 ⟨h.correct, hi.correct⟩⟩
  cases items with
  | nil => exact absurd rfl hne
  | cons b items => simp [htok, tokensAll]

/-- An array or a call: the items between an opening and a closing. -/
theorem Written.sequence (hr : table.Regular) (hu : head.IsUse table) (hk : head.symbol.kind ≠ .punctuation)
    (hf : Formed (Head.IsUse table) (.sequence head items)) (htok : ts = head.tokens ++ head.opening ++ rest)
    (hi : WrittenAll table rest items c₁) {rest' : List Token}
    (hrest : rest = tokensAll items ++ head.closing ++ rest') (hs : Stands table rest' c) :
    Written table power ts (.sequence head items) c where
  behind := ⟨rest', by simp [htok, hrest, Head.tokens_of_kind hr hu hk, Node.tokens], hs⟩
  formed := hf
  correct := .sequence hi.correct
  left _ h := by cases h
  right _ h := by cases h

theorem WrittenAll.nil (hs : Stands table ts c) : WrittenAll table ts [] c where
  behind := ⟨ts, rfl, hs⟩
  formed _ h := by cases h
  correct _ h := by cases h

theorem Written.atDepth {d : Nat} (h : Written table power ts a c) : Written table power ts a (c.atDepth d) :=
  ⟨h.behind, h.formed, h.correct, h.left, h.right⟩

/-! ## Readings -/

theorem ReadsItems.ne_nil (h : ReadsItems table c items c') : items ≠ [] := by
  cases h <;> exact List.cons_ne_nil _ _

mutual

/-- What is read is written by the tokens up to the cursor, and nothing behind them binds tighter than the power. -/
theorem Reads.written (hr : table.Regular) {power : BindingPower} {ts : List Token} {c c' : Cursor} {node : Node} :
    Reads table power c node c' → Stands table ts c → (∀ t ∈ ts, t.Readable) →
      Written table power ts node c' ∧ c'.active.power ≤ power
  | .intro _ hm hl he, hs, ht => by
    obtain ⟨hu, htok⟩ := hs.written ht
    have hs₁ := ((stands_atDepth.2 hs).moves.1 hm).1
    have hleft : Written table power ts _ _ := hl.written hr hu htok hs₁ fun t h => ht t (List.mem_of_mem_tail h)
    obtain ⟨h, hp⟩ := he.written hr hleft ht
    exact ⟨h.atDepth, hp⟩

theorem Extends.written (hr : table.Regular) {power : BindingPower} {ts : List Token} {c c' : Cursor}
    {left node : Node} : Extends table power left c node c' → Written table power ts left c →
      (∀ t ∈ ts, t.Readable) → Written table power ts node c' ∧ c'.active.power ≤ power
  | .stop hp, h, _ => ⟨h, hp⟩
  | .step hpos _ hm htr he, h, ht => by
    obtain ⟨rest, htok, hs⟩ := h.behind
    have hs₁ := ((stands_atDepth.2 hs).moves.1 hm).1
    have hrest : ∀ t ∈ rest, t.Readable := fun t h => ht t (htok ▸ List.mem_append_right _ h)
    exact he.written hr (htr.written hr rfl hpos h htok hs hs₁ hrest) ht

theorem ReadsLeading.written (hr : table.Regular) {power : BindingPower} {head : Head} {ts rest : List Token}
    {c c' : Cursor} {node : Node} : ReadsLeading table head c node c' → head.IsUse table →
      ts = head.tokens ++ rest → Stands table rest c → (∀ t ∈ rest, t.Readable) → Written table power ts node c'
  | .leaf hl hm, hu, htok, hs, _ => .leaf hu hl hm htok hs
  | .operand hl h, hu, htok, hs, ht => by
    obtain ⟨ha, hp⟩ := h.written hr hs ht
    exact .operand hr hu hl (.inl rfl) htok ha hp
  | .sign hl h, hu, htok, hs, ht => by
    obtain ⟨ha, hp⟩ := h.written hr hs ht
    exact .operand hr hu hl (.inr rfl) htok ha hp
  | .grouping hl h hp, hu, htok, hs, ht => .grouping hr hu hl htok ht (h.written hr hs ht).1 hp
  | .array hl h, hu, htok, hs, ht => by
    obtain ⟨c₁, rest', hi, hrest, hs'⟩ := h.written hr (by decide) hs ht
    exact .sequence hr hu (SymbolKind.ne_punctuation_of_leadingForm? hl) (.array hu hl hi.formed)
      (by rw [Head.opening_array hl, htok, List.append_nil]) hi
      (by rw [hrest, Head.closing_array hl, List.append_assoc]; rfl) hs'
  | .bareCall hm hp hp', hu, htok, hs, ht => by
    obtain ⟨rest₁, rfl, hs₁⟩ := hp.written (by decide) hs ht
    obtain ⟨rest₂, rfl, hs₂⟩ := hp'.written (by decide) hs₁ (List.forall_mem_cons.1 ht).2
    exact .sequence hr hu (SymbolKind.ne_punctuation_of_mode? hm) (.bareCall hu hm)
      (by rw [Head.opening_call hm, htok, List.append_assoc]; rfl) (.nil hs₁) (by rw [Head.closing_call hm]; rfl) hs₂
  | .call hm hne hp h, hu, htok, hs, ht => by
    obtain ⟨rest₁, rfl, hs₁⟩ := hp.written (by decide) hs ht
    obtain ⟨c₁, rest', hi, hrest, hs'⟩ := h.written hr (by decide) hs₁ (List.forall_mem_cons.1 ht).2
    exact .sequence hr hu (SymbolKind.ne_punctuation_of_mode? hm) (.call hu hm hne hi.formed)
      (by rw [Head.opening_call hm, htok, List.append_assoc]; rfl) hi
      (by rw [hrest, Head.closing_call hm, List.append_assoc]; rfl) hs'

theorem ReadsTrailing.written (hr : table.Regular) {power : BindingPower} {head : Head} {ts rest : List Token}
    {c c₁ c' : Cursor} {left node : Node} : ReadsTrailing table head left c₁ node c' → c.active = head →
      power < c.active.power → Written table power ts left c → ts = left.tokens ++ rest → Stands table rest c →
      Stands table rest.tail c₁ → (∀ t ∈ rest, t.Readable) → Written table power ts node c'
  | .leaf hf, hhead, hpos, _, _, hs, _, ht => by
    -- what is no operator does not bind to its left, so it is never read behind an operand
    have hu := (hs.written ht).1
    have hzero := hr.operatorsBind (SymbolTable.resolve_get? hu) (hhead ▸ hf)
    rw [Head.power, hzero] at hpos
    exact absurd hpos (Nat.not_lt_zero _)
  | .binary hf h, hhead, hpos, ha, htok, hs, hs₁, ht => by
    obtain ⟨hb, hp⟩ := h.written hr hs₁ fun t h => ht t (List.mem_of_mem_tail h)
    subst hhead
    obtain ⟨hu, hrest⟩ := hs.written ht
    have htoken := Head.tokens_of_kind hr hu (SymbolKind.ne_punctuation_of_trailingForm? hf)
    exact ha.binary hu hf hpos (by rw [htok, hrest, htoken]; rfl) hb hp
  | .ternary hf h hp h', hhead, hpos, ha, htok, hs, hs₁, ht => by
    have ht₁ : ∀ t ∈ rest.tail, t.Readable := fun t h => ht t (List.mem_of_mem_tail h)
    have hb := (h.written hr hs₁ ht₁).1
    obtain ⟨behind, htok', hs₂⟩ := hb.behind
    have ht₂ : ∀ t ∈ behind, t.Readable := fun t h => ht₁ t (htok' ▸ List.mem_append_right _ h)
    obtain ⟨rest', rfl, hs₃⟩ := hp.written (by decide) hs₂ ht₂
    obtain ⟨hd, hp'⟩ := h'.written hr hs₃ (List.forall_mem_cons.1 ht₂).2
    subst hhead
    obtain ⟨hu, hrest⟩ := hs.written ht
    have htoken := Head.tokens_of_kind hr hu (SymbolKind.ne_punctuation_of_trailingForm? hf)
    exact ha.ternary hu hf hpos (by rw [htok, hrest, htoken]; rfl) hb htok' hd hp'

theorem ReadsList.written (hr : table.Regular) {closing : String} {ts : List Token} {c c' : Cursor}
    {items : List Node} : ReadsList table closing c items c' → closing ∈ brackets → Stands table ts c →
      (∀ t ∈ ts, t.Readable) →
      ∃ c₁ rest, WrittenAll table ts items c₁ ∧ ts = tokensAll items ++ .operator closing :: rest ∧
        Stands table rest c'
  | .empty hp, hclosing, hs, ht => by
    obtain ⟨rest, htok, hs'⟩ := hp.written hclosing hs ht
    exact ⟨c, rest, .nil hs, htok, hs'⟩
  | .filled _ h hp, hclosing, hs, ht => by
    have hi := h.written hr hs ht
    obtain ⟨behind, htok, hs₁⟩ := hi.behind
    obtain ⟨rest, rfl, hs'⟩ := hp.written hclosing hs₁ fun t h => ht t (htok ▸ List.mem_append_right _ h)
    exact ⟨_, rest, hi, htok, hs'⟩

theorem ReadsItems.written (hr : table.Regular) {ts : List Token} {c c' : Cursor} {items : List Node} :
    ReadsItems table c items c' → Stands table ts c → (∀ t ∈ ts, t.Readable) → WrittenAll table ts items c'
  | .last h _, hs, ht => .single (h.written hr hs ht).1
  | .more h hp hi, hs, ht => by
    have ha := (h.written hr hs ht).1
    obtain ⟨behind, htok, hs₁⟩ := ha.behind
    have ht₁ : ∀ t ∈ behind, t.Readable := fun t h => ht t (htok ▸ List.mem_append_right _ h)
    obtain ⟨rest, rfl, hs₂⟩ := hp.written (by decide) hs₁ ht₁
    exact .cons ha htok hi.ne_nil (hi.written hr hs₂ (List.forall_mem_cons.1 ht₁).2)

end

/-- Where the tokens of a text are read as a tree, the tree writes all of them. -/
theorem ofTokens_written (hr : table.Regular) (ht : ∀ t ∈ ts, t.Readable) {root : Node}
    (h : ofTokens table ts = .ok root) :
    ts = root.tokens ∧ Formed (Head.IsUse table) root ∧ PrecedenceCorrect root := by
  obtain ⟨c, c', hs, hread, hend⟩ := ofTokens_ok.1 h
  have hw := (hread.written hr (start_ok.1 hs).1 ht).1
  obtain ⟨rest, htok, hs'⟩ := hw.behind
  refine ⟨?_, hw.formed, hw.correct⟩
  cases rest with
  | nil => rw [htok, List.append_nil]
  | cons t rest =>
    have hmem : t ∈ ts := htok ▸ List.mem_append_right _ List.mem_cons_self
    exact absurd hend ((ht t hmem).token_eq hs'.cons.1).2

/-- What is read from the tokens of a text, at any power, writes the tokens up to the cursor, each once and in order.
Every node has the operands that its form asks for, an operator binds no tighter than those at the right edge of its
first operand, those at the left edge of an operand bind tighter than the power at which it was read, and what stands
behind the tree does not. -/
theorem expression_written (ht : table.Extended) {ops : OperatorSet} {source : String}
    (htok : ops.tokenize source = .ok ts) (hend : Token.operator endId ∉ ts) (hlit : Token.operator literalId ∉ ts)
    (hs : start table ts = .ok c) (h : expression table power c = .ok node c') :
    (∃ rest, ts = node.tokens ++ rest ∧ next table rest = (.ok c'.active, c'.unread)) ∧
      Formed (Head.IsUse table) node ∧ PrecedenceCorrect node ∧ (∀ p ∈ node.leftEdge, power < p) ∧
      (∀ p ∈ node.rightEdge, c'.active.power ≤ p) ∧ c'.active.power ≤ power := by
  have hread : ∀ t ∈ ts, t.Readable := by
    intro t htm
    refine ⟨OperatorSet.tokenize_spelled htok t htm, ?_, ?_⟩
    · rintro rfl
      exact hend htm
    · rintro rfl
      exact hlit htm
  obtain ⟨hw, hp⟩ := (expression_ok.1 h).written ht.regular (start_ok.1 hs).1 hread
  exact ⟨hw.behind, hw.formed, hw.correct, hw.left, hw.right, hp⟩

/-- `1 - 2 * -PI`: the product is the right operand of the difference, and the sign is at its right edge. -/
theorem difference_written :
    let literal (x : Double) : Node := .leaf ⟨⟨literalId, .none, .literal⟩, some (.number x)⟩
    let pi : Node := .leaf ⟨.constant "PI" (.number 3.141592653589793), none⟩
    let minus : Head := ⟨⟨"-", .additive, .leftward Library.subtract .binary (some .sign)⟩, none⟩
    let times : Head := ⟨.binary "*" .multiplicative Library.multiply, none⟩
    let node : Node := .binary minus (literal 1) (.binary times (literal 2) (.unary minus true pi))
    ∃ ts c c', OperatorSet.standard.tokenize "1 - 2 * -PI" = .ok ts ∧ start Evaluator.standard.symbols ts = .ok c ∧
      expression Evaluator.standard.symbols 0 c = .ok node c' ∧ PrecedenceCorrect node ∧
      node.leftEdge = [.additive] ∧ node.rightEdge = [.additive, .multiplicative, .unary] ∧
      (∀ p ∈ node.rightEdge, c'.active.power ≤ p) ∧ ∃ rest, ts = node.tokens ++ rest := by
  intro literal pi minus times node
  have hr := SymbolTable.Extended.standard.regular
  have hliteral (x : Double) : Formed (Head.IsUse Evaluator.standard.symbols) (literal x) := by
    have huse : Evaluator.standard.symbols.use literalId (some (.number x)) =
        .ok ⟨⟨literalId, .none, .literal⟩, some (.number x)⟩ := SymbolTable.use_ok.2 ⟨hr.literal, rfl⟩
    exact .leaf huse rfl rfl
  have hminus : minus.IsUse Evaluator.standard.symbols := Head.isUse_of_get? (SymbolTable.get?_standard
    (by simp [Library.symbols, Library.standardSymbols, Library.operatorSymbols]))
  have htimes : times.IsUse Evaluator.standard.symbols := Head.isUse_of_get? (SymbolTable.get?_standard
    (by simp [Library.symbols, Library.standardSymbols, Library.operatorSymbols]))
  have hpi : Formed (Head.IsUse Evaluator.standard.symbols) pi := .leaf (Head.isUse_of_get? (SymbolTable.get?_standard
    (by simp [Library.symbols, Library.standardSymbols, Library.constants]))) rfl rfl
  have htok : OperatorSet.standard.tokenize "1 - 2 * -PI" =
      .ok [.number 1, .operator "-", .number 2, .operator "*", .operator "-", .name "PI"] := by
    have gap {text : List Char} {position : Nat} : Scanner.tokensFrom .standard position (' ' :: text) =
        Scanner.tokensFrom .standard (position + 1) text := Scanner.tokensFrom_gap rfl
    exact Scanner.tokensFrom_token rfl rfl (gap.trans (Scanner.tokensFrom_token rfl rfl (gap.trans
      (Scanner.tokensFrom_token rfl rfl (gap.trans (Scanner.tokensFrom_token rfl rfl (gap.trans
        (Scanner.tokensFrom_token rfl rfl (Scanner.tokensFrom_token rfl rfl (Scanner.tokensFrom_nil _ _))))))))))
  have htokens : node.tokens = [.number 1, .operator "-", .number 2, .operator "*", .operator "-", .name "PI"] := by
    decide
  have hf : Formed (Head.IsUse Evaluator.standard.symbols) node := .binary hminus rfl (by decide) (hliteral 1)
    (.binary htimes rfl (by decide) (hliteral 2) (.unary hminus rfl (by decide) hpi))
  have hp : PrecedenceCorrect node := .binary .leaf
    (.binary .leaf (.unary .leaf fun _ _ h => by cases h) (by decide) (by decide)) (by decide) (by decide)
  have hholes : ∀ head ∈ node.leaves, head.isHole = false := by decide
  obtain ⟨c, hs, h⟩ := Complete.reads hr ⟨hf, hholes⟩ hp hf.leftEdge_pos (by decide)
  rw [htokens] at hs
  obtain ⟨⟨rest, hrest, -⟩, -, hcorrect, -, hright, -⟩ :=
    expression_written .standard htok (by decide) (by decide) hs (expression_ok.2 h)
  exact ⟨_, c, _, htok, hs, expression_ok.2 h, hcorrect, rfl, rfl, hright, rest, hrest⟩

end Node

end Formula
