import Formula.Proofs.Vocabulary

/-!
# Trees and the tokens that write them

`Node.tokens` lists the tokens of a tree in the order of a formula, with the brackets that its nodes have and no others.
Whether these tokens read as that tree again depends on the powers of its operators: `PrecedenceCorrect` compares each
operator with those that stand at the edges of its operands, where nothing but the powers keeps them apart. `Formed`
says that every node has the operands that the form of its symbol asks for. `levels` is the number of levels that a
reading of the tree has open at once, which is at most the number of its nodes (`levels_le_size`).
-/

namespace Formula

/-! ## Tokens -/

/-- The token with this spelling: a name if it starts like one, and an operator otherwise. -/
def Token.symbol (id : String) : Token := if Scanner.nameAhead id.toList then .name id else .operator id

theorem SymbolTable.resolve_symbol (table : SymbolTable) (id : String) :
    table.resolve (.symbol id) = table.use id none := by
  unfold Token.symbol
  split <;> rfl

namespace Head

/-- The token of a use. -/
def token (head : Head) : Token :=
  match head.literal? with
  | some (.number x) => .number x
  | some (.string s) => .string s
  | _ => .symbol head.id

/-- The tokens of a use without operands; the end is written by nothing. -/
def tokens (head : Head) : List Token := if head.id = endId then [] else [head.token]

/-- The use is what its token stands for. -/
def IsUse (table : SymbolTable) (head : Head) : Prop := table.resolve head.token = .ok head

/-- The use of a string. -/
def text (s : String) : Head := ⟨⟨literalId, .none, .literal⟩, some (.string s)⟩

theorem isUse_text {table : SymbolTable} (ht : table.Regular) (s : String) : (text s).IsUse table :=
  SymbolTable.use_ok.2 ⟨ht.literal, rfl⟩

/-- The use of a bracket, separator or the end. -/
def simple (id : String) : Head := ⟨.simple id, none⟩

theorem resolve_simple {table : SymbolTable} (ht : table.Regular) {id : String}
    (hid : id ∈ Library.simpleIds) : table.resolve (.operator id) = .ok (.simple id) :=
  SymbolTable.use_ok.2 ⟨ht.simple id hid, rfl⟩

theorem isUse_of_get? {table : SymbolTable} {s : Symbol} (h : table.get? s.id = some s) :
    IsUse table ⟨s, none⟩ := by
  rw [IsUse, token, SymbolTable.resolve_symbol]
  exact SymbolTable.use_ok.2 ⟨h, rfl⟩

/-- Any use but that of punctuation is written by its token. -/
theorem tokens_of_kind {table : SymbolTable} (ht : table.Regular) {head : Head} (hu : head.IsUse table)
    (hk : head.symbol.kind ≠ .punctuation) : head.tokens = [head.token] := by
  rw [tokens, if_neg]
  intro he
  have hs := SymbolTable.resolve_get? hu
  rw [he, ht.simple endId (by decide)] at hs
  exact hk (by rw [← Option.some.inj hs]; rfl)

/-- Whether a use without operands is no expression: a bracket, a separator or the end, an operator between operands, or
a literal without a value. -/
def isHole (head : Head) : Bool :=
  match head.symbol.kind with
  | .punctuation | .leftward .. | .rightward _ => true
  | .literal => head.literal?.isNone
  | _ => false

/-- The tokens between a use and its operands. -/
def opening (head : Head) : List Token := if head.symbol.kind.mode?.isSome then [.operator "("] else []

/-- The tokens behind the operands of a use at the start of an expression. -/
def closing (head : Head) : List Token :=
  match head.symbol.kind.leadingForm? with
  | some (.grouping closing) => [.operator closing]
  | some .array => [.operator "]"]
  | _ => if head.symbol.kind.mode?.isSome then [.operator ")"] else []

variable {head : Head}

/-- Nothing closes the operand of an operator before it. -/
theorem closing_operand {form : LeadingForm} (hl : head.symbol.kind.leadingForm? = some form)
    (hform : form = .operand ∨ form = .sign) : head.closing = [] := by
  rcases hform with rfl | rfl <;> simp [closing, hl, SymbolKind.mode?_of_leadingForm? hl]

theorem closing_grouping {id : String} (hl : head.symbol.kind.leadingForm? = some (.grouping id)) :
    head.closing = [.operator id] := by
  simp [closing, hl]

theorem opening_array (hl : head.symbol.kind.leadingForm? = some .array) : head.opening = [] := by
  simp [opening, SymbolKind.mode?_of_leadingForm? hl]

theorem closing_array (hl : head.symbol.kind.leadingForm? = some .array) : head.closing = [.operator "]"] := by
  simp [closing, hl]

theorem opening_call {mode : ArgumentMode} (hm : head.symbol.kind.mode? = some mode) :
    head.opening = [.operator "("] := by
  simp [opening, hm]

theorem closing_call {mode : ArgumentMode} (hm : head.symbol.kind.mode? = some mode) :
    head.closing = [.operator ")"] := by
  simp [closing, hm, SymbolKind.leadingForm?_of_mode? hm]

end Head

namespace Node

mutual

/-- The tokens of a tree. -/
def tokens : Node → List Token
  | .leaf head => head.tokens
  | .unary head _ a => head.token :: (a.tokens ++ head.closing)
  | .binary head a b => a.tokens ++ head.token :: b.tokens
  | .ternary head a b c => a.tokens ++ head.token :: (b.tokens ++ .operator ":" :: c.tokens)
  | .sequence head items => head.token :: (head.opening ++ (tokensAll items ++ head.closing))

/-- The tokens of several trees, with commas between them. -/
def tokensAll : List Node → List Token
  | [] => []
  | [a] => a.tokens
  | a :: b :: rest => a.tokens ++ .operator "," :: tokensAll (b :: rest)

end

/-! ## Precedence -/

/-- The powers toward the left of the operators at the left edge of a tree, from its root. -/
def leftEdge : Node → List BindingPower
  | .binary head a _ => head.power :: a.leftEdge
  | .ternary head a _ _ => head.power :: a.leftEdge
  | _ => []

/-- The powers at which the operators at the right edge of a tree read their last operand, from its root. -/
def rightEdge : Node → List BindingPower
  | .unary head _ a => if head.closing = [] then .unary :: a.rightEdge else []
  | .binary head _ b => head.rightPower :: b.rightEdge
  | .ternary head _ _ c => head.rightPower :: c.rightEdge
  | _ => []

/-- An operator after its first operand binds no tighter than those at the right edge of that operand, and the operators
at the left edge of an operand bind tighter than the power at which it is read. -/
inductive PrecedenceCorrect : Node → Prop
  | leaf {head : Head} : PrecedenceCorrect (.leaf head)
  | unary {head : Head} {sign : Bool} {a : Node} : PrecedenceCorrect a →
      (head.closing = [] → ∀ p ∈ a.leftEdge, BindingPower.unary < p) → PrecedenceCorrect (.unary head sign a)
  | binary {head : Head} {a b : Node} : PrecedenceCorrect a → PrecedenceCorrect b →
      (∀ p ∈ a.rightEdge, head.power ≤ p) → (∀ p ∈ b.leftEdge, head.rightPower < p) →
      PrecedenceCorrect (.binary head a b)
  | ternary {head : Head} {a b c : Node} : PrecedenceCorrect a → PrecedenceCorrect b → PrecedenceCorrect c →
      (∀ p ∈ a.rightEdge, head.power ≤ p) → PrecedenceCorrect (.ternary head a b c)
  | sequence {head : Head} {items : List Node} : (∀ item ∈ items, PrecedenceCorrect item) →
      PrecedenceCorrect (.sequence head items)

/-! ## Forms -/

/-- Every node has the operands that the form of its symbol asks for, and is one of the uses. A leaf may also be a symbol
that has no value. -/
inductive Formed (uses : Head → Prop) : Node → Prop
  | leaf {head : Head} : uses head → head.symbol.kind.leadingForm? = none → head.symbol.kind.mode? = none →
      Formed uses (.leaf head)
  | unary {head : Head} {form : LeadingForm} {a : Node} : uses head →
      head.symbol.kind.leadingForm? = some form → form ≠ .array → Formed uses a →
      Formed uses (.unary head (decide (form = .sign)) a)
  | array {head : Head} {items : List Node} : uses head → head.symbol.kind.leadingForm? = some .array →
      (∀ item ∈ items, Formed uses item) → Formed uses (.sequence head items)
  | bareCall {head : Head} : uses head → head.symbol.kind.mode? = some .bare → Formed uses (.sequence head [])
  | call {head : Head} {mode : ArgumentMode} {items : List Node} : uses head →
      head.symbol.kind.mode? = some mode → mode ≠ .bare → (∀ item ∈ items, Formed uses item) →
      Formed uses (.sequence head items)
  | binary {head : Head} {a b : Node} : uses head → head.symbol.kind.trailingForm? = some .binary →
      0 < head.power → Formed uses a → Formed uses b → Formed uses (.binary head a b)
  | ternary {head : Head} {a b c : Node} : uses head → head.symbol.kind.trailingForm? = some .ternary →
      0 < head.power → Formed uses a → Formed uses b → Formed uses c → Formed uses (.ternary head a b c)

mutual

/-- The uses at the leaves of a tree. -/
def leaves : Node → List Head
  | .leaf head => [head]
  | .unary _ _ a => a.leaves
  | .binary _ a b => a.leaves ++ b.leaves
  | .ternary _ a b c => a.leaves ++ (b.leaves ++ c.leaves)
  | .sequence _ items => leavesAll items

/-- The uses at the leaves of several trees. -/
def leavesAll : List Node → List Head
  | [] => []
  | a :: rest => a.leaves ++ leavesAll rest

end

theorem mem_leavesAll {head : Head} {a : Node} : ∀ {items : List Node}, a ∈ items → head ∈ a.leaves →
    head ∈ leavesAll items
  | _ :: _, ha, h => by
    rcases List.mem_cons.mp ha with rfl | ha
    · exact List.mem_append_left _ h
    · exact List.mem_append_right _ (mem_leavesAll ha h)

/-- A tree in which no leaf is a hole. -/
def Complete (table : SymbolTable) (t : Node) : Prop :=
  Formed (Head.IsUse table) t ∧ ∀ head ∈ t.leaves, head.isHole = false

/-! ## Levels -/

mutual

/-- The number of nodes of a tree. -/
def size : Node → Nat
  | .leaf _ => 1
  | .unary _ _ a => a.size + 1
  | .binary _ a b => a.size + b.size + 1
  | .ternary _ a b c => a.size + b.size + c.size + 1
  | .sequence _ items => sizeAll items + 1

/-- The number of nodes of several trees. -/
def sizeAll : List Node → Nat
  | [] => 0
  | a :: rest => a.size + sizeAll rest

end

/-- The number of operators after an operand between the root and the start of a tree. -/
def spine : Node → Nat
  | .binary _ a _ => a.spine + 1
  | .ternary _ a _ _ => a.spine + 1
  | _ => 0

mutual

/-- The number of levels that are open at once while a tree is read. The operators of the spine stay open until its end,
so what is read for one of them lies below all that stand before it. -/
def levels : Node → Nat
  | .leaf _ => 1
  | .unary _ _ a => a.levels + 1
  | .binary _ a b => max a.levels (a.spine + b.levels + 2)
  | .ternary _ a b c => max a.levels (a.spine + max b.levels c.levels + 2)
  | .sequence _ items => levelsAll items + 1

/-- The number of levels that the deepest of several trees needs. -/
def levelsAll : List Node → Nat
  | [] => 0
  | a :: rest => max a.levels (levelsAll rest)

end

theorem levels_pos : ∀ t : Node, 0 < t.levels
  | .leaf _ => Nat.zero_lt_one
  | .unary .. | .sequence .. => Nat.succ_pos _
  | .binary .. | .ternary .. => by
    simp only [levels]
    omega

theorem levels_le_levelsAll {a : Node} : ∀ {items : List Node}, a ∈ items → a.levels ≤ levelsAll items
  | _ :: _, ha => by
    rcases List.mem_cons.mp ha with rfl | ha
    · exact Nat.le_max_left _ _
    · exact Nat.le_trans (levels_le_levelsAll ha) (Nat.le_max_right _ _)

theorem spine_lt_size : ∀ t : Node, t.spine < t.size
  | .leaf _ => Nat.zero_lt_one
  | .unary .. | .sequence .. => Nat.succ_pos _
  | .binary _ a b => by
    have := spine_lt_size a
    simp only [spine, size]
    omega
  | .ternary _ a b c => by
    have := spine_lt_size a
    simp only [spine, size]
    omega

mutual

/-- A level is open for a node of its own. -/
theorem levels_le_size : ∀ t : Node, t.levels ≤ t.size
  | .leaf _ => Nat.le_refl _
  | .unary _ _ a => Nat.succ_le_succ (levels_le_size a)
  | .binary _ a b => by
    have ha := levels_le_size a
    have hb := levels_le_size b
    have hs := spine_lt_size a
    simp only [levels, size]
    omega
  | .ternary _ a b c => by
    have ha := levels_le_size a
    have hb := levels_le_size b
    have hc := levels_le_size c
    have hs := spine_lt_size a
    simp only [levels, size]
    omega
  | .sequence _ items => Nat.succ_le_succ (levelsAll_le_sizeAll items)

theorem levelsAll_le_sizeAll : ∀ items : List Node, levelsAll items ≤ sizeAll items
  | [] => Nat.le_refl _
  | a :: rest => by
    have ha := levels_le_size a
    have hr := levelsAll_le_sizeAll rest
    simp only [levelsAll, sizeAll]
    omega

end

end Node

end Formula
