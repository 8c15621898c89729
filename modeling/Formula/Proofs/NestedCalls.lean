import Formula.Proofs.Evaluations
import Formula.Proofs.Spelling
import Mathlib.Logic.Function.Iterate

/-!
# Calls by name

A function that calls another one by its name writes the call as tokens, which are read and evaluated from the start.
Nothing is lost on the way: a value is written as a literal that reads as the tree `Value.node`
(`readExpression_value`), whose value is that value again (`Value.evaluate_node`). So the call is the function's rule on
the values, as long as no value needs more levels than a reading may open, and is refused as too deep otherwise
(`Evaluator.call_eq_rule`).

Both outcomes are followed through the readers together: a step `YieldsIf` the levels suffice, and fails in the one way
that is left if they do not. The relation `Node.Reads` says nothing of failures, and the table need not be `Regular`:
only the symbols around values have to be the built-in ones (`SymbolTable.Structural`), the others may be anything.
-/

namespace Formula

open Cursor

/-! ## Spellings around values -/

namespace Library

/-- What closes the values of a call or an array. -/
def closingIds : List String := [")", "]"]

/-- What stands behind a value. -/
def behindIds : List String := closingIds ++ [","]

/-- The spellings around the name and the values of a call. -/
def callIds : List String := "(" :: "[" :: (behindIds ++ [literalId, endId])

theorem behindIds_of_closingIds {id : String} (h : id ∈ closingIds) : id ∈ behindIds := List.mem_append_left _ h

end Library

open Library (closingIds behindIds callIds behindIds_of_closingIds)

/-! ## Levels and trees of values -/

namespace Value

mutual

/-- The number of levels that are open at once while the literal of a value is read. -/
def need : Value → Nat
  | .number _ => 1
  | .string _ => 1
  | .array items => 1 + needAll items

/-- The levels for several values, one after the other. -/
def needAll : List Value → Nat
  | [] => 0
  | v :: rest => max v.need (needAll rest)

end

theorem need_pos : ∀ v : Value, 0 < v.need
  | .number _ | .string _ => Nat.one_pos
  | .array items => by
    rw [need]
    omega

theorem needAll_le {n : Nat} : ∀ {values : List Value}, needAll values ≤ n ↔ ∀ v ∈ values, v.need ≤ n
  | [] => by simp [needAll]
  | v :: rest => by rw [needAll, Nat.max_le, needAll_le, List.forall_mem_cons]

/-- Each array around a value asks for one more level. -/
theorem need_iterate (n : Nat) (v : Value) : ((fun v => array [v])^[n] v).need = n + v.need := by
  induction n with
  | zero => exact (Nat.zero_add _).symm
  | succ n ih =>
    rw [Function.iterate_succ_apply', need, needAll, needAll, ih, Nat.max_eq_left (Nat.zero_le _)]
    omega

/-! The tokens of several values. -/

theorem tokensAll_cons (v : Value) (values : List Value) : ∃ more, tokensAll (v :: values) = v.tokens ++ more := by
  cases values with
  | nil => exact ⟨[], (List.append_nil _).symm⟩
  | cons w values => exact ⟨_, rfl⟩

theorem length_le_tokensAll : ∀ values : List Value, values.length ≤ (tokensAll values).length
  | [] => Nat.le_refl 0
  | [v] => by
    cases v <;> simp [tokensAll, tokens]
  | v :: w :: values => by
    have := length_le_tokensAll (w :: values)
    simp only [tokensAll, List.length_append, List.length_cons] at this ⊢
    omega

end Value

namespace Head

/-- The use of a number or string. -/
def literal (v : Value) : Head := ⟨⟨literalId, .none, .literal⟩, some v⟩

/-- The use of the bracket that opens an array. -/
def arrayBracket : Head := ⟨.leading "[" .array Library.elements, none⟩

/-- The use of the bracket in front of the arguments of a call. -/
def callBracket : Head := ⟨.leading "(" (.grouping ")") Library.group, none⟩

end Head

namespace Value

mutual

/-- The tree of the literal of a value. -/
def node : Value → Node
  | .number x => .leaf (.literal (.number x))
  | .string s => .leaf (.literal (.string s))
  | .array items => .sequence .arrayBracket (nodes items)

/-- The trees of several values. -/
def nodes : List Value → List Node
  | [] => []
  | v :: rest => v.node :: nodes rest

end

theorem head_node_id : ∀ v : Value, v.node.head.id ∈ ["[", literalId]
  | .number _ | .string _ => List.mem_cons_of_mem _ List.mem_cons_self
  | .array _ => List.mem_cons_self

theorem head_node_ne {id : String} (hid : id ∈ behindIds) (v : Value) : v.node.head.id ≠ id := by
  rintro rfl
  exact (show ∀ id ∈ ["[", literalId], id ∉ behindIds by decide) _ v.head_node_id hid

end Value

/-! ## The built-in symbols of a call -/

/-- The symbols around the name and the values of a call are the built-in ones. -/
def SymbolTable.Structural (table : SymbolTable) : Prop :=
  ∀ id ∈ callIds, table.get? id = Evaluator.standard.symbols.get? id

namespace SymbolTable.Structural

variable {table : SymbolTable}

theorem use_eq (ht : table.Structural) {s : Symbol} (hid : s.id ∈ callIds) (hs : s ∈ Library.symbols)
    (literal? : Option Value) : table.use s.id literal? = .ok ⟨s, literal?⟩ :=
  use_ok.2 ⟨by rw [ht s.id hid, get?_standard hs], rfl⟩

theorem use_simple (ht : table.Structural) {id : String} (hid : id ∈ endId :: behindIds) :
    table.use id none = .ok (.simple id) := by
  have hsimple : id ∈ Library.simpleIds := (show endId :: behindIds ⊆ Library.simpleIds by decide) hid
  refine ht.use_eq (s := .simple id) ?_ ?_ none
  · exact (show endId :: behindIds ⊆ callIds by decide) hid
  · exact List.mem_append_left _ (List.mem_append_left _ (List.mem_map_of_mem hsimple))

theorem resolve_simple (ht : table.Structural) {id : String} (hid : id ∈ behindIds) :
    table.resolve (.operator id) = .ok (.simple id) :=
  ht.use_simple (List.mem_cons_of_mem endId hid)

theorem resolve_callBracket (ht : table.Structural) : table.resolve (.operator "(") = .ok .callBracket :=
  ht.use_eq (s := .leading "(" (.grouping ")") Library.group) (by decide)
    (List.mem_append_left _ (List.mem_append_right _ (by simp))) none

/-- The tokens of a value start with one for the use at the root of its tree. -/
theorem first_token (ht : table.Structural) :
    ∀ v : Value, ∃ t more, v.tokens = t :: more ∧ table.resolve t = .ok v.node.head
  | .number x => ⟨_, _, rfl, ht.use_eq (s := ⟨literalId, .none, .literal⟩) (by decide)
      (List.mem_append_left _ (List.mem_append_right _ List.mem_cons_self)) _⟩
  | .string s => ⟨_, _, rfl, ht.use_eq (s := ⟨literalId, .none, .literal⟩) (by decide)
      (List.mem_append_left _ (List.mem_append_right _ List.mem_cons_self)) _⟩
  | .array items => ⟨_, _, rfl, ht.use_eq (s := .leading "[" .array Library.elements) (by decide)
      (List.mem_append_right _ (by simp [Library.standardSymbols, Library.operatorSymbols])) _⟩

end SymbolTable.Structural

/-! ## Steps that are refused as too deep -/

/-- The failure of a tree that would be too deep. -/
def depthError (found : String) : EvalError :=
  .badToken ("at most " ++ toString maxDepth ++ " nested expressions") found

/-- From `c` the step is refused as too deep at a value. -/
def TooDeep {α : Type} (x : CursorM α) (c : Cursor) : Prop :=
  ∃ found ∈ ["[", literalId], ∃ c', x c = .error (depthError found) c'

/-- From `c` the step yields `a` and leaves `c'` if the levels fit, and is refused as too deep if they do not. -/
structure YieldsIf {α : Type} (fits : Prop) (x : CursorM α) (c : Cursor) (a : α) (c' : Cursor) : Prop where
  ok : fits → x c = .ok a c'
  deep : ¬ fits → TooDeep x c

theorem tooDeep_of_active {α : Type} {c : Cursor} (h : c.active.id ∈ ["[", literalId]) :
    TooDeep (tooDeep : CursorM α) c :=
  ⟨c.active.id, h, c, rfl⟩

namespace YieldsIf

variable {α β : Type} {p q : Prop} {x : CursorM α} {f : α → CursorM β} {a : α} {b : β} {c c₁ c₂ : Cursor}

theorem of_ok (h : x c = .ok a c₁) : YieldsIf True x c a c₁ := ⟨fun _ => h, fun hn => absurd trivial hn⟩

theorem congr (hpq : p ↔ q) (h : YieldsIf p x c a c₁) : YieldsIf q x c a c₁ :=
  ⟨fun hq => h.ok (hpq.2 hq), fun hq => h.deep fun hp => hq (hpq.1 hp)⟩

/-- The second step is only taken where the first one fits. -/
theorem bind (hx : YieldsIf p x c a c₁) (hf : YieldsIf q (f a) c₁ b c₂) : YieldsIf (p ∧ q) (x >>= f) c b c₂ where
  ok h := bind_ok.2 ⟨a, c₁, hx.ok h.1, hf.ok h.2⟩
  deep h := by
    by_cases hp : p
    · obtain ⟨found, hmem, c', he⟩ := hf.deep fun hq => h ⟨hp, hq⟩
      exact ⟨found, hmem, c', by simp only [Bind.bind, EStateM.bind, hx.ok hp, he]⟩
    · obtain ⟨found, hmem, c', he⟩ := hx.deep hp
      exact ⟨found, hmem, c', by simp only [Bind.bind, EStateM.bind, he]⟩

theorem before_ok (hx : YieldsIf p x c a c₁) (hf : f a c₁ = .ok b c₂) : YieldsIf p (x >>= f) c b c₂ :=
  (hx.bind (of_ok hf)).congr (iff_of_eq (and_true p))

theorem after_ok (hx : x c = .ok a c₁) (hf : YieldsIf p (f a) c₁ b c₂) : YieldsIf p (x >>= f) c b c₂ :=
  ((of_ok hx).bind hf).congr (iff_of_eq (true_and p))

end YieldsIf

/-! ## Reading the literal of a value -/

namespace Node

variable {table : SymbolTable} {c c₁ : Cursor} {levels : Nat} {rest : List Token}

/-- In front of what does not bind to its left nothing is put around the tree. -/
theorem extend_stop {opened : Nat} {left : Node} (hp : c.active.power = .none) :
    extend table levels 0 opened left c = .ok left (c.atDepth (c.depth - opened)) := by
  have hstop : ¬ 0 < c.active.power := by
    rw [hp]
    exact Nat.lt_irrefl 0
  cases levels <;>
    exact bind_ok.2 ⟨_, _, current_ok.2 ⟨rfl, rfl⟩, by
      rw [if_neg hstop]
      exact bind_ok.2 ⟨(), _, ascend_ok.2 rfl, pure_ok.2 ⟨rfl, rfl⟩⟩⟩

/-- An expression in front of punctuation is its leading form, one level further down. -/
theorem readExpression_of_leading {fits : Prop} {node : Node} {id : String} (hd : c.depth + (levels + 1) = maxDepth)
    (hm : Moves table (c.atDepth (c.depth + 1)) c₁)
    (h : YieldsIf fits (readLeading table (readExpression table levels) c.active) c₁ node
      ⟨rest, .simple id, c.depth + 1⟩) :
    YieldsIf fits (readExpression table (levels + 1) 0) c node ⟨rest, .simple id, c.depth⟩ := by
  rw [readExpression]
  exact .after_ok (a := ()) (descend_ok.2 ⟨by omega, rfl⟩)
    (.after_ok (advance_ok.2 ⟨rfl, hm⟩) (h.before_ok (extend_stop rfl)))

/-- In front of the tokens of the value and a bracket or comma, its tree is read exactly if the levels fit. -/
def ReadsValue (table : SymbolTable) (levels : Nat) (v : Value) : Prop :=
  ∀ ⦃c : Cursor⦄ ⦃rest : List Token⦄ ⦃id : String⦄, id ∈ behindIds →
    Stands table (v.tokens ++ .operator id :: rest) c → c.depth + levels = maxDepth →
    YieldsIf (v.need ≤ levels) (readExpression table levels 0) c v.node ⟨rest, .simple id, c.depth⟩

theorem stands_simple (ht : table.Structural) {id : String} (hid : id ∈ behindIds) (d : Nat) :
    Stands table (.operator id :: rest) ⟨rest, .simple id, d⟩ := by
  rw [Stands, next, ht.resolve_simple hid]

/-- The active symbol in front of a value is the root of its tree. -/
theorem active_value (ht : table.Structural) {v : Value} (hs : Stands table (v.tokens ++ rest) c) :
    c.active = v.node.head := by
  obtain ⟨t, more, htok, hr⟩ := ht.first_token v
  rw [htok] at hs
  exact Except.ok.inj (hs.cons.1.symm.trans hr)

theorem stands_value (ht : table.Structural) (v : Value) (rest : List Token) (d : Nat) :
    ∃ c, Stands table (v.tokens ++ rest) c ∧ c.depth = d := by
  obtain ⟨t, more, htok, hr⟩ := ht.first_token v
  exact ⟨⟨more ++ rest, v.node.head, d⟩, by rw [htok, List.cons_append, Stands, next, hr], rfl⟩

/-- A cursor in front of several values and a bracket. -/
theorem stands_values (ht : table.Structural) {closing : String} (hc : closing ∈ closingIds) :
    ∀ (values : List Value) (rest : List Token) (d : Nat),
      ∃ c, Stands table (Value.tokensAll values ++ .operator closing :: rest) c ∧ c.depth = d
  | [], rest, d => ⟨_, stands_simple ht (behindIds_of_closingIds hc) d, rfl⟩
  | v :: values, rest, d => by
    obtain ⟨more, hmore⟩ := Value.tokensAll_cons v values
    rw [hmore, List.append_assoc]
    exact stands_value ht v _ d

/-- Several values in front of a bracket are read exactly if the levels fit each of them; the budget covers the commas
between them. -/
theorem readItems_values (ht : table.Structural) {closing : String} (hc : closing ∈ closingIds) :
    ∀ {values : List Value} {budget : Nat} {c : Cursor}, values ≠ [] → (∀ v ∈ values, ReadsValue table levels v) →
      Stands table (Value.tokensAll values ++ .operator closing :: rest) c → c.depth + levels = maxDepth →
      values.length ≤ budget + 1 →
      YieldsIf (Value.needAll values ≤ levels) (readItems table (readExpression table levels) budget) c
        (Value.nodes values) ⟨rest, .simple closing, c.depth⟩
  | [v], budget, c, _, hv, hs, hd, _ => by
    have hread := hv v List.mem_cons_self (behindIds_of_closingIds hc) hs hd
    have hne : closing ≠ "," := by
      rintro rfl
      exact absurd hc (by decide)
    refine .congr (p := v.need ≤ levels) (by simp [Value.needAll]) ?_
    cases budget with
    | zero => exact hread.before_ok (pure_ok.2 ⟨rfl, rfl⟩)
    | succ budget =>
      refine hread.before_ok (bind_ok.2 ⟨_, _, current_ok.2 ⟨rfl, rfl⟩, ?_⟩)
      rw [if_neg]
      · exact pure_ok.2 ⟨rfl, rfl⟩
      · exact hne
  | v :: w :: values, 0, c, _, _, _, _, hb => by simp at hb
  | v :: w :: values, budget + 1, c, _, hv, hs, hd, hb => by
    rw [Value.tokensAll, List.append_assoc, List.cons_append] at hs
    have hread := hv v List.mem_cons_self (by decide) hs hd
    obtain ⟨c₁, hs₁, hd₁⟩ := stands_values ht hc (w :: values) rest c.depth
    have hrest := readItems_values ht hc (List.cons_ne_nil w values) (fun u hu => hv u (List.mem_cons_of_mem v hu))
      hs₁ (hd₁ ▸ hd) (Nat.le_of_succ_le_succ hb)
    rw [hd₁] at hrest
    refine .congr Nat.max_le.symm (hread.bind (.after_ok (current_ok.2 ⟨rfl, rfl⟩) ?_))
    rw [if_pos]
    · exact .after_ok (advance_ok.2 ⟨rfl, hs₁, hd₁⟩) (hrest.before_ok (pure_ok.2 ⟨rfl, rfl⟩))
    · rfl

/-- The values up to and including the bracket that closes them. -/
theorem readList_values (ht : table.Structural) {closing : String} (hc : closing ∈ closingIds) {values : List Value}
    {c c' : Cursor} (hv : ∀ v ∈ values, ReadsValue table levels v)
    (hs : Stands table (Value.tokensAll values ++ .operator closing :: rest) c) (hs' : Stands table rest c')
    (hd : c.depth + levels = maxDepth) (hd' : c'.depth = c.depth) :
    YieldsIf (Value.needAll values ≤ levels) (readList table (readExpression table levels) closing) c
      (Value.nodes values) c' := by
  have hc' : closing ∈ behindIds := behindIds_of_closingIds hc
  refine .after_ok (get_ok.2 ⟨rfl, rfl⟩) ?_
  cases values with
  | nil =>
    have hact := hs.cons.1
    rw [ht.resolve_simple hc'] at hact
    have hid : c.active.id = closing := by
      rw [← Except.ok.inj hact]
      rfl
    rw [if_pos hid]
    have hpass : Passes table closing c c' := ⟨hid, hs.moves.2 ⟨hs', hd'⟩⟩
    refine .congr (p := True) (by simp [Value.needAll]) (.of_ok ?_)
    exact bind_ok.2 ⟨_, _, expect_ok.2 ⟨rfl, hpass⟩, pure_ok.2 ⟨rfl, rfl⟩⟩
  | cons v values =>
    have hid : c.active.id ≠ closing := by
      obtain ⟨more, hmore⟩ := Value.tokensAll_cons v values
      rw [hmore, List.append_assoc] at hs
      rw [active_value ht hs]
      exact v.head_node_ne hc'
    have hlen : (v :: values).length ≤ c.unread.length + 1 := by
      have := Value.length_le_tokensAll (v :: values)
      rw [hs.unread_eq, List.length_tail, List.length_append]
      simp only [List.length_cons] at this ⊢
      omega
    rw [if_neg hid]
    refine (readItems_values ht hc (List.cons_ne_nil v values) hv hs hd hlen).before_ok ?_
    exact bind_ok.2 ⟨_, _, expect_ok.2 ⟨rfl, rfl, hs', hd'⟩, pure_ok.2 ⟨rfl, rfl⟩⟩

theorem ReadsValue.literal (ht : table.Structural) {v : Value} {t : Token} (htok : v.tokens = [t])
    (hneed : v.need = 1) (hnode : v.node = .leaf (.literal v)) : ReadsValue table (levels + 1) v := by
  intro c rest id hid hs hd
  have hact := active_value ht hs
  rw [htok] at hs
  rw [hnode] at hact ⊢
  have hm : Moves table (c.atDepth (c.depth + 1)) ⟨rest, .simple id, c.depth + 1⟩ :=
    (stands_atDepth.2 hs).moves.2 ⟨stands_simple ht hid _, rfl⟩
  refine readExpression_of_leading hd hm (.congr (p := True) ⟨fun _ => by omega, fun _ => trivial⟩ (.of_ok ?_))
  rw [hact, readLeading_none rfl rfl]
  rfl

theorem ReadsValue.array (ht : table.Structural) {items : List Value} (hi : ∀ v ∈ items, ReadsValue table levels v) :
    ReadsValue table (levels + 1) (.array items) := by
  intro c rest id hid hs hd
  have hact := active_value ht hs
  rw [Value.tokens, List.cons_append, List.append_assoc, List.singleton_append] at hs
  have hclosing : "]" ∈ closingIds := by decide
  obtain ⟨c₁, hs₁, hd₁⟩ := stands_values ht hclosing items (.operator id :: rest) (c.depth + 1)
  have hlist := readList_values ht hclosing hi hs₁ (stands_simple ht hid (c.depth + 1)) (by omega) hd₁.symm
  have hm : Moves table (c.atDepth (c.depth + 1)) c₁ := (stands_atDepth.2 hs).moves.2 ⟨hs₁, hd₁⟩
  refine readExpression_of_leading hd hm (.congr (p := Value.needAll items ≤ levels) ?_ ?_)
  · rw [Value.need]
    omega
  · rw [hact, readLeading_form rfl]
    exact hlist.before_ok rfl

/-- The literal of a value is read exactly if the levels fit: they go down with the arrays around what is read, so where
none is left a value still stands there. -/
theorem readExpression_value (ht : table.Structural) : ∀ (v : Value) (levels : Nat), ReadsValue table levels v
  | v, 0 => by
    intro c rest id hid hs hd
    refine ⟨fun h => absurd h (Nat.not_le.2 v.need_pos), fun _ => tooDeep_of_active ?_⟩
    rw [active_value ht hs]
    exact v.head_node_id
  | .number _, _ + 1 => .literal ht rfl (by rw [Value.need]) rfl
  | .string _, _ + 1 => .literal ht rfl (by rw [Value.need]) rfl
  | .array _, levels + 1 => .array ht fun v _ => readExpression_value ht v levels

/-! ## The tree of a call -/

section Call

variable {f : String} {s : Symbol} {rule : FunctionRule} {mode : ArgumentMode}

/-- The rest of a call is read exactly if the levels fit all values. -/
theorem readLeading_call (ht : table.Structural) (hk : s.kind = .function rule mode) (hbare : mode ≠ .bare)
    {values : List Value} (hs : Stands table (.operator "(" :: (Value.tokensAll values ++ [.operator ")"])) c)
    (hd : c.depth + levels = maxDepth) :
    YieldsIf (Value.needAll values ≤ levels) (readLeading table (readExpression table levels) ⟨s, none⟩) c
      (.sequence ⟨s, none⟩ (Value.nodes values)) ⟨[], .simple endId, c.depth⟩ := by
  have hclosing : ")" ∈ closingIds := by decide
  have hopen : c.active = .callBracket := Except.ok.inj (hs.cons.1.symm.trans ht.resolve_callBracket)
  have hend : Stands table [] ⟨[], .simple endId, c.depth⟩ := by rw [Stands, next, ht.use_simple (by decide)]
  obtain ⟨c₁, hs₁, hd₁⟩ := stands_values ht hclosing values [] c.depth
  have hlist := readList_values ht hclosing (fun v _ => readExpression_value ht v levels) hs₁ hend (by rw [hd₁, hd])
    hd₁.symm
  have hpass : Passes table "(" c c₁ := ⟨by rw [hopen]; rfl, hs.moves.2 ⟨hs₁, hd₁⟩⟩
  have hmode : s.kind.mode? = some mode := by rw [hk]; rfl
  rw [readLeading_mode hmode]
  refine .after_ok (expect_ok.2 ⟨rfl, hpass⟩) ?_
  rw [if_neg hbare]
  exact hlist.before_ok rfl

/-- The tokens of a call are read as the call of the function with the trees of the values, exactly if the levels fit
all of them, and are refused as too deep otherwise. -/
theorem ofTokens_call (ht : table.Structural) (hf : table.get? f = some s) (hk : s.kind = .function rule mode)
    (hbare : mode ≠ .bare) (values : List Value) :
    (1 + Value.needAll values ≤ maxDepth →
      ofTokens table (Call.tokens ⟨f, values⟩) = .ok (.sequence ⟨s, none⟩ (Value.nodes values))) ∧
    (¬ 1 + Value.needAll values ≤ maxDepth → ∃ found ∈ ["[", literalId],
      ofTokens table (Call.tokens ⟨f, values⟩) = .error (depthError found)) := by
  have hname : table.resolve (.name f) = .ok ⟨s, none⟩ := SymbolTable.use_ok.2 ⟨hf, rfl⟩
  let rest : List Token := Value.tokensAll values ++ [.operator ")"]
  let c : Cursor := ⟨.operator "(" :: rest, ⟨s, none⟩, 0⟩
  have hstart : start table (Call.tokens ⟨f, values⟩) = .ok c :=
    start_ok.2 ⟨by rw [Call.tokens, Stands, next, hname], rfl⟩
  have hs₁ : Stands table (.operator "(" :: rest) ⟨rest, .callBracket, 1⟩ := by
    rw [Stands, next, ht.resolve_callBracket]
  have hread : YieldsIf (1 + Value.needAll values ≤ maxDepth) (expression table .none) c
      (.sequence ⟨s, none⟩ (Value.nodes values)) ⟨[], .simple endId, 0⟩ := by
    refine .congr (p := Value.needAll values ≤ maxDepth - 1) (by rw [maxDepth]; omega) ?_
    refine .after_ok (get_ok.2 ⟨rfl, rfl⟩) ?_
    exact readExpression_of_leading rfl ⟨hs₁, rfl⟩ (readLeading_call ht hk hbare hs₁ rfl)
  constructor
  · intro h
    simp only [ofTokens, hstart, hread.ok h]
    rfl
  · intro h
    obtain ⟨found, hfound, c', he⟩ := hread.deep h
    exact ⟨found, hfound, by simp only [ofTokens, hstart, he]⟩

end Call

end Node

/-! ## The value of a call -/

/-- The arguments that a function gets for the values in its call: an array in the first place stands for its elements
if the function asks for that. -/
inductive ArgumentMode.Gets : ArgumentMode → List Value → List Value → Prop
  | spread (items rest : List Value) : Gets .spread (.array items :: rest) (items ++ rest)
  | unspread {values : List Value} : (∀ items rest, values ≠ .array items :: rest) → Gets .spread values values
  | exact (values : List Value) : Gets .exact values values

theorem ArgumentMode.gets_arrange {mode : ArgumentMode} (hbare : mode ≠ .bare) (values : List Value) :
    mode.Gets values (mode.arrange values) := by
  cases mode with
  | bare => exact absurd rfl hbare
  | exact => exact .exact values
  | spread =>
    cases values with
    | nil => exact .unspread (by simp)
    | cons v rest =>
      cases v with
      | array items => exact .spread items rest
      | number | string => exact .unspread (by simp)

mutual

/-- The literal of a value has that value. -/
theorem Value.evaluate_node (reentry : Reentry) : ∀ v : Value, v.node.evaluate reentry none = pure v
  | .number _ | .string _ => rfl
  | .array items => by
    show (Operands.itemValues (Node.evaluateAll reentry (Value.nodes items)) >>= fun vs => pure (Value.array vs)) =
      pure (Value.array items)
    rw [Value.itemValues_nodes reentry items]
    rfl

theorem Value.itemValues_nodes (reentry : Reentry) :
    ∀ values : List Value, Operands.itemValues (Node.evaluateAll reentry (Value.nodes values)) = pure values
  | [] => rfl
  | v :: values => by
    rw [Value.nodes, Node.evaluateAll, Operands.itemValues, Value.evaluate_node reentry v,
      Value.itemValues_nodes reentry values]
    rfl

end

/-- The value of a function is that of its rule on the values of its arguments. -/
theorem Node.evaluate_function {reentry : Reentry} {s : Symbol} {rule : FunctionRule} {mode : ArgumentMode}
    (hk : s.kind = .function rule mode) (items : List Node) :
    (Node.sequence ⟨s, none⟩ items).evaluate reentry none =
      Operands.itemValues (evaluateAll reentry items) >>= fun values => rule reentry ⟨s.id, mode.arrange values⟩ := by
  simp only [Node.evaluate, Head.evaluate, hk]
  rfl

/-- The value of a call is that of the function's rule. -/
theorem Node.evaluate_call (reentry : Reentry) {s : Symbol} {rule : FunctionRule} {mode : ArgumentMode}
    (hk : s.kind = .function rule mode) (values : List Value) :
    (Node.sequence ⟨s, none⟩ (Value.nodes values)).evaluate reentry none =
      rule reentry ⟨s.id, mode.arrange values⟩ := by
  rw [evaluate_function hk, Value.itemValues_nodes, pure_bind]

namespace Evaluator

variable {e : Evaluator} {f : String} {s : Symbol} {rule : FunctionRule} {mode : ArgumentMode} {values : List Value}
  {depth : Nat}

/-- A call evaluates the tree of its tokens with one evaluation less to come. -/
theorem call_eq_run : (e.reentry (depth + 1)).call f values =
    EvalM.ofExcept (Node.ofTokens e.symbols (Call.tokens ⟨f, values⟩)) >>= fun root =>
      root.evaluate (e.reentry depth) none := rfl

theorem call_of_need_le (ht : e.symbols.Structural) (hf : e.symbols.get? f = some s)
    (hk : s.kind = .function rule mode) (hbare : mode ≠ .bare) (h : 1 + Value.needAll values ≤ maxDepth) :
    (e.reentry (depth + 1)).call f values = rule (e.reentry depth) ⟨f, mode.arrange values⟩ := by
  rw [call_eq_run, (Node.ofTokens_call ht hf hk hbare values).1 h, ← SymbolTable.get?_id hf]
  exact Node.evaluate_call _ hk values

theorem call_of_need_gt (ht : e.symbols.Structural) (hf : e.symbols.get? f = some s)
    (hk : s.kind = .function rule mode) (hbare : mode ≠ .bare) (h : ¬ 1 + Value.needAll values ≤ maxDepth)
    (draws : Draws) :
    ∃ found ∈ ["[", literalId],
      (e.reentry (depth + 1)).call f values draws = .error (.failed (depthError found)) draws := by
  obtain ⟨found, hfound, he⟩ := (Node.ofTokens_call ht hf hk hbare values).2 h
  refine ⟨found, hfound, ?_⟩
  rw [call_eq_run, he]
  rfl

/-- A call of a function by its name is the function's rule on the arguments that it gets for the values, as long as
each value leaves a level for the call; otherwise it is refused as too deep at a literal or the bracket of an array. -/
theorem call_eq_rule (ht : e.symbols.Structural) (hf : e.symbols.get? f = some s) (hk : s.kind = .function rule mode)
    (hbare : mode ≠ .bare) (values : List Value) (depth : Nat) :
    ((∀ v ∈ values, 1 + v.need ≤ 256) → ∃ arguments, mode.Gets values arguments ∧
      (e.reentry (depth + 1)).call f values = rule (e.reentry depth) ⟨f, arguments⟩) ∧
    ((∃ v ∈ values, 256 < 1 + v.need) → ∀ draws, ∃ found ∈ ["[", literalId],
      (e.reentry (depth + 1)).call f values draws =
        .error (.failed (.badToken "at most 256 nested expressions" found)) draws) := by
  have hall : 1 + Value.needAll values ≤ maxDepth ↔ ∀ v ∈ values, 1 + v.need ≤ 256 := by
    rw [maxDepth, Nat.add_comm, Nat.succ_le_succ_iff, Value.needAll_le]
    exact forall₂_congr fun v _ => by omega
  constructor
  · intro h
    exact ⟨_, ArgumentMode.gets_arrange hbare values, call_of_need_le ht hf hk hbare (hall.2 h)⟩
  · rintro ⟨v, hv, hneed⟩ draws
    refine call_of_need_gt ht hf hk hbare (fun h => ?_) draws
    exact Nat.not_le.2 hneed (hall.1 h v hv)

/-- A name that is no word, a leading array that is replaced by its elements, and an array that is nested too deep. -/
theorem call_eq_rule_allOf :
    let e := standard.define (.function "all of" .spread fun _ call => pure (.array call.arguments))
    (e.reentry 1).call "all of" [.array [.number (0 / 0), .string "\"\n"], .array [.array []]] =
      pure (.array [.number (0 / 0), .string "\"\n", .array [.array []]]) ∧
    ∀ draws, ∃ found ∈ ["[", literalId],
      (e.reentry 1).call "all of" [.string "x", (fun v => Value.array [v])^[255] (.array [])] draws =
        .error (.failed (.badToken "at most 256 nested expressions" found)) draws := by
  intro e
  have ht : e.symbols.Structural := fun id hid =>
    SymbolTable.get?_define_of_ne _ _ (by rintro rfl; exact absurd hid (by decide))
  have hf : e.symbols.get? "all of" = _ := SymbolTable.get?_define _ _
  have call := fun values => call_eq_rule ht hf rfl (by decide) values 0
  constructor
  · have hfits : ∀ v ∈ [Value.array [.number (0 / 0), .string "\"\n"], .array [.array []]], 1 + v.need ≤ 256 := by
      simp [Value.need, Value.needAll]
    obtain ⟨arguments, hgets, hcall⟩ := (call _).1 hfits
    cases hgets with
    | spread => exact hcall
    | unspread hother => exact absurd rfl (hother _ _)
  · refine (call _).2 ⟨_, List.mem_cons_of_mem _ List.mem_cons_self, ?_⟩
    rw [Value.need_iterate]
    decide

end Evaluator

end Formula
