import Formula.Proofs.Congruence
import Formula.Proofs.NestedCalls
import Formula.Proofs.Reached

/-!
# How deep calls by name nest

The functions that take a callback call it by a name that is only known when the formula is evaluated, and the callback
may be one of them again. Still calls nest no more than two deep (`Evaluator.run_three`), because of what these
functions hand on: a call with one argument lacks the name that each of them needs, and a fold that is called by a fold
starts with the index of an element, which is no array, so that its own callback is none of them.

This also holds when constants take the place of any symbols and symbols are deleted. Then the tokens of a call may not
read as a call at all; but where they do, its arguments are what the literals are seen as (`Value.seen`): a constant in
the place of the symbol for literals takes the place of all numbers and strings.
-/

namespace Formula

open Cursor
open Library (callIds behindIds closingIds callbackRules functionSymbols reduceRule)

/-! ## Changes of the symbols -/

/-- A name for a value, in the place of any symbol, or a symbol that goes. -/
inductive Change
  | constant (id : String) (value : Value)
  | delete (id : String)

/-- The evaluator after a change. -/
def Evaluator.change (e : Evaluator) : Change → Evaluator
  | .constant id value => e.define (.constant id value)
  | .delete id => e.delete id

namespace SymbolTable

/-- A symbol is a constant, or it stands as in the standard table. -/
def Trimmed (table : SymbolTable) : Prop :=
  ∀ ⦃id : String⦄ ⦃s : Symbol⦄, table.get? id = some s →
    (∃ v, s = .constant id v) ∨ Evaluator.standard.symbols.get? id = some s

theorem trimmed_standard : Evaluator.standard.symbols.Trimmed := fun _ _ h => .inr h

variable {table : SymbolTable}

theorem Trimmed.constant (ht : table.Trimmed) (id : String) (v : Value) : (table.define (.constant id v)).Trimmed := by
  intro id' s h
  by_cases hid : id' = id
  · subst hid
    exact .inl ⟨v, Option.some.inj (h.symm.trans (get?_define table (.constant id' v)))⟩
  · rw [get?_define_of_ne table (.constant id v) hid] at h
    exact ht h

theorem Trimmed.erase (ht : table.Trimmed) (id : String) : (table.erase id).Trimmed := by
  intro id' s h
  by_cases hid : id' = id
  · rw [hid, get?_erase] at h
    cases h
  · rw [get?_erase_of_ne table hid] at h
    exact ht h

end SymbolTable

theorem Evaluator.trimmed_changes : ∀ (changes : List Change) {e : Evaluator}, e.symbols.Trimmed →
    (changes.foldl Evaluator.change e).symbols.Trimmed
  | [], _, he => he
  | .constant id v :: changes, _, he => trimmed_changes changes (he.constant id v)
  | .delete id :: changes, _, he => trimmed_changes changes (he.erase id)

theorem Evaluator.trimmed_defineNames : ∀ (names : List (String × Value)) {e : Evaluator}, e.symbols.Trimmed →
    (e.defineNames names).symbols.Trimmed
  | [], _, he => he
  | (id, v) :: names, _, he => trimmed_defineNames names (he.constant id v)

namespace SymbolTable.Trimmed

variable {table : SymbolTable} {s : Symbol}

/-- A constant, or a symbol of the library. -/
theorem symbol (ht : table.Trimmed) {id : String} (h : table.get? id = some s) :
    (∃ v, s = .constant id v) ∨ s ∈ Library.symbols :=
  (ht h).imp_right fun h => mem_standard (mem_of_get? h)

theorem operatorsBind (ht : table.Trimmed) : table.OperatorsBind := by
  intro id s h hf
  rcases ht.symbol h with ⟨v, rfl⟩ | hs
  · rfl
  · exact power_of_plain (Library.symbols_plain hs) hf

/-- What stands around the values of a call takes no operand on its left and is no function. -/
theorem around (ht : table.Trimmed) {head : Head} (hu : table.Knows head) (hid : head.id ∈ callIds) :
    head.power = .none ∧ head.symbol.kind.mode? = none := by
  have hlibrary : ∀ id ∈ callIds, ∃ s ∈ Library.symbols, s.id = id ∧ s.power = .none ∧ s.kind.mode? = none := by
    simp only [callIds, behindIds, closingIds, List.cons_append, List.nil_append, List.forall_mem_cons]
    refine ⟨⟨.leading "(" (.grouping ")") Library.group, ?_, rfl, rfl, rfl⟩,
      ⟨.leading "[" .array Library.elements, ?_, rfl, rfl, rfl⟩, ⟨.simple ")", ?_, rfl, rfl, rfl⟩,
      ⟨.simple "]", ?_, rfl, rfl, rfl⟩, ⟨.simple ",", ?_, rfl, rfl, rfl⟩,
      ⟨⟨literalId, .none, .literal⟩, ?_, rfl, rfl, rfl⟩, ⟨.simple endId, ?_, rfl, rfl, rfl⟩, by simp⟩ <;>
      simp [Library.symbols, Library.structuralSymbols, Library.standardSymbols, Library.operatorSymbols]
  rcases ht hu with ⟨v, hs⟩ | hs
  · rw [Head.power, hs]
    exact ⟨rfl, rfl⟩
  · obtain ⟨s, hmem, hid', hpower, hmode⟩ := hlibrary _ hid
    have hget := get?_standard hmem
    rw [hid', hs] at hget
    rw [Head.power, Option.some.inj hget]
    exact ⟨hpower, hmode⟩

/-- The bracket in front of an array is that of the library, or it is read as a name. -/
theorem arrayBracket (ht : table.Trimmed) {head : Head} (h : table.use "[" none = .ok head) :
    head = .arrayBracket ∨ head.symbol.kind.leadingForm? = none := by
  obtain ⟨s, l⟩ := head
  obtain ⟨hs, hl⟩ := use_ok.1 h
  simp only at hs hl
  rcases ht hs with ⟨v, rfl⟩ | hs
  · exact .inr rfl
  · have hlibrary := get?_standard (s := .leading "[" .array Library.elements)
      (by simp [Library.symbols, Library.standardSymbols, Library.operatorSymbols])
    rw [hl, Option.some.inj (hs.symm.trans hlibrary)]
    exact .inl rfl

end SymbolTable.Trimmed

/-! ## What the literals of a call are seen as -/

/-- What the literal of a number or string is seen as. -/
def SymbolTable.literal (table : SymbolTable) (v : Value) : Value :=
  match table.get? literalId with
  | some ⟨_, _, .constant k⟩ => k
  | _ => v

namespace Value

mutual

/-- What the literal of a value is seen as. -/
def seen (table : SymbolTable) : Value → Value
  | .number x => table.literal (.number x)
  | .string s => table.literal (.string s)
  | .array items => .array (seenAll table items)

/-- What the literals of several values are seen as. -/
def seenAll (table : SymbolTable) : List Value → List Value
  | [] => []
  | v :: rest => v.seen table :: seenAll table rest

end

variable {table : SymbolTable}

/-- Where some literal is seen as a string, no number is seen as an array. -/
theorem isArray_seen_seen {v : Value} {s : String} (h : v.seen table = .string s) (x : Double) :
    (((Value.number x).seen table).seen table).isArray = false := by
  -- the constant that takes the place of `v`, if there is one, is the string
  have hliteral {w : Value} (hw : table.literal w = .string s) (u : Value) (hu : u.isArray = false) :
      (table.literal u).isArray = false := by
    unfold SymbolTable.literal at hw ⊢
    split
    · next k hk =>
      rw [hk] at hw
      rw [show k = .string s from hw]
      rfl
    · exact hu
  have hflat (u : Value) (hu : u.isArray = false) : (u.seen table).isArray = false := by
    cases v with
    | array items => cases h
    | number | string =>
      cases u with
      | array => cases hu
      | number | string => exact hliteral h _ rfl
  exact hflat _ (hflat _ rfl)

end Value

/-- The use of a literal is read alone and has the value that the literal is seen as. -/
theorem SymbolTable.Trimmed.literal_use {table : SymbolTable} (ht : table.Trimmed) {head : Head} {v : Value}
    (h : table.use literalId (some v) = .ok head) : head.symbol.kind.leadingForm? = none ∧
      ∀ reentry, (Node.leaf head).evaluate reentry none = pure (table.literal v) := by
  obtain ⟨s, l⟩ := head
  obtain ⟨hs, rfl⟩ := use_ok.1 h
  simp only at hs
  rw [SymbolTable.literal, hs]
  rcases ht hs with ⟨k, rfl⟩ | hs
  · exact ⟨rfl, fun _ => rfl⟩
  · have hlibrary := get?_standard (s := ⟨literalId, .none, .literal⟩)
      (by simp [Library.symbols, Library.structuralSymbols])
    rw [Option.some.inj (hs.symm.trans hlibrary)]
    exact ⟨rfl, fun _ => rfl⟩

/-! ## The tokens around a call -/

/-- The token stands for one of the symbols around the name and the values of a call. -/
def Token.IsAround (t : Token) : Prop :=
  ∀ ⦃table : SymbolTable⦄ ⦃head : Head⦄, table.resolve t = .ok head → head.id ∈ callIds

theorem Token.isAround_operator {id : String} (hid : id ∈ callIds) : (Token.operator id).IsAround := by
  intro table head h
  rw [SymbolTable.use_id h]
  exact hid

mutual

theorem Value.tokens_isAround : ∀ v : Value, ∀ t ∈ v.tokens, t.IsAround
  | .number x => List.forall_mem_singleton.2 fun table head h => by
    rw [SymbolTable.use_id h]
    decide
  | .string s => List.forall_mem_singleton.2 fun table head h => by
    rw [SymbolTable.use_id h]
    decide
  | .array items => by
    rw [Value.tokens]
    refine List.forall_mem_cons.2 ⟨Token.isAround_operator (by decide), List.forall_mem_append.2 ⟨?_, ?_⟩⟩
    · exact Value.tokensAll_isAround items
    · exact List.forall_mem_singleton.2 (Token.isAround_operator (by decide))

theorem Value.tokensAll_isAround : ∀ values : List Value, ∀ t ∈ Value.tokensAll values, t.IsAround
  | [] => fun _ h => by cases h
  | [v] => Value.tokens_isAround v
  | v :: w :: values => by
    rw [Value.tokensAll]
    refine List.forall_mem_append.2 ⟨Value.tokens_isAround v, List.forall_mem_cons.2 ⟨?_, ?_⟩⟩
    · exact Token.isAround_operator (by decide)
    · exact Value.tokensAll_isAround (w :: values)

end

theorem Call.tokens_isAround (call : Call) : ∀ t ∈ call.tokens.tail, t.IsAround := by
  refine List.forall_mem_cons.2 ⟨Token.isAround_operator (by decide), List.forall_mem_append.2 ⟨?_, ?_⟩⟩
  · exact Value.tokensAll_isAround call.arguments
  · exact List.forall_mem_singleton.2 (Token.isAround_operator (by decide))

section Places

variable {table : SymbolTable} {tokens : List Token} {c : Cursor} {uses : Head → Prop}

/-- What comes behind tokens of such uses. -/
theorem Cursor.Stands.comes (hs : Stands table tokens c)
    (htokens : ∀ t ∈ tokens, ∀ head, table.resolve t = .ok head → uses head)
    (hend : ∀ head, table.use endId none = .ok head → uses head) : Comes table uses c := by
  have hnext {tokens : List Token} {q : Head × List Token} (h : next table tokens = (.ok q.1, q.2))
      (htokens : ∀ t ∈ tokens, ∀ head, table.resolve t = .ok head → uses head) :
      uses q.1 ∧ ∀ t ∈ q.2, ∀ head, table.resolve t = .ok head → uses head := by
    cases tokens with
    | nil =>
      simp only [next, Prod.mk.injEq] at h
      rw [← h.2]
      exact ⟨hend _ h.1, htokens⟩
    | cons t rest =>
      simp only [next, Prod.mk.injEq] at h
      rw [← h.2]
      exact ⟨htokens t List.mem_cons_self _ h.1, fun u hu => htokens u (List.mem_cons_of_mem t hu)⟩
  intro q hq
  suffices h : uses q.1 ∧ ∀ t ∈ q.2, ∀ head, table.resolve t = .ok head → uses head from h.1
  induction hq with
  | refl => exact hnext (q := c.place) hs htokens
  | tail _ h ih => exact hnext h ih.2

theorem Cursor.Stands.of_place {c' : Cursor} (hs : Stands table tokens c) (h : c'.place = c.place) :
    Stands table tokens c' := by
  obtain ⟨hactive, hunread⟩ := Prod.mk.inj h
  rw [Stands, hactive, hunread]
  exact hs

theorem Cursor.Stands.active_id (hs : Stands table tokens c) (ha : ∀ t ∈ tokens, t.IsAround) :
    c.active.id ∈ callIds := by
  cases tokens with
  | nil =>
    rw [SymbolTable.use_id hs.nil.1]
    decide
  | cons t rest => exact ha t List.mem_cons_self hs.cons.1

theorem Cursor.Stands.active_power (ht : table.Trimmed) (hs : Stands table tokens c) (ha : ∀ t ∈ tokens, t.IsAround) :
    c.active.power = .none :=
  (ht.around (next_knows hs) (hs.active_id ha)).1

theorem Value.active_id {v : Value} {rest : List Token} (hs : Stands table (v.tokens ++ rest) c) :
    c.active.id ∈ ["[", literalId] := by
  cases v <;>
  · rw [SymbolTable.use_id hs.cons.1]
    decide

/-- No array and no comma between values ends in front of several values and a bracket that closes them. -/
theorem Value.active_id_all {values : List Value} {closing : String} {rest : List Token}
    (hs : Stands table (Value.tokensAll values ++ .operator closing :: rest) c) :
    c.active.id ∈ [closing, "[", literalId] := by
  cases values with
  | nil =>
    rw [SymbolTable.use_id hs.cons.1]
    exact List.mem_cons_self
  | cons v values =>
    obtain ⟨more, hmore⟩ := Value.tokensAll_cons v values
    rw [hmore, List.append_assoc] at hs
    exact List.mem_cons_of_mem _ (Value.active_id hs)

end Places

/-! ## Reading a call -/

namespace Node

/-- The trees have these values, whatever calls come to. -/
def Mean (items : List Node) (values : List Value) : Prop :=
  ∀ reentry, Operands.itemValues (evaluateAll reentry items) = pure values

theorem Mean.cons {a : Node} {v : Value} {items : List Node} {values : List Value}
    (ha : ∀ reentry, a.evaluate reentry none = pure v) (hi : Mean items values) : Mean (a :: items) (v :: values) := by
  intro reentry
  rw [evaluateAll, Operands.itemValues, ha, hi]
  rfl

section Reading

variable {table : SymbolTable} {c c' : Cursor} {t : Token} {rest : List Token} {node : Node} {closing : String}

/-- An expression is its leading form, unless an operator stands behind that. -/
theorem Reads.leading (hs : Stands table (t :: rest) c) (h : Reads table 0 c node c') :
    ∃ c₁ left c₂, Stands table rest c₁ ∧ ReadsLeading table c.active c₁ left c₂ ∧
      (c₂.active.power = .none → node = left ∧ c'.place = c₂.place) := by
  cases h with
  | @intro _ _ c₁ c₂ c₃ left _ _ hm hl he =>
    refine ⟨c₁, left, c₂, ((stands_atDepth.2 hs).moves.1 hm).1, hl, fun hp => ?_⟩
    cases he with
    | stop _ => exact ⟨rfl, rfl⟩
    | step hlt =>
      rw [hp] at hlt
      exact absurd hlt (Nat.lt_irrefl 0)

theorem Reads.leaf (ht : table.Trimmed) (hs : Stands table (t :: rest) c) (ha : ∀ u ∈ t :: rest, u.IsAround)
    (hl : c.active.symbol.kind.leadingForm? = none) (h : Reads table 0 c node c') :
    node = .leaf c.active ∧ Stands table rest c' := by
  have hm : c.active.symbol.kind.mode? = none := (ht.around (next_knows hs) (hs.active_id ha)).2
  obtain ⟨c₁, left, c₂, hs₁, hlead, hstop⟩ := h.leading hs
  cases hlead with
  | leaf _ _ =>
    obtain ⟨rfl, hplace⟩ := hstop (hs₁.active_power ht fun u hu => ha u (List.mem_cons_of_mem t hu))
    exact ⟨rfl, hs₁.of_place hplace⟩
  | operand hl' | sign hl' | grouping hl' | array hl' => rw [hl] at hl'; cases hl'
  | bareCall hm' | call hm' => rw [hm] at hm'; cases hm'

/-- In front of a comma or the closing bracket, the tokens of the value are read as a tree with the value that they are
seen as. The closing bracket is that of a call, or of an array, which only the bracket of the library opens. -/
def ReadsSeen (table : SymbolTable) (v : Value) : Prop :=
  ∀ ⦃c c' : Cursor⦄ ⦃node : Node⦄ ⦃rest : List Token⦄ ⦃id closing : String⦄, id ∈ behindIds → (∀ t ∈ rest, t.IsAround) →
    Stands table (v.tokens ++ .operator id :: rest) c → Reads table 0 c node c' →
    c'.active.id = "," ∨ c'.active.id = closing →
    closing = ")" ∨ closing = "]" ∧ table.use "[" none = .ok .arrayBracket →
    (∀ reentry, node.evaluate reentry none = pure (v.seen table)) ∧ Stands table (.operator id :: rest) c'

theorem isAround_cons {id : String} (hid : id ∈ behindIds) (hrest : ∀ u ∈ rest, u.IsAround) :
    ∀ u ∈ .operator id :: rest, u.IsAround := by
  have hid' : id ∈ callIds := (show behindIds ⊆ callIds by decide) hid
  exact List.forall_mem_cons.2 ⟨Token.isAround_operator hid', hrest⟩

theorem isAround_behind {v : Value} {id : String} (hid : id ∈ behindIds) (hrest : ∀ u ∈ rest, u.IsAround) :
    ∀ u ∈ v.tokens ++ .operator id :: rest, u.IsAround :=
  List.forall_mem_append.2 ⟨v.tokens_isAround, isAround_cons hid hrest⟩

theorem ReadsSeen.literal (ht : table.Trimmed) {v : Value} (htok : v.tokens = [t])
    (hres : table.resolve t = table.use literalId (some v)) (hseen : v.seen table = table.literal v) :
    ReadsSeen table v := by
  intro c c' node rest id closing hid hrest hs hread _ _
  have ha := isAround_behind (v := v) hid hrest
  rw [htok] at hs ha
  have hhead := hs.cons.1
  rw [hres] at hhead
  obtain ⟨hl, hv⟩ := ht.literal_use hhead
  obtain ⟨rfl, hs'⟩ := hread.leaf ht hs ha hl
  exact ⟨fun reentry => by rw [hv, hseen], hs'⟩

/-- Values in front of the bracket that closes them. -/
theorem readsItems_seen (hc : closing ∈ closingIds)
    (hopen : closing = ")" ∨ closing = "]" ∧ table.use "[" none = .ok .arrayBracket) (hrest : ∀ t ∈ rest, t.IsAround)
    {values : List Value} {items : List Node} (hne : values ≠ []) (hv : ∀ v ∈ values, ReadsSeen table v)
    (hs : Stands table (Value.tokensAll values ++ .operator closing :: rest) c) (h : ReadsItems table c items c')
    (hc' : c'.active.id = closing) :
    Mean items (Value.seenAll table values) ∧ Stands table (.operator closing :: rest) c' := by
  have hcomma : closing ≠ "," := by
    rintro rfl
    exact absurd hc (by decide)
  induction values generalizing c items with
  | nil => exact absurd rfl hne
  | cons v values ih =>
    have hv₁ := hv v List.mem_cons_self
    cases values with
    | nil =>
      have hbehind := Library.behindIds_of_closingIds hc
      cases h with
      | last h _ =>
        obtain ⟨hmean, hs'⟩ := hv₁ hbehind hrest hs h (.inr hc') hopen
        exact ⟨.cons hmean fun _ => rfl, hs'⟩
      | more h hp _ =>
        obtain ⟨-, hs'⟩ := hv₁ hbehind hrest hs h (.inl hp.1) hopen
        exact absurd ((SymbolTable.use_id hs'.cons.1).symm.trans hp.1) hcomma
    | cons w values =>
      have hmore : ∀ t ∈ Value.tokensAll (w :: values) ++ .operator closing :: rest, t.IsAround :=
        List.forall_mem_append.2 ⟨Value.tokensAll_isAround (w :: values),
          isAround_cons (Library.behindIds_of_closingIds hc) hrest⟩
      rw [Value.tokensAll, List.append_assoc, List.cons_append] at hs
      cases h with
      | last h hne =>
        obtain ⟨-, hs'⟩ := hv₁ (by decide) hmore hs h (.inr hc') hopen
        exact absurd (SymbolTable.use_id hs'.cons.1) hne
      | more h hp hr =>
        obtain ⟨hmean, hs'⟩ := hv₁ (by decide) hmore hs h (.inl hp.1) hopen
        obtain ⟨hmeans, hs''⟩ := ih (List.cons_ne_nil w values) (fun u hu => hv u (List.mem_cons_of_mem v hu))
          (hs'.moves.1 hp.2).1 hr
        exact ⟨.cons hmean hmeans, hs''⟩

/-- Values up to and including the bracket that closes them. -/
theorem readsList_seen (hc : closing ∈ closingIds)
    (hopen : closing = ")" ∨ closing = "]" ∧ table.use "[" none = .ok .arrayBracket) (hrest : ∀ t ∈ rest, t.IsAround)
    {values : List Value} {items : List Node} (hv : ∀ v ∈ values, ReadsSeen table v)
    (hs : Stands table (Value.tokensAll values ++ .operator closing :: rest) c)
    (h : ReadsList table closing c items c') : Mean items (Value.seenAll table values) ∧ Stands table rest c' := by
  cases values with
  | nil =>
    cases h with
    | empty hp => exact ⟨fun _ => rfl, (hs.moves.1 hp.2).1⟩
    | filled hid _ _ => exact absurd (SymbolTable.use_id hs.cons.1) hid
  | cons v values =>
    cases h with
    | empty hp =>
      obtain ⟨more, hmore⟩ := Value.tokensAll_cons v values
      rw [hmore, List.append_assoc] at hs
      have hid := Value.active_id hs
      rw [hp.1] at hid
      exact absurd (Library.behindIds_of_closingIds hc)
        ((show ∀ id ∈ ["[", literalId], id ∉ behindIds by decide) _ hid)
    | filled _ h hp =>
      obtain ⟨hmeans, hs'⟩ := readsItems_seen hc hopen hrest (List.cons_ne_nil v values) hv hs h hp.1
      exact ⟨hmeans, (hs'.moves.1 hp.2).1⟩

theorem ReadsSeen.array (ht : table.Trimmed) {items : List Value} (hi : ∀ v ∈ items, ReadsSeen table v) :
    ReadsSeen table (.array items) := by
  intro c c' node rest id closing hid hrest hs hread hc' hopen
  have ha := isAround_behind (v := .array items) hid hrest
  rw [Value.tokens, List.cons_append, List.append_assoc, List.singleton_append] at hs ha
  rcases ht.arrayBracket hs.cons.1 with hactive | hl
  · obtain ⟨c₁, left, c₂, hs₁, hlead, hstop⟩ := hread.leading hs
    rw [hactive] at hlead
    have hbracket : table.use "[" none = .ok .arrayBracket := hactive ▸ hs.cons.1
    have hrest' : ∀ t ∈ .operator id :: rest, t.IsAround := isAround_cons hid hrest
    cases hlead with
    | array _ h =>
      obtain ⟨hmeans, hs₂⟩ := readsList_seen (by decide) (.inr ⟨rfl, hbracket⟩) hrest' hi hs₁ h
      obtain ⟨rfl, hplace⟩ := hstop (hs₂.active_power ht hrest')
      refine ⟨fun reentry => ?_, hs₂.of_place hplace⟩
      show (Operands.itemValues (Node.evaluateAll reentry _) >>= fun vs => pure (Value.array vs)) = _
      rw [hmeans]
      rfl
    | leaf hl => cases hl
    | operand hl | sign hl | grouping hl => cases hl
    | bareCall hm | call hm => cases hm
  · -- the bracket is read as a name, and behind it there is neither a comma nor what closes a call
    obtain ⟨-, hs'⟩ := hread.leaf ht hs ha hl
    have hid' := Value.active_id_all hs'
    exfalso
    rcases hopen with rfl | ⟨rfl, hbracket⟩
    · rcases hc' with hc' | hc' <;>
      · rw [hc'] at hid'
        exact absurd hid' (by decide)
    · rw [Except.ok.inj (hs.cons.1.symm.trans hbracket)] at hl
      cases hl

theorem readsSeen (ht : table.Trimmed) : ∀ v : Value, ReadsSeen table v
  | .number _ => .literal ht rfl rfl rfl
  | .string _ => .literal ht rfl rfl rfl
  | .array _ => .array ht fun v _ => readsSeen ht v

/-- The tree of a call of a function, if there is one, has what the values are seen as for arguments. -/
theorem ofTokens_call_seen (ht : table.Trimmed) {f : String} {s : Symbol} (hf : table.get? f = some s)
    (hm : s.kind.mode? = some .exact) {values : List Value} {root : Node}
    (h : ofTokens table (Call.tokens ⟨f, values⟩) = .ok root) :
    ∃ items, root = .sequence ⟨s, none⟩ items ∧ Mean items (Value.seenAll table values) := by
  obtain ⟨c, c', hstart, hread, -⟩ := ofTokens_ok.1 h
  have hs := (start_ok.1 hstart).1
  have hname : table.resolve (.name f) = .ok ⟨s, none⟩ := SymbolTable.use_ok.2 ⟨hf, rfl⟩
  have hactive : c.active = ⟨s, none⟩ := Except.ok.inj (hs.cons.1.symm.trans hname)
  obtain ⟨c₁, left, c₂, hs₁, hlead, hstop⟩ := hread.leading hs
  rw [hactive] at hlead
  have hl := SymbolKind.leadingForm?_of_mode? hm
  cases hlead with
  | call _ _ hp hlist =>
    obtain ⟨hmeans, hs₂⟩ := readsList_seen (by decide) (.inl rfl) (by simp) (fun v _ => readsSeen ht v)
      (hs₁.moves.1 hp.2).1 hlist
    obtain ⟨rfl, -⟩ := hstop (hs₂.active_power ht (by simp))
    exact ⟨_, rfl, hmeans⟩
  | bareCall hm' =>
    rw [hm] at hm'
    cases hm'
  | leaf _ hm' => rw [hm] at hm'; cases hm'
  | operand hl' | sign hl' | grouping hl' | array hl' => rw [hl] at hl'; cases hl'

end Reading

end Node

/-! ## Evaluations that do not depend on the depth -/

/-- The two evaluations are the same, and calls do not nest deeper than the limit that they were started with. -/
def EvalM.Settled {α : Type} (x y : EvalM α) : Prop :=
  x = y ∧ ∀ draws draws', x draws ≠ .error .exhausted draws'

namespace EvalM

theorem Settled.fail {α : Type} (e : EvalError) : Settled (fail e : EvalM α) (EvalM.fail e) :=
  ⟨rfl, fun _ _ h => by cases h⟩

theorem Settled.bind {α β : Type} {x y : EvalM α} {f g : α → EvalM β} (hx : Settled x y)
    (hf : ∀ a, Settled (f a) (g a)) : Settled (x >>= f) (y >>= g) := by
  obtain ⟨rfl, hx⟩ := hx
  obtain rfl : f = g := funext fun a => (hf a).1
  refine ⟨rfl, fun draws draws' h => ?_⟩
  simp only [Bind.bind, EStateM.bind] at h
  cases hr : x draws with
  | ok a draws₁ =>
    rw [hr] at h
    exact (hf a).2 draws₁ draws' h
  | error stop draws₁ =>
    rw [hr] at h
    cases h
    exact hx draws draws' hr

theorem settled : Congruence Settled where
  pure _ := ⟨rfl, fun _ _ h => by cases h⟩
  fail := .fail
  bind := .bind

theorem settled_draw : Settled draw draw := ⟨rfl, fun _ _ h => by cases h⟩

end EvalM

open EvalM (Settled settled settled_draw)

/-! ## Callbacks -/

/-- The symbol is one of the functions that take a callback. -/
def Symbol.TakesCallback (s : Symbol) : Prop := ∃ rule ∈ callbackRules.map Prod.snd, s.kind = .function rule .exact

namespace Library

/-- A function of the library is found under its kind. -/
theorem mem_functionSymbols_of_kind {s : Symbol} (hs : s ∈ symbols) {rule : FunctionRule} {mode : ArgumentMode}
    (hk : s.kind = .function rule mode) : s ∈ functionSymbols := by
  have hoperators : ∀ s ∈ structuralSymbols ++ operatorSymbols, s.kind.mode? = none := by
    simp [structuralSymbols, operatorSymbols, Symbol.simple, Symbol.leading, Symbol.binary, Symbol.rightward,
      SymbolKind.mode?]
  have hm : s.kind.mode? = some mode := by
    rw [hk]
    rfl
  simp only [symbols, standardSymbols, List.mem_append] at hs
  rcases hs with hs | (hs | hs) | hs
  · rw [hoperators s (List.mem_append_left _ hs)] at hm
    cases hm
  · rw [hoperators s (List.mem_append_right _ hs)] at hm
    cases hm
  · obtain ⟨⟨id, x⟩, -, rfl⟩ := List.mem_map.mp hs
    cases hm
  · exact hs

/-- A function that takes a callback fails where the array or the name is not there. -/
theorem callbackRules_fail {call : Call} (h : (∀ items, call.array 0 ≠ .ok items) ∨ ∀ f, call.string 1 ≠ .ok f) :
    ∀ rule ∈ callbackRules.map Prod.snd, ∃ e, ∀ reentry, rule reentry call = EvalM.fail e := by
  have hstart : ∃ e, ∀ next : List Value → String → EvalM Value,
      (EvalM.ofExcept (call.array 0) >>= fun items => EvalM.ofExcept (call.string 1) >>= next items) =
        EvalM.fail e := by
    cases ha : call.array 0 with
    | error e => exact ⟨e, fun _ => rfl⟩
    | ok items =>
      cases hf : call.string 1 with
      | error e => exact ⟨e, fun _ => rfl⟩
      | ok f => exact (h.elim (fun h => h _ ha) fun h => h _ hf).elim
  obtain ⟨e, hstart⟩ := hstart
  simp only [callbackRules, List.map_cons, List.map_nil, List.forall_mem_cons, mapRule, filterRule, everyRule, someRule,
    arrayAndCallback, bind_assoc, pure_bind]
  exact ⟨⟨e, fun _ => hstart _⟩, ⟨e, fun _ => hstart _⟩, ⟨e, fun _ => hstart _⟩, ⟨e, fun _ => hstart _⟩,
    ⟨e, fun _ => hstart _⟩, by simp⟩

end Library

/-- The rules of a trimmed table keep a relation that drawing keeps, if the functions that take a callback do. -/
theorem SymbolTable.Trimmed.respects {table : SymbolTable} (ht : table.Trimmed)
    {R : ∀ {α : Type}, EvalM α → EvalM α → Prop} (hR : EvalM.Congruence R) {reentry reentry' : Reentry}
    {head : Head} (hu : table.Knows head)
    (hdraw : head.symbol ∈ Library.randomSymbols → R EvalM.draw EvalM.draw)
    (hcallback : ∀ rule ∈ callbackRules.map Prod.snd, head.symbol.kind = .function rule .exact →
      rule.Respects R reentry reentry') : head.Respects R reentry reentry' := by
  rcases ht.symbol hu with ⟨v, hs⟩ | hs
  · constructor <;> rw [hs]
    · exact fun _ h => by cases h
    · exact fun _ _ h => by cases h
  · refine ⟨Library.symbols_respect hR _ hs, fun rule mode hk => ?_⟩
    have hs' := Library.mem_functionSymbols_of_kind hs hk
    rcases Library.functionSymbols_cases hs' with ⟨rule', mode', hk'⟩ | hs' | ⟨rule', hk', hrule⟩
    · rw [hk] at hk'
      cases hk'
      exact Library.ofPure_respects hR rule'
    · exact Library.randomSymbols_respect hR (hdraw hs') _ hs' rule mode hk
    · rw [hk] at hk'
      cases hk'
      exact hcallback rule hrule hk

namespace Evaluator

section Calls

variable {e : Evaluator} (he : e.symbols.Trimmed) {f : String} {values : List Value} {n m : Nat}
include he

/-- A call of anything else than a function that takes a callback calls nothing. -/
theorem call_settled_of_not (hf : ∀ s, e.symbols.get? f = some s → ¬ s.TakesCallback) :
    Settled ((e.reentry (n + 1)).call f values) ((e.reentry (m + 1)).call f values) := by
  rw [call_eq_run, call_eq_run]
  cases h : Node.ofTokens e.symbols (Call.tokens ⟨f, values⟩) with
  | error error => exact .fail error
  | ok root =>
    obtain ⟨c, c', hstart, hread, -⟩ := Node.ofTokens_ok.1 h
    have haround : ∀ head, e.symbols.Knows head → head.id ∈ callIds → ¬ head.symbol.TakesCallback := by
      rintro head hu hid ⟨rule, -, hk⟩
      have hm := (he.around hu hid).2
      rw [hk] at hm
      cases hm
    have hcomes : Comes e.symbols (fun head => e.symbols.Knows head ∧ ¬ head.symbol.TakesCallback) c := by
      refine (start_ok.1 hstart).1.comes (List.forall_mem_cons.2 ⟨fun head h => ?_, fun t ht head h => ?_⟩)
        fun head h => ?_
      · exact ⟨SymbolTable.use_get? h, hf _ (SymbolTable.use_ok.1 h).1⟩
      · exact ⟨SymbolTable.resolve_get? h, haround head (SymbolTable.resolve_get? h) (Call.tokens_isAround _ t ht h)⟩
      · exact ⟨SymbolTable.use_get? h, haround head (SymbolTable.use_get? h) (by rw [SymbolTable.use_id h]; decide)⟩
    have hformed := hread.formed (fun _ hu => he.operatorsBind hu.1) hcomes
    refine hformed.related settled (fun head hu => ?_) none
    exact he.respects settled hu.1 (fun _ => settled_draw) fun rule hrule hk => absurd ⟨rule, hrule, hk⟩ hu.2

/-- A call of a function that takes a callback fails, or it is the function's rule on what the values are seen as. -/
theorem call_of_takesCallback {s : Symbol} (hf : e.symbols.get? f = some s) {rule : FunctionRule}
    (hk : s.kind = .function rule .exact) (values : List Value) :
    (∃ error, ∀ n, (e.reentry (n + 1)).call f values = EvalM.fail error) ∨
      ∀ n, (e.reentry (n + 1)).call f values = rule (e.reentry n) ⟨f, Value.seenAll e.symbols values⟩ := by
  simp only [call_eq_run]
  cases h : Node.ofTokens e.symbols (Call.tokens ⟨f, values⟩) with
  | error error => exact .inl ⟨error, fun _ => rfl⟩
  | ok root =>
    obtain ⟨items, rfl, hmean⟩ := Node.ofTokens_call_seen he hf (by rw [hk]; rfl) h
    refine .inr fun n => ?_
    show (Node.sequence ⟨s, none⟩ items).evaluate (e.reentry n) none = _
    simp only [Node.evaluate, Head.evaluate, hk, hmean (e.reentry n)]
    rw [← SymbolTable.get?_id hf]
    rfl

/-- A call of a function that takes a callback fails where the array or the name is not there. -/
theorem call_fails {s : Symbol} (hf : e.symbols.get? f = some s) (hs : s.TakesCallback)
    (h : (∀ items, Call.array ⟨f, Value.seenAll e.symbols values⟩ 0 ≠ .ok items) ∨
      ∀ g, Call.string ⟨f, Value.seenAll e.symbols values⟩ 1 ≠ .ok g) :
    ∃ error, ∀ n, (e.reentry (n + 1)).call f values = EvalM.fail error := by
  obtain ⟨rule, hrule, hk⟩ := hs
  rcases call_of_takesCallback he hf hk values with hcall | hcall
  · exact hcall
  · obtain ⟨error, hfail⟩ := Library.callbackRules_fail h rule hrule
    exact ⟨error, fun n => (hcall n).trans (hfail _)⟩

/-- A call with one argument calls nothing further: the name is missing. -/
theorem call_one_settled (v : Value) : Settled ((e.reentry (n + 1)).call f [v]) ((e.reentry (m + 1)).call f [v]) := by
  by_cases hf : ∀ s, e.symbols.get? f = some s → ¬ s.TakesCallback
  · exact call_settled_of_not he hf
  · simp only [not_forall, not_not] at hf
    obtain ⟨s, hs, htakes⟩ := hf
    have hmissing : ∀ g, Call.string ⟨f, Value.seenAll e.symbols [v]⟩ 1 ≠ .ok g := fun g h => by cases h
    obtain ⟨error, hcall⟩ := call_fails he hs htakes (.inr hmissing)
    rw [hcall, hcall]
    exact .fail error

/-- In a fold from a seed that is no array no call calls anything further: a function that takes a callback fails at
the seed. -/
theorem fold_settled {array : List Value} {seed : Value} (hseed : (seed.seen e.symbols).isArray = false) (i : Nat)
    (items : List Value) :
    Settled (Library.foldItems (Library.foldStep (e.reentry (n + 1)) f array) i seed items)
      (Library.foldItems (Library.foldStep (e.reentry (m + 1)) f array) i seed items) := by
  by_cases hf : ∀ s, e.symbols.get? f = some s → ¬ s.TakesCallback
  · exact Library.foldItems_related settled (fun _ _ _ => call_settled_of_not he hf) items i seed
  · simp only [not_forall, not_not] at hf
    obtain ⟨s, hs, htakes⟩ := hf
    cases items with
    | nil => exact settled.pure seed
    | cons item items =>
      have hfails : ∀ items, Call.array ⟨f, Value.seenAll e.symbols [seed, item, .number (Double.ofNat i),
          .array array]⟩ 0 ≠ .ok items := by
        intro items h
        cases hv : seed.seen e.symbols with
        | array _ =>
          rw [hv] at hseed
          cases hseed
        | number | string =>
          simp only [Value.seenAll, hv] at h
          cases h
      obtain ⟨error, hcall⟩ := call_fails he hs htakes (.inl hfails)
      simp only [Library.foldItems, Library.foldStep, hcall]
      exact .fail error

/-- A call with the arguments of a fold calls nothing that calls something further. -/
theorem call_fold_settled (array : List Value) (accumulator item : Value) (i : Nat) :
    Settled (Library.foldStep (e.reentry (n + 2)) f array accumulator item i)
      (Library.foldStep (e.reentry (m + 2)) f array accumulator item i) := by
  by_cases hf : ∀ s, e.symbols.get? f = some s → ¬ s.TakesCallback
  · exact call_settled_of_not he hf
  · simp only [not_forall, not_not] at hf
    obtain ⟨s, hs, rule, hrule, hk⟩ := hf
    rcases call_of_takesCallback he hs hk [accumulator, item, .number (Double.ofNat i), .array array] with
      ⟨error, hcall⟩ | hcall
    · rw [Library.foldStep, Library.foldStep, hcall, hcall]
      exact .fail error
    · rw [Library.foldStep, Library.foldStep, hcall, hcall]
      have hone := fun function v => call_one_settled (n := n) (m := m) he (f := function) v
      rcases Library.callbackRules_respect_or settled hone rule hrule with h | rfl
      · exact h _
      · refine settled.bind (settled.ofExcept _) fun items => ?_
        cases hg : Call.string ⟨f, Value.seenAll e.symbols [accumulator, item, .number (Double.ofNat i),
            .array array]⟩ 1 with
        | error error => exact .fail error
        | ok g =>
          have hitem : item.seen e.symbols = .string g := by
            cases hv : item.seen e.symbols with
            | string t =>
              simp only [Value.seenAll, hv] at hg
              cases hg
              rfl
            | number | array =>
              simp only [Value.seenAll, hv] at hg
              cases hg
          exact fold_settled he (Value.isArray_seen_seen hitem _) 0 items

/-- With three evaluations inside each other, nothing is exhausted. -/
theorem run_settled (tokens : List Token) : Settled (e.run (n + 3) tokens) (e.run (m + 3) tokens) := by
  simp only [run]
  cases h : Node.ofTokens e.symbols tokens with
  | error error => exact .fail error
  | ok root =>
    have hcall : Reentry.Related Settled (e.reentry (n + 2)) (e.reentry (m + 2)) :=
      ⟨fun _ v => call_one_settled he v, fun _ => call_fold_settled he⟩
    exact (he.operatorsBind.formed h).related settled (fun head hu => he.respects settled hu (fun _ => settled_draw)
      fun rule hrule _ => Library.callbackRules_respect settled hcall rule hrule) none

end Calls

/-- With constants in the place of any symbols and any symbols deleted, an evaluation of any tokens ends before a call
starts inside two others: with three evaluations inside each other, the first one among them, nothing is exhausted, and
it comes to the same with more. -/
theorem run_three (changes : List Change) (tokens : List Token) :
    (∀ draws draws', (changes.foldl change standard).run 3 tokens draws ≠ .error .exhausted draws') ∧
      ∀ depth, (changes.foldl change standard).run (depth + 3) tokens =
        (changes.foldl change standard).run 3 tokens := by
  have he := trimmed_changes changes SymbolTable.trimmed_standard
  exact ⟨(run_settled he (n := 0) (m := 0) tokens).2, fun depth => (run_settled he (n := depth) (m := 0) tokens).1⟩

/-- A fold of `mapA` needs all three: the fold calls `mapA`, which calls `abs`. -/
example : standard.run 2 [.name "reduceA", .operator "(", .operator "[", .string "abs", .operator "]", .operator ",",
      .string "mapA", .operator ",", .operator "[", .number 1, .operator "]", .operator ")"] default =
    .error .exhausted default := by
  rfl

end Evaluator

end Formula
