import Formula.Proofs.SideBySide

/-!
# Calls behind a dot

A value before a dot is handed to the function behind the dot in front of its arguments. So a chain of such calls and
the calls that are nested instead, each with the call before it as its first argument, come to the same: the operands
are evaluated in the same order (`Node.evaluate_dot`), and a value before a dot is an argument like the others, which a
function that spreads an array in the first place does not tell apart. The two are read in different shapes, the chain
as operators that group from the left and the others as lists of arguments, and need different numbers of levels, so
they may differ in whether they are refused as too deep, and in nothing else (`Evaluator.run_chain`).
-/

namespace Formula

open Cursor

/-! ## Expressions -/

namespace Node

variable {table : SymbolTable}

/-- The tokens write the tree: they stand for the same uses as the tokens of a complete tree whose operators stand as
their powers ask for. -/
structure WrittenBy (table : SymbolTable) (t : Node) (tokens : List Token) : Prop where
  complete : Complete table t
  correct : PrecedenceCorrect t
  uses : tokens.map table.resolve = t.tokens.map table.resolve

/-- A literal, a constant, a call, an array or an expression between parentheses. -/
inductive Enclosed : Node → Prop
  | leaf (head : Head) : Enclosed (.leaf head)
  | sequence (head : Head) (items : List Node) : Enclosed (.sequence head items)
  | grouping {head : Head} {closing : String} (a : Node) :
      head.symbol.kind.leadingForm? = some (.grouping closing) → Enclosed (.unary head false a)

theorem Enclosed.rightEdge {t : Node} (h : t.Enclosed) : t.rightEdge = [] := by
  cases h with
  | leaf | sequence => rfl
  | grouping a hl => rw [Node.rightEdge, if_neg (by rw [Head.closing_grouping hl]; exact List.cons_ne_nil _ _)]

/-- The tokens of a tree are read as it, or they are refused as too deep. -/
theorem WrittenBy.ofTokens_or_refused (hr : table.Regular) {t : Node} {tokens : List Token}
    (h : t.WrittenBy table tokens) :
    ofTokens table tokens = .ok t ∨ ∃ found, ofTokens table tokens = .error (depthError found) := by
  rw [ofTokens_congr h.uses]
  exact h.complete.ofTokens_or_refused hr h.correct

end Node

/-! ## Chains -/

/-- Lists of tokens with commas between them. -/
def commas (lists : List (List Token)) : List Token := [.operator ","].intercalate lists

/-- A function behind a dot with its further arguments. -/
structure Link where
  function : Token
  arguments : List (List Token)

namespace Link

/-- `operand . function ( arguments )` -/
def dot (operand : List Token) (link : Link) : List Token :=
  operand ++ .operator "." :: link.function :: .operator "(" :: (commas link.arguments ++ [.operator ")"])

/-- `function ( operand , arguments )` -/
def nest (operand : List Token) (link : Link) : List Token :=
  link.function :: .operator "(" :: (commas (operand :: link.arguments) ++ [.operator ")"])

/-- The function takes arguments, and these are expressions. -/
structure WellFormed (table : SymbolTable) (link : Link) : Prop where
  function : ∃ (s : Symbol) (rule : FunctionRule) (mode : ArgumentMode),
    table.resolve link.function = .ok ⟨s, none⟩ ∧ s.kind = .function rule mode ∧ mode ≠ .bare
  arguments : ∀ tokens ∈ link.arguments, ∃ t, Node.WrittenBy table t tokens

end Link

/-- A constant, or a function that takes arguments. -/
inductive Symbol.Callable : Symbol → Prop
  | constant (id : String) (value : Value) : Callable (.constant id value)
  | function (id : String) {mode : ArgumentMode} (rule : FunctionRule) :
      mode ≠ .bare → Callable (.function id mode rule)

/-- The use of the dot. -/
def Head.dot : Head := ⟨.binary "." .member Library.member, none⟩

namespace Node

variable {table : SymbolTable}

/-- What is handed over a dot is the first of the values that the function gets. -/
theorem evaluate_dot (reentry : Reentry) {s : Symbol} {rule : FunctionRule} {mode : ArgumentMode}
    (hk : s.kind = .function rule mode) {a b : Node} (hab : a.evaluate reentry none = b.evaluate reentry none)
    (items : List Node) :
    (Node.binary .dot a (.sequence ⟨s, none⟩ items)).evaluate reentry none =
      (Node.sequence ⟨s, none⟩ (b :: items)).evaluate reentry none := by
  show (a.evaluate reentry none >>= fun receiver =>
    (Node.sequence ⟨s, none⟩ items).evaluate reentry (some receiver)) = _
  rw [hab]
  simp only [Node.evaluate, evaluateAll, Head.evaluate, hk, Operands.itemValues, bind_assoc, pure_bind]
  rfl

/-- The calls of a library function whose arguments have these values, with the draws that their evaluation leaves. -/
inductive Calls (reentry : Reentry) (draws : Draws) (name : String) (values : List Value) : Node → Draws → Prop
  /-- `f(a, b)` -/
  | plain {s : Symbol} {items : List Node} {draws' : Draws} : Evaluator.standard.symbols.get? name = some s →
      Operands.itemValues (evaluateAll reentry items) draws = .ok values draws' →
      Calls reentry draws name values (.sequence ⟨s, none⟩ items) draws'
  /-- `a.f(b)` -/
  | dot {s : Symbol} {a : Node} {items : List Node} {draws' : Draws} :
      Evaluator.standard.symbols.get? name = some s →
      Operands.itemValues (evaluateAll reentry (a :: items)) draws = .ok values draws' →
      Calls reentry draws name values (.binary .dot a (.sequence ⟨s, none⟩ items)) draws'

/-- A call is evaluated by the rule of the function. -/
theorem Calls.evaluate_eq {reentry : Reentry} {draws draws' : Draws} {name : String} {values : List Value} {call : Node}
    {s : Symbol} {rule : FunctionRule} {mode : ArgumentMode} (h : Calls reentry draws name values call draws')
    (hs : Evaluator.standard.symbols.get? name = some s) (hk : s.kind = .function rule mode) :
    call.evaluate reentry none draws = rule reentry ⟨s.id, mode.arrange values⟩ draws' := by
  cases h with
  | plain hs' hvalues =>
    cases hs.symm.trans hs'
    rw [evaluate_function hk]
    simp only [bind, EStateM.bind, hvalues]
  | dot hs' hvalues =>
    cases hs.symm.trans hs'
    rw [evaluate_dot reentry hk rfl, evaluate_function hk]
    simp only [bind, EStateM.bind, hvalues]

/-- The trees of lists of tokens that are expressions. -/
theorem exists_items {lists : List (List Token)} (h : ∀ tokens ∈ lists, ∃ t, WrittenBy table t tokens) :
    ∃ items, List.Forall₂ (WrittenBy table) items lists := by
  induction lists with
  | nil => exact ⟨[], .nil⟩
  | cons tokens lists ih =>
    obtain ⟨⟨t, ht⟩, h⟩ := List.forall_mem_cons.1 h
    obtain ⟨items, hitems⟩ := ih h
    exact ⟨t :: items, .cons ht hitems⟩

/-- With commas between them, the lists of tokens write the list of trees. -/
theorem commas_uses {lists : List (List Token)} {items : List Node} (h : List.Forall₂ (WrittenBy table) items lists) :
    (commas lists).map table.resolve = (tokensAll items).map table.resolve := by
  induction h with
  | nil => rfl
  | @cons t tokens items lists ht h ih =>
    cases h with
    | nil =>
      rw [show commas [tokens] = tokens from List.append_nil tokens]
      exact ht.uses
    | @cons u tokens' items lists =>
      rw [show commas (tokens :: tokens' :: lists) = tokens ++ .operator "," :: commas (tokens' :: lists) from rfl,
        tokensAll, List.map_append, List.map_append, List.map_cons, List.map_cons, ht.uses, ih]

theorem forall_complete {lists : List (List Token)} {items : List Node}
    (h : List.Forall₂ (WrittenBy table) items lists) :
    (∀ a ∈ items, Complete table a ∧ PrecedenceCorrect a) ∧ ∀ head ∈ leavesAll items, head.isHole = false := by
  induction h with
  | nil => simp [leavesAll]
  | cons ht _ ih =>
    refine ⟨List.forall_mem_cons.2 ⟨⟨ht.complete, ht.correct⟩, ih.1⟩, fun head h => ?_⟩
    exact (List.mem_append.1 h).elim (ht.complete.2 head) (ih.2 head)

section Calls

variable {a b : Node} {chain : List Token} {s : Symbol} {rule : FunctionRule} {mode : ArgumentMode}

/-- The function and the trees of the arguments make the call. -/
theorem WrittenBy.call {function : Token} (hs : table.resolve function = .ok ⟨s, none⟩)
    (hk : s.kind = .function rule mode) (hbare : mode ≠ .bare) {lists : List (List Token)} {items : List Node}
    (hi : List.Forall₂ (WrittenBy table) items lists) :
    WrittenBy table (.sequence ⟨s, none⟩ items) (function :: .operator "(" :: (commas lists ++ [.operator ")"])) := by
  have hu : Head.IsUse table ⟨s, none⟩ := Head.isUse_of_get? (SymbolTable.resolve_get? hs)
  have hm : s.kind.mode? = some mode := by rw [hk]; rfl
  obtain ⟨hc, hleaves⟩ := forall_complete hi
  refine ⟨⟨.call hu hm hbare fun a ha => (hc a ha).1.1, hleaves⟩, .sequence fun a ha => (hc a ha).2, ?_⟩
  · rw [tokens, Head.opening_call hm, Head.closing_call hm, List.map_cons, List.map_cons, List.map_append,
      commas_uses hi, hs, ← hu]
    simp

/-- The dot binds no looser than anything at the right edge of the operand before it. -/
theorem WrittenBy.dot (hdot : Head.dot.IsUse table) {items : List Node} {tokens : List Token}
    (ha : WrittenBy table a chain) (hb : WrittenBy table (.sequence ⟨s, none⟩ items) tokens)
    (hedge : ∀ p ∈ a.rightEdge, BindingPower.member ≤ p) :
    WrittenBy table (.binary .dot a (.sequence ⟨s, none⟩ items)) (chain ++ .operator "." :: tokens) := by
  refine ⟨⟨.binary hdot rfl (by decide) ha.complete.1 hb.complete.1, ?_⟩,
    .binary ha.correct hb.correct hedge (fun _ h => by cases h), ?_⟩
  · exact fun head h => (List.mem_append.1 h).elim (ha.complete.2 head) (hb.complete.2 head)
  · rw [Node.tokens, List.map_append, List.map_append, List.map_cons, List.map_cons, ha.uses, hb.uses]
    rfl

end Calls

/-- The chain and the nested calls write trees with the same value. -/
structure SameValue (table : SymbolTable) (chain nested : List Token) (a b : Node) : Prop where
  left : WrittenBy table a chain
  right : WrittenBy table b nested
  edge : ∀ p ∈ a.rightEdge, BindingPower.member ≤ p
  value : ∀ reentry, a.evaluate reentry none = b.evaluate reentry none

theorem SameValue.link (hdot : Head.dot.IsUse table) {chain nested : List Token} {a b : Node}
    (h : SameValue table chain nested a b) {link : Link} (hl : link.WellFormed table) :
    ∃ a' b', SameValue table (link.dot chain) (link.nest nested) a' b' := by
  obtain ⟨s, rule, mode, hs, hk, hbare⟩ := hl.function
  obtain ⟨items, hi⟩ := exists_items hl.arguments
  refine ⟨.binary .dot a (.sequence ⟨s, none⟩ items), .sequence ⟨s, none⟩ (b :: items), ?_, ?_, ?_, ?_⟩
  · exact h.left.dot hdot (.call hs hk hbare hi) h.edge
  · exact .call hs hk hbare (.cons h.right hi)
  · exact List.forall_mem_singleton.2 (Nat.le_refl _)
  · exact fun reentry => evaluate_dot reentry hk (h.value reentry) items

theorem SameValue.links (hdot : Head.dot.IsUse table) : ∀ {links : List Link} {chain nested : List Token} {a b : Node},
    SameValue table chain nested a b → (∀ link ∈ links, link.WellFormed table) →
      ∃ a' b', SameValue table (links.foldl Link.dot chain) (links.foldl Link.nest nested) a' b'
  | [], _, _, a, b, h, _ => ⟨a, b, h⟩
  | link :: links, _, _, _, _, h, hl => by
    obtain ⟨hlink, hl⟩ := List.forall_mem_cons.1 hl
    obtain ⟨a', b', h'⟩ := h.link hdot hlink
    exact h'.links hdot hl

end Node

/-! ## Evaluations -/

namespace SymbolTable

variable {table : SymbolTable}

theorem Derived.regular_of_callable (ht : table.Derived Symbol.Callable) : table.Regular :=
  ht.regular fun s hs => by
    cases hs with
    | constant id v => exact .constant id v
    | function id rule _ => exact .function id _ rule

theorem Derived.dot_isUse {allowed : Symbol → Prop} (ht : table.Derived allowed) : Head.dot.IsUse table :=
  Head.isUse_of_get? (ht.get?_of_mem (s := Head.dot.symbol)
    (by simp [Head.dot, Library.symbols, Library.standardSymbols, Library.operatorSymbols]) (by decide))

end SymbolTable

namespace Evaluator

variable {e : Evaluator} {depth : Nat} {draws : Draws}

/-- Tokens that are not refused as too deep are evaluated as the tree that they write. -/
theorem run_writtenBy (hr : e.symbols.Regular) {t : Node} {tokens : List Token} (ht : t.WrittenBy e.symbols tokens)
    (hfits : ∀ found draws', e.run (depth + 1) tokens draws ≠ .error (.failed (depthError found)) draws') :
    e.run (depth + 1) tokens draws = t.evaluate (e.reentry depth) none draws := by
  rcases ht.ofTokens_or_refused hr with h | ⟨found, h⟩
  · simp only [run, h]
    rfl
  · refine absurd ?_ (hfits found draws)
    simp only [run, h]
    rfl

/-- A chain of calls behind a dot and the calls nested instead come to the same, value or error, where neither is
refused as too deep: with constants and functions that take arguments defined under new spellings, for every operand
that stands by itself and all functions of the evaluator that take arguments, the defined ones and those of the
library. -/
theorem run_chain (he : e.symbols.Derived Symbol.Callable) {a : Node} {operand : List Token}
    (ha : a.WrittenBy e.symbols operand) (henclosed : a.Enclosed) {links : List Link}
    (hlinks : ∀ link ∈ links, link.WellFormed e.symbols)
    (hchain : ∀ found draws',
      e.run depth (links.foldl Link.dot operand) draws ≠ .error (.failed (depthError found)) draws')
    (hnested : ∀ found draws',
      e.run depth (links.foldl Link.nest operand) draws ≠ .error (.failed (depthError found)) draws') :
    e.run depth (links.foldl Link.dot operand) draws = e.run depth (links.foldl Link.nest operand) draws := by
  have hr := he.regular_of_callable
  have hself : Node.SameValue e.symbols operand operand a a :=
    ⟨ha, ha, by rw [henclosed.rightEdge]; simp, fun _ => rfl⟩
  obtain ⟨b, b', h⟩ := hself.links he.dot_isUse hlinks
  cases depth with
  | zero => rfl
  | succ depth => rw [run_writtenBy hr h.left hchain, run_writtenBy hr h.right hnested, h.value]

/-- `["b", "a"].reverseA().joinA("-")` -/
theorem run_chain_reverse :
    (⟨.deterministic, .standard⟩ : Evaluator).run 1
        ([⟨.name "reverseA", []⟩, ⟨.name "joinA", [[.string "-"]]⟩].foldl Link.dot
          [.operator "[", .string "b", .operator ",", .string "a", .operator "]"]) default =
      (⟨.deterministic, .standard⟩ : Evaluator).run 1
        [.name "joinA", .operator "(", .name "reverseA", .operator "(", .operator "[", .string "b", .operator ",",
          .string "a", .operator "]", .operator ")", .operator ",", .string "-", .operator ")"] default := by
  have ht : SymbolTable.deterministic.Derived Symbol.Callable := .deterministic
  have hr := ht.regular_of_callable
  have hleaf (s : String) : Node.Formed (Head.IsUse SymbolTable.deterministic) (.leaf (.text s)) :=
    .leaf (Head.isUse_text hr s) rfl rfl
  have hbracket : Head.arrayBracket.IsUse SymbolTable.deterministic := Head.isUse_of_get?
    (ht.get?_of_mem (s := Head.arrayBracket.symbol)
      (by simp [Head.arrayBracket, Library.symbols, Library.standardSymbols, Library.operatorSymbols]) (by decide))
  have ha : Node.WrittenBy .deterministic (.sequence .arrayBracket [.leaf (.text "b"), .leaf (.text "a")])
      [.operator "[", .string "b", .operator ",", .string "a", .operator "]"] := by
    refine ⟨⟨.array hbracket rfl ?_, ?_⟩, .sequence ?_, rfl⟩
    · simpa using ⟨hleaf "b", hleaf "a"⟩
    · simp [Node.leaves, Node.leavesAll, Head.isHole, Head.text]
    · simpa using ⟨.leaf, .leaf⟩
  have hlinks : ∀ link ∈ ([⟨.name "reverseA", []⟩, ⟨.name "joinA", [[.string "-"]]⟩] : List Link),
      link.WellFormed SymbolTable.deterministic := by
    have hargument : Node.WrittenBy .deterministic (.leaf (.text "-")) [.string "-"] :=
      ⟨⟨hleaf "-", by simp [Node.leaves, Head.isHole, Head.text]⟩, .leaf, rfl⟩
    refine List.forall_mem_cons.2 ⟨⟨⟨_, _, _, rfl, rfl, by decide⟩, by simp⟩, List.forall_mem_singleton.2 ?_⟩
    exact ⟨⟨_, _, _, rfl, rfl, by decide⟩, List.forall_mem_singleton.2 ⟨_, hargument⟩⟩
  exact run_chain ht ha (.sequence _ _) hlinks (fun _ _ h => by cases h) (fun _ _ h => by cases h)

end Evaluator

end Formula
