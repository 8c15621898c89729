import Formula.Proofs.Operands
import Formula.Proofs.Scanning

/-!
# What an evaluation comes to

A reading gives every node the operands that its form asks for, but leaves a symbol that cannot stand where an
expression starts without operands, and leaves it to evaluation to refuse it (`Reads.formed`). Evaluation only refuses
what it comes to. So what the evaluation of a text with a value comes to has a value itself (`Reached.succeeds`), and
a symbol that is no expression stands in an operand that is skipped (`Succeeds.skips_hole`, `evaluate_reached`).
-/

namespace Formula

open Cursor

variable {table : SymbolTable} {c c' : Cursor}

/-! ## Forms -/

/-- The use of a symbol of the table. -/
def SymbolTable.Knows (table : SymbolTable) (head : Head) : Prop := table.get? head.id = some head.symbol

theorem Cursor.next_knows {tokens rest : List Token} {head : Head} (h : next table tokens = (.ok head, rest)) :
    table.Knows head := by
  cases tokens with
  | nil => exact SymbolTable.use_get? (Prod.mk.inj h).1
  | cons t tokens => exact SymbolTable.resolve_get? (Prod.mk.inj h).1

/-- The symbol uses at a place and at all places behind it. -/
def Cursor.Comes (table : SymbolTable) (uses : Head → Prop) (c : Cursor) : Prop :=
  ∀ q, Relation.ReflTransGen (Follows table) c.place q → uses q.1

theorem Cursor.Comes.active {uses : Head → Prop} (hc : Comes table uses c) : uses c.active := hc _ .refl

theorem Cursor.Comes.reaches {uses : Head → Prop} (hc : Comes table uses c) (h : Reaches table c c') :
    Comes table uses c' := fun q hq => hc q (h.trans hq)

/-- What comes is known to the table. -/
theorem Cursor.comes_knows (hc : table.Knows c.active) : Comes table table.Knows c := by
  intro q hq
  cases hq with
  | refl => exact hc
  | tail _ h => exact next_knows h

namespace Node

variable {uses : Head → Prop}

mutual

/-- Where only operators bind to their left, what is read has the operands that the forms ask for. -/
theorem Reads.formed (hb : ∀ head, uses head → head.symbol.kind.trailingForm? = none → head.power = .none)
    {power : BindingPower} {c c' : Cursor} {node : Node} :
    Reads table power c node c' → Comes table uses c → Formed uses node
  | .intro _ hm hl he, hc => by
    have hc₁ := hc.reaches hm.onward.reaches
    have hleft := hl.formed hb hc.active hc₁
    exact he.formed hb (hc₁.reaches hl.reaches) hleft

theorem Extends.formed (hb : ∀ head, uses head → head.symbol.kind.trailingForm? = none → head.power = .none)
    {power : BindingPower} {c c' : Cursor} {left node : Node} :
    Extends table power left c node c' → Comes table uses c → Formed uses left → Formed uses node
  | .stop _, _, hl => hl
  | .step hp _ hm ht he, hc, hl => by
    have hc₁ := hc.reaches hm.onward.reaches
    have hwhole := ht.formed hb hc.active (Nat.zero_lt_of_lt hp) hc₁ hl
    exact he.formed hb (hc₁.reaches ht.reaches) hwhole

theorem ReadsLeading.formed (hb : ∀ head, uses head → head.symbol.kind.trailingForm? = none → head.power = .none)
    {head : Head} {c c' : Cursor} {node : Node} :
    ReadsLeading table head c node c' → uses head → Comes table uses c → Formed uses node
  | .leaf hl hm, hu, _ => .leaf hu hl hm
  | .operand hl h, hu, hc => .unary hu hl (by decide) (h.formed hb hc)
  | .sign hl h, hu, hc => .unary hu hl (by decide) (h.formed hb hc)
  | .grouping hl h _, hu, hc => .unary hu hl (by simp) (h.formed hb hc)
  | .array hl h, hu, hc => .array hu hl (h.formed hb hc)
  | .bareCall hm _ _, hu, _ => .bareCall hu hm
  | .call hm hne hp h, hu, hc => .call hu hm hne (h.formed hb (hc.reaches hp.2.onward.reaches))

theorem ReadsTrailing.formed (hb : ∀ head, uses head → head.symbol.kind.trailingForm? = none → head.power = .none)
    {head : Head} {c c' : Cursor} {left node : Node} :
    ReadsTrailing table head left c node c' → uses head → 0 < head.power → Comes table uses c →
      Formed uses left → Formed uses node
  | .leaf hf, hu, hpos, _, _ => by
    rw [hb _ hu hf] at hpos
    exact absurd hpos (Nat.not_lt_zero _)
  | .binary hf h, hu, hpos, hc, hl => .binary hu hf hpos hl (h.formed hb hc)
  | .ternary hf h hp h', hu, hpos, hc, hl => by
    have hsecond := h.formed hb hc
    have hthird := h'.formed hb ((hc.reaches h.onward.reaches).reaches hp.2.onward.reaches)
    exact .ternary hu hf hpos hl hsecond hthird

theorem ReadsList.formed (hb : ∀ head, uses head → head.symbol.kind.trailingForm? = none → head.power = .none)
    {closing : String} {c c' : Cursor} {items : List Node} :
    ReadsList table closing c items c' → Comes table uses c → ∀ a ∈ items, Formed uses a
  | .empty _, _ => fun _ h => by cases h
  | .filled _ h _, hc => h.formed hb hc

theorem ReadsItems.formed (hb : ∀ head, uses head → head.symbol.kind.trailingForm? = none → head.power = .none)
    {c c' : Cursor} {items : List Node} :
    ReadsItems table c items c' → Comes table uses c → ∀ a ∈ items, Formed uses a
  | .last h _, hc => List.forall_mem_singleton.2 (h.formed hb hc)
  | .more h hp hr, hc =>
    List.forall_mem_cons.2 ⟨h.formed hb hc, hr.formed hb ((hc.reaches h.onward.reaches).reaches hp.2.onward.reaches)⟩

end

end Node

/-- The tree of tokens has the operands that the forms ask for. -/
theorem SymbolTable.OperatorsBind.formed (hb : table.OperatorsBind) {tokens : List Token} {root : Node}
    (h : Node.ofTokens table tokens = .ok root) : Node.Formed table.Knows root := by
  obtain ⟨c, c', hs, hr, -⟩ := Node.ofTokens_ok.1 h
  exact hr.formed (fun _ hu => hb hu) (comes_knows (next_knows (start_ok.1 hs).1))

namespace Node

/-! ## Evaluations -/

section Rules

variable (reentry : Reentry)

mutual

/-- `Reached node draws sub draws'`: evaluating `node` with the first draws comes to `sub` with the second ones. Of the
operands behind the first, those are left out that the value of the first one makes the operator skip. -/
inductive Reached : Node → Draws → Node → Draws → Prop
  | self {node : Node} {draws : Draws} : Reached node draws node draws
  | operand {head : Head} {sign : Bool} {a sub : Node} {draws draws' : Draws} : Reached a draws sub draws' →
      Reached (.unary head sign a) draws sub draws'
  | first {head : Head} {a b sub : Node} {draws draws' : Draws} : Reached a draws sub draws' →
      Reached (.binary head a b) draws sub draws'
  | second {head : Head} {a b sub : Node} {draws draws₁ draws' : Draws} {v : Value} :
      evaluate reentry a none draws = .ok v draws₁ → head.symbol.skips v = false → Reached b draws₁ sub draws' →
      Reached (.binary head a b) draws sub draws'
  | condition {head : Head} {a b c sub : Node} {draws draws' : Draws} : Reached a draws sub draws' →
      Reached (.ternary head a b c) draws sub draws'
  | whenTrue {head : Head} {a b c sub : Node} {draws draws₁ draws' : Draws} {v : Value} :
      evaluate reentry a none draws = .ok v draws₁ → v.isTruthy = true → Reached b draws₁ sub draws' →
      Reached (.ternary head a b c) draws sub draws'
  | whenFalse {head : Head} {a b c sub : Node} {draws draws₁ draws' : Draws} {v : Value} :
      evaluate reentry a none draws = .ok v draws₁ → v.isTruthy = false → Reached c draws₁ sub draws' →
      Reached (.ternary head a b c) draws sub draws'
  | item {head : Head} {items : List Node} {sub : Node} {draws draws' : Draws} : ReachedAll items draws sub draws' →
      Reached (.sequence head items) draws sub draws'

/-- Evaluating several trees in order comes to a node. -/
inductive ReachedAll : List Node → Draws → Node → Draws → Prop
  | head {a sub : Node} {items : List Node} {draws draws' : Draws} : Reached a draws sub draws' →
      ReachedAll (a :: items) draws sub draws'
  | tail {a sub : Node} {items : List Node} {draws draws₁ draws' : Draws} {v : Value} :
      evaluate reentry a none draws = .ok v draws₁ → ReachedAll items draws₁ sub draws' →
      ReachedAll (a :: items) draws sub draws'

end

end Rules

section Values

variable {reentry : Reentry} {head : Head} {a b d : Node} {items : List Node} {receiver? : Option Value}
  {draws draws' : Draws} {v : Value}

/-- A node has a value, whatever is handed to it. -/
def Succeeds (reentry : Reentry) (node : Node) (draws : Draws) : Prop :=
  ∃ receiver? v draws', evaluate reentry node receiver? draws = .ok v draws'

theorem succeeds_of_yields (h : Operands.Yields (some (evaluate reentry a)) draws) : Succeeds reentry a draws := by
  obtain ⟨_, receiver?, v, draws', ho, h⟩ := h
  cases ho
  exact ⟨receiver?, v, draws', h⟩

theorem first_ok {operands : Operands} (ho : operands.first? = some (evaluate reentry a))
    (h : operands.first draws = .ok v draws') : evaluate reentry a none draws = .ok v draws' := by
  obtain ⟨_, ho', h⟩ := Operands.value_ok.1 h
  rw [ho] at ho'
  cases ho'
  exact h

theorem Succeeds.operand (hs : head.symbol.Asks) {form : LeadingForm} {sign : Bool}
    (hl : head.symbol.kind.leadingForm? = some form) (hne : form ≠ .array)
    (h : Succeeds reentry (.unary head sign a) draws) : Succeeds reentry a draws := by
  obtain ⟨receiver?, v, draws', h⟩ := h
  obtain ⟨rule, more, hr, hask⟩ := hs.leading hl hne
  obtain ⟨v₁, draws₁, hv₁, -⟩ := hask (Head.evaluate_rule hr h)
  exact ⟨none, v₁, draws₁, first_ok rfl hv₁⟩

/-- The first operand has a value, and so has the second one unless that value makes the operator skip it. -/
theorem Succeeds.binary (hs : head.symbol.Asks) (hf : head.symbol.kind.trailingForm? = some .binary)
    (h : Succeeds reentry (.binary head a b) draws) :
    ∃ v draws₁, evaluate reentry a none draws = .ok v draws₁ ∧
      (head.symbol.skips v = false → Succeeds reentry b draws₁) := by
  obtain ⟨receiver?, v, draws', h⟩ := h
  obtain ⟨rule, hr, hask⟩ := hs.binary hf
  obtain ⟨v₁, draws₁, hv₁, hmore⟩ := hask (Head.evaluate_rule hr h)
  exact ⟨v₁, draws₁, first_ok rfl hv₁, fun hskip => succeeds_of_yields (hmore rfl hskip)⟩

/-- The condition has a value, and so has the branch that it chooses. -/
theorem Succeeds.ternary (hs : head.symbol.Asks) (hf : head.symbol.kind.trailingForm? = some .ternary)
    (h : Succeeds reentry (.ternary head a b d) draws) :
    ∃ v draws₁, evaluate reentry a none draws = .ok v draws₁ ∧
      if v.isTruthy then Succeeds reentry b draws₁ else Succeeds reentry d draws₁ := by
  obtain ⟨receiver?, v, draws', h⟩ := h
  obtain ⟨rule, hr, hask⟩ := hs.ternary hf
  obtain ⟨v₁, draws₁, hv₁, hmore⟩ := hask (Head.evaluate_rule hr h)
  refine ⟨v₁, draws₁, first_ok rfl hv₁, ?_⟩
  unfold Operands.Branch at hmore
  split at hmore
  · next ht => rw [if_pos ht]; exact succeeds_of_yields hmore
  · next ht => rw [if_neg ht]; exact succeeds_of_yields hmore

theorem Succeeds.itemValues (hs : head.symbol.Asks) (hf : Formed table.Knows (.sequence head items))
    (h : Succeeds reentry (.sequence head items) draws) :
    ∃ vs draws₁, Operands.itemValues (evaluateAll reentry items) draws = .ok vs draws₁ := by
  obtain ⟨receiver?, v, draws', h⟩ := h
  cases hf with
  | array _ hl _ =>
    obtain ⟨rule, hr, hask⟩ := hs.array hl
    exact hask (Head.evaluate_rule hr h)
  | bareCall _ hm => exact Head.evaluate_mode hm h
  | call _ hm _ _ => exact Head.evaluate_mode hm h

theorem itemValues_cons {items : List Node} {vs : List Value}
    (h : Operands.itemValues (evaluateAll reentry (a :: items)) draws = .ok vs draws') :
    ∃ v draws₁ vs', evaluate reentry a none draws = .ok v draws₁ ∧
      Operands.itemValues (evaluateAll reentry items) draws₁ = .ok vs' draws' := by
  simp only [evaluateAll, Operands.itemValues, bind_ok, pure_ok] at h
  obtain ⟨v, draws₁, hv, vs', _, hvs, -, rfl⟩ := h
  exact ⟨v, draws₁, vs', hv, hvs⟩

theorem Succeeds.not_hole (hs : head.symbol.Asks) (h : Succeeds reentry (.leaf head) draws) :
    head.isHole = false := by
  obtain ⟨receiver?, v, draws', h⟩ := h
  rw [Bool.eq_false_iff]
  exact fun hh => Head.evaluate_hole hs hh h

mutual

/-- What the evaluation of a node with a value comes to has a value. -/
theorem Reached.succeeds (hask : ∀ head, table.Knows head → head.symbol.Asks) {node sub : Node}
    {draws draws' : Draws} : Reached reentry node draws sub draws' → Formed table.Knows node →
      Succeeds reentry node draws → Formed table.Knows sub ∧ Succeeds reentry sub draws'
  | .self, hf, h => ⟨hf, h⟩
  | .operand hr, .unary hu hl hne hf, h => hr.succeeds hask hf (h.operand (hask _ hu) hl hne)
  | .first hr, .binary hu ht _ hf _, h => by
    obtain ⟨v, draws₁, hv, -⟩ := h.binary (hask _ hu) ht
    exact hr.succeeds hask hf ⟨none, v, draws₁, hv⟩
  | .second hv hskip hr, .binary hu ht _ _ hf, h => by
    -- the first operand has one value only, so the draws in front of the second one are the same
    obtain ⟨v, draws₁, hv', hb⟩ := h.binary (hask _ hu) ht
    rw [hv] at hv'
    cases hv'
    exact hr.succeeds hask hf (hb hskip)
  | .condition hr, .ternary hu ht _ hf _ _, h => by
    obtain ⟨v, draws₁, hv, -⟩ := h.ternary (hask _ hu) ht
    exact hr.succeeds hask hf ⟨none, v, draws₁, hv⟩
  | .whenTrue hv htrue hr, .ternary hu ht _ _ hf _, h => by
    obtain ⟨v, draws₁, hv', hb⟩ := h.ternary (hask _ hu) ht
    rw [hv] at hv'
    cases hv'
    rw [if_pos htrue] at hb
    exact hr.succeeds hask hf hb
  | .whenFalse hv hfalse hr, .ternary hu ht _ _ _ hf, h => by
    obtain ⟨v, draws₁, hv', hb⟩ := h.ternary (hask _ hu) ht
    rw [hv] at hv'
    cases hv'
    rw [if_neg (by simp [hfalse])] at hb
    exact hr.succeeds hask hf hb
  | .item hr, .array hu hl hf, h => hr.succeeds hask hf (h.itemValues (hask _ hu) (.array hu hl hf))
  | .item hr, .call hu hm hne hf, h => hr.succeeds hask hf (h.itemValues (hask _ hu) (.call hu hm hne hf))

theorem ReachedAll.succeeds (hask : ∀ head, table.Knows head → head.symbol.Asks) {items : List Node} {sub : Node}
    {draws draws' : Draws} : ReachedAll reentry items draws sub draws' → (∀ a ∈ items, Formed table.Knows a) →
      (∃ vs draws₁, Operands.itemValues (evaluateAll reentry items) draws = .ok vs draws₁) →
      Formed table.Knows sub ∧ Succeeds reentry sub draws'
  | .head hr, hf, h => by
    obtain ⟨_, _, h⟩ := h
    obtain ⟨v, draws₁, _, hv, -⟩ := itemValues_cons h
    exact hr.succeeds hask (hf _ List.mem_cons_self) ⟨none, v, draws₁, hv⟩
  | .tail hv hr, hf, h => by
    obtain ⟨_, _, h⟩ := h
    obtain ⟨v, draws₁, vs, hv', hvs⟩ := itemValues_cons h
    rw [hv] at hv'
    cases hv'
    exact hr.succeeds hask (fun a ha => hf a (List.mem_cons_of_mem _ ha)) ⟨vs, _, hvs⟩

end

/-! ## Skipped operands -/

/-- From these draws the evaluation of the node skips an operand with this leaf. -/
def Skips (reentry : Reentry) (head : Head) (draws : Draws) : Node → Prop
  | .binary op a b => ∃ v draws₁, evaluate reentry a none draws = .ok v draws₁ ∧ op.symbol.skips v = true ∧
      head ∈ b.leaves
  | .ternary _ a b c => ∃ v draws₁, evaluate reentry a none draws = .ok v draws₁ ∧
      head ∈ if v.isTruthy then c.leaves else b.leaves
  | _ => False

/-- Of items that all have values, one comes to what one of them comes to. -/
theorem reachedAll_of_mem {P : Node → Draws → Prop} : ∀ {items : List Node} {vs : List Value} {draws draws' : Draws},
    (∀ a ∈ items, ∀ {draws}, Succeeds reentry a draws → head ∈ a.leaves →
      ∃ sub draws', Reached reentry a draws sub draws' ∧ P sub draws') →
    Operands.itemValues (evaluateAll reentry items) draws = .ok vs draws' → head ∈ leavesAll items →
      ∃ sub draws', ReachedAll reentry items draws sub draws' ∧ P sub draws'
  | [], _, _, _, _, _, h => by cases h
  | a :: items, _, _, _, ih, hvs, h => by
    obtain ⟨v, draws₁, vs, hv, hvs⟩ := itemValues_cons hvs
    rcases List.mem_append.mp h with h | h
    · obtain ⟨sub, draws', hr, hP⟩ := ih a List.mem_cons_self ⟨none, v, draws₁, hv⟩ h
      exact ⟨sub, draws', .head hr, hP⟩
    · obtain ⟨sub, draws', hr, hP⟩ := reachedAll_of_mem (fun b hb => ih b (List.mem_cons_of_mem _ hb)) hvs h
      exact ⟨sub, draws', .tail hv hr, hP⟩

/-- A leaf of a node with a value that is no expression stands in an operand that is skipped. -/
theorem Succeeds.skips_hole (hask : ∀ head, table.Knows head → head.symbol.Asks) {node : Node}
    (hf : Formed table.Knows node) (hh : head.isHole = true) (h : Succeeds reentry node draws)
    (hm : head ∈ node.leaves) :
    ∃ sub draws', Reached reentry node draws sub draws' ∧ Skips reentry head draws' sub := by
  induction hf generalizing draws with
  | leaf hu _ _ =>
    obtain rfl := List.mem_singleton.mp hm
    rw [h.not_hole (hask _ hu)] at hh
    cases hh
  | unary hu hl hne _ ih =>
    obtain ⟨sub, draws', hr, hs⟩ := ih (h.operand (hask _ hu) hl hne) hm
    exact ⟨sub, draws', .operand hr, hs⟩
  | array hu hl hf ih =>
    obtain ⟨vs, _, hvs⟩ := h.itemValues (hask _ hu) (.array hu hl hf)
    obtain ⟨sub, draws', hr, hs⟩ := reachedAll_of_mem ih hvs hm
    exact ⟨sub, draws', .item hr, hs⟩
  | bareCall => cases hm
  | call hu hm' hne hf ih =>
    obtain ⟨vs, _, hvs⟩ := h.itemValues (hask _ hu) (.call hu hm' hne hf)
    obtain ⟨sub, draws', hr, hs⟩ := reachedAll_of_mem ih hvs hm
    exact ⟨sub, draws', .item hr, hs⟩
  | @binary op a b hu ht _ _ _ iha ihb =>
    obtain ⟨v, draws₁, hv, hb⟩ := h.binary (hask _ hu) ht
    rcases List.mem_append.mp hm with hm | hm
    · obtain ⟨sub, draws', hr, hs⟩ := iha ⟨none, v, draws₁, hv⟩ hm
      exact ⟨sub, draws', .first hr, hs⟩
    · by_cases hskip : op.symbol.skips v = true
      -- the operator itself skips the operand with the leaf
      · exact ⟨_, draws, .self, v, draws₁, hv, hskip, hm⟩
      · rw [Bool.not_eq_true] at hskip
        obtain ⟨sub, draws', hr, hs⟩ := ihb (hb hskip) hm
        exact ⟨sub, draws', .second hv hskip hr, hs⟩
  | @ternary op a b d hu ht _ _ _ _ iha ihb ihd =>
    obtain ⟨v, draws₁, hv, hbranch⟩ := h.ternary (hask _ hu) ht
    simp only [leaves, List.mem_append] at hm
    rcases hm with hm | hm
    · obtain ⟨sub, draws', hr, hs⟩ := iha ⟨none, v, draws₁, hv⟩ hm
      exact ⟨sub, draws', .condition hr, hs⟩
    · by_cases ht : v.isTruthy = true
      · rw [if_pos ht] at hbranch
        rcases hm with hm | hm
        · obtain ⟨sub, draws', hr, hs⟩ := ihb hbranch hm
          exact ⟨sub, draws', .whenTrue hv ht hr, hs⟩
        · exact ⟨_, draws, .self, v, draws₁, hv, by rw [if_pos ht]; exact hm⟩
      · rw [if_neg ht] at hbranch
        rcases hm with hm | hm
        · exact ⟨_, draws, .self, v, draws₁, hv, by rw [if_neg ht]; exact hm⟩
        · obtain ⟨sub, draws', hr, hs⟩ := ihd hbranch hm
          exact ⟨sub, draws', .whenFalse hv (by simpa using ht) hr, hs⟩

end Values

end Node

/-! ## Texts -/

namespace Evaluator

variable {e : Evaluator} {depth : Nat} {v : Value} {draws draws' : Draws}

theorem asks_of_constants (he : ∃ names, e = standard.defineNames names) (head : Head) (h : e.symbols.Knows head) :
    head.symbol.Asks := by
  obtain ⟨names, rfl⟩ := he
  refine forall_defineNames (fun _ _ => .of_none rfl rfl) (fun s hs => ?_) _ (SymbolTable.mem_of_get? h)
  exact Library.symbols_ask s (SymbolTable.mem_standard hs)

theorem formed_of_constants (he : ∃ names, e = standard.defineNames names) {tokens : List Token} {root : Node}
    (h : Node.ofTokens e.symbols tokens = .ok root) : Node.Formed e.symbols.Knows root := by
  obtain ⟨names, rfl⟩ := he
  exact (operatorsBind_defineNames SymbolTable.Extended.standard.regular.operatorsBind).formed h

/-- Every node of the tree of a text with a value has the operands that its form asks for, or is a symbol without any.
What the evaluation comes to has a value, so it is no symbol that is no expression; each of those stands in an operand
that is skipped: behind a first operand of `&&` or `||` that decides, or in the branch of `?` that is not chosen. -/
theorem evaluate_reached (he : ∃ names, e = standard.defineNames names) {source : String}
    (h : e.evaluate depth (.text source) draws = .ok v draws') :
    ∃ tokens root, e.tokenize source = .ok tokens ∧ Node.ofTokens e.symbols tokens = .ok root ∧
      Node.Formed e.symbols.Knows root ∧
      (∀ sub draws₁, Node.Reached (e.reentry (depth - 1)) root draws sub draws₁ →
        Node.Succeeds (e.reentry (depth - 1)) sub draws₁ ∧ ∀ head, sub = .leaf head → head.isHole = false) ∧
      ∀ head ∈ root.leaves, head.isHole = true → ∃ sub draws₁,
        Node.Reached (e.reentry (depth - 1)) root draws sub draws₁ ∧
          Node.Skips (e.reentry (depth - 1)) head draws₁ sub := by
  obtain ⟨tokens, htok, hrun⟩ := evaluate_text_ok.1 h
  cases depth with
  | zero => exact absurd hrun run_zero_ok
  | succ depth =>
    obtain ⟨root, hroot, hv⟩ := run_ok.1 hrun
    have hask := asks_of_constants he
    have hf := formed_of_constants he hroot
    have hs : Node.Succeeds (e.reentry depth) root draws := ⟨none, v, draws', hv⟩
    refine ⟨tokens, root, htok, hroot, hf, fun sub draws₁ hr => ?_, fun head hm hh => hs.skips_hole hask hf hh hm⟩
    obtain ⟨hfs, hss⟩ := hr.succeeds hask hf hs
    refine ⟨hss, ?_⟩
    rintro head rfl
    cases hfs with
    | leaf hu _ _ => exact hss.not_hole (hask head hu)

/-- `"a" || )` -/
def skippedBracket : Node :=
  .binary ⟨.rightward "||" .logical Library.either, none⟩ (.leaf (.text "a")) (.leaf (.simple ")"))

theorem ofTokens_skippedBracket :
    Node.ofTokens standard.symbols [.string "a", .operator "||", .operator ")"] = .ok skippedBracket := by
  have hr := SymbolTable.Extended.standard.regular
  have ha : standard.symbols.resolve (.string "a") = .ok (.text "a") := Head.isUse_text hr "a"
  have hor : standard.symbols.resolve (.operator "||") = .ok ⟨.rightward "||" .logical Library.either, none⟩ :=
    Head.isUse_of_get? (SymbolTable.get?_standard (s := .rightward "||" .logical Library.either)
      (by simp [Library.symbols, Library.standardSymbols, Library.operatorSymbols]))
  have hclose : standard.symbols.resolve (.operator ")") = .ok (.simple ")") := Head.resolve_simple hr (by decide)
  have hend : standard.symbols.use endId none = .ok (.simple endId) :=
    SymbolTable.use_ok.2 ⟨hr.simple endId (by decide), rfl⟩
  have hs : start standard.symbols [.string "a", .operator "||", .operator ")"] =
      .ok ⟨[.operator "||", .operator ")"], .text "a", 0⟩ := start_ok.2 ⟨by rw [Stands, next, ha], rfl⟩
  have hm₁ : Moves standard.symbols ⟨[.operator "||", .operator ")"], .text "a", 1⟩
      ⟨[.operator ")"], ⟨.rightward "||" .logical Library.either, none⟩, 1⟩ := ⟨by rw [next, hor], rfl⟩
  have hm₂ : Moves standard.symbols ⟨[.operator ")"], ⟨.rightward "||" .logical Library.either, none⟩, 2⟩
      ⟨[], .simple ")", 2⟩ := ⟨by rw [next, hclose], rfl⟩
  have hm₃ : Moves standard.symbols ⟨[], .simple ")", 3⟩ ⟨[], .simple endId, 3⟩ := ⟨by rw [next, hend], rfl⟩
  have hsecond : Node.Reads standard.symbols (BindingPower.logical - 1) ⟨[], .simple ")", 2⟩ (.leaf (.simple ")"))
      (atDepth ⟨[], .simple endId, 3⟩ 2) := .intro (by decide) hm₃ (.leaf rfl rfl) (.stop (Nat.zero_le _))
  have hwhole : Node.Extends standard.symbols .none (.leaf (.text "a"))
      ⟨[.operator ")"], ⟨.rightward "||" .logical Library.either, none⟩, 1⟩ skippedBracket
      (atDepth ⟨[], .simple endId, 3⟩ 2) :=
    .step (by decide) (by decide) hm₂ (.binary rfl hsecond) (.stop (Nat.le_refl _))
  have hread : Node.Reads standard.symbols .none ⟨[.operator "||", .operator ")"], .text "a", 0⟩ skippedBracket _ :=
    .intro (by decide) hm₁ (.leaf rfl rfl) hwhole
  exact Node.ofTokens_ok.2 ⟨_, _, hs, hread, rfl⟩

theorem tokenize_skippedBracket :
    standard.tokenize "\"a\" || )" = .ok [.string "a", .operator "||", .operator ")"] :=
  Scanner.tokensFrom_token rfl rfl ((Scanner.tokensFrom_gap rfl).trans (Scanner.tokensFrom_token rfl rfl
    ((Scanner.tokensFrom_gap rfl).trans (Scanner.tokensFrom_token rfl rfl (Scanner.tokensFrom_nil _ _)))))

theorem evaluate_skippedBracket : standard.evaluate 1 (.text "\"a\" || )") default = .ok (.ofBool true) default :=
  evaluate_text_ok.2 ⟨_, tokenize_skippedBracket, run_ok.2 ⟨_, ofTokens_skippedBracket, rfl⟩⟩

/-- The bracket stands in the operand that `||` skips. -/
theorem evaluate_reached_skippedBracket :
    ∃ tokens root, standard.tokenize "\"a\" || )" = .ok tokens ∧ Node.ofTokens standard.symbols tokens = .ok root ∧
      ∀ head ∈ root.leaves, head.isHole = true → ∃ sub draws, Node.Reached (standard.reentry 0) root default sub draws ∧
        Node.Skips (standard.reentry 0) head draws sub := by
  obtain ⟨tokens, root, htok, hroot, -, -, hholes⟩ := evaluate_reached ⟨[], rfl⟩ evaluate_skippedBracket
  exact ⟨tokens, root, htok, hroot, hholes⟩

/-- A text may have a value although its tree is not complete. -/
theorem not_complete_of_evaluate :
    ¬ ∀ (names : List (String × Value)) (source : String) (depth : Nat) (draws draws' : Draws) (v : Value)
      (tokens : List Token) (root : Node),
      (standard.defineNames names).evaluate depth (.text source) draws = .ok v draws' →
      (standard.defineNames names).tokenize source = .ok tokens →
      Node.ofTokens (standard.defineNames names).symbols tokens = .ok root →
      ∀ head ∈ root.leaves, head.isHole = false := by
  intro h
  have hleaf := h [] _ 1 _ _ _ _ _ evaluate_skippedBracket tokenize_skippedBracket ofTokens_skippedBracket
    (.simple ")") (List.mem_append_right _ List.mem_cons_self)
  cases hleaf

end Evaluator

end Formula
