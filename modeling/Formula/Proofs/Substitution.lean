import Formula.Proofs.CallDepth
import Formula.Proofs.Exactness
import Formula.Proofs.SideBySide

/-!
# A value for an expression between parentheses

Without the functions that draw random numbers, an evaluation draws nothing (`Evaluator.run_still`), so an expression
has the same value wherever it stands. Then the literal of that value may stand for the expression between its
parentheses, with any tokens around it (`Evaluator.run_parenthesized_iff`): the tokens before it are read side by side,
the expression is read up to its closing parenthesis as it is read alone, and what stands behind is read alike again.
An expression between parentheses is no call, so no function may stand in front of it.
-/

namespace Formula

open Cursor

/-! ## Evaluations that draw nothing -/

namespace EvalM

/-- The evaluation draws nothing: it is a value, or it stops. -/
def Still {α : Type} (x : EvalM α) : Prop := (∃ a, x = pure a) ∨ ∃ stop, x = throw stop

theorem still : Congruence fun x _ => Still x where
  pure a := .inl ⟨a, rfl⟩
  fail e := .inr ⟨.failed e, rfl⟩
  bind {α β x y f g} hx hf := by
    rcases hx with ⟨a, rfl⟩ | ⟨stop, rfl⟩
    · rw [pure_bind]
      exact hf a
    · exact .inr ⟨stop, rfl⟩

/-- Wherever one of the evaluations yields a result, the other one yields it too. -/
def Agree {α : Type} (x y : EvalM α) : Prop :=
  ∀ draws a draws', x draws = .ok a draws' ↔ y draws = .ok a draws'

theorem agree : Congruence Agree where
  pure _ _ _ _ := .rfl
  fail _ _ _ _ := .rfl
  bind {α β x y f g} hx hf draws b draws' := by
    simp only [bind_ok, hx draws, hf _ _ b draws']

end EvalM

open EvalM (Still Agree)

/-- A name for a value. -/
def Symbol.IsConstant (s : Symbol) : Prop := ∃ id v, s = .constant id v

namespace SymbolTable.Derived

variable {table : SymbolTable} (ht : table.Derived Symbol.IsConstant)
include ht

theorem trimmed : table.Trimmed := by
  induction ht with
  | deterministic => exact ((trimmed_standard.erase _).erase _).erase _
  | define _ ha _ ih =>
    obtain ⟨id, v, rfl⟩ := ha
    exact ih.constant id v

theorem regular_of_isConstant : table.Regular := by
  refine ht.regular fun s hs => ?_
  obtain ⟨id, v, rfl⟩ := hs
  exact .constant id v

/-- None of the functions that draw random numbers is there. -/
theorem not_random {head : Head} (hu : table.Knows head) : head.symbol ∉ Library.randomSymbols := by
  intro hrandom
  rcases ht.mem (mem_of_get? hu) with ⟨id, v, hs⟩ | ⟨-, hid⟩
  · rw [hs] at hrandom
    obtain ⟨id, mode, rule, hs⟩ := Library.mem_functionSymbols
      (List.mem_append_left _ (List.mem_append_left _ (List.mem_append_right _ hrandom)))
    cases hs
  · exact hid (List.mem_map_of_mem hrandom)

/-- The symbols around the name and the values of a call are the built-in ones. -/
theorem structural : table.Structural := by
  intro id hid
  have hstandard : ∀ id ∈ Library.callIds, (Evaluator.standard.symbols.get? id).isSome = true ∧
      id ∉ Library.randomSymbols.map Symbol.id := by decide +kernel
  obtain ⟨hsome, hrandom⟩ := hstandard id hid
  induction ht with
  | deterministic => exact get?_deterministic hrandom
  | define _ _ hf ih =>
    rw [get?_define_of_ne _ _ (fun he => ?_), ih]
    rw [he] at ih hsome
    rw [← ih, hf] at hsome
    cases hsome

end SymbolTable.Derived

/-- The tree draws nothing if the further formulas that its functions evaluate draw nothing. -/
theorem Node.Formed.still {table : SymbolTable} (ht : table.Derived Symbol.IsConstant) {reentry : Reentry}
    (hcall : ∀ tokens, Still (reentry.run tokens)) {root : Node} (hf : Formed table.Knows root)
    (receiver? : Option Value) : Still (root.evaluate reentry receiver?) := by
  have hrelated : reentry.Related (fun x _ => Still x) reentry := ⟨fun _ _ => hcall _, fun _ _ _ _ _ => hcall _⟩
  refine (?_ : Operand.Related (fun x _ => Still x) (root.evaluate reentry) (root.evaluate reentry)) receiver?
  refine hf.related EvalM.still fun head hu => ?_
  exact ht.trimmed.respects EvalM.still hu (fun hrandom => absurd hrandom (ht.not_random hu)) fun rule hrule _ =>
    Library.callbackRules_respect EvalM.still hrelated rule hrule

/-- Without the functions that draw random numbers, an evaluation draws nothing. -/
theorem Evaluator.run_still {e : Evaluator} (he : e.symbols.Derived Symbol.IsConstant) (depth : Nat) :
    ∀ tokens, Still (e.run depth tokens) := by
  induction depth with
  | zero => exact fun _ => .inr ⟨.exhausted, rfl⟩
  | succ depth ih =>
    intro tokens
    cases h : Node.ofTokens e.symbols tokens with
    | error error => exact .inr ⟨.failed error, by simp only [run, h]; rfl⟩
    | ok root =>
      have hstill : Still (root.evaluate (e.reentry depth) none) := (he.trimmed.operatorsBind.formed h).still he ih none
      simp only [run, h]
      exact hstill

/-! ## Readings with a literal instead -/

/-- The last one of the uses, the first of which is this one, is no function. -/
def NoFunctionLast (table : SymbolTable) : Head → List Token → Prop
  | head, [] => head.symbol.kind.mode? = none
  | _, t :: front => ∀ head, table.resolve t = .ok head → NoFunctionLast table head front

/-- The cursors of two readings on the same use: in front of the tokens in which they differ, or behind them. -/
inductive Cursor.Near (table : SymbolTable) (old new : List Token) : Cursor → Cursor → Prop
  | before {front : List Token} {active : Head} {depth : Nat} : table.Knows active → NoFunctionLast table active front →
      Near table old new ⟨front ++ old, active, depth⟩ ⟨front ++ new, active, depth⟩
  | behind {c : Cursor} : table.Knows c.active → Near table old new c c

/-- The cursors on the opening parenthesis of an expression and on the literal instead. -/
inductive Cursor.Apart (inner post : List Token) (v : Value) : Cursor → Cursor → Prop
  | intro (depth : Nat) : Apart inner post v ⟨inner ++ .operator ")" :: post, .callBracket, depth⟩
      ⟨post, .literal v, depth⟩

namespace Node

/-- A reading that is refused as too deep releases the other one, and any two failures go together. -/
def tooDeepReleases : Failures := ⟨fun e => ∃ found, e = depthError found, fun _ _ => True⟩

/-- The expression between parentheses, and the literal. -/
def Instead (t : Node) (v : Value) (a b : Node) : Prop := a = .unary .callBracket false t ∧ b = .leaf (.literal v)

variable {table : SymbolTable} {t : Node} {v : Value} {literal : Token} {post : List Token}

theorem noFunctionLast : ∀ {front : List Token} {u : Token},
    (∀ last ∈ (u :: front).getLast?, ∀ head, table.resolve last = .ok head → head.symbol.kind.mode? = none) →
      ∀ head, table.resolve u = .ok head → NoFunctionLast table head front
  | [], u, h, head, hu => h u rfl head hu
  | _ :: _, _, h, _, _ => fun head' hu' => by
    rw [List.getLast?_cons_cons] at h
    exact noFunctionLast h head' hu'

/-- Both readings go on behind the closing parenthesis and behind the literal. -/
theorem tracks_next (old new : List Token) (depth : Nat) :
    Tracks tooDeepReleases (fun _ c' b d' => b = .literal v ∧ Near table old new c' d' ∧ c'.depth = depth)
      (expect table ")" ⟨post, .simple ")", depth⟩) (advance table ⟨post, .literal v, depth⟩) := by
  have hexpect : expect table ")" ⟨post, .simple ")", depth⟩ = advance table ⟨post, .simple ")", depth⟩ := by
    refine current_bind.trans ?_
    rw [if_pos]
    rfl
  rw [hexpect]
  simp only [advance]
  rcases hn : next table post with ⟨first, rest⟩
  cases first with
  | error e => exact .failed trivial
  | ok head => exact .ok ⟨rfl, .behind (next_knows hn), rfl⟩

section Readings

variable (hr : table.Regular) (hc : Complete table t) (hp : PrecedenceCorrect t)
include hr hc hp

/-- The expression between the parentheses is read up to the closing one, or it is refused as too deep. -/
theorem tracks_leading {old new : List Token} {c d : Cursor} {levels : Nat} (h : Apart t.tokens post v c d)
    (hd : c.depth + levels = maxDepth) :
    Tracks tooDeepReleases (fun a c' b d' => t.Instead v a b ∧ (Near table old new c' d' ∨ Apart t.tokens post v c' d') ∧
        c'.depth = c.depth)
      ((advance table >>= readLeading table (readExpression table levels)) c)
      ((advance table >>= readLeading table (readExpression table levels)) d) := by
  obtain ⟨depth⟩ := h
  obtain ⟨c₁, hs₁, rfl⟩ := hc.stands hr (.operator ")" :: post) depth
  have hlevels : c₁.depth + levels = maxDepth := hd
  have hm : Moves table ⟨t.tokens ++ .operator ")" :: post, .callBracket, c₁.depth⟩ c₁ := ⟨hs₁, rfl⟩
  have hform : Head.callBracket.symbol.kind.leadingForm? = some (.grouping ")") := rfl
  rw [bind_eq_of_ok (advance_ok.2 ⟨rfl, hm⟩), readLeading_form hform]
  by_cases hfits : t.levels ≤ levels
  · have hread := (readsAt_of_depth hlevels rfl).2 ((hc.readsInto hr hp).before hr hc (by decide) hs₁ (by omega))
    have hgroup : readLeadingForm table (readExpression table levels) .callBracket (.grouping ")") c₁ =
        (expect table ")" >>= fun _ => pure (.unary .callBracket false t)) ⟨post, .simple ")", c₁.depth⟩ :=
      bind_eq_of_ok hread
    rw [hgroup]
    refine (tracks_next old new c₁.depth).bind fun _ c' b d' ⟨hb, hn, hd'⟩ => ?_
    have hleaf : readLeading table (readExpression table levels) (.literal v) = pure (.leaf (.literal v)) := rfl
    rw [hb, hleaf]
    exact .ok ⟨⟨rfl, rfl⟩, .inl hn, hd'⟩
  · obtain ⟨found, c', hrefused⟩ : Refused (readLeadingForm table (readExpression table levels) .callBracket
        (.grouping ")")) c₁ := (hc.refuses hr hp hlevels (Nat.lt_of_not_le hfits) hs₁ hc.1.leftEdge_pos).bind
    rw [hrefused]
    exact .released ⟨found, rfl⟩

variable (hopen : table.resolve (.operator "(") = .ok .callBracket)
  (hliteral : table.resolve literal = .ok (.literal v))
include hopen hliteral

/-- The readings of an expression between parentheses and of the literal instead, with the same tokens around them. -/
theorem sideBySide_parenthesized (post : List Token) :
    SideBySide table table tooDeepReleases
      (Near table (.operator "(" :: (t.tokens ++ .operator ")" :: post)) (literal :: post))
      (Apart t.tokens post v) (t.Instead v) where
  pair_self _ := trivial
  depth hp := by rcases hp with hn | ha <;> [cases hn; cases ha] <;> rfl
  near_atDepth n hn := by
    cases hn with
    | before hknows hlast => exact .before hknows hlast
    | behind hknows => exact .behind hknows
  apart_atDepth n ha := by
    obtain ⟨depth⟩ := ha
    exact .intro n
  active hn := by
    cases hn with
    | before hknows _ => exact ⟨hknows, rfl⟩
    | behind hknows => exact ⟨hknows, rfl⟩
  advance {c d} hn := by
    cases hn with
    | @before front active depth hknows hlast =>
      cases front with
      | nil =>
        simp only [Cursor.advance, List.nil_append, next, hopen, hliteral]
        exact .ok ⟨rfl, rfl, rfl, .inr ⟨.intro depth, .inl hlast⟩⟩
      | cons u front =>
        simp only [Cursor.advance, List.cons_append, next]
        cases hu : table.resolve u with
        | error e => exact .failed trivial
        | ok head => exact .ok ⟨rfl, rfl, rfl, .inl (.before (SymbolTable.resolve_get? hu) (hlast head hu))⟩
    | behind hknows =>
      simp only [Cursor.advance]
      rcases hn : next table c.unread with ⟨first, rest⟩
      cases first with
      | error e => exact .failed trivial
      | ok head => exact .ok ⟨rfl, rfl, rfl, .inl (.behind (next_knows hn))⟩
  apart_power ha := by
    obtain ⟨depth⟩ := ha
    exact ⟨rfl, rfl⟩
  apart_id ha id hid := by
    obtain ⟨depth⟩ := ha
    exact (show ∀ id ∈ Library.simpleIds, "(" ≠ id ∧ literalId ≠ id by decide) id (SymbolTable.simple_of_asksFor hr.closing hid)
  apart_failed _ _ := trivial
  leading ha hd := tracks_leading hr hc hp ha hd

/-- An expression between parentheses and the literal instead, with any tokens around them: the former is refused as too
deep, or neither is read, or the trees are alike. -/
theorem ofTokens_parenthesized {pre : List Token} (post : List Token)
    (hpre : ∀ u ∈ pre.getLast?, ∀ head, table.resolve u = .ok head → head.symbol.kind.mode? = none) :
    (∃ found,
        ofTokens table (pre ++ .operator "(" :: (t.tokens ++ .operator ")" :: post)) = .error (depthError found)) ∨
      (∃ e e', ofTokens table (pre ++ .operator "(" :: (t.tokens ++ .operator ")" :: post)) = .error e ∧
        ofTokens table (pre ++ literal :: post) = .error e') ∨
      ∃ a b, ofTokens table (pre ++ .operator "(" :: (t.tokens ++ .operator ")" :: post)) = .ok a ∧
        ofTokens table (pre ++ literal :: post) = .ok b ∧ Alike table.Knows (t.Instead v) a b := by
  have hsides := sideBySide_parenthesized hr hc hp hopen hliteral post
  refine (hsides.tracks_ofTokens ?_).imp (fun ⟨_, ⟨found, he⟩, hold⟩ => ⟨found, he ▸ hold⟩)
    (Or.imp_left fun ⟨e, e', hold, hnew, _⟩ => ⟨e, e', hold, hnew⟩)
  cases pre with
  | nil =>
    refine .inr ⟨⟨t.tokens ++ .operator ")" :: post, .callBracket, 0⟩, ⟨post, .literal v, 0⟩, ?_, ?_, .inr (.intro 0)⟩
    · simp only [List.nil_append, start, next, hopen]
    · simp only [List.nil_append, start, next, hliteral]
  | cons u front =>
    simp only [List.cons_append, start, next]
    cases hu : table.resolve u with
    | error e => exact .inl ⟨e, e, rfl, rfl, trivial⟩
    | ok head => exact .inr ⟨_, _, rfl, rfl, .inl (.before (SymbolTable.resolve_get? hu) (noFunctionLast hpre head hu))⟩

end Readings

/-- The expression between parentheses has the value of the literal, and neither is a function behind a dot. -/
theorem Instead.agree {reentry : Reentry} {draws draws' : Draws} (hstill : Still (t.evaluate reentry none))
    (ht : t.evaluate reentry none draws = .ok v draws') {a b : Node} (h : t.Instead v a b) :
    Operand.Related Agree (a.evaluate reentry) (b.evaluate reentry) := by
  obtain ⟨rfl, rfl⟩ := h
  intro receiver?
  cases receiver? with
  | some receiver => exact fun _ _ _ => ⟨fun h => absurd h EvalM.fail_ok, fun h => absurd h EvalM.fail_ok⟩
  | none =>
    have hpure : t.evaluate reentry none = pure v := by
      rcases hstill with ⟨a, ha⟩ | ⟨stop, hs⟩
      · rw [ha] at ht ⊢
        rw [(pure_ok.1 ht).1]
      · rw [hs] at ht
        exact absurd ht throw_ok
    show Agree (t.evaluate reentry none) (pure v)
    rw [hpure]
    exact fun _ _ _ => .rfl

end Node

/-! ## Evaluations with a literal instead -/

/-- A number or string is written by one token. -/
theorem SymbolTable.Regular.resolve_literal {table : SymbolTable} (hr : table.Regular) {v : Value}
    (hv : v.isArray = false) : ∃ literal, v.tokens = [literal] ∧ table.resolve literal = .ok (.literal v) := by
  cases v with
  | number x => exact ⟨.number x, rfl, SymbolTable.use_ok.2 ⟨hr.literal, rfl⟩⟩
  | string s => exact ⟨.string s, rfl, SymbolTable.use_ok.2 ⟨hr.literal, rfl⟩⟩
  | array items => cases hv

/-- Operators that are allowed at first spell neither the end nor the symbol for literals. -/
theorem OperatorSet.readable_of_standard {source : String} {tokens : List Token}
    (h : OperatorSet.standard.tokenize source = .ok tokens) : ∀ t ∈ tokens, t.Readable := by
  intro t ht
  refine ⟨tokenize_spelled h t ht, ?_, ?_⟩
  · rintro rfl
    exact absurd (tokenize_allowed h (show .operator endId ∈ tokens from ht)) (by decide)
  · rintro rfl
    exact absurd (tokenize_allowed h (show .operator literalId ∈ tokens from ht)) (by decide)

namespace Evaluator

variable {e : Evaluator}

/-- Where the tokens of a text have a number or string as their value, and no leaf of their tree stands for nothing,
they may stand between parentheses wherever the literal of that value stands, but not behind a function: with any
tokens before and behind, the two evaluations yield the same values, unless the first is refused as too deep. So it is
with constants under spellings that are not taken, and without the functions that draw random numbers. -/
theorem run_parenthesized_iff (he : e.symbols.Derived Symbol.IsConstant) (hops : e.operators = .standard)
    {source : String} {inner : List Token} (hinner : e.tokenize source = .ok inner) {depth : Nat} {v : Value}
    {draws draws' : Draws} (hv : v.isArray = false) (hrun : e.run depth inner draws = .ok v draws')
    (hleaves : ∀ root, Node.ofTokens e.symbols inner = .ok root → ∀ head ∈ root.leaves, head.isHole = false)
    {pre post : List Token}
    (hpre : ∀ last ∈ pre.getLast?, ∀ head, e.symbols.resolve last = .ok head → head.symbol.kind.isFunction = false)
    {start : Draws}
    (hfits : ∀ found stop, e.run depth (pre ++ .operator "(" :: (inner ++ .operator ")" :: post)) start ≠
      .error (.failed (depthError found)) stop) (w : Value) (stop : Draws) :
    e.run depth (pre ++ .operator "(" :: (inner ++ .operator ")" :: post)) start = .ok w stop ↔
      e.run depth (pre ++ (v.tokens ++ post)) start = .ok w stop := by
  cases depth with
  | zero => exact absurd hrun run_zero_ok
  | succ depth =>
    obtain ⟨t, ht, hvalue⟩ := run_ok.1 hrun
    have hr := he.regular_of_isConstant
    have hread : ∀ u ∈ inner, u.Readable := by
      rw [tokenize, hops] at hinner
      exact OperatorSet.readable_of_standard hinner
    obtain ⟨rfl, hformed, hp⟩ := Node.ofTokens_written hr hread ht
    have hc : Node.Complete e.symbols t := ⟨hformed, hleaves t ht⟩
    have hlast : ∀ last ∈ pre.getLast?, ∀ head, e.symbols.resolve last = .ok head → head.symbol.kind.mode? = none := by
      intro last hl head hu
      have hfunction := hpre last hl head hu
      cases hk : head.symbol.kind with
      | function => rw [hk] at hfunction; cases hfunction
      | _ => rfl
    obtain ⟨literal, hliteral, hresolve⟩ := hr.resolve_literal hv
    rw [hliteral, List.singleton_append]
    rcases Node.ofTokens_parenthesized hr hc hp he.structural.resolve_callBracket hresolve post hlast with
      ⟨found, hdeep⟩ | ⟨error, error', hold, hnew⟩ | ⟨a, b, hold, hnew, halike⟩
    · refine absurd ?_ (hfits found start)
      simp only [run, hdeep]
      rfl
    · simp only [run_ok, hold, hnew, reduceCtorEq, false_and, exists_false]
    · have hstill : Still (t.evaluate (e.reentry depth) none) :=
        (he.trimmed.operatorsBind.formed ht).still he (run_still he depth) none
      have hagree := halike.related EvalM.agree (fun head hu => ?_)
        (fun _ _ h => h.agree hstill hvalue) none
      · simp only [run, hold, hnew]
        exact hagree start w stop
      · have hself : (e.reentry depth).Related Agree (e.reentry depth) :=
          ⟨fun _ _ _ _ _ => .rfl, fun _ _ _ _ _ _ _ _ => .rfl⟩
        exact he.trimmed.respects EvalM.agree hu (fun _ _ _ _ => .rfl) fun rule hrule _ =>
          Library.callbackRules_respect EvalM.agree hself rule hrule

/-- `"c" + ("a" + "b")` -/
theorem run_parenthesized_text :
    (⟨.deterministic, .standard⟩ : Evaluator).run 1 [.string "c", .operator "+", .operator "(", .string "a",
      .operator "+", .string "b", .operator ")"] default = .ok (.string "cab") default := by
  have htok : (⟨.deterministic, .standard⟩ : Evaluator).tokenize "\"a\" + \"b\"" =
      .ok [.string "a", .operator "+", .string "b"] :=
    Scanner.tokensFrom_token rfl rfl ((Scanner.tokensFrom_gap rfl).trans (Scanner.tokensFrom_token rfl rfl
      ((Scanner.tokensFrom_gap rfl).trans (Scanner.tokensFrom_token rfl rfl (Scanner.tokensFrom_nil _ _)))))
  have htree : Node.ofTokens SymbolTable.deterministic [.string "a", .operator "+", .string "b"] =
      .ok (.binary ⟨.binary "+" .additive Library.add, none⟩ (.leaf (.text "a")) (.leaf (.text "b"))) := rfl
  have hrun : (⟨.deterministic, .standard⟩ : Evaluator).run 1 [.string "a", .operator "+", .string "b"] default =
      .ok (.string "ab") default := rfl
  have hleaves : ∀ root, Node.ofTokens SymbolTable.deterministic [.string "a", .operator "+", .string "b"] = .ok root →
      ∀ head ∈ root.leaves, head.isHole = false := by
    intro root h
    rw [htree] at h
    cases h
    simp [Node.leaves, Head.text, Head.isHole]
  have hpre : ∀ last ∈ [Token.string "c", .operator "+"].getLast?, ∀ head,
      SymbolTable.deterministic.resolve last = .ok head → head.symbol.kind.isFunction = false := by
    intro last hl head hu
    cases hl
    cases hu
    rfl
  exact (run_parenthesized_iff .deterministic rfl htok rfl hrun hleaves hpre (fun _ _ h => by cases h) (.string "cab")
    default).2 rfl

end Evaluator

end Formula
