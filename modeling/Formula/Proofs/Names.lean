import Formula.Proofs.CallDepth
import Formula.Proofs.SideBySide

/-!
# A name for its value

A name that is defined as a number or a string may stand for the literal of that value (`Evaluator.evaluate_named_iff`).
A constant and a literal are different symbols, but neither is a separator or the bracket of a call and neither binds to
its left, so the tokens are read side by side, whatever stands around the name (`Node.sideBySide_named`). The trees are
alike but for those leaves, and the leaves have the same value. They fail behind a dot for reasons that are worded
differently, so what comes to the same is the value, or that there is none (`EvalM.SameOutcome`).
-/

namespace Formula

open Cursor

/-! ## Evaluations that come to the same -/

namespace EvalM

/-- Both yield the same value, or both fail, or both run out of depth; the draws that are left are the same. -/
inductive SameResult {α : Type} :
    EStateM.Result (Stop EvalError) Draws α → EStateM.Result (Stop EvalError) Draws α → Prop
  | value (a : α) (draws : Draws) : SameResult (.ok a draws) (.ok a draws)
  | failed (e e' : EvalError) (draws : Draws) : SameResult (.error (.failed e) draws) (.error (.failed e') draws)
  | exhausted (draws : Draws) : SameResult (.error .exhausted draws) (.error .exhausted draws)

/-- The evaluations come to the same, but for how a failure is worded. -/
def SameOutcome {α : Type} (x y : EvalM α) : Prop := ∀ draws, SameResult (x draws) (y draws)

variable {α : Type} {x y : EvalM α}

theorem SameOutcome.refl (x : EvalM α) : SameOutcome x x := by
  intro draws
  rcases x draws with ⟨a, left⟩ | ⟨stop, left⟩
  · exact .value a left
  · cases stop with
    | failed e => exact .failed e e left
    | exhausted => exact .exhausted left

theorem sameOutcome : Congruence SameOutcome where
  pure a := .refl (pure a)
  fail e := .refl (fail e)
  bind {α β x y f g} hx hf draws := by
    have h := hx draws
    simp only [bind, EStateM.bind]
    generalize x draws = r, y draws = s at h
    cases h with
    | value a left => exact hf a left
    | failed e e' left => exact .failed e e' left
    | exhausted left => exact .exhausted left

theorem SameOutcome.ok_iff (h : SameOutcome x y) {draws draws' : Draws} {a : α} :
    x draws = .ok a draws' ↔ y draws = .ok a draws' := by
  have h := h draws
  generalize x draws = r, y draws = s at h
  cases h with
  | value => rfl
  | failed | exhausted => simp only [reduceCtorEq]

end EvalM

open EvalM (SameOutcome)

/-- Literals are the built-in ones, groupings are closed as in the library, and operators read their operands as values
only: from operands that come to the same they make what comes to the same. -/
structure SymbolTable.ReadsValues (table : SymbolTable) : Prop where
  literal : table.get? literalId = some ⟨literalId, .none, .literal⟩
  closing {head : Head} {closing : String} : table.Knows head →
    head.symbol.kind.leadingForm? = some (.grouping closing) → closing = ")" ∨ closing = "\x7d"
  operator {head : Head} {rule : OperatorRule} : table.Knows head → head.symbol.kind.rule? = some rule →
    rule.Respects SameOutcome

/-- So it is with the library, whatever constants take the place of its symbols and whichever of them are deleted, but
for the symbol for literals. -/
theorem SymbolTable.Trimmed.readsValues {table : SymbolTable} (ht : table.Trimmed)
    (hliteral : table.get? literalId = some ⟨literalId, .none, .literal⟩) : table.ReadsValues where
  literal := hliteral
  closing hu hl := by
    rcases ht.symbol hu with ⟨v, hs⟩ | hs
    · rw [hs] at hl
      cases hl
    · exact closing_of_plain (Library.symbols_plain hs) hl
  operator hu hrule := by
    rcases ht.symbol hu with ⟨v, hs⟩ | hs
    · rw [hs] at hrule
      cases hrule
    · exact Library.symbols_respect EvalM.sameOutcome _ hs _ hrule

/-! ## Readings with a literal for a name -/

/-- The literal in the place of the name. -/
def Token.named (x : String) (v : Value) (t : Token) : Token := if t = .name x then (Head.literal v).token else t

namespace Cursor

/-- The second cursor is as far as the first one, with literals for the name in what is unread. -/
def InStep (x : String) (v : Value) (c d : Cursor) : Prop := d.depth = c.depth ∧ d.unread = c.unread.map (Token.named x v)

/-- The cursors are in step on the same use. -/
def SameUse (table : SymbolTable) (x : String) (v : Value) (c d : Cursor) : Prop :=
  InStep x v c d ∧ table.Knows c.active ∧ d.active = c.active

/-- The cursors are in step on the name and on the literal. -/
def NameAndLiteral (x : String) (v : Value) (c d : Cursor) : Prop :=
  InStep x v c d ∧ c.active = ⟨.constant x v, none⟩ ∧ d.active = .literal v

end Cursor

namespace Node

/-- All failures go together. -/
def anyFailures : Failures := ⟨fun _ => False, fun _ _ => True⟩

/-- The name and the literal. -/
def NameOrLiteral (x : String) (v : Value) (a b : Node) : Prop :=
  a = .leaf ⟨.constant x v, none⟩ ∧ b = .leaf (.literal v)

section Readings

variable {table : SymbolTable} {x : String} {v : Value} (ht : table.ReadsValues) (hv : v.isArray = false)
  (hx : table.get? x = some (.constant x v))
include ht hv hx

/-- What comes next is the same use, or the name and the literal. -/
theorem next_named (tokens : List Token) :
    ∃ first rest, next table tokens = (first, rest) ∧ ∃ first', next table (tokens.map (.named x v)) =
      (first', rest.map (.named x v)) ∧
        (first' = first ∨ first = .ok ⟨.constant x v, none⟩ ∧ first' = .ok (.literal v)) := by
  cases tokens with
  | nil => exact ⟨_, _, rfl, _, rfl, .inl rfl⟩
  | cons t rest =>
    refine ⟨_, _, rfl, _, rfl, ?_⟩
    by_cases hname : t = .name x
    · subst hname
      have hliteral : table.resolve (Head.literal v).token = .ok (.literal v) := by
        cases v with
        | number y => exact SymbolTable.use_ok.2 ⟨ht.literal, rfl⟩
        | string s => exact SymbolTable.use_ok.2 ⟨ht.literal, rfl⟩
        | array items => cases hv
      refine .inr ⟨SymbolTable.use_ok.2 ⟨hx, rfl⟩, ?_⟩
      rw [Token.named, if_pos rfl, hliteral]
    · exact .inl (by rw [Token.named, if_neg hname])

/-- In step, both move on to the same use, or to the name and the literal. -/
theorem tracks_advance {c d : Cursor} (h : InStep x v c d) :
    Tracks anyFailures (fun a c' b d' => a = c.active ∧ b = d.active ∧ c'.depth = c.depth ∧
      (SameUse table x v c' d' ∨ NameAndLiteral x v c' d')) (Cursor.advance table c) (Cursor.advance table d) := by
  obtain ⟨first, rest, hnext, first', hnext', hfirst⟩ := next_named ht hv hx c.unread
  simp only [Cursor.advance, h.2, hnext, hnext']
  rcases hfirst with rfl | ⟨rfl, rfl⟩
  · cases first' with
    | error e => exact .failed trivial
    | ok head => exact .ok ⟨rfl, rfl, rfl, .inl ⟨⟨h.1, rfl⟩, next_knows hnext, rfl⟩⟩
  · exact .ok ⟨rfl, rfl, rfl, .inr ⟨⟨h.1, rfl⟩, rfl, rfl⟩⟩

variable (hname : Scanner.nameAhead x.toList = true)
include hname

/-- The readings of tokens with the name and with the literal for it. -/
theorem sideBySide_named :
    SideBySide table table anyFailures (SameUse table x v) (NameAndLiteral x v) (NameOrLiteral x v) where
  pair_self _ := trivial
  depth hp := hp.elim (fun h => h.1.1) fun h => h.1.1
  near_atDepth _ h := ⟨⟨rfl, h.1.2⟩, h.2⟩
  apart_atDepth _ h := ⟨⟨rfl, h.1.2⟩, h.2⟩
  active h := h.2
  advance {c d} h := by
    refine (tracks_advance ht hv hx h.1).mono fun a c' b d' ⟨ha, hb, hd, hp⟩ => ?_
    refine ⟨ha, hb.trans h.2.2, hd, hp.imp_right fun happ => ⟨happ, .inr ?_⟩⟩
    rw [happ.2.1, happ.2.2]
    refine ⟨?_, show literalId ≠ "(" by decide⟩
    rintro rfl
    cases hname
  apart_power h := by
    rw [h.2.1, h.2.2]
    exact ⟨rfl, rfl⟩
  apart_id h id hid := by
    obtain ⟨hahead, hliteral⟩ := (show ∀ id ∈ Library.simpleIds, Scanner.nameAhead id.toList = false ∧ literalId ≠ id
      by decide) id (SymbolTable.simple_of_asksFor ht.closing hid)
    rw [h.2.1, h.2.2]
    refine ⟨fun he : x = id => ?_, hliteral⟩
    rw [he, hahead] at hname
    cases hname
  apart_failed _ _ := trivial
  leading {c d levels} h _ := by
    refine (tracks_advance ht hv hx h.1).bind fun a c' b d' ⟨ha, hb, hd, hp⟩ => ?_
    rw [ha, hb, h.2.1, h.2.2]
    exact .ok ⟨⟨rfl, rfl⟩, hp, hd⟩

/-- With the name and with the literal, neither list of tokens is read, or the trees are alike. -/
theorem ofTokens_named (tokens : List Token) :
    (∃ e e', ofTokens table tokens = .error e ∧ ofTokens table (tokens.map (.named x v)) = .error e') ∨
      ∃ a b, ofTokens table tokens = .ok a ∧ ofTokens table (tokens.map (.named x v)) = .ok b ∧
        Alike table.Knows (NameOrLiteral x v) a b := by
  refine ((sideBySide_named ht hv hx hname).tracks_ofTokens ?_).elim (fun ⟨_, h, _⟩ => h.elim)
    (Or.imp_left fun ⟨e, e', hold, hnew, _⟩ => ⟨e, e', hold, hnew⟩)
  obtain ⟨first, rest, hnext, first', hnext', hfirst⟩ := next_named ht hv hx tokens
  simp only [start, hnext, hnext']
  rcases hfirst with rfl | ⟨rfl, rfl⟩
  · cases first' with
    | error e => exact .inl ⟨e, e, rfl, rfl, trivial⟩
    | ok head => exact .inr ⟨_, _, rfl, rfl, .inl ⟨⟨rfl, rfl⟩, next_knows hnext, rfl⟩⟩
  · exact .inr ⟨_, _, rfl, rfl, .inr ⟨⟨rfl, rfl⟩, rfl, rfl⟩⟩

end Readings

/-- The name has the value of the literal, and neither is a function behind a dot. -/
theorem NameOrLiteral.sameOutcome {x : String} {v : Value} {reentry : Reentry} {a b : Node} (h : NameOrLiteral x v a b) :
    Operand.Related SameOutcome (a.evaluate reentry) (b.evaluate reentry) := by
  obtain ⟨rfl, rfl⟩ := h
  intro receiver?
  cases receiver? with
  | none => exact .refl (pure v)
  | some receiver => exact fun draws => .failed _ _ draws

end Node

/-! ## Evaluations with a literal for a name -/

namespace Evaluator

variable {e : Evaluator}

/-- A name that is defined as a number or a string stands for its value: with the literal in its place, tokens have the
same values. -/
theorem evaluate_named_iff (he : e.symbols.ReadsValues) {x : String} (hname : Scanner.nameAhead x.toList = true)
    {v : Value} (hv : v.isArray = false) (hx : e.symbols.get? x = some (.constant x v)) (depth : Nat)
    (tokens : List Token) (draws : Draws) (w : Value) (draws' : Draws) :
    e.evaluate depth (.tokens tokens) draws = .ok w draws' ↔
      e.evaluate depth (.tokens (tokens.map (.named x v))) draws = .ok w draws' := by
  simp only [evaluate, runTokens_ok]
  cases depth with
  | zero => exact .rfl
  | succ depth =>
    rcases Node.ofTokens_named he hv hx hname tokens with ⟨error, error', hold, hnew⟩ | ⟨a, b, hold, hnew, halike⟩
    · simp only [run_ok, hold, hnew, reduceCtorEq, false_and, exists_false]
    · have hrespects (head : Head) (hu : e.symbols.Knows head) :
          head.Respects SameOutcome (e.reentry depth) (e.reentry depth) :=
        ⟨fun _ hrule => he.operator hu hrule, fun _ _ _ _ => .refl _⟩
      have hsame := halike.related EvalM.sameOutcome hrespects (fun _ _ h => h.sameOutcome) none
      simp only [run, hold, hnew]
      exact hsame.ok_iff

/-- `x + x` -/
theorem evaluate_named_text :
    (standard.defineNames [("x", .string "a")]).evaluate 1 (.tokens [.name "x", .operator "+", .name "x"]) default =
      .ok (.string "aa") default := by
  have htrimmed : (standard.defineNames [("x", .string "a")]).symbols.Trimmed :=
    SymbolTable.trimmed_standard.constant "x" (.string "a")
  have hx : (standard.defineNames [("x", .string "a")]).symbols.get? "x" = some (.constant "x" (.string "a")) := rfl
  exact (evaluate_named_iff (htrimmed.readsValues rfl) rfl rfl hx 1 [.name "x", .operator "+", .name "x"] default
    (.string "aa") default).2 rfl

end Evaluator

end Formula
