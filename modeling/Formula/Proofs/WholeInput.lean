import Formula.Proofs.Evaluations
import Formula.Proofs.Spelling

/-!
# What is left when an evaluation succeeds

An evaluation that succeeds has read its tokens up to the end, but the end is told by its spelling, and a name or
operator may be spelled like it. So it has read all tokens, or it has stopped in front of such a token, and then it
never looks at what stands behind that token (`run_reads`). The latter holds because a reading only depends on the
tokens up to the one it stops at: the others can be swapped for any (`Reads.swap`).
-/

namespace Formula

open Cursor

variable {table : SymbolTable} {old new : List Token}

/-! ## Swapping the tokens behind a place -/

/-- The two cursors differ in the last of their unread tokens, which are `old` for the one and `new` for the other. -/
inductive Cursor.Swapped (old new : List Token) : Cursor → Cursor → Prop
  | intro (front : List Token) (active : Head) (depth : Nat) :
      Swapped old new ⟨front ++ old, active, depth⟩ ⟨front ++ new, active, depth⟩

theorem Cursor.Swapped.active_eq {c d : Cursor} : Swapped old new c d → d.active = c.active
  | .intro .. => rfl

theorem Cursor.Swapped.depth_eq {c d : Cursor} : Swapped old new c d → d.depth = c.depth
  | .intro .. => rfl

theorem Cursor.Swapped.atDepth {c d : Cursor} (depth : Nat) :
    Swapped old new c d → Swapped old new (c.atDepth depth) (d.atDepth depth)
  | .intro front active _ => .intro front active depth

theorem Cursor.Swapped.split {c d : Cursor} :
    Swapped old new c d → ∃ front, c.unread = front ++ old ∧ d = { c with unread := front ++ new }
  | .intro front _ _ => ⟨front, rfl, rfl⟩

/-- What was read up to this cursor stands in front of these tokens: they are unread, and if there are none, the end
behind them has not been read either. -/
structure Cursor.InFront (table : SymbolTable) (old : List Token) (c : Cursor) : Prop where
  length_le : old.length ≤ c.unread.length
  not_end : old = [] → ¬ Stands table [] c

/-- Behind the end there is the end again. -/
theorem Cursor.Stands.reaches_nil {c c' : Cursor} (h : Stands table [] c) (hr : Reaches table c c') :
    Stands table [] c' := by
  suffices hplace : ∀ {p q : Head × List Token}, Relation.ReflTransGen (Follows table) p q →
      next table [] = (.ok p.1, p.2) → next table [] = (.ok q.1, q.2) from hplace hr h
  intro p q hr hp
  induction hr with
  | refl => exact hp
  | tail _ hf ih =>
    simp only [next, Prod.mk.injEq] at ih
    rw [Follows, ← ih.2] at hf
    exact hf

theorem Cursor.InFront.of_reaches {c c' : Cursor} (h : InFront table old c') (hr : Reaches table c c') :
    InFront table old c where
  length_le := Nat.le_trans h.length_le hr.shorter
  not_end hold hs := h.not_end hold (hs.reaches_nil hr)

theorem Cursor.InFront.of_atDepth {c : Cursor} {depth : Nat} (h : InFront table old (c.atDepth depth)) :
    InFront table old c :=
  ⟨h.length_le, h.not_end⟩

/-- A move that does not reach the tokens that are swapped. -/
theorem Cursor.Moves.swap {c c' d : Cursor} (h : Moves table c c') (hs : Swapped old new c d)
    (hl : InFront table old c') : ∃ d', Moves table d d' ∧ Swapped old new c' d' := by
  obtain ⟨unread, active', depth'⟩ := c'
  obtain ⟨front, active, depth⟩ := hs
  obtain ⟨hn, hd⟩ := h
  simp only at hn hd
  subst hd
  cases front with
  | nil =>
    -- the move would take the first of the tokens that are swapped, or the end if there are none
    cases old with
    | nil => exact absurd hn (hl.not_end rfl)
    | cons t rest =>
      have hlength : (t :: rest).length ≤ unread.length := hl.length_le
      simp only [List.nil_append, next, Prod.mk.injEq] at hn
      rw [← hn.2, List.length_cons] at hlength
      omega
  | cons t front =>
    simp only [List.cons_append, next, Prod.mk.injEq] at hn
    obtain ⟨hu, rfl⟩ := hn
    refine ⟨⟨front ++ new, active', depth'⟩, ⟨?_, rfl⟩, .intro ..⟩
    simp only [List.cons_append, next, hu]

theorem Cursor.Passes.swap {id : String} {c c' d : Cursor} (h : Passes table id c c') (hs : Swapped old new c d)
    (hl : InFront table old c') :
    ∃ d', Passes table id d d' ∧ Swapped old new c' d' := by
  obtain ⟨d', hm, hs'⟩ := h.2.swap hs hl
  exact ⟨d', ⟨by rw [hs.active_eq]; exact h.1, hm⟩, hs'⟩

namespace Node

mutual

/-- A reading does not depend on the tokens behind the place where it stops. -/
theorem Reads.swap {power : BindingPower} {c c' d : Cursor} {node : Node} :
    Reads table power c node c' → Swapped old new c d → InFront table old c' →
      ∃ d', Reads table power d node d' ∧ Swapped old new c' d'
  | .intro hlt hm hx he, hs, hl => by
    have hl₃ := hl.of_atDepth
    have hl₂ := hl₃.of_reaches he.reaches
    have hl₁ := hl₂.of_reaches hx.reaches
    obtain ⟨d₁, hm', hs₁⟩ := hm.swap (hs.atDepth _) hl₁
    obtain ⟨d₂, hx', hs₂⟩ := hx.swap hs₁ hl₂
    obtain ⟨d₃, he', hs₃⟩ := he.swap hs₂ hl₃
    rw [← hs.active_eq] at hx'
    rw [← hs.depth_eq] at hlt hm' ⊢
    exact ⟨_, .intro hlt hm' hx' he', hs₃.atDepth _⟩

theorem Extends.swap {power : BindingPower} {c c' d : Cursor} {left node : Node} :
    Extends table power left c node c' → Swapped old new c d → InFront table old c' →
      ∃ d', Extends table power left d node d' ∧ Swapped old new c' d'
  | .stop hp, hs, _ => ⟨d, .stop (by rw [hs.active_eq]; exact hp), hs⟩
  | .step hp hlt hm ht he, hs, hl => by
    have hl₂ := hl.of_reaches he.reaches
    have hl₁ := hl₂.of_reaches ht.reaches
    obtain ⟨d₁, hm', hs₁⟩ := hm.swap (hs.atDepth _) hl₁
    obtain ⟨d₂, ht', hs₂⟩ := ht.swap hs₁ hl₂
    obtain ⟨d₃, he', hs₃⟩ := he.swap hs₂ hl
    rw [← hs.active_eq] at hp ht'
    rw [← hs.depth_eq] at hlt hm'
    exact ⟨d₃, .step hp hlt hm' ht' he', hs₃⟩

theorem ReadsLeading.swap {head : Head} {c c' d : Cursor} {node : Node} :
    ReadsLeading table head c node c' → Swapped old new c d → InFront table old c' →
      ∃ d', ReadsLeading table head d node d' ∧ Swapped old new c' d'
  | .leaf hf hm, hs, _ => ⟨d, .leaf hf hm, hs⟩
  | .operand hf h, hs, hl => by
    obtain ⟨d', h', hs'⟩ := h.swap hs hl
    exact ⟨d', .operand hf h', hs'⟩
  | .sign hf h, hs, hl => by
    obtain ⟨d', h', hs'⟩ := h.swap hs hl
    exact ⟨d', .sign hf h', hs'⟩
  | .grouping hf h hp, hs, hl => by
    obtain ⟨d₁, h', hs₁⟩ := h.swap hs (hl.of_reaches hp.2.onward.reaches)
    obtain ⟨d₂, hp', hs₂⟩ := hp.swap hs₁ hl
    exact ⟨d₂, .grouping hf h' hp', hs₂⟩
  | .array hf h, hs, hl => by
    obtain ⟨d', h', hs'⟩ := h.swap hs hl
    exact ⟨d', .array hf h', hs'⟩
  | .bareCall hm hp hq, hs, hl => by
    obtain ⟨d₁, hp', hs₁⟩ := hp.swap hs (hl.of_reaches hq.2.onward.reaches)
    obtain ⟨d₂, hq', hs₂⟩ := hq.swap hs₁ hl
    exact ⟨d₂, .bareCall hm hp' hq', hs₂⟩
  | .call hm hb hp h, hs, hl => by
    obtain ⟨d₁, hp', hs₁⟩ := hp.swap hs (hl.of_reaches h.onward.reaches)
    obtain ⟨d₂, h', hs₂⟩ := h.swap hs₁ hl
    exact ⟨d₂, .call hm hb hp' h', hs₂⟩

theorem ReadsTrailing.swap {head : Head} {left node : Node} {c c' d : Cursor} :
    ReadsTrailing table head left c node c' → Swapped old new c d → InFront table old c' →
      ∃ d', ReadsTrailing table head left d node d' ∧ Swapped old new c' d'
  | .leaf hf, hs, _ => ⟨d, .leaf hf, hs⟩
  | .binary hf h, hs, hl => by
    obtain ⟨d', h', hs'⟩ := h.swap hs hl
    exact ⟨d', .binary hf h', hs'⟩
  | .ternary hf ha hp hb, hs, hl => by
    have hl₂ := hl.of_reaches hb.onward.reaches
    have hl₁ := hl₂.of_reaches hp.2.onward.reaches
    obtain ⟨d₁, ha', hs₁⟩ := ha.swap hs hl₁
    obtain ⟨d₂, hp', hs₂⟩ := hp.swap hs₁ hl₂
    obtain ⟨d₃, hb', hs₃⟩ := hb.swap hs₂ hl
    exact ⟨d₃, .ternary hf ha' hp' hb', hs₃⟩

theorem ReadsList.swap {closing : String} {c c' d : Cursor} {items : List Node} :
    ReadsList table closing c items c' → Swapped old new c d → InFront table old c' →
      ∃ d', ReadsList table closing d items d' ∧ Swapped old new c' d'
  | .empty hp, hs, hl => by
    obtain ⟨d', hp', hs'⟩ := hp.swap hs hl
    exact ⟨d', .empty hp', hs'⟩
  | .filled hc h hp, hs, hl => by
    obtain ⟨d₁, h', hs₁⟩ := h.swap hs (hl.of_reaches hp.2.onward.reaches)
    obtain ⟨d₂, hp', hs₂⟩ := hp.swap hs₁ hl
    rw [← hs.active_eq] at hc
    exact ⟨d₂, .filled hc h' hp', hs₂⟩

theorem ReadsItems.swap {c c' d : Cursor} {items : List Node} :
    ReadsItems table c items c' → Swapped old new c d → InFront table old c' →
      ∃ d', ReadsItems table d items d' ∧ Swapped old new c' d'
  | .last h hc, hs, hl => by
    obtain ⟨d', h', hs'⟩ := h.swap hs hl
    rw [← hs'.active_eq] at hc
    exact ⟨d', .last h' hc, hs'⟩
  | .more h hp hr, hs, hl => by
    have hl₂ := hl.of_reaches hr.onward.reaches
    have hl₁ := hl₂.of_reaches hp.2.onward.reaches
    obtain ⟨d₁, h', hs₁⟩ := h.swap hs hl₁
    obtain ⟨d₂, hp', hs₂⟩ := hp.swap hs₁ hl₂
    obtain ⟨d₃, hr', hs₃⟩ := hr.swap hs₂ hl
    exact ⟨d₃, .more h' hp' hr', hs₃⟩

end

end Node

/-! ## Evaluations that succeed -/

/-- A name or operator with the spelling of the end. -/
def Token.IsEnd (t : Token) : Prop := (t.kind = .name ∨ t.kind = .operator) ∧ t.payload.display = endId

theorem Token.isEnd_of_resolve {t : Token} {head : Head} (h : table.resolve t = .ok head) (hid : head.id = endId) :
    t.IsEnd := by
  obtain ⟨kind, payload⟩ := t
  cases kind with
  | number =>
    cases payload with
    | number x => exact absurd ((SymbolTable.use_id h).symm.trans hid) (by decide)
    | text s => cases h
  | string => exact absurd ((SymbolTable.use_id h).symm.trans hid) (by decide)
  | name => exact ⟨.inl rfl, (SymbolTable.use_id h).symm.trans hid⟩
  | operator => exact ⟨.inr rfl, (SymbolTable.use_id h).symm.trans hid⟩

/-- In front of a token, swapping what stands behind it. -/
theorem Cursor.Stands.swap {front : List Token} {t : Token} {c : Cursor}
    (hs : Stands table (front ++ t :: old) c) (new : List Token) :
    ∃ d, Stands table (front ++ t :: new) d ∧ Swapped old new c d := by
  obtain ⟨unread, active, depth⟩ := c
  cases front with
  | nil =>
    obtain ⟨hu, rfl⟩ := hs.cons
    exact ⟨⟨new, active, depth⟩, by rw [List.nil_append, Stands, next, hu], .intro [] active depth⟩
  | cons t' front =>
    have hunread : unread = front ++ t :: old := hs.cons.2
    subst hunread
    have hd : Swapped old new ⟨front ++ t :: old, active, depth⟩ ⟨front ++ t :: new, active, depth⟩ := by
      simpa using Swapped.intro (front ++ [t]) active depth
    exact ⟨_, by rw [List.cons_append, Stands, next, hs.cons.1], hd⟩

namespace Node

/-- A tree is read from all tokens, or up to a token that is spelled like the end, and then what stands behind it can be
swapped. -/
theorem ofTokens_reads {tokens : List Token} {root : Node} (h : ofTokens table tokens = .ok root) :
    ∃ c c' front rest, start table tokens = .ok c ∧ expression table .none c = .ok root c' ∧ tokens = front ++ rest ∧
      Stands table rest c' ∧ (∀ t ∈ front, ∃ head, table.resolve t = .ok head) ∧
      (rest = [] ∨ ∃ t ignored, rest = t :: ignored ∧ t.IsEnd ∧
        (ignored ≠ [] → ∀ more, ofTokens table (front ++ t :: more) = .ok root)) := by
  obtain ⟨c, c', hs, hr, he⟩ := ofTokens_ok.1 h
  obtain ⟨hstands, hdepth⟩ := start_ok.1 hs
  obtain ⟨front, rest, rfl, hs', hfront⟩ := hstands.onward hr.onward
  refine ⟨c, c', front, rest, hs, expression_ok.2 hr, rfl, hs', hfront, ?_⟩
  cases rest with
  | nil => exact .inl rfl
  | cons t ignored =>
    obtain ⟨hu, hunread⟩ := hs'.cons
    refine .inr ⟨t, ignored, rfl, Token.isEnd_of_resolve hu he, fun hne more => ?_⟩
    obtain ⟨d, hd, hswap⟩ := hstands.swap more
    have hfront' : InFront table ignored c' :=
      ⟨Nat.le_of_eq (congrArg List.length hunread.symm), fun hnil => absurd hnil hne⟩
    obtain ⟨d', hr', hswap'⟩ := hr.swap hswap hfront'
    have hstart : start table (front ++ t :: more) = .ok d := start_ok.2 ⟨hd, hswap.depth_eq.trans hdepth⟩
    exact ofTokens_ok.2 ⟨d, d', hstart, hr', by rw [hswap'.active_eq]; exact he⟩

end Node

namespace Evaluator

/-- Tokens that have a value have all been read, up to the end that stands behind them, and each of them has a use; or
reading has stopped in front of a token that is spelled like the end, and the value stays the same whatever stands
behind it. -/
theorem run_reads {e : Evaluator} {depth : Nat} {tokens : List Token} {v : Value} {draws draws' : Draws}
    (h : e.run depth tokens draws = .ok v draws') :
    ∃ root c c' front rest, start e.symbols tokens = .ok c ∧ Node.expression e.symbols .none c = .ok root c' ∧
      tokens = front ++ rest ∧ Stands e.symbols rest c' ∧ (∀ t ∈ front, ∃ head, e.symbols.resolve t = .ok head) ∧
      (rest = [] ∨ ∃ t ignored, rest = t :: ignored ∧ t.IsEnd ∧
        (ignored ≠ [] → ∀ more, e.run depth (front ++ t :: more) draws = .ok v draws')) := by
  cases depth with
  | zero => exact absurd h run_zero_ok
  | succ depth =>
    obtain ⟨root, ht, hv⟩ := run_ok.1 h
    obtain ⟨c, c', front, rest, hs, hr, htok, hs', hfront, hrest⟩ := Node.ofTokens_reads ht
    refine ⟨root, c, c', front, rest, hs, hr, htok, hs', hfront, ?_⟩
    rcases hrest with hrest | ⟨t, ignored, hrest, hend, hmore⟩
    · exact .inl hrest
    · exact .inr ⟨t, ignored, hrest, hend, fun hne more => run_ok.2 ⟨root, hmore hne more, hv⟩⟩

/-- `"b"` behind a token that is spelled like the end. -/
theorem run_end_token :
    standard.run 1 [.string "a", .operator endId, .string "b"] default = .ok (.string "a") default ∧
      ∃ c front rest, [.string "a", .operator endId, .string "b"] = front ++ rest ∧ Stands standard.symbols rest c ∧
        (rest = [] ∨ ∃ t ignored, rest = t :: ignored ∧ t.IsEnd) := by
  have hr := SymbolTable.Extended.standard.regular
  have ha : standard.symbols.resolve (.string "a") = .ok (.text "a") := Head.isUse_text hr "a"
  have hend : standard.symbols.resolve (.operator endId) = .ok (.simple endId) := Head.resolve_simple hr (by decide)
  have hs : start standard.symbols [.string "a", .operator endId, .string "b"] =
      .ok ⟨[.operator endId, .string "b"], .text "a", 0⟩ := start_ok.2 ⟨by rw [Stands, next, ha], rfl⟩
  have hm : Moves standard.symbols ⟨[.operator endId, .string "b"], .text "a", 1⟩
      ⟨[.string "b"], .simple endId, 1⟩ := ⟨by rw [next, hend], rfl⟩
  have hread : Node.Reads standard.symbols .none ⟨[.operator endId, .string "b"], .text "a", 0⟩
      (.leaf (.text "a")) _ := .intro (by decide) hm (.leaf rfl rfl) (.stop (Nat.le_refl _))
  have hrun : standard.run 1 [.string "a", .operator endId, .string "b"] default = .ok (.string "a") default :=
    run_ok.2 ⟨_, Node.ofTokens_ok.2 ⟨_, _, hs, hread, rfl⟩, rfl⟩
  obtain ⟨_, _, c, front, rest, -, -, htok, hstands, -, hrest⟩ := run_reads hrun
  refine ⟨hrun, c, front, rest, htok, hstands, ?_⟩
  rcases hrest with hrest | ⟨t, ignored, hrest, hend', -⟩
  · exact .inl hrest
  · exact .inr ⟨t, ignored, hrest, hend'⟩

end Evaluator

end Formula
