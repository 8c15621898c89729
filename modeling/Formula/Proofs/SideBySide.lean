import Formula.Proofs.Congruence
import Formula.Proofs.Reached
import Formula.Proofs.Refusals

/-!
# Two readings side by side

Two lists of tokens that differ in some places only are read side by side: mostly the cursors stand on the same symbol
use (`near`), and in front of a place where the lists differ they stand on different ones (`apart`), which are no
separators and do not bind to their left. If one leading form is read instead of the other at such a place, the two
readings go on side by side (`SideBySide.tracks_ofTokens`): both fail, or their trees are alike but for those leading
forms, unless the first one fails in a way that releases the second. The lists may be read with different tables. A
place of this kind must not stand behind a function, where the bracket of a call would be looked for, unless neither of
the two uses there is that bracket.
-/

namespace Formula

open Cursor

/-! ## Outcomes -/

/-- The failures of the first step that release the second, and those of the two steps that go together. -/
structure Failures where
  release : EvalError → Prop
  pair : EvalError → EvalError → Prop

/-- The outcomes of two steps side by side: the first releases the second, or both fail, or both yield results. -/
inductive Tracks {α β : Type} (failures : Failures) (Q : α → Cursor → β → Cursor → Prop) :
    EStateM.Result EvalError Cursor α → EStateM.Result EvalError Cursor β → Prop
  | released {e : EvalError} {c : Cursor} {r : EStateM.Result EvalError Cursor β} : failures.release e →
      Tracks failures Q (.error e c) r
  | failed {e e' : EvalError} {c d : Cursor} : failures.pair e e' → Tracks failures Q (.error e c) (.error e' d)
  | ok {a : α} {b : β} {c d : Cursor} : Q a c b d → Tracks failures Q (.ok a c) (.ok b d)

namespace Tracks

variable {α β γ δ : Type} {failures : Failures} {Q : α → Cursor → β → Cursor → Prop}
  {Q' : γ → Cursor → δ → Cursor → Prop} {x : CursorM α} {y : CursorM β} {f : α → CursorM γ} {g : β → CursorM δ}
  {c d : Cursor}

theorem bind (hx : Tracks failures Q (x c) (y d)) (hf : ∀ a c' b d', Q a c' b d' → Tracks failures Q' (f a c') (g b d')) :
    Tracks failures Q' ((x >>= f) c) ((y >>= g) d) := by
  generalize hr : x c = r, hs : y d = s at hx
  simp only [Bind.bind, EStateM.bind, hr, hs]
  cases hx with
  | released h => exact .released h
  | failed h => exact .failed h
  | ok h => exact hf _ _ _ _ h

theorem mono {Q₁ : α → Cursor → β → Cursor → Prop} {r : EStateM.Result EvalError Cursor α}
    {s : EStateM.Result EvalError Cursor β} (h : Tracks failures Q r s) (hQ : ∀ a c b d, Q a c b d → Q₁ a c b d) :
    Tracks failures Q₁ r s := by
  cases h with
  | released h => exact .released h
  | failed h => exact .failed h
  | ok h => exact .ok (hQ _ _ _ _ h)

/-- Looking at the active uses moves neither cursor. -/
theorem current {f : Head → CursorM γ} {g : Head → CursorM δ} (h : Tracks failures Q' (f c.active c) (g d.active d)) :
    Tracks failures Q' ((Cursor.current >>= f) c) ((Cursor.current >>= g) d) := h

/-- Steps that yield results are left behind. -/
theorem after {a : α} {b : β} {c' d' : Cursor} (hx : x c = .ok a c') (hy : y d = .ok b d')
    (h : Tracks failures Q' (f a c') (g b d')) : Tracks failures Q' ((x >>= f) c) ((y >>= g) d) := by
  rw [bind_eq_of_ok hx, bind_eq_of_ok hy]
  exact h

end Tracks

namespace Node

/-! ## Budgets -/

/-- Whatever covers the unread tokens is enough for a list. -/
theorem readItems_budget {table : SymbolTable} {read : Reader} {depth : Nat} (hread : ReadsAt table read depth) :
    ∀ {m n : Nat} {c : Cursor}, c.depth = depth → c.unread.length ≤ m → c.unread.length ≤ n →
      readItems table read m c = readItems table read n c := by
  -- behind a comma there are fewer unread tokens
  have hrest {c c₁ c₂ : Cursor} {item : Node} {n : Nat} (hd : c.depth = depth) (hn : c.unread.length ≤ n + 1)
      (h : read 0 c = .ok item c₁) (hp : Passes table "," c₁ c₂) : c₂.depth = depth ∧ c₂.unread.length ≤ n := by
    have h := (hread hd).1 h
    refine ⟨by rw [hp.2.2, h.depth_eq, hd], ?_⟩
    have h₁ := h.unread_lt hp.1
    have h₂ := hp.2.onward.reaches.shorter
    omega
  have hlast {c : Cursor} {n : Nat} (hd : c.depth = depth) (hu : c.unread = []) :
      readItems table read n c = readItems table read 0 c := by
    cases n with
    | zero => rfl
    | succ n =>
      refine bind_congr_of_ok fun item c₁ hitem => current_bind.trans ?_
      rw [if_neg (((hread hd).1 hitem).no_comma hu)]
  intro m
  induction m with
  | zero =>
    intro n c hd hm _
    exact (hlast hd (List.eq_nil_of_length_eq_zero (Nat.le_zero.1 hm))).symm
  | succ m ih =>
    intro n c hd hm hn
    cases n with
    | zero => exact hlast hd (List.eq_nil_of_length_eq_zero (Nat.le_zero.1 hn))
    | succ n =>
      refine bind_congr_of_ok fun item c₁ hitem => bind_congr_of_ok fun active c₂ hactive => ?_
      obtain ⟨rfl, rfl⟩ := current_ok.1 hactive
      split
      · next hcomma =>
        refine bind_congr_of_ok fun head c₂ hadvance => bind_congr_at ?_ fun _ _ _ => rfl
        have hp : Passes table "," c₁ c₂ := ⟨hcomma, (advance_ok.1 hadvance).2⟩
        obtain ⟨hd₂, hm₂⟩ := hrest hd hm hitem hp
        exact ih hd₂ hm₂ (hrest hd hn hitem hp).2
      · rfl

end Node

/-! ## Pairs of cursors -/

/-- A spelling that a reader asks for: a separator, a closing bracket or the end. -/
def SymbolTable.AsksFor (table : SymbolTable) (id : String) : Prop :=
  id ∈ Library.simpleIds ∨ ∃ head, table.Knows head ∧ head.symbol.kind.leadingForm? = some (.grouping id)

/-- Where groupings are closed as in the library, readers ask for the spellings of the library only. -/
theorem SymbolTable.simple_of_asksFor {table : SymbolTable} (hclosing : ∀ {head closing}, table.Knows head →
      head.symbol.kind.leadingForm? = some (.grouping closing) → closing = ")" ∨ closing = "\x7d")
    {id : String} (h : table.AsksFor id) : id ∈ Library.simpleIds := by
  rcases h with hid | ⟨head, hu, hl⟩
  · exact hid
  · rcases hclosing hu hl with rfl | rfl <;> decide

/-- The cursors of two readings, where they stand on the same use and where they are `apart`. -/
structure SideBySide (table table' : SymbolTable) (failures : Failures) (near apart : Cursor → Cursor → Prop)
    (instead : Node → Node → Prop) : Prop where
  pair_self (e : EvalError) : failures.pair e e
  depth {c d : Cursor} : near c d ∨ apart c d → d.depth = c.depth
  near_atDepth {c d : Cursor} (n : Nat) : near c d → near (c.atDepth n) (d.atDepth n)
  apart_atDepth {c d : Cursor} (n : Nat) : apart c d → apart (c.atDepth n) (d.atDepth n)
  active {c d : Cursor} : near c d → table.Knows c.active ∧ d.active = c.active
  /-- From the same use both move on. They come apart behind a function only where neither stands on the bracket of a
  call. -/
  advance {c d : Cursor} : near c d →
    Tracks failures (fun a c' b d' => a = c.active ∧ b = c.active ∧ c'.depth = c.depth ∧
      (near c' d' ∨ apart c' d' ∧
        (c.active.symbol.kind.mode? = none ∨ c'.active.id ≠ "(" ∧ d'.active.id ≠ "(")))
      (advance table c) (advance table' d)
  apart_power {c d : Cursor} : apart c d → c.active.power = .none ∧ d.active.power = .none
  apart_id {c d : Cursor} : apart c d → ∀ id, table.AsksFor id → c.active.id ≠ id ∧ d.active.id ≠ id
  apart_failed {c d : Cursor} (id : String) : apart c d →
    failures.pair (.badToken id c.active.id) (.badToken id d.active.id)
  /-- Where the cursors are apart, one leading form is read instead of the other. -/
  leading {c d : Cursor} {levels : Nat} : apart c d → c.depth + levels = maxDepth →
    Tracks failures (fun a c' b d' => instead a b ∧ (near c' d' ∨ apart c' d') ∧ c'.depth = c.depth)
      ((Cursor.advance table >>= Node.readLeading table (Node.readExpression table levels)) c)
      ((Cursor.advance table' >>= Node.readLeading table' (Node.readExpression table' levels)) d)

namespace SideBySide

open Node

variable {table table' : SymbolTable} {failures : Failures} {near apart : Cursor → Cursor → Prop}
  {instead : Node → Node → Prop} {c d : Cursor}

/-- Trees that are alike, with the cursors behind them. -/
def Trees (table : SymbolTable) (near apart : Cursor → Cursor → Prop) (instead : Node → Node → Prop) (depth : Nat) :
    Node → Cursor → Node → Cursor → Prop :=
  fun a c b d => Alike table.Knows instead a b ∧ (near c d ∨ apart c d) ∧ c.depth = depth

/-- Lists of trees that are alike, with the cursors behind them. -/
def Lists (table : SymbolTable) (near apart : Cursor → Cursor → Prop) (instead : Node → Node → Prop) (depth : Nat) :
    List Node → Cursor → List Node → Cursor → Prop :=
  fun a c b d => AlikeAll table.Knows instead a b ∧ (near c d ∨ apart c d) ∧ c.depth = depth

variable (h : SideBySide table table' failures near apart instead)
include h

/-- Without levels left both are refused. -/
theorem tooDeep {α β : Type} {Q : α → Cursor → β → Cursor → Prop} (hp : near c d ∨ apart c d) :
    Tracks failures Q (Cursor.tooDeep c) (Cursor.tooDeep d) := by
  refine .current ?_
  rcases hp with hn | ha
  · rw [(h.active hn).2]
    exact .failed (h.pair_self _)
  · exact .failed (h.apart_failed _ ha)

theorem expect_of_near (id : String) (hn : near c d) :
    Tracks failures (fun _ c' _ d' => (near c' d' ∨ apart c' d') ∧ c'.depth = c.depth) (Cursor.expect table id c)
      (Cursor.expect table' id d) := by
  refine .current ?_
  rw [(h.active hn).2]
  by_cases hid : c.active.id = id
  · rw [if_pos hid, if_pos hid]
    exact (h.advance hn).mono fun _ _ _ _ ⟨_, _, hd', hp'⟩ => ⟨hp'.imp_right And.left, hd'⟩
  · rw [if_neg hid, if_neg hid]
    exact .failed (h.pair_self _)

/-- Where neither stands on the spelling that is expected, both fail. -/
theorem expect_of_ne {id : String} (ha : apart c d) (hc : c.active.id ≠ id) (hd : d.active.id ≠ id) :
    Tracks failures (fun _ _ _ _ => False) (Cursor.expect table id c) (Cursor.expect table' id d) := by
  refine .current ?_
  rw [if_neg hc, if_neg hd]
  exact .failed (h.apart_failed id ha)

theorem expect {id : String} (hid : table.AsksFor id) (hp : near c d ∨ apart c d) :
    Tracks failures (fun _ c' _ d' => (near c' d' ∨ apart c' d') ∧ c'.depth = c.depth) (Cursor.expect table id c)
      (Cursor.expect table' id d) := by
  rcases hp with hn | ha
  · exact h.expect_of_near id hn
  · obtain ⟨hc, hd⟩ := h.apart_id ha id hid
    exact (h.expect_of_ne ha hc hd).mono fun _ _ _ _ hfalse => hfalse.elim

/-! ## Forms -/

section Forms

variable {read read' : Reader} {depth : Nat} (hread : ReadsAt table read depth) (hread' : ReadsAt table' read' depth)
  (hboth : ∀ ⦃power : BindingPower⦄ ⦃c d : Cursor⦄, near c d ∨ apart c d → c.depth = depth →
    Tracks failures (Trees table near apart instead depth) (read power c) (read' power d))
include hboth

theorem readItems : ∀ {budget : Nat} {c d : Cursor}, near c d ∨ apart c d → c.depth = depth →
    Tracks failures (Lists table near apart instead depth) (Node.readItems table read budget c)
      (Node.readItems table' read' budget d)
  | 0, c, d, hp, hd => by
    refine (hboth hp hd).bind fun a c' b d' hq => ?_
    exact .ok ⟨.cons hq.1 .nil, hq.2⟩
  | budget + 1, c, d, hp, hd => by
    refine (hboth hp hd).bind fun a c' b d' ⟨hab, hp', hd'⟩ => ?_
    refine .current ?_
    rcases hp' with hn | ha
    · rw [(h.active hn).2]
      split
      · refine (h.advance hn).bind fun _ c₂ _ d₂ ⟨_, _, hd₂, hp₂⟩ => ?_
        refine (readItems (hp₂.imp_right And.left) (hd₂.trans hd')).bind fun as c₃ bs d₃ ⟨has, hp₃, hd₃⟩ => ?_
        exact .ok ⟨.cons hab has, hp₃, hd₃⟩
      · exact .ok ⟨.cons hab .nil, .inl hn, hd'⟩
    · obtain ⟨hc, hd⟩ := h.apart_id ha "," (.inl (by decide))
      rw [if_neg hc, if_neg hd]
      exact .ok ⟨.cons hab .nil, .inr ha, hd'⟩

include hread hread'

theorem readList {closing : String} (hclosing : table.AsksFor closing) {c d : Cursor} (hp : near c d ∨ apart c d)
    (hd : c.depth = depth) :
    Tracks failures (Lists table near apart instead depth) (Node.readList table read closing c)
      (Node.readList table' read' closing d) := by
  refine .after (get_ok.2 ⟨rfl, rfl⟩) (get_ok.2 ⟨rfl, rfl⟩) ?_
  have hexpect := h.expect hclosing hp
  -- a budget that covers the unread tokens of both
  have hitems : Tracks failures (Lists table near apart instead depth)
      (Node.readItems table read (max c.unread.length d.unread.length) c)
      (Node.readItems table' read' (max c.unread.length d.unread.length) d) := readItems h hboth hp hd
  rw [readItems_budget hread hd (Nat.le_max_left _ _) (Nat.le_refl _),
    readItems_budget hread' (by rw [h.depth hp, hd]) (Nat.le_max_right _ _) (Nat.le_refl _)] at hitems
  have hfilled : Tracks failures (Lists table near apart instead depth)
      ((Node.readItems table read c.unread.length >>= fun items =>
        Cursor.expect table closing >>= fun _ => pure items) c)
      ((Node.readItems table' read' d.unread.length >>= fun items =>
        Cursor.expect table' closing >>= fun _ => pure items) d) := by
    refine hitems.bind fun as c₁ bs d₁ ⟨has, hp₁, hd₁⟩ => (h.expect hclosing hp₁).bind fun _ c₂ _ d₂ ⟨hp₂, hd₂⟩ => ?_
    exact .ok ⟨has, hp₂, hd₂.trans hd₁⟩
  rcases hp with hn | ha
  · rw [(h.active hn).2]
    split
    · refine hexpect.bind fun _ c₁ _ d₁ ⟨hp₁, hd₁⟩ => ?_
      exact .ok ⟨.nil, hp₁, hd₁.trans hd⟩
    · exact hfilled
  · obtain ⟨hc, hd'⟩ := h.apart_id ha closing hclosing
    rw [if_neg hc, if_neg hd']
    exact hfilled

theorem readLeadingForm {head : Head} (hu : table.Knows head) {form : LeadingForm}
    (hl : head.symbol.kind.leadingForm? = some form) {c d : Cursor} (hp : near c d ∨ apart c d) (hd : c.depth = depth) :
    Tracks failures (Trees table near apart instead depth) (Node.readLeadingForm table read head form c)
      (Node.readLeadingForm table' read' head form d) := by
  cases form with
  | operand | sign =>
    refine (hboth hp hd).bind fun a c₁ b d₁ ⟨hab, hp₁, hd₁⟩ => ?_
    exact .ok ⟨.unary hu hab, hp₁, hd₁⟩
  | grouping closing =>
    refine (hboth hp hd).bind fun a c₁ b d₁ ⟨hab, hp₁, hd₁⟩ => ?_
    refine (h.expect (.inr ⟨head, hu, hl⟩) hp₁).bind fun _ c₂ _ d₂ ⟨hp₂, hd₂⟩ => ?_
    exact .ok ⟨.unary hu hab, hp₂, hd₂.trans hd₁⟩
  | array =>
    refine (h.readList hread hread' hboth (.inl (by decide)) hp hd).bind fun as c₁ bs d₁ ⟨has, hp₁, hd₁⟩ => ?_
    exact .ok ⟨.sequence hu has, hp₁, hd₁⟩

/-- The brackets of a call are looked for on the same use, or on uses that are no bracket of a call. -/
theorem readCall {head : Head} (hu : table.Knows head) {mode : ArgumentMode} {c d : Cursor}
    (hp : near c d ∨ apart c d ∧ c.active.id ≠ "(" ∧ d.active.id ≠ "(") (hd : c.depth = depth) :
    Tracks failures (Trees table near apart instead depth) (Node.readCall table read head mode c)
      (Node.readCall table' read' head mode d) := by
  rcases hp with hn | ⟨ha, hc, hd'⟩
  · refine (h.expect_of_near "(" hn).bind fun _ c₁ _ d₁ ⟨hp₁, hd₁⟩ => ?_
    by_cases hbare : mode = .bare
    · rw [if_pos hbare, if_pos hbare]
      refine (h.expect (.inl (by decide)) hp₁).bind fun _ c₂ _ d₂ ⟨hp₂, hd₂⟩ => ?_
      exact .ok ⟨.sequence hu .nil, hp₂, hd₂.trans (hd₁.trans hd)⟩
    · rw [if_neg hbare, if_neg hbare]
      refine (h.readList hread hread' hboth (.inl (by decide)) hp₁ (hd₁.trans hd)).bind ?_
      rintro as c₂ bs d₂ ⟨has, hp₂, hd₂⟩
      exact .ok ⟨.sequence hu has, hp₂, hd₂⟩
  · exact (h.expect_of_ne ha hc hd').bind fun _ _ _ _ hfalse => hfalse.elim

theorem readLeading {head : Head} (hu : table.Knows head) {c d : Cursor}
    (hp : near c d ∨ apart c d ∧ (head.symbol.kind.mode? = none ∨ c.active.id ≠ "(" ∧ d.active.id ≠ "("))
    (hd : c.depth = depth) :
    Tracks failures (Trees table near apart instead depth) (Node.readLeading table read head c)
      (Node.readLeading table' read' head d) := by
  have hp' := hp.imp_right And.left
  cases hl : head.symbol.kind.leadingForm? with
  | some form =>
    rw [readLeading_form hl, readLeading_form hl]
    exact h.readLeadingForm hread hread' hboth hu hl hp' hd
  | none =>
    cases hm : head.symbol.kind.mode? with
    | some mode =>
      rw [readLeading_mode hm, readLeading_mode hm]
      exact h.readCall hread hread' hboth hu (hp.imp_right (And.imp_right fun h => h.resolve_left (by simp [hm]))) hd
    | none =>
      rw [readLeading_none hl hm, readLeading_none hl hm]
      exact .ok ⟨.leaf hu, hp', hd⟩

omit hread hread'

theorem readTrailing {head : Head} (hu : table.Knows head) {left left' : Node}
    (hleft : Alike table.Knows instead left left') {c d : Cursor} (hp : near c d ∨ apart c d) (hd : c.depth = depth) :
    Tracks failures (Trees table near apart instead depth) (Node.readTrailing table read head left c)
      (Node.readTrailing table' read' head left' d) := by
  cases hf : head.symbol.kind.trailingForm? with
  | none =>
    rw [readTrailing_none hf, readTrailing_none hf]
    exact .ok ⟨.leaf hu, hp, hd⟩
  | some form =>
    cases form with
    | binary =>
      rw [readTrailing_binary hf, readTrailing_binary hf]
      refine (hboth hp hd).bind fun b c₁ b' d₁ ⟨hb, hp₁, hd₁⟩ => ?_
      exact .ok ⟨.binary hu hleft hb, hp₁, hd₁⟩
    | ternary =>
      rw [readTrailing_ternary hf, readTrailing_ternary hf]
      refine (hboth hp hd).bind fun a c₁ a' d₁ ⟨ha, hp₁, hd₁⟩ => ?_
      refine (h.expect (.inl (by decide)) hp₁).bind fun _ c₂ _ d₂ ⟨hp₂, hd₂⟩ => ?_
      refine (hboth hp₂ (hd₂.trans hd₁)).bind fun b c₃ b' d₃ ⟨hb, hp₃, hd₃⟩ => ?_
      exact .ok ⟨.ternary hu hleft ha hb, hp₃, hd₃⟩

end Forms

/-! ## Expressions -/

/-- With this many levels left, two expressions are read side by side. -/
def Reads (table table' : SymbolTable) (failures : Failures) (near apart : Cursor → Cursor → Prop)
    (instead : Node → Node → Prop) (levels : Nat) : Prop :=
  ∀ ⦃power : BindingPower⦄ ⦃c d : Cursor⦄, near c d ∨ apart c d → c.depth + levels = maxDepth →
    Tracks failures (Trees table near apart instead c.depth) (readExpression table levels power c)
      (readExpression table' levels power d)

omit h in
theorem Reads.at_depth {levels depth : Nat} (hboth : Reads table table' failures near apart instead levels)
    (hd : depth + levels = maxDepth) ⦃power : BindingPower⦄ ⦃c d : Cursor⦄ (hp : near c d ∨ apart c d)
    (hc : c.depth = depth) :
    Tracks failures (Trees table near apart instead depth) (readExpression table levels power c)
      (readExpression table' levels power d) := by
  subst hc
  exact hboth hp hd

/-- Behind the last trailing form the levels are closed. -/
theorem ascend (opened : Nat) {left left' : Node} (hleft : Alike table.Knows instead left left')
    (hp : near c d ∨ apart c d) :
    Tracks failures (Trees table near apart instead (c.depth - opened))
      ((Cursor.ascend opened >>= fun _ => (pure left : CursorM Node)) c)
      ((Cursor.ascend opened >>= fun _ => (pure left' : CursorM Node)) d) := by
  have hd := h.depth hp
  refine .after (a := ()) (b := ()) (ascend_ok.2 rfl) (ascend_ok.2 rfl) (.ok ⟨hleft, ?_, rfl⟩)
  rw [hd]
  exact hp.imp (h.near_atDepth _) (h.apart_atDepth _)

theorem extend_stop {levels opened : Nat} {power : BindingPower} {left left' : Node}
    (hleft : Alike table.Knows instead left left') (hp : near c d ∨ apart c d) (hstop : ¬ power < c.active.power) :
    Tracks failures (Trees table near apart instead (c.depth - opened)) (Node.extend table levels power opened left c)
      (Node.extend table' levels power opened left' d) := by
  have hstop' : ¬ power < d.active.power := by
    rcases hp with hn | ha
    · rwa [(h.active hn).2]
    · rw [(h.apart_power ha).2]
      exact Nat.not_lt_zero _
  rw [extend_of_not_lt hstop, extend_of_not_lt hstop']
  exact h.ascend opened hleft hp

/-- In front of an operator the cursors stand on the same use. -/
theorem near_of_lt {power : BindingPower} (hp : near c d ∨ apart c d) (hlt : power < c.active.power) : near c d := by
  rcases hp with hn | ha
  · exact hn
  · rw [(h.apart_power ha).1] at hlt
    exact absurd hlt (Nat.not_lt_zero _)

theorem extend {levels opened : Nat} {power : BindingPower} {left left' : Node}
    (hboth : ∀ n < levels, Reads table table' failures near apart instead n) (hleft : Alike table.Knows instead left left')
    (hp : near c d ∨ apart c d) (hd : c.depth + levels = maxDepth) :
    Tracks failures (Trees table near apart instead (c.depth - opened)) (Node.extend table levels power opened left c)
      (Node.extend table' levels power opened left' d) := by
  induction levels generalizing opened left left' c d with
  | zero =>
    by_cases hlt : power < c.active.power
    · have hactive := (h.active (h.near_of_lt hp hlt)).2
      rw [extend_zero hlt, extend_zero (by rwa [hactive])]
      exact h.tooDeep hp
    · exact h.extend_stop hleft hp hlt
  | succ levels ih =>
    by_cases hlt : power < c.active.power
    · have hn := h.near_of_lt hp hlt
      obtain ⟨hknows, hactive⟩ := h.active hn
      have hread := (hboth levels (Nat.lt_succ_self _)).at_depth (show c.depth + 1 + levels = maxDepth by omega)
      rw [extend_of_lt hlt (by omega), extend_of_lt (by rw [hactive]; exact hlt) (by rw [h.depth hp]; omega),
        h.depth hp]
      refine (h.advance (h.near_atDepth _ hn)).bind fun _ c₁ _ d₁ ⟨ha, hb, hd₁, hp₁⟩ => ?_
      rw [ha, hb]
      refine (h.readTrailing hread hknows hleft (hp₁.imp_right And.left) hd₁).bind ?_
      rintro whole c₂ whole' d₂ ⟨hwhole, hp₂, hd₂⟩
      have h' := @ih c₂ d₂ (opened + 1) whole whole' (fun n hn => hboth n (Nat.lt_succ_of_lt hn)) hwhole hp₂ (by omega)
      rwa [hd₂, Nat.add_sub_add_right] at h'
    · exact h.extend_stop hleft hp hlt

/-- Two expressions are read side by side. -/
theorem reads : ∀ levels, Reads table table' failures near apart instead levels
  | 0, _, _, _, hp, _ => h.tooDeep hp
  | levels + 1, power, c, d, hp, hd => by
    have hat (t : SymbolTable) : ReadsAt t (readExpression t levels) (c.atDepth (c.depth + 1)).depth :=
      readsAt_of_depth (by rw [atDepth_depth]; omega)
    have hread := (reads levels).at_depth (show c.depth + 1 + levels = maxDepth by omega)
    have hextend {left left' : Node} {c₂ d₂ : Cursor} (hleft : Alike table.Knows instead left left')
        (hp₂ : near c₂ d₂ ∨ apart c₂ d₂) (hd₂ : c₂.depth = c.depth + 1) :
        Tracks failures (Trees table near apart instead c.depth) (Node.extend table levels power 1 left c₂)
          (Node.extend table' levels power 1 left' d₂) := by
      have h' : Tracks failures (Trees table near apart instead (c₂.depth - 1)) (Node.extend table levels power 1 left c₂)
          (Node.extend table' levels power 1 left' d₂) := h.extend (fun n _ => reads n) hleft hp₂ (by omega)
      rwa [hd₂, Nat.add_sub_cancel] at h'
    have hdepth := h.depth hp
    rw [readExpression_of_lt (by omega), readExpression_of_lt (by omega), hdepth]
    rcases hp with hn | ha
    · have hknows := (h.active hn).1
      refine (h.advance (h.near_atDepth _ hn)).bind fun _ c₁ _ d₁ ⟨ha, hb, hd₁, hp₁⟩ => ?_
      rw [ha, hb]
      refine (h.readLeading (hat table) (hat table') hread hknows hp₁ hd₁).bind fun left c₂ left' d₂ ⟨hleft, hp₂, hd₂⟩ => ?_
      exact hextend hleft hp₂ hd₂
    · rw [← bind_assoc, ← bind_assoc]
      refine (h.leading (h.apart_atDepth _ ha) (by rw [atDepth_depth]; omega)).bind ?_
      rintro left c₂ left' d₂ ⟨hleft, hp₂, hd₂⟩
      exact hextend (.instead hleft) hp₂ hd₂

/-- Both lists of tokens are read: the first releases the second, or both fail, or the trees are alike. -/
theorem tracks_ofTokens {old new : List Token}
    (hstart : (∃ e e', start table old = .error e ∧ start table' new = .error e' ∧ failures.pair e e') ∨
      ∃ c d, start table old = .ok c ∧ start table' new = .ok d ∧ (near c d ∨ apart c d)) :
    (∃ e, failures.release e ∧ ofTokens table old = .error e) ∨
      (∃ e e', ofTokens table old = .error e ∧ ofTokens table' new = .error e' ∧ failures.pair e e') ∨
      ∃ a b, ofTokens table old = .ok a ∧ ofTokens table' new = .ok b ∧ Alike table.Knows instead a b := by
  rcases hstart with ⟨e, e', hc, hd, hpair⟩ | ⟨c, d, hc, hd, hp⟩
  · exact .inr (.inl ⟨e, e', by simp only [ofTokens, hc], by simp only [ofTokens, hd], hpair⟩)
  · have hcd : c.depth + maxDepth = maxDepth := by rw [(start_ok.1 hc).2, Nat.zero_add]
    have hdd : d.depth + maxDepth = maxDepth := by rw [(start_ok.1 hd).2, Nat.zero_add]
    have hread : Tracks failures (Trees table near apart instead c.depth) (expression table .none c)
        (expression table' .none d) := by
      rw [expression_eq hcd, expression_eq hdd]
      exact h.reads maxDepth hp hcd
    generalize hrc : expression table .none c = r, hrd : expression table' .none d = s at hread
    cases hread with
    | @released e _ _ hrelease => exact .inl ⟨e, hrelease, by simp only [ofTokens, hc, hrc]⟩
    | @failed e e' _ _ hpair =>
      exact .inr (.inl ⟨e, e', by simp only [ofTokens, hc, hrc], by simp only [ofTokens, hd, hrd], hpair⟩)
    | @ok a b c' d' hq =>
      obtain ⟨hab, hp', -⟩ := hq
      simp only [ofTokens, hc, hd, hrc, hrd]
      -- either both stand on the end or neither does
      rcases hp' with hn | ha
      · have hactive := (h.active hn).2
        by_cases hmore : c'.hasMore = true
        · rw [if_pos hmore, if_pos (by rw [hasMore, hactive]; exact hmore), hactive]
          exact .inr (.inl ⟨_, _, rfl, rfl, h.pair_self _⟩)
        · rw [if_neg hmore, if_neg (by rw [hasMore, hactive]; exact hmore)]
          exact .inr (.inr ⟨a, b, rfl, rfl, hab⟩)
      · obtain ⟨hc', hd'⟩ := h.apart_id ha endId (.inl (by decide))
        rw [if_pos (by simpa [hasMore] using hc'), if_pos (by simpa [hasMore] using hd')]
        exact .inr (.inl ⟨_, _, rfl, rfl, h.apart_failed endId ha⟩)

end SideBySide

/-! ## Tokens that stand for the same uses -/

section Uses

variable {table : SymbolTable} {old new : List Token}

/-- The cursors stand on the same use, and so do the tokens behind them. -/
def Cursor.SameUses (table : SymbolTable) (c d : Cursor) : Prop :=
  table.Knows c.active ∧ d.active = c.active ∧ d.depth = c.depth ∧
    c.unread.map table.resolve = d.unread.map table.resolve

theorem next_sameUses (huses : old.map table.resolve = new.map table.resolve) :
    (next table new).1 = (next table old).1 ∧
      (next table old).2.map table.resolve = (next table new).2.map table.resolve := by
  cases old with
  | nil =>
    obtain rfl := List.map_eq_nil_iff.1 huses.symm
    exact ⟨rfl, rfl⟩
  | cons t old =>
    obtain ⟨u, new, rfl, ht, hu⟩ := List.map_eq_cons_iff.1 huses.symm
    exact ⟨ht, hu.symm⟩

/-- Readings of the same uses never come apart. -/
theorem sideBySide_sameUses :
    SideBySide table table ⟨fun _ => False, Eq⟩ (SameUses table) (fun _ _ => False) fun _ _ => False where
  pair_self _ := rfl
  depth hp := hp.elim (fun h => h.2.2.1) False.elim
  near_atDepth _ h := ⟨h.1, h.2.1, rfl, h.2.2.2⟩
  apart_atDepth _ h := h
  active h := ⟨h.1, h.2.1⟩
  advance := by
    rintro c d ⟨hknows, hactive, hdepth, hunread⟩
    have hnext := next_sameUses hunread
    unfold Cursor.advance
    rcases hc : next table c.unread with ⟨first, rest⟩
    rcases hd : next table d.unread with ⟨first', rest'⟩
    rw [hc, hd] at hnext
    obtain ⟨rfl, hrest⟩ := hnext
    cases first' with
    | error e => exact .failed rfl
    | ok head => exact .ok ⟨rfl, hactive, rfl, .inl ⟨next_knows hc, rfl, hdepth, hrest⟩⟩
  apart_power h := h.elim
  apart_id h := h.elim
  apart_failed _ h := h.elim
  leading h := h.elim

mutual

/-- Trees that are alike are the same where nothing stands instead of anything else. -/
theorem Node.Alike.eq {uses : Head → Prop} {a b : Node} : Alike uses (fun _ _ => False) a b → a = b
  | .leaf _ => rfl
  | .unary _ ha => by rw [ha.eq]
  | .binary _ ha hb => by rw [ha.eq, hb.eq]
  | .ternary _ ha hb hc => by rw [ha.eq, hb.eq, hc.eq]
  | .sequence _ hi => by rw [hi.eq]

theorem Node.AlikeAll.eq {uses : Head → Prop} {items items' : List Node} :
    AlikeAll uses (fun _ _ => False) items items' → items = items'
  | .nil => rfl
  | .cons ha hi => by rw [ha.eq, hi.eq]

end

/-- What tokens are read as depends on the uses that they stand for only. -/
theorem Node.ofTokens_congr (huses : old.map table.resolve = new.map table.resolve) :
    ofTokens table old = ofTokens table new := by
  have hstart : (∃ e e', start table old = .error e ∧ start table new = .error e' ∧ e = e') ∨
      ∃ c d, start table old = .ok c ∧ start table new = .ok d ∧ (SameUses table c d ∨ False) := by
    have hnext := next_sameUses huses
    unfold start
    rcases hc : next table old with ⟨first, rest⟩
    rcases hd : next table new with ⟨first', rest'⟩
    rw [hc, hd] at hnext
    obtain ⟨rfl, hrest⟩ := hnext
    cases first' with
    | error e => exact .inl ⟨e, e, rfl, rfl, rfl⟩
    | ok head => exact .inr ⟨_, _, rfl, rfl, .inl ⟨next_knows hc, rfl, rfl, hrest⟩⟩
  rcases sideBySide_sameUses.tracks_ofTokens hstart with ⟨_, h, _⟩ | ⟨e, _, hold, hnew, rfl⟩ | ⟨a, b, hold, hnew, hab⟩
  · exact h.elim
  · exact hold.trans hnew.symm
  · rw [hold, hnew, hab.eq]

end Uses

end Formula
