import Formula.Node.Parser
import Formula.Proofs.Steps

/-!
# The readings of an expression

`Reads table power c node c'` says that an expression whose operators bind tighter than `power` can be read from the
cursor `c`, that its tree is `node`, and that `c'` is the cursor behind it. Its rules follow the forms of symbols, one
rule for each; the levels of the tree are counted by the cursors alone. `expression_ok` says that these are exactly
the readings that `expression` finds, so what holds of every reading is shown by induction on its rules:

* a reading closes the levels that it opened (`Reads.depth_eq`);
* a reading moves on by at least one token (`Reads.onward`).
-/

namespace Formula

/-! ## The forms of a symbol -/

namespace SymbolKind

/-- How a use at the start of an expression is read, if it is an operator there. -/
def leadingForm? : SymbolKind → Option LeadingForm
  | .leading _ form => some form
  | .leftward _ _ form? => form?
  | _ => none

/-- How the arguments of a function are passed. -/
def mode? : SymbolKind → Option ArgumentMode
  | .function _ mode => some mode
  | _ => none

/-- How a use after an operand is read, if it is an operator there. -/
def trailingForm? : SymbolKind → Option TrailingForm
  | .leftward _ form _ => some form
  | .rightward _ => some .binary
  | _ => none

theorem mode?_of_leadingForm? {kind : SymbolKind} {form : LeadingForm} (hl : kind.leadingForm? = some form) :
    kind.mode? = none := by
  cases kind <;> simp_all [leadingForm?, mode?]

theorem leadingForm?_of_mode? {kind : SymbolKind} {mode : ArgumentMode} (hm : kind.mode? = some mode) :
    kind.leadingForm? = none := by
  cases kind <;> simp_all [leadingForm?, mode?]

/-- What is read further is no bracket, separator or the end. -/
theorem ne_punctuation_of_leadingForm? {kind : SymbolKind} {form : LeadingForm} (hl : kind.leadingForm? = some form) :
    kind ≠ .punctuation := by
  rintro rfl
  cases hl

theorem ne_punctuation_of_mode? {kind : SymbolKind} {mode : ArgumentMode} (hm : kind.mode? = some mode) :
    kind ≠ .punctuation := by
  rintro rfl
  cases hm

theorem ne_punctuation_of_trailingForm? {kind : SymbolKind} {form : TrailingForm}
    (hf : kind.trailingForm? = some form) : kind ≠ .punctuation := by
  rintro rfl
  cases hf

end SymbolKind

/-- The power at which an operator after its first operand reads its last one. -/
def Head.rightPower (head : Head) : BindingPower :=
  match head.symbol.kind with
  | .leftward _ .binary _ => head.power
  | .rightward _ => head.power - 1
  | _ => 0

namespace Node

open Cursor

/-! ## Rules -/

section Rules

variable (table : SymbolTable)

mutual

/-- An expression: a leading form and what extends it. -/
inductive Reads : BindingPower → Cursor → Node → Cursor → Prop
  | intro {power : BindingPower} {c c₁ c₂ c₃ : Cursor} {left node : Node} : c.depth < maxDepth →
      Moves table (c.atDepth (c.depth + 1)) c₁ → ReadsLeading c.active c₁ left c₂ → Extends power left c₂ node c₃ →
      Reads power c node (c₃.atDepth c.depth)

/-- Trailing forms around a tree, as long as they bind tighter than the power. -/
inductive Extends : BindingPower → Node → Cursor → Node → Cursor → Prop
  | stop {power : BindingPower} {c : Cursor} {left : Node} : c.active.power ≤ power → Extends power left c left c
  | step {power : BindingPower} {c c₁ c₂ c₃ : Cursor} {left whole node : Node} : power < c.active.power →
      c.depth < maxDepth → Moves table (c.atDepth (c.depth + 1)) c₁ → ReadsTrailing c.active left c₁ whole c₂ →
      Extends power whole c₂ node c₃ → Extends power left c node c₃

/-- What a use at the start of an expression stands for. -/
inductive ReadsLeading : Head → Cursor → Node → Cursor → Prop
  | leaf {head : Head} {c : Cursor} : head.symbol.kind.leadingForm? = none → head.symbol.kind.mode? = none →
      ReadsLeading head c (.leaf head) c
  | operand {head : Head} {c c' : Cursor} {a : Node} : head.symbol.kind.leadingForm? = some .operand →
      Reads .unary c a c' → ReadsLeading head c (.unary head false a) c'
  | sign {head : Head} {c c' : Cursor} {a : Node} : head.symbol.kind.leadingForm? = some .sign →
      Reads .unary c a c' → ReadsLeading head c (.unary head true a) c'
  | grouping {head : Head} {c c₁ c₂ : Cursor} {a : Node} {closing : String} :
      head.symbol.kind.leadingForm? = some (.grouping closing) → Reads 0 c a c₁ → Passes table closing c₁ c₂ →
      ReadsLeading head c (.unary head false a) c₂
  | array {head : Head} {c c' : Cursor} {items : List Node} : head.symbol.kind.leadingForm? = some .array →
      ReadsList "]" c items c' → ReadsLeading head c (.sequence head items) c'
  | bareCall {head : Head} {c c₁ c₂ : Cursor} : head.symbol.kind.mode? = some .bare → Passes table "(" c c₁ →
      Passes table ")" c₁ c₂ → ReadsLeading head c (.sequence head []) c₂
  | call {head : Head} {c c₁ c₂ : Cursor} {items : List Node} {mode : ArgumentMode} :
      head.symbol.kind.mode? = some mode → mode ≠ .bare → Passes table "(" c c₁ → ReadsList ")" c₁ items c₂ →
      ReadsLeading head c (.sequence head items) c₂

/-- What a use after an operand stands for. -/
inductive ReadsTrailing : Head → Node → Cursor → Node → Cursor → Prop
  | leaf {head : Head} {left : Node} {c : Cursor} : head.symbol.kind.trailingForm? = none →
      ReadsTrailing head left c (.leaf head) c
  | binary {head : Head} {left b : Node} {c c' : Cursor} : head.symbol.kind.trailingForm? = some .binary →
      Reads head.rightPower c b c' → ReadsTrailing head left c (.binary head left b) c'
  | ternary {head : Head} {left a b : Node} {c c₁ c₂ c₃ : Cursor} :
      head.symbol.kind.trailingForm? = some .ternary → Reads 0 c a c₁ → Passes table ":" c₁ c₂ → Reads 0 c₂ b c₃ →
      ReadsTrailing head left c (.ternary head left a b) c₃

/-- A list up to its closing spelling. -/
inductive ReadsList : String → Cursor → List Node → Cursor → Prop
  | empty {closing : String} {c c' : Cursor} : Passes table closing c c' → ReadsList closing c [] c'
  | filled {closing : String} {c c₁ c₂ : Cursor} {items : List Node} : c.active.id ≠ closing →
      ReadsItems c items c₁ → Passes table closing c₁ c₂ → ReadsList closing c items c₂

/-- Expressions with commas between them. -/
inductive ReadsItems : Cursor → List Node → Cursor → Prop
  | last {c c' : Cursor} {item : Node} : Reads 0 c item c' → c'.active.id ≠ "," → ReadsItems c [item] c'
  | more {c c₁ c₂ c₃ : Cursor} {item : Node} {rest : List Node} : Reads 0 c item c₁ → Passes table "," c₁ c₂ →
      ReadsItems c₂ rest c₃ → ReadsItems c (item :: rest) c₃

end

end Rules

variable {table : SymbolTable}

/-! ## Levels -/

/-- A reading closes the levels that it opened. -/
theorem Reads.depth_eq {power : BindingPower} {c c' : Cursor} {node : Node} :
    Reads table power c node c' → c'.depth = c.depth
  | .intro .. => rfl

theorem ReadsTrailing.depth_eq {head : Head} {left node : Node} {c c' : Cursor} :
    ReadsTrailing table head left c node c' → c'.depth = c.depth
  | .leaf _ => rfl
  | .binary _ h => h.depth_eq
  | .ternary _ h hp h' => by rw [h'.depth_eq, hp.2.2, h.depth_eq]

theorem ReadsItems.depth_eq {items : List Node} {c c' : Cursor} :
    ReadsItems table c items c' → c'.depth = c.depth
  | .last h _ => h.depth_eq
  | .more h hp hr => by rw [hr.depth_eq, hp.2.2, h.depth_eq]

theorem ReadsList.depth_eq {closing : String} {items : List Node} {c c' : Cursor} :
    ReadsList table closing c items c' → c'.depth = c.depth
  | .empty hp => hp.2.2
  | .filled _ h hp => by rw [hp.2.2, h.depth_eq]

theorem ReadsLeading.depth_eq {head : Head} {node : Node} {c c' : Cursor} :
    ReadsLeading table head c node c' → c'.depth = c.depth
  | .leaf _ _ => rfl
  | .operand _ h => h.depth_eq
  | .sign _ h => h.depth_eq
  | .grouping _ h hp => by rw [hp.2.2, h.depth_eq]
  | .array _ h => h.depth_eq
  | .bareCall _ hp hp' => by rw [hp'.2.2, hp.2.2]
  | .call _ _ hp h => by rw [h.depth_eq, hp.2.2]

/-! ## Places -/

mutual

/-- A reading moves on by at least one token. -/
theorem Reads.onward {power : BindingPower} {c c' : Cursor} {node : Node} :
    Reads table power c node c' → Onward table c c'
  | .intro _ hm hl he => (hm.onward.trans_left hl.reaches).trans_left he.reaches

theorem Extends.reaches {power : BindingPower} {left : Node} {c c' : Cursor} {node : Node} :
    Extends table power left c node c' → Reaches table c c'
  | .stop _ => .refl
  | .step _ _ hm ht he => (hm.onward.reaches.trans ht.reaches).trans he.reaches

theorem ReadsLeading.reaches {head : Head} {c c' : Cursor} {node : Node} :
    ReadsLeading table head c node c' → Reaches table c c'
  | .leaf _ _ => .refl
  | .operand _ h | .sign _ h => h.onward.reaches
  | .grouping _ h hp => h.onward.reaches.trans hp.2.onward.reaches
  | .array _ h => h.onward.reaches
  | .bareCall _ hp hp' => hp.2.onward.reaches.trans hp'.2.onward.reaches
  | .call _ _ hp h => hp.2.onward.reaches.trans h.onward.reaches

theorem ReadsTrailing.reaches {head : Head} {left : Node} {c c' : Cursor} {node : Node} :
    ReadsTrailing table head left c node c' → Reaches table c c'
  | .leaf _ => .refl
  | .binary _ h => h.onward.reaches
  | .ternary _ h hp h' => (h.onward.reaches.trans hp.2.onward.reaches).trans h'.onward.reaches

theorem ReadsList.onward {closing : String} {c c' : Cursor} {items : List Node} :
    ReadsList table closing c items c' → Onward table c c'
  | .empty hp => hp.2.onward
  | .filled _ h hp => h.onward.trans hp.2.onward

theorem ReadsItems.onward {c c' : Cursor} {items : List Node} :
    ReadsItems table c items c' → Onward table c c'
  | .last h _ => h.onward
  | .more h hp hr => (h.onward.trans hp.2.onward).trans hr.onward

end

/-! ## Readers

The readers of the forms find the readings of the rules, whenever the reader of expressions that they are given does
so at the depth where they use it. -/

section Readers

/-- At this depth the reader finds exactly the readings of the rules. -/
def ReadsAt (table : SymbolTable) (read : Reader) (depth : Nat) : Prop :=
  ∀ ⦃power : BindingPower⦄ ⦃c c' : Cursor⦄ ⦃node : Node⦄, c.depth = depth →
    (read power c = .ok node c' ↔ Reads table power c node c')

variable {read : Reader} {depth : Nat}

/-- The end is no comma, so a reading in front of one has consumed a token. -/
theorem Reads.unread_lt {power : BindingPower} {c c' : Cursor} {node : Node} (h : Reads table power c node c')
    (hcomma : c'.active.id = ",") : c'.unread.length < c.unread.length := by
  rcases (onward_shorter h.onward).2 with hl | he
  · exact hl
  · exact absurd (hcomma.symm.trans he) (by decide)

/-- Behind the last token there is no comma. -/
theorem Reads.no_comma {power : BindingPower} {c c' : Cursor} {node : Node} (h : Reads table power c node c')
    (hu : c.unread = []) : c'.active.id ≠ "," := by
  intro hcomma
  have hlt := h.unread_lt hcomma
  rw [hu] at hlt
  exact absurd hlt (Nat.not_lt_zero _)

theorem readItems_ok (hread : ReadsAt table read depth) : ∀ {budget : Nat} {c c' : Cursor} {items : List Node},
    c.depth = depth → c.unread.length ≤ budget →
    (readItems table read budget c = .ok items c' ↔ ReadsItems table c items c')
  | 0, c, c', items, hd, hb => by
    have hu : c.unread = [] := List.eq_nil_of_length_eq_zero (Nat.le_zero.1 hb)
    simp only [readItems, bind_ok, pure_ok]
    constructor
    · rintro ⟨item, c₁, h, rfl, rfl⟩
      have h := (hread hd).1 h
      exact .last h (h.no_comma hu)
    · intro h
      cases h with
      | last h _ => exact ⟨_, _, (hread hd).2 h, rfl, rfl⟩
      | more h hp _ => exact absurd hp.1 (h.no_comma hu)
  | budget + 1, c, c', items, hd, hb => by
    -- A comma behind the item was an unread token, so the budget that is left covers what is unread behind it.
    have hrest : ∀ {item c₁ c₂}, Reads table 0 c item c₁ → Passes table "," c₁ c₂ →
        c₂.depth = depth ∧ c₂.unread.length ≤ budget := by
      intro item c₁ c₂ h hp
      refine ⟨by rw [hp.2.2, h.depth_eq, hd], ?_⟩
      have h₁ := h.unread_lt hp.1
      have h₂ := hp.2.onward.reaches.shorter
      omega
    simp only [readItems, bind_ok, current_ok]
    constructor
    · rintro ⟨item, c₁, h, _, _, ⟨rfl, rfl⟩, hk⟩
      have h := (hread hd).1 h
      split at hk
      · next hc =>
        simp only [bind_ok, advance_ok, pure_ok] at hk
        obtain ⟨_, c₂, ⟨-, hm⟩, rest, _, hr, rfl, rfl⟩ := hk
        obtain ⟨hd₂, hb₂⟩ := hrest h ⟨hc, hm⟩
        exact .more h ⟨hc, hm⟩ ((readItems_ok hread hd₂ hb₂).1 hr)
      · next hc =>
        rw [pure_ok] at hk
        obtain ⟨rfl, rfl⟩ := hk
        exact .last h hc
    · intro h
      cases h with
      | last h hc => exact ⟨_, _, (hread hd).2 h, _, _, ⟨rfl, rfl⟩, by rw [if_neg hc]; exact pure_ok.2 ⟨rfl, rfl⟩⟩
      | more h hp hr =>
        obtain ⟨hd₂, hb₂⟩ := hrest h hp
        refine ⟨_, _, (hread hd).2 h, _, _, ⟨rfl, rfl⟩, ?_⟩
        rw [if_pos hp.1, bind_ok]
        refine ⟨_, _, advance_ok.2 ⟨rfl, hp.2⟩, ?_⟩
        rw [bind_ok]
        exact ⟨_, _, (readItems_ok hread hd₂ hb₂).2 hr, pure_ok.2 ⟨rfl, rfl⟩⟩

theorem readList_ok (hread : ReadsAt table read depth) {closing : String} {c c' : Cursor} {items : List Node}
    (hd : c.depth = depth) : readList table read closing c = .ok items c' ↔ ReadsList table closing c items c' := by
  simp only [readList, bind_ok, get_ok]
  constructor
  · rintro ⟨_, _, ⟨rfl, rfl⟩, h⟩
    split at h
    · simp only [bind_ok, expect_ok, pure_ok] at h
      obtain ⟨_, _, ⟨-, hp⟩, rfl, rfl⟩ := h
      exact .empty hp
    · next hc =>
      simp only [bind_ok, expect_ok, pure_ok] at h
      obtain ⟨items, c₁, hi, _, _, ⟨-, hp⟩, rfl, rfl⟩ := h
      exact .filled hc ((readItems_ok hread hd (Nat.le_refl _)).1 hi) hp
  · intro h
    refine ⟨_, _, ⟨rfl, rfl⟩, ?_⟩
    cases h with
    | empty hp =>
      rw [if_pos hp.1, bind_ok]
      exact ⟨_, _, expect_ok.2 ⟨rfl, hp⟩, pure_ok.2 ⟨rfl, rfl⟩⟩
    | filled hc hi hp =>
      rw [if_neg hc, bind_ok]
      refine ⟨_, _, (readItems_ok hread hd (Nat.le_refl _)).2 hi, ?_⟩
      rw [bind_ok]
      exact ⟨_, _, expect_ok.2 ⟨rfl, hp⟩, pure_ok.2 ⟨rfl, rfl⟩⟩

/-! How each kind of symbol is read. -/

theorem readLeading_form {form : LeadingForm} {head : Head} (hf : head.symbol.kind.leadingForm? = some form) :
    readLeading table read head = readLeadingForm table read head form := by
  unfold readLeading
  cases hk : head.symbol.kind with
  | leftward rule trailing form? =>
    rw [hk] at hf
    simp only [SymbolKind.leadingForm?] at hf
    subst hf
    rfl
  | _ => simp_all [SymbolKind.leadingForm?]

theorem readLeading_mode {mode : ArgumentMode} {head : Head} (hm : head.symbol.kind.mode? = some mode) :
    readLeading table read head = readCall table read head mode := by
  unfold readLeading
  cases hk : head.symbol.kind <;> simp_all [SymbolKind.mode?]

theorem readLeading_none {head : Head} (hf : head.symbol.kind.leadingForm? = none)
    (hm : head.symbol.kind.mode? = none) : readLeading table read head = pure (.leaf head) := by
  unfold readLeading
  cases hk : head.symbol.kind <;> simp_all [SymbolKind.leadingForm?, SymbolKind.mode?]

theorem readLeadingForm_ok (hread : ReadsAt table read depth) {form : LeadingForm} {head : Head} {c c' : Cursor}
    {node : Node} (hf : head.symbol.kind.leadingForm? = some form) (hd : c.depth = depth) :
    readLeadingForm table read head form c = .ok node c' ↔ ReadsLeading table head c node c' := by
  have hm := SymbolKind.mode?_of_leadingForm? hf
  constructor
  · intro h
    cases form with
    | operand =>
      simp only [readLeadingForm, bind_ok, pure_ok] at h
      obtain ⟨a, _, ha, rfl, rfl⟩ := h
      exact .operand hf ((hread hd).1 ha)
    | sign =>
      simp only [readLeadingForm, bind_ok, pure_ok] at h
      obtain ⟨a, _, ha, rfl, rfl⟩ := h
      exact .sign hf ((hread hd).1 ha)
    | grouping closing =>
      simp only [readLeadingForm, bind_ok, expect_ok, pure_ok] at h
      obtain ⟨a, _, ha, _, _, ⟨-, hp⟩, rfl, rfl⟩ := h
      exact .grouping hf ((hread hd).1 ha) hp
    | array =>
      simp only [readLeadingForm, bind_ok, pure_ok] at h
      obtain ⟨items, _, hi, rfl, rfl⟩ := h
      exact .array hf ((readList_ok hread hd).1 hi)
  · intro h
    cases h with
    | leaf hf' => rw [hf] at hf'; cases hf'
    | operand hf' ha =>
      rw [hf] at hf'; cases hf'
      exact bind_ok.2 ⟨_, _, (hread hd).2 ha, pure_ok.2 ⟨rfl, rfl⟩⟩
    | sign hf' ha =>
      rw [hf] at hf'; cases hf'
      exact bind_ok.2 ⟨_, _, (hread hd).2 ha, pure_ok.2 ⟨rfl, rfl⟩⟩
    | grouping hf' ha hp =>
      rw [hf] at hf'; cases hf'
      exact bind_ok.2 ⟨_, _, (hread hd).2 ha, bind_ok.2 ⟨_, _, expect_ok.2 ⟨rfl, hp⟩, pure_ok.2 ⟨rfl, rfl⟩⟩⟩
    | array hf' hi =>
      rw [hf] at hf'; cases hf'
      exact bind_ok.2 ⟨_, _, (readList_ok hread hd).2 hi, pure_ok.2 ⟨rfl, rfl⟩⟩
    | bareCall hm' => rw [hm] at hm'; cases hm'
    | call hm' => rw [hm] at hm'; cases hm'

theorem readCall_ok (hread : ReadsAt table read depth) {mode : ArgumentMode} {head : Head} {c c' : Cursor}
    {node : Node} (hm : head.symbol.kind.mode? = some mode) (hd : c.depth = depth) :
    readCall table read head mode c = .ok node c' ↔ ReadsLeading table head c node c' := by
  have hf := SymbolKind.leadingForm?_of_mode? hm
  constructor
  · intro h
    simp only [readCall, bind_ok, expect_ok] at h
    obtain ⟨_, c₁, ⟨-, hp⟩, h⟩ := h
    split at h
    · next hb =>
      subst hb
      simp only [bind_ok, expect_ok, pure_ok] at h
      obtain ⟨_, _, ⟨-, hp'⟩, rfl, rfl⟩ := h
      exact .bareCall hm hp hp'
    · next hb =>
      simp only [bind_ok, pure_ok] at h
      obtain ⟨items, _, hi, rfl, rfl⟩ := h
      exact .call hm hb hp ((readList_ok hread (by rw [hp.2.2, hd])).1 hi)
  · intro h
    cases h with
    | leaf _ hm' => rw [hm] at hm'; cases hm'
    | bareCall hm' hp hp' =>
      rw [hm] at hm'; cases hm'
      refine bind_ok.2 ⟨_, _, expect_ok.2 ⟨rfl, hp⟩, ?_⟩
      rw [if_pos rfl]
      exact bind_ok.2 ⟨_, _, expect_ok.2 ⟨rfl, hp'⟩, pure_ok.2 ⟨rfl, rfl⟩⟩
    | call hm' hb hp hi =>
      rw [hm] at hm'; cases hm'
      refine bind_ok.2 ⟨_, _, expect_ok.2 ⟨rfl, hp⟩, ?_⟩
      rw [if_neg hb]
      exact bind_ok.2 ⟨_, _, (readList_ok hread (by rw [hp.2.2, hd])).2 hi, pure_ok.2 ⟨rfl, rfl⟩⟩
    | operand hf' | sign hf' | grouping hf' | array hf' => rw [hf] at hf'; cases hf'

theorem readLeading_ok (hread : ReadsAt table read depth) {head : Head} {c c' : Cursor} {node : Node}
    (hd : c.depth = depth) : readLeading table read head c = .ok node c' ↔ ReadsLeading table head c node c' := by
  cases hf : head.symbol.kind.leadingForm? with
  | some form => rw [readLeading_form hf]; exact readLeadingForm_ok hread hf hd
  | none =>
    cases hm : head.symbol.kind.mode? with
    | some mode => rw [readLeading_mode hm]; exact readCall_ok hread hm hd
    | none =>
      rw [readLeading_none hf hm, pure_ok]
      constructor
      · rintro ⟨rfl, rfl⟩
        exact .leaf hf hm
      · intro h
        cases h with
        | leaf => exact ⟨rfl, rfl⟩
        | operand hf' | sign hf' | grouping hf' | array hf' => rw [hf] at hf'; cases hf'
        | bareCall hm' | call hm' => rw [hm] at hm'; cases hm'

theorem readTrailing_binary {head : Head} {left : Node} (hf : head.symbol.kind.trailingForm? = some .binary) :
    readTrailing table read head left =
      read head.rightPower >>= fun right => pure (.binary head left right) := by
  unfold readTrailing Head.rightPower
  cases hk : head.symbol.kind with
  | leftward rule form leading? => cases form <;> simp_all [SymbolKind.trailingForm?]
  | _ => simp_all [SymbolKind.trailingForm?]

theorem readTrailing_ternary {head : Head} {left : Node} (hf : head.symbol.kind.trailingForm? = some .ternary) :
    readTrailing table read head left =
      read 0 >>= fun second => expect table ":" >>= fun _ => read 0 >>= fun third =>
        pure (.ternary head left second third) := by
  unfold readTrailing
  cases hk : head.symbol.kind with
  | leftward rule form leading? => cases form <;> simp_all [SymbolKind.trailingForm?]
  | _ => simp_all [SymbolKind.trailingForm?]

theorem readTrailing_none {head : Head} {left : Node} (hf : head.symbol.kind.trailingForm? = none) :
    readTrailing table read head left = pure (.leaf head) := by
  unfold readTrailing
  cases hk : head.symbol.kind <;> simp_all [SymbolKind.trailingForm?]

theorem readTrailing_ok (hread : ReadsAt table read depth) {head : Head} {left : Node} {c c' : Cursor} {node : Node}
    (hd : c.depth = depth) :
    readTrailing table read head left c = .ok node c' ↔ ReadsTrailing table head left c node c' := by
  cases hf : head.symbol.kind.trailingForm? with
  | none =>
    rw [readTrailing_none hf, pure_ok]
    constructor
    · rintro ⟨rfl, rfl⟩
      exact .leaf hf
    · intro h
      cases h with
      | leaf => exact ⟨rfl, rfl⟩
      | binary hf' | ternary hf' => rw [hf] at hf'; cases hf'
  | some form =>
    cases form with
    | binary =>
      rw [readTrailing_binary hf]
      simp only [bind_ok, pure_ok]
      constructor
      · rintro ⟨b, _, hb, rfl, rfl⟩
        exact .binary hf ((hread hd).1 hb)
      · intro h
        cases h with
        | leaf hf' | ternary hf' => rw [hf] at hf'; cases hf'
        | binary _ hb => exact ⟨_, _, (hread hd).2 hb, rfl, rfl⟩
    | ternary =>
      rw [readTrailing_ternary hf]
      simp only [bind_ok, expect_ok, pure_ok]
      constructor
      · rintro ⟨a, c₁, ha, _, c₂, ⟨-, hp⟩, b, _, hb, rfl, rfl⟩
        have ha := (hread hd).1 ha
        exact .ternary hf ha hp ((hread (by rw [hp.2.2, ha.depth_eq, hd])).1 hb)
      · intro h
        cases h with
        | leaf hf' | binary hf' => rw [hf] at hf'; cases hf'
        | ternary _ ha hp hb =>
          exact ⟨_, _, (hread hd).2 ha, _, _, ⟨rfl, hp⟩, _, _,
            (hread (by rw [hp.2.2, ha.depth_eq, hd])).2 hb, rfl, rfl⟩

end Readers

/-! ## Expressions -/

/-- With the levels that the cursor's depth leaves, `extend` finds the extensions of the rules. -/
theorem extend_ok : ∀ {levels : Nat} {power : BindingPower} {opened : Nat} {left node : Node} {c c' : Cursor},
    (∀ n < levels, ReadsAt table (readExpression table n) (maxDepth - n)) → c.depth + levels = maxDepth →
    (extend table levels power opened left c = .ok node c' ↔
      ∃ c₁, Extends table power left c node c₁ ∧ c' = c₁.atDepth (c.depth - opened))
  | 0, power, opened, left, node, c, c', _, hd => by
    simp only [extend, bind_ok, current_ok]
    constructor
    · rintro ⟨_, _, ⟨rfl, rfl⟩, h⟩
      split at h
      · exact absurd h tooDeep_ok
      · next hp =>
        simp only [bind_ok, ascend_ok, pure_ok] at h
        obtain ⟨_, _, rfl, rfl, rfl⟩ := h
        exact ⟨_, .stop (Nat.le_of_not_lt hp), rfl⟩
    · rintro ⟨c₁, h, rfl⟩
      refine ⟨_, _, ⟨rfl, rfl⟩, ?_⟩
      cases h with
      | stop hp =>
        rw [if_neg (Nat.not_lt.2 hp)]
        exact bind_ok.2 ⟨(), _, ascend_ok.2 rfl, pure_ok.2 ⟨rfl, rfl⟩⟩
      | step _ hlt => omega
  | levels + 1, power, opened, left, node, c, c', hread, hd => by
    have hat := hread levels (Nat.lt_succ_self _)
    have hread' := fun n (hn : n < levels) => hread n (Nat.lt_succ_of_lt hn)
    have hlevel : maxDepth - levels = c.depth + 1 := by omega
    rw [hlevel] at hat
    simp only [extend, bind_ok, current_ok]
    constructor
    · rintro ⟨_, _, ⟨rfl, rfl⟩, h⟩
      split at h
      · next hp =>
        simp only [bind_ok, descend_ok, advance_ok] at h
        obtain ⟨_, _, ⟨hlt, rfl⟩, _, c₁, ⟨rfl, hm⟩, whole, c₂, h, hx⟩ := h
        have ht := (readTrailing_ok hat hm.2).1 h
        have hd₂ : c₂.depth = c.depth + 1 := by rw [ht.depth_eq, hm.2]; rfl
        obtain ⟨c₃, he, rfl⟩ := (extend_ok hread' (by omega)).1 hx
        exact ⟨c₃, .step hp hlt hm ht he, by rw [hd₂, Nat.add_sub_add_right]⟩
      · next hp =>
        simp only [bind_ok, ascend_ok, pure_ok] at h
        obtain ⟨_, _, rfl, rfl, rfl⟩ := h
        exact ⟨_, .stop (Nat.le_of_not_lt hp), rfl⟩
    · rintro ⟨c₁, h, rfl⟩
      refine ⟨_, _, ⟨rfl, rfl⟩, ?_⟩
      cases h with
      | stop hp =>
        rw [if_neg (Nat.not_lt.2 hp)]
        exact bind_ok.2 ⟨(), _, ascend_ok.2 rfl, pure_ok.2 ⟨rfl, rfl⟩⟩
      | @step _ _ _ c₂ _ _ whole _ hp hlt hm ht he =>
        have hd₂ : c₂.depth = c.depth + 1 := by rw [ht.depth_eq, hm.2]; rfl
        rw [if_pos hp]
        simp only [bind_ok, descend_ok, advance_ok]
        refine ⟨(), _, ⟨hlt, rfl⟩, _, _, ⟨rfl, hm⟩, whole, c₂, (readTrailing_ok hat hm.2).2 ht, ?_⟩
        refine (extend_ok hread' (by omega)).2 ⟨_, he, ?_⟩
        rw [hd₂, Nat.add_sub_add_right]

/-- With the levels that the cursor's depth leaves, `readExpression` finds the readings of the rules. -/
theorem readExpression_ok : ∀ {levels : Nat}, levels ≤ maxDepth →
    ReadsAt table (readExpression table levels) (maxDepth - levels)
  | 0, _, power, c, c', node, hd => by
    simp only [readExpression]
    refine ⟨fun h => absurd h tooDeep_ok, ?_⟩
    rintro ⟨hlt, -, -, -⟩
    omega
  | levels + 1, hl, power, c, c', node, hd => by
    have hat : ReadsAt table (readExpression table levels) (c.depth + 1) := by
      rw [show c.depth + 1 = maxDepth - levels by omega]
      exact readExpression_ok (Nat.le_of_succ_le hl)
    have hread : ∀ n < levels, ReadsAt table (readExpression table n) (maxDepth - n) :=
      fun n hn => readExpression_ok (by omega)
    simp only [readExpression, bind_ok, descend_ok, advance_ok]
    constructor
    · rintro ⟨_, _, ⟨hlt, rfl⟩, _, c₁, ⟨rfl, hm⟩, left, c₂, h, hx⟩
      have hl' := (readLeading_ok hat hm.2).1 h
      have hd₂ : c₂.depth = c.depth + 1 := by rw [hl'.depth_eq, hm.2]; rfl
      obtain ⟨c₃, he, rfl⟩ := (extend_ok hread (by omega)).1 hx
      rw [hd₂, Nat.add_sub_cancel]
      exact .intro hlt hm hl' he
    · rintro @⟨_, _, c₁, c₂, c₃, left, _, hlt, hm, hl', he⟩
      have hd₂ : c₂.depth = c.depth + 1 := by rw [hl'.depth_eq, hm.2]; rfl
      refine ⟨(), _, ⟨hlt, rfl⟩, _, c₁, ⟨rfl, hm⟩, left, c₂, (readLeading_ok hat hm.2).2 hl', ?_⟩
      refine (extend_ok hread (by omega)).2 ⟨c₃, he, ?_⟩
      rw [hd₂, Nat.add_sub_cancel]

/-- The readings that are found are those of the rules. -/
theorem expression_ok {power : BindingPower} {c c' : Cursor} {node : Node} :
    expression table power c = .ok node c' ↔ Reads table power c node c' := by
  simp only [expression, bind_ok, get_ok]
  constructor
  · rintro ⟨_, _, ⟨rfl, rfl⟩, h⟩
    rcases Nat.le_total c.depth maxDepth with hd | hd
    · exact (readExpression_ok (Nat.sub_le _ _) (by omega)).1 h
    · rw [Nat.sub_eq_zero_of_le hd] at h
      exact absurd h tooDeep_ok
  · intro h
    have hd : c.depth ≤ maxDepth := by
      cases h with
      | intro hlt => exact Nat.le_of_lt hlt
    exact ⟨_, _, ⟨rfl, rfl⟩, (readExpression_ok (Nat.sub_le _ _) (by omega)).2 h⟩

/-- All the tokens together write a tree when it is read from the first of them up to the end. -/
theorem ofTokens_ok {tokens : List Token} {root : Node} :
    ofTokens table tokens = .ok root ↔
      ∃ c c', start table tokens = .ok c ∧ Reads table .none c root c' ∧ c'.active.id = endId := by
  unfold ofTokens
  constructor
  · intro h
    split at h
    · cases h
    · next c hs =>
      split at h
      · cases h
      · next root' c' hr =>
        split at h
        · cases h
        · next hm =>
          cases h
          exact ⟨c, c', hs, expression_ok.1 hr, by simpa [hasMore] using hm⟩
  · rintro ⟨c, c', hs, hr, he⟩
    rw [hs]
    simp [expression_ok.2 hr, hasMore, he]

end Node

end Formula
