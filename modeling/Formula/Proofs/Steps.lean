import Formula.Cursor
import Mathlib.Logic.Relation

/-!
# The steps of a cursor

Each step yields a value from exactly the cursors that its lemma names (`advance_ok`, `expect_ok`, `descend_ok`,
`ascend_ok`), and a sequence of steps yields one when each of them does (`bind_ok`). A cursor stands on a list of
tokens (`Stands`) when its active symbol is the use of the first of them, or the end where there is none; moving on
drops that first token (`Stands.moves`, `Stands.onward`), and never goes back (`Reaches.shorter`).
-/

namespace Formula

/-! ## Sequences -/

section Sequences

variable {ε σ α β : Type} {s s' : σ}

theorem bind_ok {x : EStateM ε σ α} {f : α → EStateM ε σ β} {b : β} :
    (x >>= f) s = .ok b s' ↔ ∃ a s₁, x s = .ok a s₁ ∧ f a s₁ = .ok b s' := by
  simp only [bind, EStateM.bind]
  cases x s with
  | ok a s₁ =>
    refine ⟨fun h => ⟨a, s₁, rfl, h⟩, ?_⟩
    rintro ⟨_, _, hx, h⟩
    cases hx
    exact h
  | error e s₁ => simp

theorem bind_error {x : EStateM ε σ α} {f : α → EStateM ε σ β} {e : ε} :
    (x >>= f) s = .error e s' ↔ x s = .error e s' ∨ ∃ a s₁, x s = .ok a s₁ ∧ f a s₁ = .error e s' := by
  simp only [bind, EStateM.bind]
  cases x s with
  | ok a s₁ =>
    constructor
    · exact fun h => .inr ⟨a, s₁, rfl, h⟩
    · rintro (h | ⟨_, _, hx, h⟩)
      · cases h
      · cases hx
        exact h
  | error e s₁ => simp

theorem pure_ok {a b : α} : (pure a : EStateM ε σ α) s = .ok b s' ↔ a = b ∧ s = s' := by
  show EStateM.Result.ok a s = .ok b s' ↔ _
  rw [EStateM.Result.ok.injEq]

theorem get_ok {a : σ} : (get : EStateM ε σ σ) s = .ok a s' ↔ s = a ∧ s = s' := by
  show EStateM.Result.ok s s = .ok a s' ↔ _
  rw [EStateM.Result.ok.injEq]

theorem throw_ok {e : ε} {a : α} : ¬ (throw e : EStateM ε σ α) s = .ok a s' := by
  intro h
  cases h

end Sequences

/-! ## Symbol uses -/

namespace SymbolTable

variable {table : SymbolTable}

theorem get?_id {id : String} {s : Symbol} (h : table.get? id = some s) : s.id = id := by
  simpa using List.find?_some h

theorem use_ok {id : String} {literal? : Option Value} {head : Head} :
    table.use id literal? = .ok head ↔ table.get? id = some head.symbol ∧ head.literal? = literal? := by
  obtain ⟨s, l⟩ := head
  simp only [use]
  split
  · next h => simp [h, eq_comm]
  · next h => simp [h]

theorem use_id {id : String} {literal? : Option Value} {head : Head} (h : table.use id literal? = .ok head) :
    head.id = id := get?_id (use_ok.1 h).1

theorem use_get? {id : String} {literal? : Option Value} {head : Head} (h : table.use id literal? = .ok head) :
    table.get? head.id = some head.symbol := by
  rw [use_id h]
  exact (use_ok.1 h).1

/-- A use that a token stands for is a use of the symbol with its spelling. -/
theorem resolve_get? {t : Token} {head : Head} (h : table.resolve t = .ok head) :
    table.get? head.id = some head.symbol := by
  unfold resolve at h
  split at h
  · exact use_get? h
  · cases h
  · exact use_get? h
  · exact use_get? h
  · exact use_get? h

end SymbolTable

namespace Cursor

variable {table : SymbolTable} {c c' : Cursor}

theorem current_ok {head : Head} : current c = .ok head c' ↔ c.active = head ∧ c = c' := by
  simp only [current, EStateM.Result.ok.injEq]

theorem tooDeep_ok {α : Type} {a : α} : ¬ tooDeep c = .ok a c' := by
  simp [tooDeep, bind_ok, throw_ok]

/-! ## Moves -/

/-- `c'` is one token behind `c`. -/
def Moves (table : SymbolTable) (c c' : Cursor) : Prop :=
  next table c.unread = (.ok c'.active, c'.unread) ∧ c'.depth = c.depth

/-- `c'` is one token behind `c`, which stood on a symbol of this spelling. -/
def Passes (table : SymbolTable) (id : String) (c c' : Cursor) : Prop :=
  c.active.id = id ∧ Moves table c c'

/-- The cursor with this many levels open. -/
def atDepth (c : Cursor) (depth : Nat) : Cursor := { c with depth }

@[simp] theorem atDepth_depth (d : Nat) : (c.atDepth d).depth = d := rfl

@[simp] theorem atDepth_atDepth (d d' : Nat) : (c.atDepth d).atDepth d' = c.atDepth d' := rfl

theorem advance_ok {head : Head} : advance table c = .ok head c' ↔ head = c.active ∧ Moves table c c' := by
  obtain ⟨unread, active, depth⟩ := c
  obtain ⟨unread', active', depth'⟩ := c'
  simp only [advance, Moves]
  split
  · next h => simp [h, eq_comm, and_comm, and_left_comm, and_assoc]
  · next h => simp [h]

theorem expect_ok {id : String} {head : Head} :
    expect table id c = .ok head c' ↔ head = c.active ∧ Passes table id c c' := by
  simp only [expect, bind_ok, current_ok, Passes]
  constructor
  · rintro ⟨_, _, ⟨rfl, rfl⟩, h⟩
    split at h
    · next hid => exact ⟨(advance_ok.1 h).1, hid, (advance_ok.1 h).2⟩
    · cases h
  · rintro ⟨rfl, hid, hm⟩
    exact ⟨_, _, ⟨rfl, rfl⟩, by rw [if_pos hid]; exact advance_ok.2 ⟨rfl, hm⟩⟩

theorem descend_ok {u : Unit} : descend c = .ok u c' ↔ c.depth < maxDepth ∧ c' = c.atDepth (c.depth + 1) := by
  by_cases hd : c.depth < maxDepth
  · rw [descend_of_lt hd, EStateM.Result.ok.injEq]
    exact ⟨fun h => ⟨hd, h.2.symm⟩, fun h => ⟨rfl, h.2.symm⟩⟩
  · rw [descend_of_not_lt hd]
    exact ⟨fun h => absurd h tooDeep_ok, fun h => absurd h.1 hd⟩

theorem ascend_ok {levels : Nat} {u : Unit} : ascend levels c = .ok u c' ↔ c' = c.atDepth (c.depth - levels) := by
  show EStateM.Result.ok () (c.atDepth (c.depth - levels)) = .ok u c' ↔ _
  rw [EStateM.Result.ok.injEq]
  exact ⟨fun h => h.2.symm, fun h => ⟨rfl, h.symm⟩⟩

/-! ## Places -/

/-- `c` is about to read these tokens: its active symbol is the use of the first, or the end if there is none. -/
def Stands (table : SymbolTable) (tokens : List Token) (c : Cursor) : Prop :=
  next table tokens = (.ok c.active, c.unread)

theorem start_ok {tokens : List Token} : start table tokens = .ok c ↔ Stands table tokens c ∧ c.depth = 0 := by
  obtain ⟨unread, active, depth⟩ := c
  simp only [start, Stands]
  split
  · next h => simp [h, eq_comm, and_left_comm, and_assoc]
  · next h => simp [h]

theorem Stands.cons {t : Token} {rest : List Token} (h : Stands table (t :: rest) c) :
    table.resolve t = .ok c.active ∧ c.unread = rest := by
  simp only [Stands, next, Prod.mk.injEq] at h
  exact ⟨h.1, h.2.symm⟩

theorem Stands.nil (h : Stands table [] c) : table.use endId none = .ok c.active ∧ c.unread = [] := by
  simp only [Stands, next, Prod.mk.injEq] at h
  exact ⟨h.1, h.2.symm⟩

theorem Stands.unread_eq {tokens : List Token} (h : Stands table tokens c) : c.unread = tokens.tail := by
  cases tokens with
  | nil => exact h.nil.2
  | cons t rest => exact h.cons.2

theorem Stands.moves {tokens : List Token} (h : Stands table tokens c) :
    Moves table c c' ↔ Stands table tokens.tail c' ∧ c'.depth = c.depth := by
  simp only [Moves, Stands, h.unread_eq]

theorem stands_atDepth {tokens : List Token} {d : Nat} : Stands table tokens (c.atDepth d) ↔ Stands table tokens c :=
  Iff.rfl

/-- Where a cursor stands, without the levels that are open. -/
def place (c : Cursor) : Head × List Token := (c.active, c.unread)

/-- One place is one token behind the other. -/
def Follows (table : SymbolTable) (p q : Head × List Token) : Prop := next table p.2 = (.ok q.1, q.2)

/-- One place is at least one token behind the other. -/
abbrev Onward (table : SymbolTable) (c c' : Cursor) : Prop := Relation.TransGen (Follows table) c.place c'.place

/-- One place is the other or behind it. -/
abbrev Reaches (table : SymbolTable) (c c' : Cursor) : Prop :=
  Relation.ReflTransGen (Follows table) c.place c'.place

theorem Onward.reaches (h : Onward table c c') : Reaches table c c' := h.to_reflTransGen

theorem Moves.onward (h : Moves table c c') : Onward table c c' := .single h.1

theorem follows_shorter {p q : Head × List Token} (h : Follows table p q) :
    q.2.length < p.2.length ∨ q.2 = p.2 ∧ q.1.id = endId := by
  obtain ⟨_, tokens⟩ := p
  cases tokens with
  | nil =>
    simp only [Follows, next, Prod.mk.injEq] at h
    exact Or.inr ⟨h.2.symm, SymbolTable.use_id h.1⟩
  | cons t rest =>
    simp only [Follows, next, Prod.mk.injEq] at h
    exact Or.inl (by rw [← h.2]; exact Nat.lt_succ_self _)

/-- Moving on leaves fewer tokens, except at the end. -/
theorem onward_shorter {p q : Head × List Token} (h : Relation.TransGen (Follows table) p q) :
    q.2.length ≤ p.2.length ∧ (q.2.length < p.2.length ∨ q.1.id = endId) := by
  induction h with
  | single h =>
    rcases follows_shorter h with h | ⟨h, he⟩
    · exact ⟨Nat.le_of_lt h, Or.inl h⟩
    · exact ⟨Nat.le_of_eq (congrArg _ h), Or.inr he⟩
  | tail _ h ih =>
    rcases follows_shorter h with h | ⟨h, he⟩
    · exact ⟨by omega, Or.inl (by omega)⟩
    · exact ⟨by rw [h]; exact ih.1, Or.inr he⟩

theorem Reaches.shorter (h : Reaches table c c') : c'.unread.length ≤ c.unread.length := by
  rcases Relation.reflTransGen_iff_eq_or_transGen.1 h with he | h
  · exact Nat.le_of_eq (congrArg (fun p => p.2.length) he)
  · exact (onward_shorter h).1

theorem follows_split {tokens : List Token} {p q : Head × List Token} (hs : next table tokens = (.ok p.1, p.2))
    (h : Follows table p q) :
    ∃ read rest, tokens = read ++ rest ∧ next table rest = (.ok q.1, q.2) ∧
      ∀ t ∈ read, ∃ head, table.resolve t = .ok head := by
  cases tokens with
  | nil =>
    simp only [next, Prod.mk.injEq] at hs
    exact ⟨[], [], rfl, by rw [hs.2]; exact h, by simp⟩
  | cons t rest =>
    simp only [next, Prod.mk.injEq] at hs
    exact ⟨[t], rest, rfl, by rw [hs.2]; exact h, by simpa using ⟨_, hs.1⟩⟩

theorem onward_split {tokens : List Token} {p q : Head × List Token} (hs : next table tokens = (.ok p.1, p.2))
    (h : Relation.TransGen (Follows table) p q) :
    ∃ read rest, tokens = read ++ rest ∧ next table rest = (.ok q.1, q.2) ∧
      ∀ t ∈ read, ∃ head, table.resolve t = .ok head := by
  induction h with
  | single h => exact follows_split hs h
  | tail _ h ih =>
    obtain ⟨read, rest, rfl, hr, hread⟩ := ih
    obtain ⟨more, rest', rfl, hr', hmore⟩ := follows_split hr h
    refine ⟨read ++ more, rest', by simp, hr', fun t ht => ?_⟩
    rcases List.mem_append.mp ht with ht | ht
    · exact hread t ht
    · exact hmore t ht

/-- A cursor that moved on from a list of tokens stands on what is left behind some of them, all of which have a
use. -/
theorem Stands.onward {tokens : List Token} (hs : Stands table tokens c) (h : Onward table c c') :
    ∃ read rest, tokens = read ++ rest ∧ Stands table rest c' ∧ ∀ t ∈ read, ∃ head, table.resolve t = .ok head :=
  onward_split (p := c.place) (q := c'.place) hs h

end Cursor

end Formula
