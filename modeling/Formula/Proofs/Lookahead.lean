import Formula.Proofs.Lookups
import Formula.Proofs.WholeInput

/-!
# How far a reading looks

A reading that succeeds has looked at the tokens in front of its last place and at no others. With other tokens behind
them, be it fewer or more, it gives the same tree and stops in the same place (`Node.expression_lookahead`). The end is
the exception. What stands behind the last token is looked at if a reading comes to it, and then there must be as many
tokens as before. Whether it does is not always told by the place where it stops, as tokens may be spelled like the
end; a token without a use tells (`Node.ReadsEnd`).
-/

namespace Formula

open Cursor

variable {table : SymbolTable} {power : BindingPower} {c c' : Cursor} {node : Node} {read rest : List Token}

/-! ## Places in a list of tokens -/

/-- The cursor has read up to this index of the tokens. -/
def Cursor.At (tokens : List Token) (index : Nat) (c : Cursor) : Prop :=
  index ≤ tokens.length ∧ c.unread = tokens.drop index

/-- The cursor on other tokens, read up to this index. -/
def Cursor.on (c : Cursor) (tokens : List Token) (index : Nat) : Cursor := { c with unread := tokens.drop index }

theorem Cursor.At.on_eq {tokens : List Token} {index : Nat} (h : c.At tokens index) : c.on tokens index = c := by
  rw [Cursor.on, ← h.2]

theorem Cursor.At.on {tokens tokens' : List Token} {index read : Nat} (h : c.At tokens read)
    (htake : tokens'.take read = tokens.take read) (hindex : index ≤ read) : (c.on tokens' index).At tokens' index := by
  have hlength := congrArg List.length htake
  rw [List.length_take, List.length_take, Nat.min_eq_left h.1] at hlength
  exact ⟨by omega, rfl⟩

/-- The tokens between two places, in a list that starts like another. -/
theorem drop_eq_of_take_eq {tokens tokens' : List Token} {index : Nat} (hread : tokens.drop index = read ++ rest)
    (htake : tokens'.take (index + read.length) = tokens.take (index + read.length)) :
    tokens'.drop index = read ++ tokens'.drop (index + read.length) := by
  have hbetween : (tokens'.drop index).take read.length = read := by
    have hdrop := congrArg (List.drop index) htake
    rwa [List.drop_take, List.drop_take, Nat.add_sub_cancel_left, hread, List.take_left] at hdrop
  calc tokens'.drop index
      = (tokens'.drop index).take read.length ++ (tokens'.drop index).drop read.length :=
        (List.take_append_drop _ _).symm
    _ = read ++ tokens'.drop (index + read.length) := by rw [hbetween, List.drop_drop]

/-- The tokens that are unread at a later place are the last of those that were unread. -/
theorem Cursor.Reaches.suffix (h : Reaches table c c') : c'.unread <:+ c.unread := by
  suffices hplace : ∀ {p q : Head × List Token}, Relation.ReflTransGen (Follows table) p q → q.2 <:+ p.2 from hplace h
  intro p q h
  induction h with
  | refl => exact List.suffix_refl _
  | @tail p' q' _ hf ih =>
    have hnext := next_suffix table p'.2
    rw [show next table p'.2 = (.ok q'.1, q'.2) from hf] at hnext
    exact hnext.trans ih

/-! ## Tokens without a use -/

/-- A token that no table has a use for. -/
def Token.unusable : Token := ⟨.number, .text ""⟩

/-- A token without a use stays unread. -/
theorem Cursor.Reaches.keeps (h : Reaches table c c') (hc : [Token.unusable] <:+ c.unread) :
    [Token.unusable] <:+ c'.unread := by
  suffices hplace : ∀ {p q : Head × List Token}, Relation.ReflTransGen (Follows table) p q →
      [Token.unusable] <:+ p.2 → [Token.unusable] <:+ q.2 from hplace h hc
  intro p q h hp
  induction h with
  | refl => exact hp
  | tail _ hf ih =>
    obtain ⟨front, hfront⟩ := ih
    rw [Follows, ← hfront] at hf
    cases front with
    | nil => cases congrArg Prod.fst hf
    | cons t front => exact ⟨front, congrArg Prod.snd hf⟩

namespace Node

/-- A reading from here comes to what stands behind the last token: a token there that has no use makes it fail. -/
def ReadsEnd (table : SymbolTable) (power : BindingPower) (c : Cursor) : Prop :=
  ∃ e c', expression table power { c with unread := c.unread ++ [.unusable] } = .error e c'

/-! ## Readings among other tokens -/

/-- Behind tokens that a reading does not come to, it may be followed by any others. -/
theorem Reads.among (h : Reads table power c node c') (hc : c.unread = read ++ rest) (hf : InFront table rest c') :
    ∃ front, c'.unread = front ++ rest ∧
      ∀ new, Reads table power { c with unread := read ++ new } node { c' with unread := front ++ new } := by
  obtain ⟨unread, active, depth⟩ := c
  subst hc
  have hswap (new : List Token) : Swapped rest new ⟨read ++ rest, active, depth⟩ ⟨read ++ new, active, depth⟩ :=
    .intro read active depth
  obtain ⟨_, -, hd⟩ := h.swap (hswap rest) hf
  obtain ⟨front, hfront, -⟩ := hd.split
  refine ⟨front, hfront, fun new => ?_⟩
  obtain ⟨_, hr, hd⟩ := h.swap (hswap new) hf
  obtain ⟨front', hfront', rfl⟩ := hd.split
  rw [List.append_cancel_right (hfront'.symm.trans hfront)] at hr
  exact hr

/-- A reading that comes to the end stops there. -/
theorem Reads.stands_of_readsEnd (h : Reads table power c node c') (he : ReadsEnd table power c) :
    Stands table [] c' := by
  by_contra hs
  obtain ⟨e, d, he⟩ := he
  obtain ⟨read, hread⟩ := h.onward.reaches.suffix
  obtain ⟨front, -, hamong⟩ := h.among hread.symm ⟨Nat.le_refl _, fun _ => hs⟩
  have hok := expression_ok.2 (hamong (c'.unread ++ [.unusable]))
  rw [← List.append_assoc, hread, he] at hok
  cases hok

/-- A reading that does not come to the end only looks at the tokens in front of its last place. -/
theorem Reads.among_any (h : Reads table power c node c') (he : ¬ ReadsEnd table power c) :
    ∃ read, c.unread = read ++ c'.unread ∧
      ∀ new, Reads table power { c with unread := read ++ new } node { c' with unread := new } := by
  obtain ⟨node₁, c₁, h₁⟩ : ∃ node₁ c₁,
      Reads table power { c with unread := c.unread ++ [.unusable] } node₁ c₁ := by
    cases hr : expression table power { c with unread := c.unread ++ [.unusable] } with
    | ok node₁ c₁ => exact ⟨node₁, c₁, expression_ok.1 hr⟩
    | error e d => exact absurd ⟨e, d, hr⟩ he
  have hkept : [Token.unusable] <:+ c₁.unread := h₁.onward.reaches.keeps (List.suffix_append _ _)
  -- without the token it is the reading at hand
  obtain ⟨front, hfront, hamong⟩ := h₁.among rfl ⟨hkept.length_le, nofun⟩
  have hsame := hamong []
  rw [List.append_nil, List.append_nil] at hsame
  have heq := (expression_ok.2 h).symm.trans (expression_ok.2 hsame)
  rw [EStateM.Result.ok.injEq] at heq
  obtain ⟨rfl, rfl⟩ := heq
  -- and so are the tokens in front of the last place that it looks at
  obtain ⟨read, hread⟩ := h.onward.reaches.suffix
  refine ⟨read, hread.symm, fun new => ?_⟩
  have hsplit : c.unread ++ [.unusable] = read ++ (front ++ [.unusable]) := by
    rw [← List.append_assoc]
    exact congrArg (· ++ _) hread.symm
  obtain ⟨front', hfront', hamong'⟩ := h₁.among hsplit ⟨Nat.le_of_eq (congrArg List.length hfront.symm), by simp⟩
  have hnil : front' = [] := List.append_left_eq_self.1 (hfront'.symm.trans hfront)
  have hnew := hamong' new
  rw [hnil, List.nil_append] at hnew
  exact hnew

/-! ## Readings on other tokens -/

/-- An expression that was read up to some index, which is not in front of where it started and not behind the last
token, is the same on all tokens that are the same up to that index, if there are as many of them where the end has
been read: it is read up to the same index, to the same tree, active symbol and depth. A reading that has read the end
has read all tokens and stands on the end. -/
theorem expression_lookahead {tokens : List Token} {n : Nat} (hc : c.At tokens n)
    (h : expression table power c = .ok node c') :
    ∃ m, n ≤ m ∧ m ≤ tokens.length ∧ c'.At tokens m ∧
      (ReadsEnd table power c → m = tokens.length ∧ Stands table [] c') ∧
      ∀ tokens', tokens'.take m = tokens.take m → (ReadsEnd table power c → tokens'.length = tokens.length) →
        (c.on tokens' n).At tokens' n ∧ (c'.on tokens' m).At tokens' m ∧
          expression table power (c.on tokens' n) = .ok node (c'.on tokens' m) := by
  have hr := expression_ok.1 h
  obtain ⟨read, hread⟩ := hr.onward.reaches.suffix
  have hdrop : tokens.drop n = read ++ c'.unread := by rw [← hc.2, hread]
  have hc' : c'.At tokens (n + read.length) := by
    refine ⟨?_, by rw [← List.drop_drop, hdrop, List.drop_left]⟩
    have hlength := congrArg List.length hdrop
    rw [List.length_drop, List.length_append] at hlength
    have hn := hc.1
    omega
  have hend (he : ReadsEnd table power c) : n + read.length = tokens.length ∧ Stands table [] c' := by
    have hs := hr.stands_of_readsEnd he
    have hrest : tokens.drop (n + read.length) = [] := hc'.2.symm.trans hs.nil.2
    exact ⟨Nat.le_antisymm hc'.1 (List.drop_eq_nil_iff.1 hrest), hs⟩
  refine ⟨n + read.length, Nat.le_add_right _ _, hc'.1, hc', hend, fun tokens' htake hlength => ?_⟩
  have hat : (c'.on tokens' (n + read.length)).At tokens' (n + read.length) := hc'.on htake (Nat.le_refl _)
  refine ⟨⟨Nat.le_trans (Nat.le_add_right _ _) hat.1, rfl⟩, hat, ?_⟩
  by_cases he : ReadsEnd table power c
  · have hall : tokens' = tokens := by
      rw [(hend he).1, List.take_length, ← hlength he, List.take_length] at htake
      exact htake
    rw [hall, hc.on_eq, hc'.on_eq]
    exact h
  · obtain ⟨read', hread', hamong⟩ := hr.among_any he
    obtain rfl : read' = read := List.append_cancel_right (hread'.symm.trans hread.symm)
    rw [Cursor.on, drop_eq_of_take_eq hdrop htake]
    exact expression_ok.2 (hamong _)

/-- `1 + 2` in front of a parenthesis, with other tokens behind it. -/
theorem expression_lookahead_parenthesis :
    let table := Evaluator.standard.symbols
    let tokens : List Token := [.number 1, .operator "+", .number 2, .operator ")", .string "a"]
    let tokens' : List Token := [.number 1, .operator "+", .number 2, .operator ")", .name "b", .operator "+"]
    ∃ c node c', start table tokens = .ok c ∧ c.At tokens 1 ∧ expression table .none c = .ok node c' ∧
      c'.At tokens 4 ∧ tokens'.take 4 = tokens.take 4 ∧ ¬ ReadsEnd table .none c ∧
      expression table .none (c.on tokens' 1) = .ok node (c'.on tokens' 4) := by
  intro table tokens tokens'
  obtain ⟨c, node, c', hs, hc, h, hunread⟩ : ∃ c node c', start table tokens = .ok c ∧ c.At tokens 1 ∧
      expression table .none c = .ok node c' ∧ c'.unread = [.string "a"] :=
    ⟨_, _, _, rfl, ⟨by decide, rfl⟩, rfl, rfl⟩
  obtain ⟨m, -, hm, hc', hend, hall⟩ := expression_lookahead hc h
  obtain rfl : m = 4 := by
    have hlength := congrArg List.length (hc'.2.symm.trans hunread)
    rw [List.length_drop, show tokens.length = 5 from rfl, List.length_singleton] at hlength
    omega
  have hnot : ¬ ReadsEnd table .none c := fun he => absurd (hend he).1 (by decide)
  exact ⟨c, node, c', hs, hc, h, hc', rfl, hnot, (hall tokens' rfl (absurd · hnot)).2.2⟩

end Node

end Formula
