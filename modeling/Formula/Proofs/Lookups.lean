import Formula.Proofs.SideBySide

/-!
# What a reading looks up

A token is looked up by one spelling (`Token.lookup`), and the end stands behind the last token. A reading comes to the
table with these spellings only (`lookups`), and goes on with the symbol uses that it has got: from tables with the same
symbols under them it gets the same uses in the same places, so it ends with the same tree in the same place or fails
alike (`Node.readFrom_congr`). Under other spellings, symbols may be defined, redefined and deleted
(`SymbolTable.Edited`).
-/

namespace Formula

open Cursor

/-! ## Spellings -/

/-- The spelling that a token is looked up by. -/
def Token.lookup (t : Token) : String :=
  match t.kind with
  | .number | .string => literalId
  | .name | .operator => t.payload.display

/-- The spellings that tokens and the end behind them are looked up by. -/
def lookups (tokens : List Token) : List String := endId :: tokens.map Token.lookup

/-- The tables have the same symbols, or none, under these spellings. -/
def SymbolTable.Agree (ids : List String) (table table' : SymbolTable) : Prop :=
  ∀ id ∈ ids, table.get? id = table'.get? id

/-- Tables reached from a table by definitions and deletions under other spellings than these. -/
inductive SymbolTable.Edited (ids : List String) (table : SymbolTable) : SymbolTable → Prop
  | unchanged : Edited ids table table
  | define {edited : SymbolTable} {s : Symbol} : Edited ids table edited → s.id ∉ ids →
      Edited ids table (edited.define s)
  | delete {edited : SymbolTable} {id : String} : Edited ids table edited → id ∉ ids →
      Edited ids table (edited.erase id)

section Tables

variable {table table' : SymbolTable} {tokens : List Token}

theorem SymbolTable.Edited.agree {ids : List String} {edited : SymbolTable} (h : Edited ids table edited) :
    Agree ids edited table := by
  induction h with
  | unchanged => exact fun _ _ => rfl
  | define _ hs ih =>
    intro id hid
    rw [get?_define_of_ne _ _ (by rintro rfl; exact hs hid), ih id hid]
  | delete _ hid' ih =>
    intro id hid
    rw [get?_erase_of_ne _ (by rintro rfl; exact hid' hid), ih id hid]

theorem SymbolTable.use_congr {id : String} (h : table.get? id = table'.get? id) (literal? : Option Value) :
    table.use id literal? = table'.use id literal? := by
  rw [use, use, h]

theorem SymbolTable.resolve_congr {t : Token} (h : table.get? t.lookup = table'.get? t.lookup) :
    table.resolve t = table'.resolve t := by
  obtain ⟨kind, payload⟩ := t
  cases kind with
  | number =>
    cases payload with
    | number x => exact use_congr h _
    | text s => rfl
  | string | name | operator => exact use_congr h _

namespace Cursor

theorem next_congr (h : SymbolTable.Agree (lookups tokens) table table') : next table tokens = next table' tokens := by
  cases tokens with
  | nil => exact Prod.ext (SymbolTable.use_congr (h endId List.mem_cons_self) none) rfl
  | cons t rest =>
    refine Prod.ext (SymbolTable.resolve_congr (h t.lookup ?_)) rfl
    exact List.mem_cons_of_mem _ List.mem_cons_self

/-- What the tables agree on for some tokens, they agree on for the last of them. -/
theorem agree_suffix {rest : List Token} (h : SymbolTable.Agree (lookups tokens) table table')
    (hrest : rest <:+ tokens) : SymbolTable.Agree (lookups rest) table table' :=
  fun id hid => h id (List.cons_subset_cons _ (List.map_subset _ hrest.subset) hid)

theorem next_suffix (table : SymbolTable) (tokens : List Token) : (next table tokens).2 <:+ tokens := by
  cases tokens with
  | nil => exact List.suffix_refl []
  | cons t rest => exact List.suffix_cons t rest

/-- The cursors are the same, with no tokens unread but the last of these. -/
def SamePlace (table : SymbolTable) (tokens : List Token) (c d : Cursor) : Prop :=
  table.Knows c.active ∧ d = c ∧ c.unread <:+ tokens

end Cursor

/-- Readings of the same tokens with tables that agree on them never come apart. -/
theorem sideBySide_agree (h : SymbolTable.Agree (lookups tokens) table table') :
    SideBySide table table' ⟨fun _ => False, Eq⟩ (SamePlace table tokens) (fun _ _ => False) fun _ _ => False where
  pair_self _ := rfl
  depth hp := hp.elim (fun hn => congrArg Cursor.depth hn.2.1) False.elim
  near_atDepth n hn := ⟨hn.1, congrArg (Cursor.atDepth · n) hn.2.1, hn.2.2⟩
  apart_atDepth _ ha := ha
  active hn := ⟨hn.1, congrArg Cursor.active hn.2.1⟩
  advance := by
    rintro _ c ⟨-, rfl, hunread⟩
    have hrest := (next_suffix table c.unread).trans hunread
    unfold Cursor.advance
    rw [← next_congr (agree_suffix h hunread)]
    rcases hnext : next table c.unread with ⟨first, rest⟩
    rw [hnext] at hrest
    cases first with
    | error e => exact .failed rfl
    | ok head => exact .ok ⟨rfl, rfl, rfl, .inl ⟨next_knows hnext, rfl, hrest⟩⟩
  apart_power ha := ha.elim
  apart_id ha := ha.elim
  apart_failed _ ha := ha.elim
  leading ha := ha.elim

end Tables

/-! ## Readings -/

namespace Node

/-- The first expression of some tokens, and the cursor behind it. -/
def readFrom (table : SymbolTable) (tokens : List Token) (power : BindingPower) : Except EvalError (Node × Cursor) :=
  match start table tokens with
  | .error e => .error e
  | .ok c =>
    match expression table power c with
    | .error e _ => .error e
    | .ok node c => .ok (node, c)

theorem readFrom_agree {table table' : SymbolTable} {tokens : List Token}
    (h : SymbolTable.Agree (lookups tokens) table table') (power : BindingPower) :
    readFrom table tokens power = readFrom table' tokens power := by
  have hstart : start table tokens = start table' tokens := by rw [start, start, next_congr h]
  unfold readFrom
  rw [← hstart]
  cases hc : start table tokens with
  | error e => rfl
  | ok c =>
    obtain ⟨hstands, hdepth⟩ := start_ok.1 hc
    have hlevels : c.depth + maxDepth = maxDepth := by rw [hdepth, Nat.zero_add]
    have hnear : SamePlace table tokens c c := by
      refine ⟨next_knows hstands, rfl, ?_⟩
      rw [hstands.unread_eq]
      exact List.tail_suffix tokens
    have htracks : Tracks ⟨fun _ => False, Eq⟩
        (SideBySide.Trees table (SamePlace table tokens) (fun _ _ => False) (fun _ _ => False) c.depth)
        (expression table power c) (expression table' power c) := by
      rw [expression_eq hlevels, expression_eq hlevels]
      exact (sideBySide_agree h).reads maxDepth (.inl hnear) hlevels
    show (match expression table power c with | .error e _ => _ | .ok node c => _) =
      match expression table' power c with | .error e _ => _ | .ok node c => _
    generalize expression table power c = r, expression table' power c = s at htracks
    cases htracks with
    | released hfalse => exact hfalse.elim
    | failed he => rw [he]
    | ok hq =>
      obtain ⟨hnodes, hplace, -⟩ := hq
      rw [hnodes.eq, (hplace.resolve_right id).2.1]

/-- What is read depends on the symbols under the spellings that the tokens and the end are looked up by, and on no
others: tables that agree on them give the same tree with the same cursor behind it, which then stands on the same end
or not, or fail alike. So it does not matter whether and how other symbols are defined. -/
theorem readFrom_congr (tokens : List Token) (power : BindingPower) (table : SymbolTable) :
    (∀ table', SymbolTable.Agree (lookups tokens) table table' →
      readFrom table tokens power = readFrom table' tokens power) ∧
    ∀ edited, SymbolTable.Edited (lookups tokens) table edited →
      readFrom edited tokens power = readFrom table tokens power :=
  ⟨fun _ h => readFrom_agree h power, fun _ h => readFrom_agree h.agree power⟩

/-- `1 - max(PI)` with addition redefined and the sine deleted. -/
theorem readFrom_congr_difference :
    let table := Evaluator.standard.symbols
    let edited := (table.define (.rightward "+" 90 fun _ => pure (.number 0))).erase "sin"
    let tokens : List Token := [.number 1, .operator "-", .name "max", .operator "(", .name "PI", .operator ")"]
    SymbolTable.Agree (lookups tokens) table edited ∧ SymbolTable.Edited (lookups tokens) table edited ∧
      readFrom edited tokens .none = readFrom table tokens .none ∧
      ∃ node c, readFrom table tokens .none = .ok (node, c) ∧ readFrom edited tokens .none = .ok (node, c) ∧
        c.hasMore = false := by
  intro table edited tokens
  have hedited : SymbolTable.Edited (lookups tokens) table edited :=
    .delete (.define .unchanged (by decide)) (by decide)
  have hagree : SymbolTable.Agree (lookups tokens) table edited := fun id hid => (hedited.agree id hid).symm
  obtain ⟨hsame, hunused⟩ := readFrom_congr tokens .none table
  refine ⟨hagree, hedited, hunused edited hedited, ?_⟩
  obtain ⟨node, c, hread, hend⟩ : ∃ node c, readFrom table tokens .none = .ok (node, c) ∧ c.hasMore = false :=
    ⟨_, _, rfl, rfl⟩
  exact ⟨node, c, hread, (hsame edited hagree).symm.trans hread, hend⟩

end Node

end Formula
