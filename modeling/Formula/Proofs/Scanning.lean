import Formula.Proofs.Pieces
import Formula.Proofs.Spelling

/-!
# The tokens of a text

The tokens of a text are numbers, strings, and names and operators that the first character tells apart
(`OperatorSet.tokenize_spelled`). The operators are spelled in ways that are allowed (`OperatorSet.tokenize_allowed`),
and the numbers are finite (`OperatorSet.tokenize_finite`).
-/

namespace Formula

/-- The tokens that a text can have. -/
inductive Token.Spelled : Token → Prop
  | number (x : Double) : Spelled (.number x)
  | string (s : String) : Spelled (.string s)
  | symbol (id : String) : Spelled (.symbol id)

namespace Scanner

variable {ops : OperatorSet} {c : Char} {more spelling rest text : List Char} {t : Token} {tokens : List Token}

theorem symbol_of_nameStart (h : isNameStart c = true) :
    Token.symbol (String.ofList (c :: more)) = .name (String.ofList (c :: more)) := by
  rw [Token.symbol, String.toList_ofList, nameAhead, if_pos h]

theorem symbol_of_not_nameStart (h : isNameStart c = false) :
    Token.symbol (String.ofList (c :: more)) = .operator (String.ofList (c :: more)) := by
  rw [Token.symbol, String.toList_ofList, nameAhead, h]
  rfl

/-- A character that starts a name starts nothing else. -/
theorem Lexes.spelled (h : Lexes ops t spelling rest) : t.Spelled := by
  cases h with
  | name hname =>
    rw [← symbol_of_nameStart hname]
    exact .symbol _
  | point => exact .symbol "."
  | number => exact .number _
  | string => exact .string _
  | operator hstart =>
    rw [← symbol_of_not_nameStart (isOperatorStart_iff.1 hstart).2.1]
    exact .symbol _

theorem Scans.spelled (h : Scans ops text tokens) : ∀ t ∈ tokens, t.Spelled := by
  induction h with
  | nil => exact fun t ht => by cases ht
  | gap _ _ ih => exact ih
  | token hlex _ ih => exact List.forall_mem_cons.2 ⟨hlex.spelled, ih⟩

theorem Lexes.allowed (h : Lexes ops t spelling rest) {id : String} (ht : t = .operator id) :
    ops.isAllowed id = true := by
  cases h with
  | name | number | string => cases ht
  | point _ hallowed =>
    cases ht
    exact hallowed
  | operator _ _ hallowed _ =>
    cases ht
    exact hallowed

theorem Scans.allowed (h : Scans ops text tokens) {id : String} (hid : .operator id ∈ tokens) :
    ops.isAllowed id = true := by
  induction h with
  | nil => cases hid
  | gap _ _ ih => exact ih hid
  | token hlex _ ih =>
    rcases List.mem_cons.1 hid with ht | hid
    · exact hlex.allowed ht.symm
    · exact ih hid

theorem Lexes.finite (h : Lexes ops t spelling rest) {x : Double} (hx : t.payload = .number x) : x.isFinite = true := by
  cases h with
  | name | point | string | operator => cases hx
  | number _ _ hfinite =>
    cases hx
    exact hfinite

theorem Scans.finite (h : Scans ops text tokens) : ∀ t ∈ tokens, ∀ x, t.payload = .number x → x.isFinite = true := by
  induction h with
  | nil => exact fun t ht => by cases ht
  | gap _ _ ih => exact ih
  | token hlex _ ih => exact List.forall_mem_cons.2 ⟨fun x hx => hlex.finite hx, ih⟩

end Scanner

/-- The tokens of a text under any set of operator spellings. -/
theorem OperatorSet.tokenize_spelled {ops : OperatorSet} {source : String} {tokens : List Token}
    (h : ops.tokenize source = .ok tokens) : ∀ t ∈ tokens, t.Spelled :=
  (Scanner.tokensFrom_ok.1 h).spelled

/-- An operator of a text has a spelling that is allowed. -/
theorem OperatorSet.tokenize_allowed {ops : OperatorSet} {source : String} {tokens : List Token}
    (h : ops.tokenize source = .ok tokens) {id : String} (hid : .operator id ∈ tokens) : ops.isAllowed id = true :=
  (Scanner.tokensFrom_ok.1 h).allowed hid

/-- A number of a text is finite. -/
theorem OperatorSet.tokenize_finite {ops : OperatorSet} {source : String} {tokens : List Token}
    (h : ops.tokenize source = .ok tokens) : ∀ t ∈ tokens, ∀ x, t.payload = .number x → x.isFinite = true :=
  (Scanner.tokensFrom_ok.1 h).finite

end Formula
