import Formula.Proofs.Lexemes

/-!
# The pieces of a text

A text that has tokens falls into pieces: runs of blanks, and lexemes with one token each. `Scans ops text tokens` says
so by rules, and `tokensFrom_ok` says that the tokens that are found are those, whatever position the text starts at.
`OperatorSet.tokenize_ok` gives the pieces themselves.
-/

namespace Formula.Scanner

variable {ops : OperatorSet}

/-! ## Texts and their tokens -/

/-- The tokens of a text. -/
inductive Scans (ops : OperatorSet) : List Char → List Token → Prop
  | nil : Scans ops [] []
  | gap {c : Char} {cs : List Char} {tokens : List Token} : isGap c = true → Scans ops cs tokens →
      Scans ops (c :: cs) tokens
  | token {t : Token} {spelling rest : List Char} {tokens : List Token} : Lexes ops t spelling rest →
      Scans ops rest tokens → Scans ops (spelling ++ rest) (t :: tokens)

/-- No blank starts a lexeme. -/
theorem Lexes.start {t : Token} {spelling rest : List Char} (h : Lexes ops t spelling rest) :
    ∃ c more, spelling = c :: more ∧ isGap c = false := by
  cases h with
  | name hname => exact ⟨_, _, rfl, by grind⟩
  | point => exact ⟨_, _, rfl, by decide⟩
  | number hn =>
    obtain ⟨c, more, rfl, hc⟩ := hn.start
    exact ⟨c, more, rfl, by grind⟩
  | string hquote => exact ⟨_, _, rfl, by grind⟩
  | operator hstart => exact ⟨_, _, rfl, (isOperatorStart_iff.1 hstart).1⟩

section Texts

variable {c : Char} {cs text spelling rest : List Char} {t : Token} {tokens : List Token} {position : Nat}

theorem tokensFrom_nil (ops : OperatorSet) (position : Nat) : tokensFrom ops position [] = .ok [] := by
  rw [tokensFrom]

theorem tokensFrom_gap (h : isGap c = true) :
    tokensFrom ops position (c :: cs) = tokensFrom ops (position + c.utf8Size) cs := by
  rw [tokensFrom, if_pos h]

theorem tokensFrom_error {fault : ScanFault} {shown : List Char} (hc : isGap c = false)
    (h : readToken ops c cs = .error (fault, shown)) : tokensFrom ops position (c :: cs) =
      .error { fault, text := String.ofList shown, position := position % ScanError.positions } := by
  rw [tokensFrom, if_neg (by simp [hc])]
  split
  · next h' =>
    rw [h] at h'
    cases h'
    rfl
  · next h' => rw [h] at h'; cases h'

theorem tokensFrom_read {l : Lexeme} (hc : isGap c = false) (hl : readToken ops c cs = .ok l) :
    tokensFrom ops position (c :: cs) =
      (tokensFrom ops (position + Text.byteSize l.spelling) l.rest).map (l.token :: ·) := by
  rw [tokensFrom, if_neg (by simp [hc])]
  split
  · next h => rw [hl] at h; cases h
  · next l' h =>
    rw [hl] at h
    cases h
    cases tokensFrom ops (position + Text.byteSize l.spelling) l.rest <;> rfl

/-- The tokens of a text that starts with a lexeme are its token and those of what follows. -/
theorem tokensFrom_lexeme (h : Lexes ops t spelling rest) (position : Nat) :
    tokensFrom ops position (spelling ++ rest) =
      (tokensFrom ops (position + Text.byteSize spelling) rest).map (t :: ·) := by
  obtain ⟨c, more, rfl, hc⟩ := h.start
  exact tokensFrom_read hc ((readToken_ok hc).2 ⟨rfl, h⟩)

/-- A token of a given text, and those behind it. -/
theorem tokensFrom_token (hc : isGap c = false) (h : readToken ops c cs = .ok ⟨t, spelling, rest⟩)
    (hrest : tokensFrom ops (position + Text.byteSize spelling) rest = .ok tokens) :
    tokensFrom ops position (c :: cs) = .ok (t :: tokens) := by
  rw [tokensFrom_read hc h, hrest]
  rfl

/-- The tokens that are found do not depend on the position where a text starts. -/
theorem tokensFrom_ok : tokensFrom ops position text = .ok tokens ↔ Scans ops text tokens := by
  constructor
  · intro h
    fun_induction tokensFrom ops position text generalizing tokens with
    | case1 =>
      cases h
      exact .nil
    | case2 position c cs hc ih => exact .gap hc (ih h)
    | case3 => cases h
    | case4 position c cs hc l hl tokens' hrest ih =>
      cases h
      obtain ⟨t, spelling, rest⟩ := l
      obtain ⟨hsplit, hlex⟩ := (readToken_ok (Bool.not_eq_true _ ▸ hc)).1 hl
      rw [← hsplit]
      exact .token hlex (ih hrest)
    | case5 => cases h
  · intro h
    induction h generalizing position with
    | nil => exact tokensFrom_nil ops position
    | gap hc _ ih =>
      rw [tokensFrom_gap hc]
      exact ih
    | token hlex _ ih =>
      rw [tokensFrom_lexeme hlex, ih]
      rfl

end Texts

/-! ## Pieces -/

/-- A run of blanks, or a token with the characters that write it. -/
inductive Piece
  | gap (run : List Char)
  | lexeme (token : Token) (spelling : List Char)

namespace Piece

/-- The characters of a piece. -/
def chars : Piece → List Char
  | gap run => run
  | lexeme _ spelling => spelling

/-- The token of a piece, if it is a lexeme. -/
def token? : Piece → Option Token
  | gap _ => none
  | lexeme token _ => some token

/-- A piece in front of what follows it: only blanks are skipped, and a lexeme writes its token. -/
def Stands (ops : OperatorSet) : Piece → List Char → Prop
  | gap run, _ => ∀ c ∈ run, c ≤ ' '
  | lexeme token spelling, rest => Lexes ops token spelling rest

/-- Each piece in front of those behind it. -/
def AllStand (ops : OperatorSet) : List Piece → Prop
  | [] => True
  | piece :: rest => piece.Stands ops (rest.flatMap chars) ∧ AllStand ops rest

end Piece

open Piece

theorem Scans.pieces {text : List Char} {tokens : List Token} (h : Scans ops text tokens) :
    ∃ pieces, pieces.flatMap chars = text ∧ pieces.filterMap token? = tokens ∧ AllStand ops pieces := by
  induction h with
  | nil => exact ⟨[], rfl, rfl, trivial⟩
  | @gap c _ _ hc _ ih =>
    obtain ⟨pieces, rfl, rfl, hall⟩ := ih
    refine ⟨.gap [c] :: pieces, rfl, rfl, fun d hd => ?_, hall⟩
    rw [List.mem_singleton.1 hd]
    exact of_decide_eq_true hc
  | @token t spelling _ _ hlex _ ih =>
    obtain ⟨pieces, rfl, rfl, hall⟩ := ih
    exact ⟨.lexeme t spelling :: pieces, rfl, rfl, hlex, hall⟩

theorem Scans.gaps {run text : List Char} {tokens : List Token} (hrun : ∀ c ∈ run, c ≤ ' ')
    (h : Scans ops text tokens) : Scans ops (run ++ text) tokens := by
  induction run with
  | nil => exact h
  | cons c run ih =>
    obtain ⟨hc, hrun⟩ := List.forall_mem_cons.1 hrun
    exact .gap (decide_eq_true hc) (ih hrun)

theorem Piece.AllStand.scans : ∀ {pieces : List Piece}, AllStand ops pieces →
    Scans ops (pieces.flatMap chars) (pieces.filterMap token?)
  | [], _ => .nil
  | .gap _ :: _, h => h.2.scans.gaps h.1
  | .lexeme _ _ :: _, h => .token h.1 h.2.scans

end Formula.Scanner

namespace Formula

open Scanner Piece

/-- The tokens of a text are those of the pieces that it falls into, from its first character to its last. -/
theorem OperatorSet.tokenize_ok {ops : OperatorSet} {source : String} {tokens : List Token} :
    ops.tokenize source = .ok tokens ↔
      ∃ pieces, pieces.flatMap chars = source.toList ∧ pieces.filterMap token? = tokens ∧ AllStand ops pieces := by
  rw [tokenize, tokensFrom_ok]
  constructor
  · exact Scans.pieces
  · rintro ⟨pieces, htext, rfl, hall⟩
    rw [← htext]
    exact hall.scans

end Formula
