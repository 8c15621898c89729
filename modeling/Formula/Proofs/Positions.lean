import Formula.Proofs.Lines

/-!
# The line of a position

A text has one list of pieces when it is cut after each newline (`Cut`, `cut_iff`), and each position up to its end lies
in one of them: the size of the pieces in front of it and the offset into it make up the position, and only at the end
of the text does the offset reach the end of the piece (`Line.Holds`). Looking up a position finds that piece and its
number, and finds nothing exactly where the position is past the end (`Line.at?_iff`).
-/

namespace Formula.Text

/-! ## Pieces -/

/-- A text cut after each newline: each piece is a line with the newline that ends it, and the last one may lack it. -/
inductive Cut : List Char → List (List Char) → Prop
  | nothing : Cut [] []
  | last {line : List Char} : '\n' ∉ line → line ≠ [] → Cut line [line]
  | newline {line text : List Char} {ps : List (List Char)} : '\n' ∉ line → Cut text ps →
      Cut (line ++ '\n' :: text) ((line ++ ['\n']) :: ps)

theorem cut_pieces (text : List Char) : Cut text (pieces text) := by
  obtain ⟨hline, htext | ⟨below, htext⟩⟩ := behind_eq text
  · by_cases hne : text = []
    · rw [hne]
      exact .nothing
    · rw [← htext] at hline
      rw [pieces_of_not_mem hline hne]
      exact .last hline hne
  · have hbelow : below.length < text.length := by
      rw [htext, List.length_append, List.length_cons]
      omega
    have hcut := Cut.newline hline (cut_pieces below)
    rwa [← pieces_line hline, ← htext] at hcut
  termination_by text.length

theorem cut_iff {text : List Char} {ps : List (List Char)} : Cut text ps ↔ ps = pieces text := by
  constructor
  · intro h
    induction h with
    | nothing => rfl
    | last hline hne => exact (pieces_of_not_mem hline hne).symm
    | newline hline _ ih => rw [pieces_line hline, ih]
  · rintro rfl
    exact cut_pieces text

theorem Cut.flatten_eq {text : List Char} {ps : List (List Char)} (h : Cut text ps) : ps.flatten = text := by
  induction h with
  | nothing => rfl
  | last => simp
  | newline _ _ ih => rw [List.flatten_cons, ih, List.append_assoc, List.singleton_append]

/-! ## Positions -/

namespace Line

/-- The line that a position in these pieces lies on. -/
inductive Holds (ps : List (List Char)) : (position : Nat) → Line → Prop
  | inside {above below : List (List Char)} {piece : List Char} {offset : Nat} : ps = above ++ piece :: below →
      offset < byteSize piece → Holds ps (byteSize above.flatten + offset) ⟨above.length + 1, piece, offset⟩
  | atEnd {above : List (List Char)} {piece : List Char} : ps = above ++ [piece] →
      Holds ps (byteSize above.flatten + byteSize piece) ⟨above.length + 1, piece, byteSize piece⟩
  | nothing : ps = [] → Holds ps 0 ⟨1, [], 0⟩

variable {ps : List (List Char)} {position : Nat} {l : Line}

theorem Holds.find_eq (h : Holds ps position l) : find 1 position ps = l := by
  cases h with
  | inside hps hoffset => rw [hps, find_append (Or.inl hoffset), Nat.add_comm]
  | atEnd hps => rw [hps, find_append (Or.inr ⟨rfl, rfl⟩), Nat.add_comm]
  | nothing hps => rw [hps, find]

theorem Holds.le (h : Holds ps position l) : position ≤ byteSize ps.flatten := by
  cases h with
  | inside hps hoffset =>
    rw [hps, List.flatten_append, List.flatten_cons, byteSize_append, byteSize_append]
    omega
  | atEnd hps => rw [hps, List.flatten_append, List.flatten_singleton, byteSize_append]
  | nothing => exact Nat.zero_le _

/-- Behind a piece that ends in front of the position. -/
theorem Holds.behind {piece : List Char} (hne : ps ≠ []) (h : Holds ps position l) :
    Holds (piece :: ps) (byteSize piece + position) ⟨l.number + 1, l.text, l.offset⟩ := by
  have hsize (above : List (List Char)) (offset : Nat) :
      byteSize piece + (byteSize above.flatten + offset) = byteSize (piece :: above).flatten + offset := by
    rw [List.flatten_cons, byteSize_append, Nat.add_assoc]
  cases h with
  | inside hps hoffset =>
    rw [hsize, hps]
    exact .inside (List.cons_append ..).symm hoffset
  | atEnd hps =>
    rw [hsize, hps]
    exact .atEnd (List.cons_append ..).symm
  | nothing hps => exact absurd hps hne

/-- Up to the end of the pieces, each position lies on a line. -/
theorem exists_holds : ∀ {ps : List (List Char)} {position : Nat}, position ≤ byteSize ps.flatten →
    ∃ l, Holds ps position l
  | [], position, h => by
    obtain rfl : position = 0 := Nat.le_zero.1 h
    exact ⟨_, .nothing rfl⟩
  | piece :: rest, position, h => by
    rw [List.flatten_cons, byteSize_append] at h
    by_cases hoffset : position < byteSize piece
    · have hps : piece :: rest = [] ++ piece :: rest := rfl
      have hholds := Holds.inside hps hoffset
      rw [List.flatten_nil, byteSize_nil, Nat.zero_add] at hholds
      exact ⟨_, hholds⟩
    · obtain ⟨behind, rfl⟩ := Nat.exists_eq_add_of_le (Nat.le_of_not_lt hoffset)
      by_cases hrest : rest = []
      · subst hrest
        obtain rfl : behind = 0 := by
          rw [List.flatten_nil, byteSize_nil] at h
          omega
        have hps : [piece] = [] ++ [piece] := rfl
        have hholds := Holds.atEnd hps
        rw [List.flatten_nil, byteSize_nil, Nat.zero_add] at hholds
        exact ⟨_, hholds⟩
      · obtain ⟨l, hl⟩ := exists_holds (Nat.le_of_add_le_add_left h)
        exact ⟨_, hl.behind hrest⟩

/-- A text has one list of pieces. A position is looked up in vain exactly if it is past the end of the text, and is
found exactly on the line that holds it. -/
theorem at?_iff (source : String) (position : Nat) :
    ∃ ps, (∀ qs, Cut source.toList qs ↔ qs = ps) ∧ (at? source position = none ↔ source.utf8ByteSize < position) ∧
      ∀ l, at? source position = some l ↔ Holds ps position l := by
  refine ⟨pieces source.toList, fun qs => cut_iff, ?_, fun l => ?_⟩
  · rw [at?, ← byteSize_toList]
    split <;> simp only [reduceCtorEq, true_iff, false_iff] <;> omega
  · have hflatten := (cut_pieces source.toList).flatten_eq
    rw [at?]
    constructor
    · intro h
      split at h
      · next hle =>
        rw [← hflatten] at hle
        obtain ⟨l', hl'⟩ := exists_holds hle
        rw [hl'.find_eq] at h
        rwa [← Option.some.inj h]
      · cases h
    · intro h
      have hle := h.le
      rw [hflatten] at hle
      rw [if_pos hle, h.find_eq]

end Line

end Formula.Text
