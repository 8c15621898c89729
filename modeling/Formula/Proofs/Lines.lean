import Formula.Text.Blank
import Formula.Text.Line
import Mathlib.Data.List.DropRight

/-!
# The line of a place

A place divides a text into what stands before it and what stands behind it. `lineStart` and `lineEnd` are the parts of
its line on either side, without the newline. The pieces of the text in front of that line are those of what stands
before it, each of them with one newline (`pieces_place`), so `Line.find` comes to the line by the size of that text and
has counted its newlines (`Line.at?_place`).
-/

namespace Formula.Text

/-- What stands on the line in front of a place, given what stands before the place. -/
def lineStart (before : List Char) : List Char := before.rtakeWhile (· ≠ '\n')

/-- What stands on the line from a place on, given what stands behind the place. -/
def lineEnd (behind : List Char) : List Char := behind.takeWhile (· ≠ '\n')

/-! ## Pieces -/

section Pieces

variable {line text before behind : List Char}

theorem pieces_of_not_mem (hline : '\n' ∉ line) (hne : line ≠ []) : pieces line = [line] := by
  induction line with
  | nil => exact absurd rfl hne
  | cons c line ih =>
    rw [List.mem_cons, not_or] at hline
    rw [pieces, if_neg (Ne.symm hline.1)]
    cases line with
    | nil => rfl
    | cons d line => rw [ih hline.2 (List.cons_ne_nil d line)]

theorem pieces_line (hline : '\n' ∉ line) (text : List Char) :
    pieces (line ++ '\n' :: text) = (line ++ ['\n']) :: pieces text := by
  induction line with
  | nil => rfl
  | cons c line ih =>
    rw [List.mem_cons, not_or] at hline
    rw [List.cons_append, pieces, if_neg (Ne.symm hline.1), ih hline.2]
    rfl

/-- A text that ends its line is cut into its own pieces, one for each of its newlines, whatever follows. -/
theorem pieces_newline (text rest : List Char) :
    pieces (text ++ '\n' :: rest) = pieces (text ++ ['\n']) ++ pieces rest ∧
      (pieces (text ++ ['\n'])).length = text.count '\n' + 1 ∧ (pieces (text ++ ['\n'])).flatten = text ++ ['\n'] := by
  induction text with
  | nil => exact ⟨rfl, rfl, rfl⟩
  | cons c text ih =>
    obtain ⟨happend, hlength, hflatten⟩ := ih
    by_cases hc : c = '\n'
    · subst hc
      simp [pieces, happend, hlength, hflatten]
    · obtain ⟨piece, more, hpieces⟩ : ∃ piece more, pieces (text ++ ['\n']) = piece :: more := by
        apply List.exists_cons_of_ne_nil
        apply List.ne_nil_of_length_pos
        omega
      rw [hpieces] at happend hlength hflatten
      simp only [List.cons_append, pieces, if_neg hc, happend, hpieces, List.count_cons_of_ne hc]
      exact ⟨trivial, hlength, by rw [← hflatten]; rfl⟩

/-- What stands before a place is its line up to the place, and in front of that nothing or a newline. -/
theorem before_eq (before : List Char) : '\n' ∉ lineStart before ∧
    (before = lineStart before ∨ ∃ above, before = above ++ '\n' :: lineStart before) := by
  have hstart : '\n' ∉ lineStart before := fun h => by simpa using List.mem_rtakeWhile_imp h
  refine ⟨hstart, ?_⟩
  have hsplit : before.rdropWhile (· ≠ '\n') ++ lineStart before = before := List.rdropWhile_append_rtakeWhile
  have hlast := List.rdropWhile_last_not (fun c => decide (c ≠ '\n')) before
  generalize before.rdropWhile (· ≠ '\n') = above at hsplit hlast
  rcases List.eq_nil_or_concat above with rfl | ⟨above, c, rfl⟩
  · exact Or.inl hsplit.symm
  · obtain rfl : c = '\n' := by simpa using hlast (by simp)
    refine Or.inr ⟨above, ?_⟩
    rw [← List.singleton_append, ← List.append_assoc, ← List.concat_eq_append]
    exact hsplit.symm

/-- What stands behind a place is the rest of its line, and behind that nothing or a newline. -/
theorem behind_eq (behind : List Char) : '\n' ∉ lineEnd behind ∧
    (behind = lineEnd behind ∨ ∃ below, behind = lineEnd behind ++ '\n' :: below) := by
  have hend : '\n' ∉ lineEnd behind := fun h => by simpa using List.mem_takeWhile_imp h
  refine ⟨hend, ?_⟩
  have hsplit : lineEnd behind ++ behind.dropWhile (· ≠ '\n') = behind := List.takeWhile_append_dropWhile
  cases hbelow : behind.dropWhile (· ≠ '\n') with
  | nil =>
    rw [hbelow, List.append_nil] at hsplit
    exact Or.inl hsplit.symm
  | cons c below =>
    have hc := List.head?_dropWhile_not (· ≠ '\n') behind
    rw [hbelow] at hc
    obtain rfl : c = '\n' := by simpa using hc
    rw [hbelow] at hsplit
    exact Or.inr ⟨below, hsplit.symm⟩

theorem lineEnd_cons {c : Char} (hc : c ≠ '\n') (behind : List Char) : lineEnd (c :: behind) = c :: lineEnd behind := by
  simp [lineEnd, hc]

/-- The pieces of a text up to the line of a place, and that line with the newline that ends it, if there is one. -/
theorem pieces_place (before : List Char) {behind : List Char} (hne : lineEnd behind ≠ []) :
    ∃ above newline below, pieces (before ++ behind) =
        above ++ (lineStart before ++ (lineEnd behind ++ newline)) :: below ∧
      above.length = before.count '\n' ∧ above.flatten ++ lineStart before = before ∧
      (newline = [] ∨ newline = ['\n']) := by
  obtain ⟨hstart, hbefore⟩ := before_eq before
  obtain ⟨hend, hbehind⟩ := behind_eq behind
  have hline : '\n' ∉ lineStart before ++ lineEnd behind := by
    rw [List.mem_append, not_or]
    exact ⟨hstart, hend⟩
  -- the line and what stands below it
  obtain ⟨newline, below, hbelow, hnewline⟩ : ∃ newline below,
      pieces (lineStart before ++ behind) = (lineStart before ++ (lineEnd behind ++ newline)) :: below ∧
        (newline = [] ∨ newline = ['\n']) := by
    rcases hbehind with hbehind | ⟨below, hbehind⟩
    · refine ⟨[], [], ?_, Or.inl rfl⟩
      rw [List.append_nil, ← pieces_of_not_mem hline (List.append_ne_nil_of_right_ne_nil _ hne), ← hbehind]
    · refine ⟨['\n'], pieces below, ?_, Or.inr rfl⟩
      rw [← List.append_assoc, ← pieces_line hline, List.append_assoc, ← hbehind]
  -- and what stands above it
  rcases hbefore with hbefore | ⟨above, hbefore⟩
  · refine ⟨[], newline, below, by rw [← hbelow, ← hbefore]; rfl, ?_, hbefore.symm, hnewline⟩
    rw [hbefore]
    exact (List.count_eq_zero.2 hstart).symm
  · obtain ⟨happend, hlength, hflatten⟩ := pieces_newline above (lineStart before ++ behind)
    refine ⟨pieces (above ++ ['\n']), newline, below, ?_, ?_, ?_, hnewline⟩
    · rw [← hbelow, ← happend, ← List.cons_append, ← List.append_assoc, ← hbefore]
    · rw [hlength, hbefore, List.count_append, List.count_cons_self, List.count_eq_zero.2 hstart]
    · rw [hflatten, List.append_assoc, List.singleton_append, ← hbefore]

end Pieces

/-! ## Looking up a place -/

section Places

variable {before behind line rest : List Char}

theorem charsBefore?_append (line rest : List Char) :
    charsBefore? (line ++ rest) (byteSize line) = some line.length := by
  induction line with
  | nil => cases rest <;> rfl
  | cons c line ih =>
    obtain ⟨size, hsize⟩ : ∃ size, byteSize (c :: line) = size + 1 :=
      ⟨byteSize (c :: line) - 1, by have := c.utf8Size_pos; rw [byteSize_cons]; omega⟩
    have hrest : size + 1 - c.utf8Size = byteSize line := by rw [← hsize, byteSize_cons, Nat.add_sub_cancel_left]
    have hle : c.utf8Size ≤ size + 1 := by rw [← hsize, byteSize_cons]; exact Nat.le_add_right _ _
    rw [hsize, List.cons_append, charsBefore?, if_pos hle, hrest, ih]
    · rfl
    · exact Nat.succ_ne_zero size

/-- The pieces in front of the one that holds the offset are passed, and counted. -/
theorem Line.find_append {above below : List (List Char)} {piece : List Char} {number offset : Nat}
    (h : offset < byteSize piece ∨ (below = [] ∧ offset = byteSize piece)) :
    Line.find number (byteSize above.flatten + offset) (above ++ piece :: below) =
      { number := number + above.length, text := piece, offset } := by
  induction above generalizing number with
  | nil =>
    rw [List.nil_append, Line.find, List.flatten_nil, byteSize_nil, Nat.zero_add, if_pos h]
    rfl
  | cons first above ih =>
    have hpass : ¬ (byteSize (first :: above).flatten + offset < byteSize first ∨
        (above ++ piece :: below = [] ∧ byteSize (first :: above).flatten + offset = byteSize first)) := by
      simp
      omega
    have hoffset : byteSize (first :: above).flatten + offset - byteSize first = byteSize above.flatten + offset := by
      rw [List.flatten_cons, byteSize_append]
      omega
    rw [List.cons_append, Line.find, if_neg hpass, hoffset, ih, List.length_cons, Nat.add_right_comm, Nat.add_assoc]

/-- The line of a place that a character of it follows. -/
theorem Line.at?_place {source : String} (hsource : source.toList = before ++ behind) (hne : lineEnd behind ≠ []) :
    ∃ newline, Line.at? source (byteSize before) =
        some { number := before.count '\n' + 1, text := lineStart before ++ (lineEnd behind ++ newline),
               offset := byteSize (lineStart before) } ∧ (newline = [] ∨ newline = ['\n']) := by
  obtain ⟨above, newline, below, hpieces, hlength, hflatten, hnewline⟩ := pieces_place before hne
  refine ⟨newline, ?_, hnewline⟩
  have hsize : byteSize before = byteSize above.flatten + byteSize (lineStart before) := by
    rw [← byteSize_append, hflatten]
  have hle : byteSize before ≤ byteSize (before ++ behind) := by
    rw [byteSize_append]
    exact Nat.le_add_right _ _
  have hlt : byteSize (lineStart before) < byteSize (lineStart before ++ (lineEnd behind ++ newline)) := by
    obtain ⟨c, line, hline⟩ := List.exists_cons_of_ne_nil hne
    have := c.utf8Size_pos
    rw [hline, byteSize_append, byteSize_append, byteSize_cons]
    omega
  simp only [Line.at?, hsource]
  rw [if_pos hle, hpieces, hsize, Line.find_append (Or.inl hlt), hlength, Nat.add_comm]

end Places

end Formula.Text
