import Formula.Proofs.Faults
import Formula.Proofs.Lines
import Formula.Report

/-!
# The place that a report shows

The report of an error with a position ends with three lines: a bar, the line of the place with its number, and a caret
(`barLine`, `shownLine`, `caretLine`). They are told from the two parts into which the place divides the source, and
the caret stands in the column where the numbered line has the character of the place, for any number of digits, any
indentation and any width of the characters in front (`render_tokenize_failed`). A character that is white space is left
out, since it may be trimmed off the line. There is no report where the line in front of the place is too long to be
padded to (`located?_place`).
-/

namespace Formula

open Text

/-! ## Trimming -/

namespace Text

variable {xs ys : List Char} {c : Char}

theorem dropWhile_append_cons {p : Char → Bool} (hc : p c = false) :
    (xs ++ c :: ys).dropWhile p = xs.dropWhile p ++ c :: ys := by
  induction xs with
  | nil => simp [hc]
  | cons d xs ih =>
    by_cases hd : p d = true
    · simp only [List.cons_append, List.dropWhile_cons_of_pos hd, ih]
    · simp only [List.cons_append, List.dropWhile_cons_of_neg hd]

theorem ne_of_isBlank (hc : isBlank c = false) : c ≠ ' ' ∧ c ≠ '\n' := by
  constructor
  · rintro rfl
    revert hc
    decide
  · rintro rfl
    revert hc
    decide

/-- Only what stands behind the last character that is no white space is trimmed off. -/
theorem trimEnd_append_cons (hc : isBlank c = false) : trimEnd (xs ++ c :: ys) = xs ++ c :: trimEnd ys := by
  unfold trimEnd
  rw [List.reverse_append, List.reverse_cons, List.append_assoc, List.singleton_append, dropWhile_append_cons hc]
  simp

theorem trimEnd_append_blank (hc : isBlank c = true) : trimEnd (xs ++ [c]) = trimEnd xs := by
  unfold trimEnd
  simp [hc]

theorem byteSize_replicate (n : Nat) (hc : c.utf8Size = 1) : byteSize (List.replicate n c) = n := by
  induction n with
  | zero => rfl
  | succ n ih =>
    rw [List.replicate_succ, byteSize_cons, ih, hc]
    omega

/-- A text has one part of a given size in front. -/
theorem append_inj_byteSize {xs' ys' : List Char} (h : xs ++ ys = xs' ++ ys') (hsize : byteSize xs = byteSize xs') :
    xs = xs' ∧ ys = ys' := by
  have hnil (zs : List Char) (hz : byteSize zs = 0) : zs = [] := by
    cases zs with
    | nil => rfl
    | cons z zs =>
      have hpos := z.utf8Size_pos
      rw [byteSize_cons] at hz
      omega
  rcases List.append_eq_append_iff.1 h with ⟨zs, rfl, rfl⟩ | ⟨zs, rfl, rfl⟩
  · rw [byteSize_append] at hsize
    obtain rfl := hnil zs (by omega)
    simp
  · rw [byteSize_append] at hsize
    obtain rfl := hnil zs (by omega)
    simp

end Text

namespace Report

/-! ## The last three lines -/

section Lines

variable (before behind : List Char)

/-- The number of the line of a place, as it is written. -/
def numberText : List Char := (toString (before.count '\n' + 1)).toList

/-- The line of a place without its indentation, up to the place. -/
def shownStart : List Char := (lineStart before).dropWhile (· = ' ')

/-- A bar behind as many spaces as the number of the line needs. -/
def barLine : List Char := List.replicate ((numberText before).length + 1) ' ' ++ ['|']

/-- The number of the line of a place, and that line without leading spaces and without white space at its end. -/
def shownLine : List Char :=
  numberText before ++ ' ' :: '|' :: ' ' :: trimEnd ((lineStart before ++ lineEnd behind).dropWhile (· = ' '))

/-- A bar and a caret, with a dash for each character that is shown in front of the place. -/
def caretLine : List Char := barLine before ++ ' ' :: (List.replicate (shownStart before).length '-' ++ ['^'])

end Lines

section Places

variable {before behind : List Char} {c : Char}

theorem numberText_digit {d : Char} (hd : d ∈ numberText before) : d.isDigit = true := by
  unfold numberText at hd
  rw [Nat.toString_eq_repr, Nat.toList_repr] at hd
  exact Nat.isDigit_of_mem_toDigits (by decide) (by decide) hd

theorem newline_not_mem_barLine : '\n' ∉ barLine before := by
  simp [barLine]

theorem newline_not_mem_caretLine : '\n' ∉ caretLine before := by
  simp [caretLine, newline_not_mem_barLine]

theorem newline_not_mem_shownLine : '\n' ∉ shownLine before behind := by
  have htrim : ∀ line : List Char, ∀ d ∈ trimEnd (line.dropWhile (· = ' ')), d ∈ line := by
    intro line d hd
    have hd := List.mem_reverse.1 ((List.dropWhile_suffix _).subset (List.mem_reverse.1 hd))
    exact (List.dropWhile_suffix _).subset hd
  intro h
  rcases List.mem_append.1 h with h | h
  · exact absurd (numberText_digit h) (by decide)
  · have h : '\n' ∈ trimEnd ((lineStart before ++ lineEnd behind).dropWhile (· = ' ')) := by simpa using h
    rcases List.mem_append.1 (htrim _ _ h) with h | h
    · exact (before_eq before).1 h
    · exact (behind_eq behind).1 h

/-- The numbered line in front of the place, the character of the place, and what is left of the line behind it. -/
theorem shownLine_eq (hc : isBlank c = false) : shownLine before (c :: behind) =
    (numberText before ++ ' ' :: '|' :: ' ' :: shownStart before) ++ c :: trimEnd (lineEnd behind) := by
  obtain ⟨hspace, hnewline⟩ := ne_of_isBlank hc
  unfold shownLine shownStart
  rw [lineEnd_cons hnewline, dropWhile_append_cons (decide_eq_false hspace), trimEnd_append_cons hc]
  simp

/-- The caret stands as far to the right as the character of the place. -/
theorem caretLine_eq (before : List Char) : ∃ front, caretLine before = front ++ ['^'] ∧
    front.length = (numberText before ++ ' ' :: '|' :: ' ' :: shownStart before).length := by
  refine ⟨barLine before ++ ' ' :: List.replicate (shownStart before).length '-', by simp [caretLine], ?_⟩
  simp [barLine]
  omega

theorem indentation_append (hc : c ≠ ' ') (line rest : List Char) :
    (line ++ c :: rest).drop (indentation (line ++ c :: rest)) = line.dropWhile (· = ' ') ++ c :: rest ∧
      line.length - indentation (line ++ c :: rest) = (line.dropWhile (· = ' ')).length := by
  induction line with
  | nil => simp [indentation, hc]
  | cons d line ih =>
    by_cases hd : d = ' '
    · simpa [indentation, hd] using ih
    · simp [indentation, hd]

/-- The lines that are shown for the line of a place, if the caret is not too far to the right. -/
theorem located?_place (hc : isBlank c = false) {newline : List Char} (hnewline : newline = [] ∨ newline = ['\n']) :
    (located? { number := before.count '\n' + 1, text := lineStart before ++ (lineEnd (c :: behind) ++ newline),
                offset := byteSize (lineStart before) }).map (·.map String.toList) =
      if (shownStart before).length < maxWidth then
        some [barLine before, shownLine before (c :: behind), caretLine before]
      else none := by
  obtain ⟨hspace, hne⟩ := ne_of_isBlank hc
  have htrim : trimEnd (lineEnd behind ++ newline) = trimEnd (lineEnd behind) := by
    rcases hnewline with rfl | rfl
    · rw [List.append_nil]
    · exact trimEnd_append_blank (by decide)
  obtain ⟨hdrop, hlength⟩ := indentation_append hspace (lineStart before) (lineEnd behind ++ newline)
  have hnumber : toString (before.count '\n' + 1) = String.ofList (numberText before) := String.ofList_toList.symm
  rw [lineEnd_cons hne, List.cons_append]
  simp only [located?, column, charsBefore?_append, Option.getD_some, hdrop, hlength, trimEnd_append_cons hc, htrim,
    hnumber]
  rw [shownLine_eq hc]
  split
  · next hwidth =>
    rw [if_pos (show (shownStart before).length < maxWidth from hwidth)]
    simp [barLine, caretLine, shownStart]
  · next hwidth => rw [if_neg (show ¬ (shownStart before).length < maxWidth from hwidth), Option.map_none]

/-! ## Reports -/

/-- Texts without newlines, each with one behind it, are cut into themselves, whatever lines stand in front of them. -/
theorem pieces_lines {last : List (List Char)} (hlast : ∀ line ∈ last, '\n' ∉ line) (text : List Char) :
    ∃ first, pieces (text ++ '\n' :: last.flatMap (· ++ ['\n'])) = first ++ last.map (· ++ ['\n']) := by
  refine ⟨pieces (text ++ ['\n']), ?_⟩
  rw [(pieces_newline text _).1]
  congr 1
  induction last with
  | nil => rfl
  | cons line last ih =>
    obtain ⟨hline, hlast⟩ := List.forall_mem_cons.1 hlast
    rw [List.flatMap_cons, List.append_assoc, List.singleton_append, pieces_line hline, ih hlast, List.map_cons]

/-- The report of an error at a place, if there is one, ends with the lines of the place. -/
theorem render?_place {source : String} {e : ScanError} (hsource : source.toList = before ++ c :: behind)
    (hposition : byteSize before = e.position) (hc : isBlank c = false) :
    (render? source (.scan e) = none ↔ maxWidth ≤ (shownStart before).length) ∧
      ∀ report, render? source (.scan e) = some report → ∃ first, pieces report.toList =
        first ++ [barLine before, shownLine before (c :: behind), caretLine before].map (· ++ ['\n']) := by
  have hne : lineEnd (c :: behind) ≠ [] := by
    rw [lineEnd_cons (ne_of_isBlank hc).2]
    exact List.cons_ne_nil _ _
  obtain ⟨newline, hline, hnewline⟩ := Line.at?_place hsource hne
  rw [hposition] at hline
  have hplace := @located?_place before behind c hc newline hnewline
  have hlast : ∀ line ∈ [barLine before, shownLine before (c :: behind), caretLine before], '\n' ∉ line := by
    simp [newline_not_mem_barLine, newline_not_mem_shownLine, newline_not_mem_caretLine]
  obtain ⟨first, hfirst⟩ := pieces_lines hlast ((header (.scan e)).toList ++ '\n' :: (Error.scan e).message.toList)
  simp only [render?, lines?, Error.position?, Option.bind_some, hline]
  split at hplace
  · next hwidth =>
    obtain ⟨last, hlocated, hlines⟩ := Option.map_eq_some_iff.1 hplace
    rw [hlocated]
    refine ⟨by simpa using hwidth, fun report hreport => ⟨first, ?_⟩⟩
    cases hreport
    rw [← hfirst, ← hlines]
    simp [List.flatMap_map]
  · next hwidth =>
    rw [Option.map_eq_none_iff.1 hplace]
    exact ⟨by simpa using hwidth, fun report hreport => by cases hreport⟩

theorem shownStart_replicate (n : Nat) : shownStart (List.replicate n 'a') = List.replicate n 'a' := by
  have hstart : lineStart (List.replicate n 'a') = List.replicate n 'a' :=
    List.rtakeWhile_eq_self_iff.2 fun d hd => by rw [List.eq_of_mem_replicate hd]; decide
  rw [shownStart, hstart]
  cases n with
  | zero => rfl
  | succ n => rfl

/-- There is no report of an error behind too many letters. -/
theorem render?_behind_name {n : Nat} (hn : maxWidth ≤ n) (fault : ScanFault) (text : String) :
    render? (String.ofList (List.replicate n 'a' ++ ['$'])) (.scan { fault, text, position := n }) = none := by
  refine (@render?_place (List.replicate n 'a') [] '$' _ _ String.toList_ofList (byteSize_replicate n rfl)
    (by decide)).1.2 ?_
  rwa [shownStart_replicate, List.length_replicate]

end Places

end Report

/-- An error of the scanner is shown at a character of the source. Unless this is white space, there is a report exactly
if fewer than `Report.maxWidth` characters stand in front of it on its line, without the leading spaces; and the last
three lines of the report are a bar, the numbered line of the character without leading spaces and white space at its
end, and a caret in the column of the character. -/
theorem OperatorSet.render_tokenize_failed {ops : OperatorSet} {source : String} {e : ScanError}
    (h : ops.tokenize source = .error e) (hsize : source.utf8ByteSize < ScanError.positions) :
    ∃ before c behind, source.toList = before ++ c :: behind ∧ byteSize before = e.position ∧
      (isBlank c = false →
        (Report.render? source (.scan e) = none ↔ Report.maxWidth ≤ (Report.shownStart before).length) ∧
        (∀ report, Report.render? source (.scan e) = some report → ∃ first, pieces report.toList =
          first ++ [Report.barLine before, Report.shownLine before (c :: behind), Report.caretLine before].map
            (· ++ ['\n'])) ∧
        ∃ column, (Report.shownLine before (c :: behind)).take column =
            Report.numberText before ++ ' ' :: '|' :: ' ' :: Report.shownStart before ∧
          (Report.shownLine before (c :: behind))[column]? = some c ∧
          (Report.caretLine before)[column]? = some '^') := by
  obtain ⟨before, c, behind, _, hsource, -, -, -, hposition⟩ := Scanner.tokensFrom_failed h
  have hlt : byteSize before < ScanError.positions := by
    have := congrArg byteSize hsource
    rw [byteSize_toList, byteSize_append] at this
    omega
  rw [Nat.zero_add, Nat.mod_eq_of_lt hlt] at hposition
  refine ⟨before, c, behind, hsource, hposition.symm, fun hc => ?_⟩
  obtain ⟨hnone, hreport⟩ := Report.render?_place hsource hposition.symm hc
  obtain ⟨front, hcaret, hlength⟩ := Report.caretLine_eq before
  refine ⟨hnone, hreport, front.length, ?_, ?_, ?_⟩
  · rw [Report.shownLine_eq hc, hlength, List.take_left]
  · rw [Report.shownLine_eq hc, hlength, List.getElem?_append_right (Nat.le_refl _), Nat.sub_self]
    rfl
  · rw [hcaret, List.getElem?_append_right (Nat.le_refl _), Nat.sub_self]
    rfl

/-- Behind a name of ASCII letters, an operator that is not allowed is refused in the column that the name ends in. -/
theorem OperatorSet.tokenize_behind_name (n : Nat) :
    OperatorSet.standard.tokenize (String.ofList (List.replicate (n + 1) 'a' ++ ['$'])) =
      .error { fault := .invalidOperator, text := "$", position := (n + 1) % ScanError.positions } := by
  have hname : Scanner.Lexes .standard (.name (String.ofList ('a' :: List.replicate n 'a')))
      ('a' :: List.replicate n 'a') ['$'] := by
    refine .name (by decide) (fun d hd => ?_) (Scanner.stops_cons.2 (by decide))
    rw [List.eq_of_mem_replicate hd]
    decide
  have hsize : byteSize ('a' :: List.replicate n 'a') = n + 1 := by
    rw [← List.replicate_succ]
    exact byteSize_replicate (n + 1) rfl
  have hoperator : Scanner.readToken .standard '$' [] = .error (.invalidOperator, ['$']) := rfl
  rw [tokenize, String.toList_ofList, List.replicate_succ, Scanner.tokensFrom_lexeme hname, hsize, Nat.zero_add,
    Scanner.tokensFrom_error (by decide) hoperator]
  rfl

/-- There is no report of an operator behind a name of 65535 letters. -/
theorem OperatorSet.render_tokenize_long :
    let source := String.ofList (List.replicate 65535 'a' ++ ['$'])
    let e : ScanError := { fault := .invalidOperator, text := "$", position := 65535 }
    OperatorSet.standard.tokenize source = .error e ∧ Report.render? source (.scan e) = none := by
  intro source e
  have h : OperatorSet.standard.tokenize source = .error e := tokenize_behind_name 65534
  have hlist : source.toList = List.replicate 65535 'a' ++ ['$'] := String.toList_ofList
  have hsize : source.utf8ByteSize = 65536 := by
    rw [← byteSize_toList, hlist, byteSize_append, byteSize_replicate 65535 (show 'a'.utf8Size = 1 from rfl)]
    rfl
  obtain ⟨before, c, behind, hsource, hposition, hreport⟩ := render_tokenize_failed h (by rw [hsize]; decide)
  -- in front of the place there are letters only, as many as its position says
  obtain ⟨hbefore, hbehind⟩ := append_inj_byteSize (hlist.symm.trans hsource)
    ((byteSize_replicate 65535 (show 'a'.utf8Size = 1 from rfl)).trans hposition.symm)
  subst hbefore
  cases hbehind
  refine ⟨h, (hreport (by decide)).1.2 ?_⟩
  rw [Report.shownStart_replicate, List.length_replicate]
  exact Nat.le_refl _

example : Report.render? "a\n  \x27é\x27 $ 1" (.scan { fault := .invalidOperator, text := "$", position := 9 }) =
    some ("Error: InvalidOperator (`$` is not an allowed operator, enable it with `update_operators`)\n" ++
      "invalid operator \"$\"\n  |\n2 | \x27é\x27 $ 1\n  | ----^\n") := by
  decide +kernel

end Formula
