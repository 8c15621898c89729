import Formula.Proofs.Concatenation

/-!
# Where a text fails

A text that has no tokens has them up to the place of its error: `Leads ops before behind tokens` says that what stands
before the place falls into pieces with these tokens where `behind` follows. The error is that of the reader at the head
of `behind` (`tokensFrom_failed`), and `ScanFault.Shows` says for each fault how the text that it shows stands there.
Both together locate the error of a whole text (`OperatorSet.tokenize_failed`).
-/

namespace Formula

open Scanner

/-- How the text that a fault shows stands at the head of the text that fails: for a string without its second quote it
is all that follows the first one up to the next control character, and for an operator at the end it is all there
is. -/
def ScanFault.Shows : ScanFault → List Char → List Char → Prop
  | .invalidExponent, shown, text => shown ≠ [] ∧ shown <+: text
  | .invalidNumber, shown, text => shown ≠ [] ∧ shown <+: text
  | .invalidOperator, shown, text => shown ≠ [] ∧ shown <+: text
  | .trailingOperator, shown, text => shown ≠ [] ∧ shown = text
  | .unterminatedString, shown, text => ∃ quote rest, isQuote quote = true ∧ text = quote :: (shown ++ rest) ∧
      (∀ d ∈ shown, d ≠ quote ∧ ' ' ≤ d) ∧ ∀ d, rest.head? = some d → d < ' '

namespace Scanner

variable {ops : OperatorSet} {c w : Char} {cs shown : List Char} {fault : ScanFault}

/-! ## Readers that fail -/

theorem prefix_append_take (cs ds : List Char) (n : Nat) : cs ++ ds.take n <+: cs ++ ds :=
  (List.prefix_append_right_inj cs).2 (List.take_prefix n ds)

theorem readNumber_shows (h : readNumber c cs = .error (fault, shown)) : fault.Shows shown (c :: cs) := by
  obtain ⟨body, afterBody, hbody⟩ : ∃ body afterBody, splitBody c cs = (body, afterBody) := ⟨_, _, rfl⟩
  obtain ⟨marker, afterMarker, hmarker⟩ : ∃ m after, splitMarker afterBody = (m, after) := ⟨_, _, rfl⟩
  obtain ⟨digits, hdigits⟩ : ∃ digits, afterMarker.takeWhile Char.isDigit = digits := ⟨_, rfl⟩
  obtain ⟨rest, hrest⟩ : ∃ rest, afterMarker.dropWhile Char.isDigit = rest := ⟨_, rfl⟩
  simp only [readNumber, hbody, hmarker, hdigits, hrest] at h
  -- the text is the body, the marker, the digits and the rest, and what is shown starts with the body
  obtain ⟨more, hhead⟩ := splitBody_head c cs
  rw [hbody] at hhead
  obtain rfl : body = c :: more := hhead
  obtain ⟨htext, -⟩ := splitBody_ok.1 hbody
  obtain ⟨rfl, -⟩ := splitMarker_ok.1 hmarker
  obtain ⟨rfl, -, -⟩ := span_iff.1 ⟨hdigits, hrest⟩
  have hnumber : c :: cs = (c :: more) ++ (marker ++ digits) ++ rest := by
    rw [← htext]
    simp only [List.append_assoc]
  split at h
  · next hexponent =>
    cases h
    refine ⟨by simp, ?_⟩
    rw [hnumber, hexponent.2, List.append_nil]
    exact prefix_append_take _ _ _
  · split at h
    · cases h
      refine ⟨by simp, ?_⟩
      rw [hnumber]
      exact prefix_append_take _ _ _
    · split at h
      · split at h
        · cases h
        · cases h
          exact ⟨by simp, hnumber ▸ List.prefix_append _ _⟩
      · cases h
        exact ⟨by simp, hnumber ▸ List.prefix_append _ _⟩

theorem readString_shows (hc : isQuote c = true) (h : readString c cs = .error (fault, shown)) :
    fault.Shows shown (c :: cs) := by
  have hcontent : ∀ d ∈ cs.takeWhile (isContent c), d ≠ c ∧ ' ' ≤ d := fun d hd => by
    simpa [isContent] using List.mem_takeWhile_imp hd
  obtain ⟨rest, hrest⟩ : ∃ rest, cs.dropWhile (isContent c) = rest := ⟨_, rfl⟩
  have hsplit : cs = cs.takeWhile (isContent c) ++ rest := by rw [← hrest, List.takeWhile_append_dropWhile]
  simp only [readString, hrest] at h
  split at h
  · cases h
    exact ⟨c, [], hc, by rw [← hsplit], hcontent, by simp⟩
  · next d rest =>
    split at h
    · cases h
    · next hne =>
      cases h
      refine ⟨c, d :: rest, hc, by rw [← hsplit], hcontent, ?_⟩
      -- the content stops here, and not at the quote
      have hstop : isContent c d = false := stops_cons.1 (hrest ▸ stops_dropWhile)
      have hlt : ¬ ' ' ≤ d := by simpa [isContent, hne] using hstop
      intro e he
      rw [← Option.some.inj he]
      exact Char.not_le.1 hlt

theorem readOperator_shows (h : readOperator ops c cs = .error (fault, shown)) : fault.Shows shown (c :: cs) := by
  obtain ⟨more, rest, hrun⟩ : ∃ more rest, (if ops.starts c then (cs.takeWhile ops.ends, cs.dropWhile ops.ends)
      else ([], cs)) = (more, rest) := ⟨_, _, rfl⟩
  have hsplit : cs = more ++ rest := by
    split at hrun
    · cases hrun
      exact List.takeWhile_append_dropWhile.symm
    · cases hrun
      rfl
  simp only [readOperator, hrun] at h
  split at h
  · cases h
    exact ⟨by simp, by rw [hsplit]; exact List.prefix_append (c :: more) rest⟩
  · split at h
    · next hlast =>
      cases h
      have hrest : rest = [] := by simpa using (Bool.and_eq_true_iff.1 hlast).1
      exact ⟨by simp, by rw [hsplit, hrest, List.append_nil]⟩
    · cases h

/-- What is shown stands at the place of the error. -/
theorem readToken_shows (hc : isGap c = false) (h : readToken ops c cs = .error (fault, shown)) :
    fault.Shows shown (c :: cs) := by
  by_cases hname : isNameStart c = true
  · rw [readToken_name hname] at h
    cases h
  · by_cases hnumber : isNumberStart c = true
    · by_cases hpoint : c = '.' ∧ nameAhead cs = true ∧ ops.isAllowed "." = true
      · obtain ⟨rfl, hahead, hallowed⟩ := hpoint
        rw [readToken_point hahead hallowed] at h
        cases h
      · rw [readToken_number hnumber (by simpa using hpoint)] at h
        exact readNumber_shows h
    · by_cases hquote : isQuote c = true
      · rw [readToken_string hquote] at h
        exact readString_shows hquote h
      · have hstart : isOperatorStart c = true := by
          simp [isOperatorStart, hc, hname, hnumber, hquote]
        rw [readToken_operator hstart] at h
        exact readOperator_shows h

/-- A name never fails. -/
theorem stops_of_readToken_error (h : readToken ops c cs = .error (fault, shown)) : Stops isNameStart (c :: cs) := by
  apply stops_cons.2
  by_contra hname
  rw [readToken_name (Bool.not_eq_false _ ▸ hname)] at h
  cases h

/-! ## Texts up to a place -/

/-- The text `before` falls into pieces with these tokens where `behind` follows it. -/
inductive Leads (ops : OperatorSet) : List Char → List Char → List Token → Prop
  | nil {behind : List Char} : Leads ops [] behind []
  | gap {c : Char} {before behind : List Char} {tokens : List Token} : isGap c = true → Leads ops before behind tokens →
      Leads ops (c :: before) behind tokens
  | token {t : Token} {spelling before behind : List Char} {tokens : List Token} :
      Lexes ops t spelling (before ++ behind) → Leads ops before behind tokens →
      Leads ops (spelling ++ before) behind (t :: tokens)

section Places

variable {before behind text : List Char} {tokens : List Token} {position : Nat} {e : ScanError}

/-- In front of a blank that no operator takes in, a text has the tokens that lead up to what stood there. -/
theorem Leads.scans (h : Leads ops before behind tokens) (hname : Stops isNameStart behind) (hw : isGap w = true)
    (hends : ops.ends w = false) : Scans ops (before ++ [w]) tokens := by
  induction h with
  | nil => exact .gap hw .nil
  | gap hc _ ih => exact .gap hc (ih hname)
  | token hlex _ ih =>
    rw [List.append_assoc]
    exact .token (hlex.replace (fun _ => hname) hw hends) (ih hname)

/-- A text without tokens has them up to a place where a reader fails, and the error is that of the reader. -/
theorem tokensFrom_failed (h : tokensFrom ops position text = .error e) :
    ∃ before c cs tokens, text = before ++ c :: cs ∧ Leads ops before (c :: cs) tokens ∧ isGap c = false ∧
      readToken ops c cs = .error (e.fault, e.text.toList) ∧
      e.position = (position + Text.byteSize before) % ScanError.positions := by
  fun_induction tokensFrom ops position text with
  | case1 => cases h
  | case2 position c cs hc ih =>
    obtain ⟨before, d, ds, tokens, rfl, hlead, hd, hread, hpos⟩ := ih h
    refine ⟨c :: before, d, ds, tokens, rfl, .gap hc hlead, hd, hread, ?_⟩
    rw [hpos, Text.byteSize_cons, Nat.add_assoc]
  | case3 position c cs hc fault shown hread =>
    cases h
    exact ⟨[], c, cs, [], rfl, .nil, Bool.not_eq_true _ ▸ hc, by rw [hread, String.toList_ofList], rfl⟩
  | case4 => cases h
  | case5 position c cs hc l hl e' hrest ih =>
    cases h
    obtain ⟨before, d, ds, tokens, htext, hlead, hd, hread, hpos⟩ := ih hrest
    obtain ⟨t, spelling, rest⟩ := l
    obtain ⟨hsplit, hlex⟩ := (readToken_ok (Bool.not_eq_true _ ▸ hc)).1 hl
    obtain rfl : rest = before ++ d :: ds := htext
    refine ⟨spelling ++ before, d, ds, t :: tokens, ?_, .token hlex hlead, hd, hread, ?_⟩
    · rw [← hsplit, List.append_assoc]
    · rw [hpos, Text.byteSize_append, Nat.add_assoc]

end Places

end Scanner

/-- The error of a text stands at the head of a part of it that shows what it says, and what stands before that part has
tokens as soon as it ends in a newline. -/
theorem OperatorSet.tokenize_failed {ops : OperatorSet} {source : String} {e : ScanError}
    (h : ops.tokenize source = .error e) (hsize : source.utf8ByteSize < ScanError.positions) :
    e.position < source.utf8ByteSize ∧ ∃ before behind : String, source = before ++ behind ∧
      before.utf8ByteSize = e.position ∧ e.fault.Shows e.text.toList behind.toList ∧
      (ops.ends '\n' = false → ∃ tokens, ops.tokenize (before ++ "\n") = .ok tokens) := by
  obtain ⟨before, c, cs, tokens, htext, hlead, hc, hread, hpos⟩ := tokensFrom_failed h
  have hsource : source = String.ofList before ++ String.ofList (c :: cs) := by
    rw [← String.ofList_append, ← htext, String.ofList_toList]
  have hsizes : source.utf8ByteSize = Text.byteSize before + Text.byteSize (c :: cs) := by
    rw [← Text.byteSize_toList, htext, Text.byteSize_append]
  have hc' := c.utf8Size_pos
  rw [Text.byteSize_cons] at hsizes
  rw [Nat.zero_add, Nat.mod_eq_of_lt (by omega)] at hpos
  refine ⟨by omega, String.ofList before, String.ofList (c :: cs), hsource, ?_, ?_, fun hends => ⟨tokens, ?_⟩⟩
  · rw [← Text.byteSize_ofList, hpos]
  · rw [String.toList_ofList]
    exact readToken_shows hc hread
  · have hscans := hlead.scans (stops_of_readToken_error hread) (by decide) hends
    have hline : (String.ofList before ++ "\n").toList = before ++ ['\n'] := by simp
    rw [tokenize, hline]
    exact tokensFrom_ok.2 hscans

/-- A quote on the second line, whose string ends at a tab. -/
theorem tokenize_failed_quote :
    OperatorSet.standard.tokenize "a\n\x27b\tc" = .error { fault := .unterminatedString, text := "b", position := 2 } ∧
      2 < "a\n\x27b\tc".utf8ByteSize ∧ ∃ before behind : String, "a\n\x27b\tc" = before ++ behind ∧
        before.utf8ByteSize = 2 ∧ ScanFault.unterminatedString.Shows "b".toList behind.toList ∧
        ∃ tokens, OperatorSet.standard.tokenize (before ++ "\n") = .ok tokens := by
  have h : OperatorSet.standard.tokenize "a\n\x27b\tc" =
      .error { fault := .unterminatedString, text := "b", position := 2 } := by
    have hread : readToken OperatorSet.standard 'a' ['\n', '\x27', 'b', '\t', 'c'] =
        .ok ⟨.name "a", ['a'], ['\n', '\x27', 'b', '\t', 'c']⟩ := rfl
    show tokensFrom _ 0 ['a', '\n', '\x27', 'b', '\t', 'c'] = _
    rw [tokensFrom_read (by decide) hread, tokensFrom_gap (by decide), tokensFrom_error (by decide) rfl]
    rfl
  obtain ⟨hlt, before, behind, hsource, hsize, hshows, hline⟩ := OperatorSet.tokenize_failed h (by decide)
  exact ⟨h, hlt, before, behind, hsource, hsize, hshows, hline (by decide)⟩

end Formula
