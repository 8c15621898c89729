import Formula.Proofs.Concatenation
import Mathlib.Data.List.Chain

/-!
# Tokens as they are written

A `Word` is a token with a spelling, and a `Sentence` is a sequence of words in which each point stands before a name and
no operator but a closing bracket is last. `written` puts one blank between two words, but none behind a point. Under the
standard operators, the tokens of what is written are those of the words (`OperatorSet.tokenize_written`): a word lexes
alone (`Word.WellFormed.lexes`), and so in front of a blank.
-/

namespace Formula

open Scanner

/-! ## Literals -/

/-- The digits of a literal, with at most one point among them. -/
inductive Mantissa : List Char → Prop
  | whole {c : Char} {digits : List Char} : c.isDigit = true → (∀ d ∈ digits, d.isDigit = true) →
      Mantissa (c :: digits)
  | pointed {c : Char} {digits fraction : List Char} : c.isDigit = true → (∀ d ∈ digits, d.isDigit = true) →
      (∀ d ∈ fraction, d.isDigit = true) → Mantissa (c :: (digits ++ '.' :: fraction))
  | fraction {c : Char} {digits : List Char} : c.isDigit = true → (∀ d ∈ digits, d.isDigit = true) →
      Mantissa ('.' :: c :: digits)

/-- The exponent of a literal, or nothing. -/
inductive Exponent : List Char → Prop
  | none : Exponent []
  | plain {e c : Char} {digits : List Char} : isMarker e = true → c.isDigit = true →
      (∀ d ∈ digits, d.isDigit = true) → Exponent (e :: c :: digits)
  | signed {e sign c : Char} {digits : List Char} : isMarker e = true → isSign sign = true → c.isDigit = true →
      (∀ d ∈ digits, d.isDigit = true) → Exponent (e :: sign :: c :: digits)

/-- The characters of a literal. -/
inductive Literal : List Char → Prop
  | intro {mantissa exponent : List Char} : Mantissa mantissa → Exponent exponent → Literal (mantissa ++ exponent)

section Literals

variable {mantissa exponent cs : List Char}

theorem Exponent.stops (h : Exponent exponent) : Stops isNumberStart exponent := by
  cases h with
  | none => exact stops_nil
  | plain he => exact stops_cons.2 (by grind)
  | signed he => exact stops_cons.2 (by grind)

theorem Mantissa.start (h : Mantissa mantissa) : ∃ c more, mantissa = c :: more ∧ isNumberStart c = true := by
  cases h with
  | whole hc => exact ⟨_, _, rfl, by grind⟩
  | pointed hc => exact ⟨_, _, rfl, by grind⟩
  | fraction => exact ⟨_, _, rfl, by decide⟩

theorem Mantissa.body (h : Mantissa mantissa) (hstop : Stops isNumberStart cs) : Body mantissa cs := by
  have hdigit := hstop.isDigit
  cases h with
  | whole _ hd => exact .plain hd hstop
  | pointed _ hd hf => exact .pointed hd hf hdigit
  | fraction hc hd => exact .plain (List.forall_mem_cons.2 ⟨hc, hd⟩) hstop

/-- A literal at the end of a text is taken in as a whole. -/
theorem Literal.numeral (h : Literal cs) : Numeral cs [] := by
  obtain ⟨hm, he⟩ := h
  obtain ⟨c, more, rfl, hc⟩ := hm.start
  have hbody := hm.body he.stops
  cases he with
  | none => exact .intro hc hbody (.none stops_nil) (by simp) (by simp) stops_nil stops_nil
  | @plain e d digits hmark hd hds =>
    have hsign : Stops isSign (d :: digits) := stops_cons.2 (by grind)
    have hbody : Body (c :: more) ([e] ++ ((d :: digits) ++ [])) := by simpa using hbody
    have hmarker : Marker [e] ((d :: digits) ++ []) := by simpa using Marker.plain hmark hsign
    exact .intro hc hbody hmarker (List.forall_mem_cons.2 ⟨hd, hds⟩) (by simp) stops_nil stops_nil
  | @signed e sign d digits hmark hsign hd hds =>
    have hbody : Body (c :: more) ([e, sign] ++ ((d :: digits) ++ [])) := by simpa using hbody
    exact .intro hc hbody (.signed hmark hsign) (List.forall_mem_cons.2 ⟨hd, hds⟩) (by simp) stops_nil stops_nil

theorem Exponent.read (h : Exponent exponent) : ∃ n, Number.readExponent? exponent = some n := by
  cases h with
  | none => exact ⟨0, rfl⟩
  | @plain e c digits he hc hd =>
    have he : e = 'e' ∨ e = 'E' := by simpa [isMarker] using he
    have hplus : c ≠ '+' := by rintro rfl; cases hc
    have hminus : c ≠ '-' := by rintro rfl; cases hc
    have hall : (c :: digits).all Char.isDigit = true := List.all_eq_true.2 (List.forall_mem_cons.2 ⟨hc, hd⟩)
    simp [Number.readExponent?, he, hplus, hminus, hall]
  | @signed e sign c digits he hs hc hd =>
    have he : e = 'e' ∨ e = 'E' := by simpa [isMarker] using he
    have hall : (c :: digits).all Char.isDigit = true := List.all_eq_true.2 (List.forall_mem_cons.2 ⟨hc, hd⟩)
    have hs : sign = '+' ∨ sign = '-' := by simpa [isSign] using hs
    obtain rfl | rfl := hs
    · simp [Number.readExponent?, he, hall]
    · simp [Number.readExponent?, he, hall]

/-- The digits in front of a point, those behind it, and what follows them. -/
theorem Mantissa.split (h : Mantissa mantissa) (hstop : Stops isNumberStart cs) :
    ∃ whole fraction, (mantissa ++ cs).takeWhile Char.isDigit = whole ∧
      Number.splitFraction ((mantissa ++ cs).dropWhile Char.isDigit) = (fraction, cs) ∧
      (whole ≠ [] ∨ fraction ≠ []) := by
  have hdigit := hstop.isDigit
  cases h with
  | @whole c digits hc hd =>
    obtain ⟨htake, hdrop⟩ := span_iff.2 ⟨rfl, List.forall_mem_cons.2 ⟨hc, hd⟩, hdigit⟩
    refine ⟨_, [], htake, ?_, .inl (by simp)⟩
    rw [hdrop]
    unfold Number.splitFraction
    split
    · next rest => exact absurd (stops_cons.1 hstop) (by decide)
    · rfl
  | @pointed c digits fraction hc hd hf =>
    have hpoint : Stops Char.isDigit ('.' :: (fraction ++ cs)) := stops_cons.2 (by decide)
    obtain ⟨htake, hdrop⟩ := span_iff.2 ⟨rfl, List.forall_mem_cons.2 ⟨hc, hd⟩, hpoint⟩
    obtain ⟨htake', hdrop'⟩ := span_iff.2 ⟨rfl, hf, hdigit⟩
    simp only [List.cons_append, List.append_assoc] at htake hdrop ⊢
    exact ⟨_, fraction, htake, by rw [hdrop, Number.splitFraction, htake', hdrop'], .inl (by simp)⟩
  | @fraction c digits hc hd =>
    obtain ⟨htake, hdrop⟩ := span_iff.2 ⟨rfl, List.forall_mem_cons.2 ⟨hc, hd⟩, hdigit⟩
    have hpoint : '.'.isDigit = false := by decide
    refine ⟨[], c :: digits, by simp [hpoint], ?_, .inr (by simp)⟩
    simp only [List.cons_append] at htake hdrop ⊢
    simp [hpoint, Number.splitFraction, htake, hdrop]

theorem Literal.readDecimal (h : Literal cs) : ∃ x, Number.readDecimal? cs = some x := by
  obtain ⟨hm, he⟩ := h
  obtain ⟨whole, fraction, hwhole, hfraction, hne⟩ := hm.split he.stops
  obtain ⟨n, hn⟩ := he.read
  have hsome : ¬ (whole = [] ∧ fraction = []) := by tauto
  simp [Number.readDecimal?, hwhole, hfraction, hsome, hn]

theorem Literal.readMagnitude (h : Literal cs) : ∃ x, Number.readMagnitude? cs = some x := by
  obtain ⟨x, hx⟩ := h.readDecimal
  simp only [Number.readMagnitude?]
  split
  · exact ⟨_, rfl⟩
  · split
    · exact ⟨_, rfl⟩
    · exact ⟨_, by rw [hx]; rfl⟩

/-- Every literal has a value. -/
theorem Literal.read (h : Literal cs) : ∃ x, Number.read (String.ofList cs) = .ok x := by
  obtain ⟨x, hx⟩ := h.readMagnitude
  obtain ⟨hm, -⟩ := h
  obtain ⟨c, more, rfl, hc⟩ := hm.start
  have hplus : c ≠ '+' := by rintro rfl; cases hc
  have hminus : c ≠ '-' := by rintro rfl; cases hc
  refine ⟨x, ?_⟩
  simp only [List.cons_append] at hx
  simp [Number.read, Number.readSigned?, hplus, hminus, hx]

end Literals

/-! ## Words -/

/-- A token with a spelling: a string has one for each quote, and a number one for each literal. -/
inductive Word
  | name (s : String)
  | string (quote : Char) (s : String)
  | number (literal : String)
  | operator (s : String)
deriving DecidableEq

namespace Word

/-- The characters of a word. -/
def spelling : Word → List Char
  | name s => s.toList
  | string quote s => quote :: (s.toList ++ [quote])
  | number literal => literal.toList
  | operator s => s.toList

/-- The number that a literal writes. -/
def value (literal : String) : Double := (Number.read literal).toOption.getD 0

/-- The token of a word. -/
def token : Word → Token
  | name s => .name s
  | string _ s => .string s
  | number literal => .number (value literal)
  | operator s => .operator s

/-- A word that a formula can have. The characters of a string leave out its quote; they may have the other one. -/
inductive WellFormed : Word → Prop
  | name {c : Char} {more : List Char} : isNameStart c = true → (∀ d ∈ more, isNameRest d = true) →
      WellFormed (name (String.ofList (c :: more)))
  | string {quote : Char} {s : String} : isQuote quote = true → (∀ c ∈ s.toList, c ≠ quote ∧ ' ' ≤ c) →
      WellFormed (string quote s)
  | number {literal : String} : Literal literal.toList → (value literal).isFinite = true →
      WellFormed (number literal)
  | operator {s : String} : s ∈ OperatorSet.standardSpellings → WellFormed (operator s)

/-- What is put between a word and the next one. -/
def gap (word : Word) : List Char := if word = operator "." then [] else [' ']

/-- The characters of a sequence of words. -/
def written : List Word → List Char
  | [] => []
  | [word] => word.spelling
  | word :: next :: rest => word.spelling ++ (word.gap ++ written (next :: rest))

/-- Words of a formula that can stand in this order. -/
structure Sentence (words : List Word) : Prop where
  formed : ∀ word ∈ words, word.WellFormed
  points : words.IsChain fun word next => word = operator "." → ∃ s, next = name s
  last : ∀ s, words.getLast? = some (operator s) → s = ")" ∨ s = "]"

/-! ## Lexemes -/

section Lexemes

variable {word : Word} {words : List Word} {cs : List Char} {s : String}

/-- A standard operator other than the point is told by its first character, and this takes in the rest of it. -/
theorem standard_run : ∀ s ∈ OperatorSet.standardSpellings, s ≠ "." →
    OperatorSet.standard.isAllowed s = true ∧ s.toList.head?.any isOperatorStart = true ∧
    (s.toList.head?.any OperatorSet.standard.starts = true → s.toList.tail.all OperatorSet.standard.ends = true) ∧
    (s.toList.head?.any OperatorSet.standard.starts = false → s.toList.tail = []) := by
  decide +kernel

theorem standard_closing : ∀ s : String, s = ")" ∨ s = "]" →
    s.toList.head?.any OperatorSet.standard.starts = false ∧ (s.toList.head? = some ')' ∨ s.toList.head? = some ']') := by
  rintro s (rfl | rfl)
  · decide +kernel
  · decide +kernel

theorem operator_lexes (hs : s ∈ OperatorSet.standardSpellings) (hpoint : s ≠ ".")
    (hstop : Stops OperatorSet.standard.ends cs) (hend : cs = [] → s = ")" ∨ s = "]") :
    Lexes OperatorSet.standard (.operator s) s.toList cs := by
  obtain ⟨hallowed, hstart, hlong, hshort⟩ := standard_run s hs hpoint
  have hclosing := standard_closing s
  obtain ⟨characters, hcharacters⟩ : ∃ characters, s = String.ofList characters := ⟨_, String.ofList_toList.symm⟩
  subst hcharacters
  simp only [String.toList_ofList] at hstart hlong hshort hclosing ⊢
  cases characters with
  | nil => cases hstart
  | cons c more =>
    have hrun : Run OperatorSet.standard c more cs := by
      unfold Run
      split
      · next h => exact ⟨List.all_eq_true.1 (hlong h), hstop⟩
      · next h => exact hshort (Bool.not_eq_true _ ▸ h)
    refine .operator hstart hrun hallowed fun hcs => ?_
    obtain ⟨hstarts, hc⟩ := hclosing (hend hcs)
    exact ⟨hstarts, by simpa using hc⟩

/-- A word that is no operator lexes alone. -/
theorem WellFormed.lexes (h : word.WellFormed) (hop : ∀ s, word ≠ .operator s) :
    Lexes OperatorSet.standard word.token word.spelling [] := by
  cases h with
  | @name c more hc hd =>
    rw [spelling, String.toList_ofList]
    exact .name hc hd stops_nil
  | @string quote s hquote hd =>
    have hlex : Lexes OperatorSet.standard (.string (String.ofList s.toList)) (quote :: (s.toList ++ [quote])) [] :=
      .string hquote hd
    rwa [String.ofList_toList] at hlex
  | @number literal hl hfin =>
    obtain ⟨x, hx⟩ := hl.read
    rw [String.ofList_toList] at hx
    have hvalue : value literal = x := by rw [value, hx]; rfl
    rw [token, hvalue]
    exact .number hl.numeral (by rw [spelling, String.ofList_toList, hx]) (hvalue ▸ hfin)
  | operator => exact absurd rfl (hop _)

theorem WellFormed.lexes_last (h : word.WellFormed) (hlast : ∀ s, word = .operator s → s = ")" ∨ s = "]") :
    Lexes OperatorSet.standard word.token word.spelling [] := by
  by_cases hop : ∃ s, word = .operator s
  · obtain ⟨s, rfl⟩ := hop
    cases h with
    | operator hs =>
      have hclosing := hlast s rfl
      have hpoint : s ≠ "." := by
        rintro rfl
        revert hclosing
        decide
      exact operator_lexes hs hpoint stops_nil fun _ => hclosing
  · exact h.lexes fun s hs => hop ⟨s, hs⟩

theorem WellFormed.lexes_blank (h : word.WellFormed) (hpoint : word ≠ .operator ".") :
    Lexes OperatorSet.standard word.token word.spelling (' ' :: cs) := by
  by_cases hop : ∃ s, word = .operator s
  · obtain ⟨s, rfl⟩ := hop
    cases h with
    | operator hs =>
      have hne : s ≠ "." := fun hs => hpoint (congrArg _ hs)
      exact operator_lexes hs hne (stops_cons.2 (by decide +kernel)) (by simp)
  · exact (h.lexes fun s hs => hop ⟨s, hs⟩).append (by decide) (by decide +kernel)

theorem written_cons : ∃ behind, written (word :: words) = word.spelling ++ behind := by
  cases words with
  | nil => exact ⟨[], (List.append_nil _).symm⟩
  | cons next rest => exact ⟨_, rfl⟩

/-- The point is an operator in front of a name. -/
theorem WellFormed.lexes_point (h : (Word.name s).WellFormed) :
    Lexes OperatorSet.standard (.operator ".") ['.'] (written (.name s :: words)) := by
  obtain ⟨behind, hbehind⟩ : ∃ behind, written (.name s :: words) = (Word.name s).spelling ++ behind := written_cons
  rw [hbehind]
  cases h with
  | name hc hd =>
    rw [spelling, String.toList_ofList]
    exact .point hc (by decide +kernel)

end Lexemes

/-! ## Sentences -/

theorem Sentence.tail {word next : Word} {rest : List Word} (h : Sentence (word :: next :: rest)) :
    Sentence (next :: rest) where
  formed w hw := h.formed w (List.mem_cons_of_mem _ hw)
  points := h.points.tail
  last s hs := h.last s (by rwa [List.getLast?_cons_cons])

theorem Sentence.scans : ∀ {words : List Word}, Sentence words →
    Scans OperatorSet.standard (written words) (words.map token)
  | [], _ => .nil
  | [word], h => by
    have hword : word.WellFormed := h.formed word (List.mem_singleton_self word)
    have hscans := Scans.token (hword.lexes_last fun s hs => h.last s (by rw [hs]; rfl)) .nil
    rwa [List.append_nil] at hscans
  | word :: next :: rest, h => by
    have ih := h.tail.scans
    have hword : word.WellFormed := h.formed word List.mem_cons_self
    rw [written]
    by_cases hpoint : word = .operator "."
    · -- nothing is put behind a point, so it is told from a number by the name after it
      obtain ⟨s, rfl⟩ := (List.isChain_cons_cons.1 h.points).1 hpoint
      subst hpoint
      rw [gap, if_pos rfl]
      exact .token (h.formed (.name s) (by simp)).lexes_point ih
    · rw [gap, if_neg hpoint]
      exact .token (hword.lexes_blank hpoint) (.gap (by decide) ih)

end Word

/-- The tokens of what is written are those of the words. -/
theorem OperatorSet.tokenize_written {words : List Word} (h : Word.Sentence words) :
    standard.tokenize (String.ofList (Word.written words)) = .ok (words.map Word.token) := by
  rw [tokenize, String.toList_ofList]
  exact tokensFrom_ok.2 h.scans

/-- A member of a name, a number with an exponent, an operator of two characters and a string with the other quote. -/
theorem tokenize_written_call :
    OperatorSet.standard.tokenize "a .b ( 1.5e2 <= \x27say \"c\"\x27 )" =
      .ok [.name "a", .operator ".", .name "b", .operator "(", .number 150, .operator "<=", .string "say \"c\"",
        .operator ")"] := by
  have hname : ∀ c, isNameStart c = true → (Word.name (String.ofList [c])).WellFormed := fun c hc =>
    .name hc (by simp)
  have hmantissa : Mantissa ('1' :: ([] ++ '.' :: ['5'])) := .pointed (by decide) (by simp) (by simp)
  have hexponent : Exponent ['e', '2'] := .plain (by decide) (by decide) (by simp)
  have hnumber : (Word.number "1.5e2").WellFormed := .number (Literal.intro hmantissa hexponent) (by decide +kernel)
  have hvalue : Word.value "1.5e2" = 150 := by decide +kernel
  have h : Word.Sentence [.name "a", .operator ".", .name "b", .operator "(", .number "1.5e2", .operator "<=",
      .string '\x27' "say \"c\"", .operator ")"] := by
    refine ⟨?_, by simp, by simp⟩
    simp only [List.forall_mem_cons]
    exact ⟨hname 'a' (by decide), .operator (by decide), hname 'b' (by decide), .operator (by decide), hnumber,
      .operator (by decide), .string (by decide) (by simp), .operator (by decide), by simp⟩
  have htokens := OperatorSet.tokenize_written h
  simp only [List.map_cons, List.map_nil, Word.token, hvalue] at htokens
  exact htokens

end Formula
