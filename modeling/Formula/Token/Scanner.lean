import Formula.Error
import Formula.OperatorSet
import Formula.Number.Reading
import Formula.Text.Line
import Formula.Token

/-!
# From text to tokens

Blanks, the characters up to U+0020, separate tokens and are skipped. At any other character a reader
chosen by that character takes the longest lexeme of its class, and the tokens of the rest do not
depend on what was read before.

Main statements: each reader splits the text into the lexeme and the rest (`readToken_split`), and
takes at least one character (`readToken_length`), which is why scanning ends.
-/

namespace Formula.Scanner

/-- A token with the characters that spell it and those that follow. -/
structure Lexeme where
  token : Token
  spelling : List Char
  rest : List Char

/-- A fault and the text that shows it. -/
abbrev Fault := ScanFault × List Char

/-- Whether a character separates tokens. -/
def isGap (c : Char) : Bool := c ≤ ' '

/-- Whether a character starts a name. -/
def isNameStart (c : Char) : Bool := c.isAlpha || c == '_'

/-- Whether a character continues a name. -/
def isNameRest (c : Char) : Bool := c.isAlphanum || c == '_'

/-! ## Names -/

/-- The name that starts with `c`. -/
def readName (c : Char) (cs : List Char) : Lexeme :=
  let spelling := c :: cs.takeWhile isNameRest
  { token := .name (String.ofList spelling), spelling, rest := cs.dropWhile isNameRest }

/-! ## Numbers -/

/-- The characters of a number up to its exponent: the first one, digits, and a point with digits. -/
def splitBody (c : Char) (cs : List Char) : List Char × List Char :=
  match cs.dropWhile Char.isDigit with
  | '.' :: more =>
    (c :: (cs.takeWhile Char.isDigit ++ '.' :: more.takeWhile Char.isDigit),
      more.dropWhile Char.isDigit)
  | rest => (c :: cs.takeWhile Char.isDigit, rest)

/-- An exponent marker with an optional sign, if one stands at the head. -/
def splitMarker : List Char → List Char × List Char
  | [] => ([], [])
  | e :: rest =>
    if e = 'e' ∨ e = 'E' then
      match rest with
      | sign :: more => if sign = '+' ∨ sign = '-' then ([e, sign], more) else ([e], rest)
      | [] => ([e], [])
    else ([], e :: rest)

/-- Whether the next character is a lower-case letter, which no number can be followed by. -/
def letterAhead : List Char → Bool
  | [] => false
  | c :: _ => c.isLower

/-- The number that starts with `c`, a digit or a point. -/
def readNumber (c : Char) (cs : List Char) : Except Fault Lexeme :=
  let (body, afterBody) := splitBody c cs
  let (marker, afterMarker) := splitMarker afterBody
  let digits := afterMarker.takeWhile Char.isDigit
  let rest := afterMarker.dropWhile Char.isDigit
  if marker ≠ [] ∧ digits = [] then
    .error (.invalidExponent, body ++ marker ++ rest.take 1)
  else
    let spelling := body ++ (marker ++ digits)
    if letterAhead rest then .error (.invalidNumber, spelling ++ rest.take 1)
    else match Number.read (String.ofList spelling) with
      | .ok x =>
        if x.isFinite then .ok { token := .number x, spelling, rest }
        else .error (.invalidNumber, spelling)
      | .error _ => .error (.invalidNumber, spelling)

/-! ## Strings -/

/-- Whether a character can stand between these quotes. -/
def isContent (quote c : Char) : Bool := c != quote && ' ' ≤ c

/-- The string that starts with the quote. -/
def readString (quote : Char) (cs : List Char) : Except Fault Lexeme :=
  let content := cs.takeWhile (isContent quote)
  match cs.dropWhile (isContent quote) with
  | [] => .error (.unterminatedString, content)
  | c :: rest =>
    if c = quote then
      .ok { token := .string (String.ofList content), spelling := quote :: (content ++ [c]), rest }
    else .error (.unterminatedString, content)

/-! ## Operators -/

/-- Whether a text may end with this operator: only a closing bracket that starts no longer
spelling. -/
def mayEnd (ops : OperatorSet) (c : Char) : Bool := !ops.starts c && (c == ')' || c == ']')

/-- The operator that starts with `c`. One that starts a longer spelling takes in all characters that
end one. -/
def readOperator (ops : OperatorSet) (c : Char) (cs : List Char) : Except Fault Lexeme :=
  let (more, rest) :=
    if ops.starts c then (cs.takeWhile ops.ends, cs.dropWhile ops.ends) else ([], cs)
  let spelling := c :: more
  let text := String.ofList spelling
  if !ops.isAllowed text then .error (.invalidOperator, spelling)
  else if rest.isEmpty && !mayEnd ops c then .error (.trailingOperator, spelling)
  else .ok { token := .operator text, spelling, rest }

/-! ## Tokens -/

/-- Whether a name starts here. -/
def nameAhead : List Char → Bool
  | [] => false
  | c :: _ => isNameStart c

/-- The token that starts with `c`, which is no blank. A point before a name is an operator where
that operator is allowed, and otherwise part of a number. -/
def readToken (ops : OperatorSet) (c : Char) (cs : List Char) : Except Fault Lexeme :=
  if isNameStart c then .ok (readName c cs)
  else if c == '.' && nameAhead cs && ops.isAllowed "." then
    .ok { token := .operator ".", spelling := [c], rest := cs }
  else if c.isDigit || c == '.' then readNumber c cs
  else if c == '"' || c == '\x27' then readString c cs
  else readOperator ops c cs

/-! ## Splitting -/

theorem readName_split (c : Char) (cs : List Char) :
    (readName c cs).spelling ++ (readName c cs).rest = c :: cs := by
  simp [readName, List.takeWhile_append_dropWhile]

theorem splitBody_split (c : Char) (cs : List Char) :
    (splitBody c cs).1 ++ (splitBody c cs).2 = c :: cs := by
  unfold splitBody
  split
  · next more h =>
    simp [List.takeWhile_append_dropWhile, ← h]
  · simp [List.takeWhile_append_dropWhile]

theorem splitMarker_split (cs : List Char) : (splitMarker cs).1 ++ (splitMarker cs).2 = cs := by
  unfold splitMarker
  repeat' split
  all_goals simp

theorem readNumber_split {c : Char} {cs : List Char} {l : Lexeme} (h : readNumber c cs = .ok l) :
    l.spelling ++ l.rest = c :: cs := by
  have hb := splitBody_split c cs
  have hm := splitMarker_split (splitBody c cs).2
  simp only [readNumber] at h
  repeat' split at h
  all_goals try contradiction
  cases h
  simp only [List.append_assoc, List.takeWhile_append_dropWhile, hm, hb]

theorem readString_split {quote : Char} {cs : List Char} {l : Lexeme}
    (h : readString quote cs = .ok l) : l.spelling ++ l.rest = quote :: cs := by
  simp only [readString] at h
  split at h
  · contradiction
  · next c rest hd =>
    split at h
    · next hc =>
      cases h
      simp only [List.cons_append, List.append_assoc, List.nil_append, ← hd,
        List.takeWhile_append_dropWhile]
    · contradiction

theorem readOperator_split {ops : OperatorSet} {c : Char} {cs : List Char} {l : Lexeme}
    (h : readOperator ops c cs = .ok l) : l.spelling ++ l.rest = c :: cs := by
  simp only [readOperator] at h
  repeat' split at h
  all_goals try contradiction
  · cases h
    simp [List.takeWhile_append_dropWhile]
  · cases h
    simp

/-- A lexeme and what follows it are the text. -/
theorem readToken_split {ops : OperatorSet} {c : Char} {cs : List Char} {l : Lexeme}
    (h : readToken ops c cs = .ok l) : l.spelling ++ l.rest = c :: cs := by
  simp only [readToken] at h
  repeat' split at h
  · cases h; exact readName_split c cs
  · cases h; simp
  · exact readNumber_split h
  · exact readString_split h
  · exact readOperator_split h

theorem splitBody_head (c : Char) (cs : List Char) :
    ∃ more, (splitBody c cs).1 = c :: more := by
  unfold splitBody
  split
  · exact ⟨_, rfl⟩
  · exact ⟨_, rfl⟩

theorem readNumber_head {c : Char} {cs : List Char} {l : Lexeme} (h : readNumber c cs = .ok l) :
    ∃ more, l.spelling = c :: more := by
  obtain ⟨more, hb⟩ := splitBody_head c cs
  simp only [readNumber] at h
  repeat' split at h
  all_goals try contradiction
  cases h
  exact ⟨_, by rw [hb, List.cons_append]⟩

theorem readString_head {quote : Char} {cs : List Char} {l : Lexeme}
    (h : readString quote cs = .ok l) : ∃ more, l.spelling = quote :: more := by
  simp only [readString] at h
  repeat' split at h
  all_goals try contradiction
  cases h
  exact ⟨_, rfl⟩

theorem readOperator_head {ops : OperatorSet} {c : Char} {cs : List Char} {l : Lexeme}
    (h : readOperator ops c cs = .ok l) : ∃ more, l.spelling = c :: more := by
  simp only [readOperator] at h
  repeat' split at h
  all_goals try contradiction
  all_goals cases h; exact ⟨_, rfl⟩

/-- A lexeme starts with the character that it was read at. -/
theorem readToken_head {ops : OperatorSet} {c : Char} {cs : List Char} {l : Lexeme}
    (h : readToken ops c cs = .ok l) : ∃ more, l.spelling = c :: more := by
  simp only [readToken] at h
  repeat' split at h
  · cases h; exact ⟨_, rfl⟩
  · cases h; exact ⟨_, rfl⟩
  · exact readNumber_head h
  · exact readString_head h
  · exact readOperator_head h

/-- Reading a token leaves a shorter text. -/
theorem readToken_length {ops : OperatorSet} {c : Char} {cs : List Char} {l : Lexeme}
    (h : readToken ops c cs = .ok l) : l.rest.length < (c :: cs).length := by
  obtain ⟨more, hm⟩ := readToken_head h
  have hs := congrArg List.length (readToken_split h)
  rw [hm] at hs
  simp only [List.length_append, List.length_cons] at hs ⊢
  omega

/-! ## Texts -/

/-- The tokens of a text that starts at a position of the source. -/
def tokensFrom (ops : OperatorSet) (position : Nat) (text : List Char) :
    Except ScanError (List Token) :=
  match text with
  | [] => .ok []
  | c :: cs =>
    if isGap c then tokensFrom ops (position + c.utf8Size) cs
    else match _h : readToken ops c cs with
      | .error (fault, shown) =>
        .error { fault, text := String.ofList shown, position := position % ScanError.positions }
      | .ok l =>
        match tokensFrom ops (position + Text.byteSize l.spelling) l.rest with
        | .ok tokens => .ok (l.token :: tokens)
        | .error e => .error e
termination_by text.length
decreasing_by
  · simp
  · exact readToken_length _h

end Formula.Scanner

namespace Formula

/-- The tokens of a text under a set of operator spellings. -/
def OperatorSet.tokenize (ops : OperatorSet) (source : String) : Except ScanError (List Token) :=
  Scanner.tokensFrom ops 0 source.toList

end Formula
