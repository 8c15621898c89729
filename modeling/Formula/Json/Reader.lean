import Formula.Json.Codec
import Formula.Json.Numeral
import Formula.Json.Writer

/-!
# Reading JSON documents

`Tree.readText?` reads a whole text as one document. Escapes for the code units of a pair count as one
character; any other escape in the range of pairs denotes none.
-/

namespace Formula.Json

/-! ## Strings -/

/-- A part of a string: a character, or a code unit given by its number. -/
inductive Piece
  | char (c : Char)
  | unit (n : Nat)
deriving DecidableEq, Repr

/-- Puts a part in front of those read behind it. -/
def consPiece (piece : Piece) : Option (List Piece × List Char) → Option (List Piece × List Char)
  | some (pieces, rest) => some (piece :: pieces, rest)
  | none => none

/-- The parts up to the closing quote, and the text behind it. -/
def readPieces : List Char → Option (List Piece × List Char)
  | [] => none
  | '"' :: rest => some ([], rest)
  | '\\' :: 'u' :: a :: b :: c :: d :: rest =>
    match codeUnit? a b c d with
    | some n => consPiece (.unit n) (readPieces rest)
    | none => none
  | '\\' :: e :: rest =>
    match shortEscape? e with
    | some c => consPiece (.char c) (readPieces rest)
    | none => none
  | c :: rest => if ' ' ≤ c ∧ c ≠ '\\' then consPiece (.char c) (readPieces rest) else none

/-- The characters that the parts denote, if they denote any. -/
def joinPieces : List Piece → Option (List Char)
  | [] => some []
  | .char c :: rest => (joinPieces rest).map (c :: ·)
  | .unit high :: .unit low :: rest =>
    if 0xD800 ≤ high ∧ high < 0xDC00 then
      if 0xDC00 ≤ low ∧ low < 0xE000 then
        let code := 0x10000 + (high - 0xD800) * 0x400 + (low - 0xDC00)
        (joinPieces rest).map (Char.ofNat code :: ·)
      else none
    else if 0xDC00 ≤ high ∧ high < 0xE000 then none
    else (joinPieces (.unit low :: rest)).map (Char.ofNat high :: ·)
  | .unit n :: rest =>
    if 0xD800 ≤ n ∧ n < 0xE000 then none
    else (joinPieces rest).map (Char.ofNat n :: ·)

/-- The string behind an opening quote, and the text behind its closing quote. -/
def readString? (text : List Char) : Option (Option String × List Char) :=
  match readPieces text with
  | some (pieces, rest) => some ((joinPieces pieces).map String.ofList, rest)
  | none => none

/-! ## Documents -/

namespace Tree

/-- Whether a character may stand between the parts of a document. -/
def isSpace (c : Char) : Bool := c == ' ' || c == '\n' || c == '\t' || c == '\r'

/-- The text behind white space. -/
def skipSpace (text : List Char) : List Char := text.dropWhile isSpace

/-- The text behind a word. -/
def afterWord? (word : List Char) (text : List Char) : Option (List Char) :=
  if word.isPrefixOf text then some (text.drop word.length) else none

mutual

/-- The document at the head of a text. Each step of the readers takes one from the fuel, and every
second one takes a character from the text. -/
def readTree : (fuel : Nat) → List Char → Option (Tree (Option Double) × List Char)
  | 0, _ => none
  | fuel + 1, text =>
    match skipSpace text with
    | [] => none
    | 'n' :: rest => (afterWord? ['u', 'l', 'l'] rest).map fun rest => (.null, rest)
    | 't' :: rest => (afterWord? ['r', 'u', 'e'] rest).map fun rest => (.bool true, rest)
    | 'f' :: rest => (afterWord? ['a', 'l', 's', 'e'] rest).map fun rest => (.bool false, rest)
    | '"' :: rest => (readString? rest).map fun (s?, rest) => (.string s?, rest)
    | '[' :: rest =>
      match skipSpace rest with
      | ']' :: rest => some (.array [], rest)
      | rest => (readItems fuel rest).map fun (items, rest) => (.array items, rest)
    | '\x7b' :: rest =>
      match skipSpace rest with
      | '\x7d' :: rest => some (.object [], rest)
      | rest => (readFields fuel rest).map fun (fields, rest) => (.object fields, rest)
    | rest => (Numeral.read? rest).map fun (n, rest) => (.number (n.value?.map .ofFloat), rest)

/-- Documents with commas between them, up to a closing square bracket. -/
def readItems : (fuel : Nat) → List Char → Option (List (Tree (Option Double)) × List Char)
  | 0, _ => none
  | fuel + 1, text =>
    match readTree fuel text with
    | none => none
    | some (item, rest) =>
      match skipSpace rest with
      | ']' :: rest => some ([item], rest)
      | ',' :: rest => (readItems fuel rest).map fun (items, rest) => (item :: items, rest)
      | _ => none

/-- Keys with their documents, with commas between them, up to a closing curly bracket. -/
def readFields : (fuel : Nat) → List Char → Option (List (Option String × Tree (Option Double)) × List Char)
  | 0, _ => none
  | fuel + 1, text =>
    match readField fuel text with
    | none => none
    | some (field, rest) =>
      match skipSpace rest with
      | '\x7d' :: rest => some ([field], rest)
      | ',' :: rest => (readFields fuel rest).map fun (fields, rest) => (field :: fields, rest)
      | _ => none

/-- A key with its document. -/
def readField : (fuel : Nat) → List Char → Option ((Option String × Tree (Option Double)) × List Char)
  | 0, _ => none
  | fuel + 1, text =>
    match skipSpace text with
    | '"' :: rest =>
      match readString? rest with
      | none => none
      | some (key, rest) =>
        match skipSpace rest with
        | ':' :: rest => (readTree fuel rest).map fun (value, rest) => ((key, value), rest)
        | _ => none
    | _ => none

end

theorem skipSpace_cons {c : Char} (hc : isSpace c = false) (rest : List Char) : skipSpace (c :: rest) = c :: rest := by
  rw [skipSpace, List.dropWhile_cons_of_neg (by rw [hc]; decide)]

theorem readTree_emptyArray {fuel : Nat} {rest : List Char} :
    readTree (fuel + 1) ('[' :: ']' :: rest) = some (.array [], rest) := by
  rw [readTree, skipSpace_cons rfl]
  simp only [skipSpace_cons (show isSpace ']' = false from rfl)]

/-- The document that the whole text writes. -/
def readText? (text : String) : Option (Tree (Option Double)) :=
  let cs := text.toList
  match readTree (2 * cs.length + 2) cs with
  | some (tree, rest) => if (skipSpace rest).isEmpty then some tree else none
  | none => none

mutual

/-- How deep arrays are nested in arrays. What stands under a key is read without a bound, or not at all. -/
def arrayNesting : Tree (Option Double) → Nat
  | .array items => arrayNestingAll items + 1
  | _ => 0

/-- How deep arrays are nested in several documents. -/
def arrayNestingAll : List (Tree (Option Double)) → Nat
  | [] => 0
  | t :: items => max (arrayNesting t) (arrayNestingAll items)

end

end Tree

/-- The library for JSON that is written here. -/
def Codec.compact : Codec where
  write t := .ok t.write
  read? text := (Tree.readText? text).filter fun t => t.arrayNesting ≤ maxNesting
  digits x := (Number.wire.write x.toFloat).toList
  value? digits := (Numeral.read? digits).bind fun (n, _) => n.value?.map .ofFloat

end Formula.Json
