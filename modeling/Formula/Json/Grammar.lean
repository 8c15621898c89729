import Formula.Json.Tree

/-!
# The texts of documents

JSON as it is written without white space: `Tree.Spells` relates a document, with its numbers as digits, to the texts
that spell it. A text leaves open how a character of a string is written, itself or by one of its escapes, and in which
form a number is.
-/

namespace Formula.Json

/-! ## Numbers -/

/-- Digits, at least one. -/
def IsDigits (ds : List Char) : Prop := ds ≠ [] ∧ ∀ d ∈ ds, d.isDigit = true

/-- Digits of which the first one is not zero. -/
def IsLeading (ds : List Char) : Prop :=
  ∃ d more, ds = d :: more ∧ d ≠ '0' ∧ d.isDigit = true ∧ ∀ c ∈ more, c.isDigit = true

namespace Numeral

/-- Digits before a point: a zero stands alone. -/
inductive Whole : List Char → Prop
  | zero : Whole ['0']
  | leading {ds : List Char} : IsLeading ds → Whole ds

/-- A point with digits, or nothing. -/
inductive Fraction : List Char → Prop
  | nothing : Fraction []
  | point {ds : List Char} : IsDigits ds → Fraction ('.' :: ds)

/-- A marker with an optional sign and digits, or nothing. -/
inductive Exponent : List Char → Prop
  | nothing : Exponent []
  | marker {marker : Char} {sign ds : List Char} : marker ∈ ['e', 'E'] → sign ∈ [[], ['+'], ['-']] → IsDigits ds →
      Exponent (marker :: (sign ++ ds))

/-- The spelling of a numeral without a sign. -/
inductive Unsigned : List Char → Prop
  | intro {whole fraction exponent : List Char} : Whole whole → Fraction fraction → Exponent exponent →
      Unsigned (whole ++ (fraction ++ exponent))

/-- The spelling of a numeral. -/
inductive Spelled : List Char → Prop
  | positive {cs : List Char} : Unsigned cs → Spelled cs
  | negative {cs : List Char} : Unsigned cs → Spelled ('-' :: cs)

end Numeral

/-! ## Strings -/

/-- The number that a hexadecimal digit stands for. -/
def hexValue? (c : Char) : Option Nat :=
  if c.isDigit then some (c.toNat - '0'.toNat)
  else if 'a' ≤ c ∧ c ≤ 'f' then some (c.toNat - 'a'.toNat + 10)
  else if 'A' ≤ c ∧ c ≤ 'F' then some (c.toNat - 'A'.toNat + 10)
  else none

/-- The number that four hexadecimal digits stand for. -/
def codeUnit? (a b c d : Char) : Option Nat := do
  let a ← hexValue? a
  let b ← hexValue? b
  let c ← hexValue? c
  let d ← hexValue? d
  return ((a * 16 + b) * 16 + c) * 16 + d

/-- The character that an escape with one letter stands for. -/
def shortEscape? : Char → Option Char
  | '"' => some '"'
  | '\\' => some '\\'
  | '/' => some '/'
  | 'b' => some '\x08'
  | 'f' => some '\x0c'
  | 'n' => some '\n'
  | 'r' => some '\r'
  | 't' => some '\t'
  | _ => none

/-- What stands for a character between quotes. -/
inductive Escapes (c : Char) : List Char → Prop
  | plain : ' ' ≤ c → c ≠ '"' → c ≠ '\\' → Escapes c [c]
  | short {e : Char} : shortEscape? e = some c → Escapes c ['\\', e]
  | unit {x y z w : Char} : codeUnit? x y z w = some c.toNat → Escapes c ['\\', 'u', x, y, z, w]
  /-- Two code units stand for a character that is none of the first 0x10000. -/
  | pair {x y z w x' y' z' w' : Char} {high low : Nat} : codeUnit? x y z w = some (0xD800 + high) →
      codeUnit? x' y' z' w' = some (0xDC00 + low) → high < 0x400 → low < 0x400 →
      c.toNat = 0x10000 + high * 0x400 + low → Escapes c ['\\', 'u', x, y, z, w, '\\', 'u', x', y', z', w']

/-- The texts for several characters between quotes. -/
inductive EscapesAll : List Char → List Char → Prop
  | nil : EscapesAll [] []
  | cons {c : Char} {cs es more : List Char} : Escapes c es → EscapesAll cs more → EscapesAll (c :: cs) (es ++ more)

/-- The texts of a string. -/
inductive Quotes (s : String) : List Char → Prop
  | intro {es : List Char} : EscapesAll s.toList es → Quotes s ('"' :: (es ++ ['"']))

/-! ## Documents -/

/-- Texts with commas between them. -/
def commas : List (List Char) → List Char
  | [] => []
  | [text] => text
  | text :: next :: rest => text ++ ',' :: commas (next :: rest)

namespace Tree

mutual

/-- The texts of a document whose numbers are given by their digits. -/
def Spells : Tree (List Char) → List Char → Prop
  | .null, text => text = ['n', 'u', 'l', 'l']
  | .bool b, text => text = if b then ['t', 'r', 'u', 'e'] else ['f', 'a', 'l', 's', 'e']
  | .number digits, text => Numeral.Spelled digits ∧ text = digits
  | .string s?, text => ∃ s, s? = some s ∧ Quotes s text
  | .array items, text => ∃ texts, SpellsAll items texts ∧ text = '[' :: (commas texts ++ [']'])
  | .object fields, text => ∃ texts, SpellsFields fields texts ∧ text = '\x7b' :: (commas texts ++ ['\x7d'])

/-- The texts of several documents. -/
def SpellsAll : List (Tree (List Char)) → List (List Char) → Prop
  | [], texts => texts = []
  | t :: items, texts => ∃ text rest, texts = text :: rest ∧ Spells t text ∧ SpellsAll items rest

/-- The texts of several keys with their documents. -/
def SpellsFields : List (Option String × Tree (List Char)) → List (List Char) → Prop
  | [], texts => texts = []
  | (key, t) :: fields, texts => ∃ s quoted text rest, texts = (quoted ++ ':' :: text) :: rest ∧ key = some s ∧
      Quotes s quoted ∧ Spells t text ∧ SpellsFields fields rest

end

end Tree

end Formula.Json
