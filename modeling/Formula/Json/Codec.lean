import Formula.Json.Grammar
import Formula.Number.Double

/-!
# Writing and reading of JSON

What tokens and values need of a library for JSON: it writes a document as a text and reads one from a text
(`Codec`). `Codec.Documented` is what is known of such a library: what it writes is the document, with `null` for
numbers that are not finite, and what it reads is the document that the text spells.
-/

namespace Formula.Json

/-- A library for JSON. -/
structure Codec where
  /-- The text that is written for a document, or the reason why there is none. -/
  write : Tree Double → Except String String
  /-- The document that is read from a text. Numbers out of range and strings that denote none have no value. -/
  read? : String → Option (Tree (Option Double))
  /-- The digits that are written for a finite number. -/
  digits : Double → List Char
  /-- The number that digits are read as, unless it is out of range. -/
  value? : List Char → Option Double

namespace Codec

variable (c : Codec)

/-- A number as it is written; one that is not finite has no digits. -/
def written (x : Double) : Tree (List Char) := if x.isFinite then .number (c.digits x) else .null

/-- A number as it is read. -/
def reading (digits : List Char) : Tree (Option Double) := .number (c.value? digits)

/-- How deep a text may be nested to be read. -/
def maxNesting : Nat := 127

end Codec

mutual

/-- A document whose strings and keys all have a value. -/
def Tree.Complete {ν : Type} : Tree ν → Prop
  | .string s? => s?.isSome
  | .array items => Tree.CompleteAll items
  | .object fields => Tree.CompleteFields fields
  | _ => True

/-- Several such documents. -/
def Tree.CompleteAll {ν : Type} : List (Tree ν) → Prop
  | [] => True
  | t :: items => t.Complete ∧ Tree.CompleteAll items

/-- Several keys with such documents. -/
def Tree.CompleteFields {ν : Type} : List (Option String × Tree ν) → Prop
  | [] => True
  | (key, t) :: fields => key.isSome ∧ t.Complete ∧ Tree.CompleteFields fields

end

/-- What a library for JSON is documented to do. -/
structure Codec.Documented (c : Codec) : Prop where
  /-- The digits of a finite number are a number of JSON. -/
  digits {x : Double} : x.isFinite = true → Numeral.Spelled (c.digits x)
  /-- The text written for a document spells it, with `null` in the place of numbers that are not finite. -/
  write {t : Tree Double} : t.Complete → ∃ text, c.write t = .ok text ∧ (t.replace c.written).Spells text.toList
  /-- A text that is not nested too deep is read as the document it spells, with numbers as their digits are read. -/
  read {t : Tree (List Char)} {text : String} : t.Spells text.toList → t.nesting ≤ Codec.maxNesting →
    c.read? text = some (t.replace c.reading)
  /-- No text is read as a document that it does not spell. -/
  read_only {t : Tree (List Char)} {text : String} {u : Tree (Option Double)} : t.Spells text.toList →
    c.read? text = some u → u = t.replace c.reading

end Formula.Json
