/-!
# JSON documents

A document as a tree whose numbers are of any kind: doubles where it is written, digits where it is spelled out, and
doubles that may be missing where it is read. A number out of range and a string whose escapes denote no characters are
well-formed parts of a document that have no value; they are kept as `none`, so that a reader can pass over them in
fields that it does not use.
-/

namespace Formula.Json

/-- A document. -/
inductive Tree (ν : Type)
  | null
  | bool (b : Bool)
  | number (x : ν)
  | string (s? : Option String)
  | array (items : List (Tree ν))
  | object (fields : List (Option String × Tree ν))
deriving Inhabited

namespace Tree

variable {ν μ : Type}

mutual

/-- The document with another part in the place of each number. -/
def replace (f : ν → Tree μ) : Tree ν → Tree μ
  | .null => .null
  | .bool b => .bool b
  | .number x => f x
  | .string s? => .string s?
  | .array items => .array (replaceAll f items)
  | .object fields => .object (replaceFields f fields)

/-- The documents with other parts for their numbers. -/
def replaceAll (f : ν → Tree μ) : List (Tree ν) → List (Tree μ)
  | [] => []
  | t :: items => replace f t :: replaceAll f items

/-- The keys with such documents. -/
def replaceFields (f : ν → Tree μ) : List (Option String × Tree ν) → List (Option String × Tree μ)
  | [] => []
  | (key, t) :: fields => (key, replace f t) :: replaceFields f fields

end

mutual

/-- How deep arrays and objects are nested in a document. -/
def nesting : Tree ν → Nat
  | .array items => nestingAll items + 1
  | .object fields => nestingFields fields + 1
  | _ => 0

/-- How deep they are nested in several documents. -/
def nestingAll : List (Tree ν) → Nat
  | [] => 0
  | t :: items => max (nesting t) (nestingAll items)

/-- How deep they are nested under several keys. -/
def nestingFields : List (Option String × Tree ν) → Nat
  | [] => 0
  | (_, t) :: fields => max (nesting t) (nestingFields fields)

end

end Tree

end Formula.Json
