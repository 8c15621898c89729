/-!
# Lines and positions

A position is a byte offset into the UTF-8 form of a text. `Line.at?` finds the line that holds it:
the pieces of the text, cut after each newline, are walked with the offset that is left.
-/

namespace Formula.Text

/-- The size of a text in bytes. -/
def byteSize : List Char → Nat
  | [] => 0
  | c :: cs => c.utf8Size + byteSize cs

@[simp]
theorem byteSize_nil : byteSize [] = 0 := rfl

@[simp]
theorem byteSize_cons (c : Char) (cs : List Char) : byteSize (c :: cs) = c.utf8Size + byteSize cs := rfl

@[simp]
theorem byteSize_append (cs ds : List Char) : byteSize (cs ++ ds) = byteSize cs + byteSize ds := by
  induction cs with
  | nil => simp
  | cons c cs ih => simp [ih, Nat.add_assoc]

theorem byteSize_ofList (cs : List Char) : byteSize cs = (String.ofList cs).utf8ByteSize := by
  induction cs with
  | nil => simp [String.ofList_nil]
  | cons c cs ih =>
    have hcons : String.ofList (c :: cs) = String.singleton c ++ String.ofList cs := by
      rw [String.singleton_eq_ofList, ← String.ofList_append, List.singleton_append]
    rw [byteSize_cons, ih, hcons, String.utf8ByteSize_append, String.utf8ByteSize_singleton]

theorem byteSize_toList (s : String) : byteSize s.toList = s.utf8ByteSize := by
  rw [byteSize_ofList, String.ofList_toList]

/-- The pieces of a text, cut after each newline. -/
def pieces : List Char → List (List Char)
  | [] => []
  | c :: rest =>
    if c = '\n' then [c] :: pieces rest
    else match pieces rest with
      | [] => [[c]]
      | piece :: more => (c :: piece) :: more

/-- The number of characters in the first `offset` bytes, if these end between two characters. -/
def charsBefore? : List Char → Nat → Option Nat
  | _, 0 => some 0
  | [], _ + 1 => none
  | c :: rest, offset =>
    if c.utf8Size ≤ offset then (charsBefore? rest (offset - c.utf8Size)).map (· + 1) else none

/-- A line of a text, numbered from 1, and a byte offset into it. -/
structure Line where
  number : Nat
  text : List Char
  offset : Nat
deriving DecidableEq, Repr

namespace Line

/-- The piece that holds the offset; the end of the text belongs to the last piece. -/
def find (number offset : Nat) : List (List Char) → Line
  | [] => { number, text := [], offset := 0 }
  | piece :: rest =>
    if offset < byteSize piece ∨ (rest = [] ∧ offset = byteSize piece) then
      { number, text := piece, offset }
    else find (number + 1) (offset - byteSize piece) rest

/-- The line that holds a position, if the position does not lie past the end. -/
def at? (source : String) (position : Nat) : Option Line :=
  let cs := source.toList
  if position ≤ byteSize cs then some (find 1 position (pieces cs)) else none

end Line

end Formula.Text
