import Formula.Json.Tree
import Formula.Number.Double
import Formula.Number.Layout

/-!
# Writing JSON documents

Documents are written without white space. In strings only quotes, backslashes and controls are
escaped; a part without a value is written as `null`.
-/

namespace Formula.Json

/-- A number as four hexadecimal digits. -/
def hexDigits (n : Nat) : List Char :=
  let digits := Nat.toDigits 16 n
  List.replicate (4 - digits.length) '0' ++ digits

/-- How a character is written in a string. -/
def escape (c : Char) : List Char :=
  if c = '"' then ['\\', '"']
  else if c = '\\' then ['\\', '\\']
  else if c = '\x08' then ['\\', 'b']
  else if c = '\x0c' then ['\\', 'f']
  else if c = '\n' then ['\\', 'n']
  else if c = '\r' then ['\\', 'r']
  else if c = '\t' then ['\\', 't']
  else if c < ' ' then '\\' :: 'u' :: hexDigits c.toNat
  else [c]

/-- A string between quotes. -/
def writeString (s : String) : String :=
  String.ofList ('"' :: (s.toList.flatMap escape ++ ['"']))

namespace Tree

mutual

/-- The text of a document. -/
def write : Tree Double → String
  | .null => "null"
  | .bool b => if b then "true" else "false"
  | .number x => if x.isFinite then Number.wire.write x.toFloat else "null"
  | .string (some s) => writeString s
  | .string none => "null"
  | .array items => "[" ++ ",".intercalate (writeAll items) ++ "]"
  | .object fields => "\x7b" ++ ",".intercalate (writeFields fields) ++ "\x7d"

/-- The texts of several documents. -/
def writeAll : List (Tree Double) → List String
  | [] => []
  | tree :: rest => write tree :: writeAll rest

/-- The texts of several keys with their documents. -/
def writeFields : List (Option String × Tree Double) → List String
  | [] => []
  | (key, tree) :: rest =>
    (writeString (key.getD "") ++ ":" ++ write tree) :: writeFields rest

end

end Tree

end Formula.Json
