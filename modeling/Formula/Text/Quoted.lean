import Formula.Text.Printable

/-!
# Quoted text

Messages show a text between double quotes. A quote and a backslash are written with a backslash
before them, four controls have short forms, and whatever has no printed form of its own is written
as its code point in braces.
-/

namespace Formula.Text

/-- A code point as lower-case hexadecimal digits in braces. -/
def escapeCode (c : Char) : List Char :=
  ['\\', 'u', '\x7b'] ++ Nat.toDigits 16 c.toNat ++ ['\x7d']

/-- How one character is written between quotes. -/
def escape (c : Char) : List Char :=
  if c = '"' then ['\\', '"']
  else if c = '\\' then ['\\', '\\']
  else if c = '\t' then ['\\', 't']
  else if c = '\r' then ['\\', 'r']
  else if c = '\n' then ['\\', 'n']
  else if c = '\x00' then ['\\', '0']
  else if isPrintable c && !isCombining c then [c]
  else escapeCode c

/-- The text between double quotes. -/
def quote (s : String) : String :=
  String.ofList ('"' :: (s.toList.flatMap escape ++ ['"']))

example : quote "a\"b\\\n'" = "\"a\\\"b\\\\\\n'\"" := by decide +kernel
example : quote "é" = "\"é\"" := by decide +kernel

end Formula.Text
