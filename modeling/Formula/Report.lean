import Formula.Error
import Formula.Text.Blank
import Formula.Text.Line

/-!
# Reports of errors

A report has a header with the name and the tip of the error, its message, and, for an error with a
position, the line it is on with a caret under the place. There is none where the caret stands too far to the right.
-/

namespace Formula.Report

/-- The first line. -/
def header (error : Error) : String :=
  match error.tip? with
  | some tip => "Error: " ++ error.name ++ " (" ++ tip ++ ")"
  | none => "Error: " ++ error.name

/-- The number of spaces at the start of a line. -/
def indentation (line : List Char) : Nat := (line.takeWhile (· = ' ')).length

/-- The column of the caret under a line shown without its indentation. -/
def column (line : Text.Line) : Nat :=
  (Text.charsBefore? line.text line.offset).getD line.offset - indentation line.text

/-- The largest width to which a text can be padded. -/
def maxWidth : Nat := 65535

/-- The line with the place that is meant. The dashes pad the caret to a width that is only known here, and the program
breaks off where it is too large. -/
def located? (line : Text.Line) : Option (List String) :=
  let number := toString line.number
  let margin := String.ofList (List.replicate (number.length + 1) ' ') ++ "|"
  let shown := String.ofList (Text.trimEnd (line.text.drop (indentation line.text)))
  let caret := String.ofList (List.replicate (column line) '-') ++ "^"
  if column line + 1 ≤ maxWidth then some [margin, number ++ " | " ++ shown, margin ++ " " ++ caret]
  else none

/-- The lines of a report. -/
def lines? (source : String) (error : Error) : Option (List String) := do
  let place ← match error.position?.bind (Text.Line.at? source) with
    | some line => located? line
    | none => some []
  return [header error, error.message] ++ place

/-- The report of an error in a source, unless the program breaks off. -/
def render? (source : String) (error : Error) : Option String :=
  (lines? source error).map fun lines => String.join (lines.map (· ++ "\n"))

end Formula.Report
