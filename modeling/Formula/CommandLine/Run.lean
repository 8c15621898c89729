import Formula.CommandLine.Options
import Formula.Evaluator
import Formula.Json.Wire
import Formula.Report

/-!
# Runs

A run evaluates the formulas among the arguments, or else on the lines of the input, in order. What it shows is the
values on one stream and the reports of failures on the other. A failure does not end the run, but the program breaks
off where a report cannot be made.
-/

namespace Formula.CommandLine

/-- What a run writes to the two streams, whether a formula failed, and whether the program broke off. What is said of
breaking off itself is left out. -/
structure Output where
  standard : String
  errors : String
  failed : Bool
  broken : Bool
deriving DecidableEq, Repr

namespace Output

/-- Nothing. -/
def empty : Output := ⟨"", "", false, false⟩

/-- One output after another; nothing comes after breaking off. -/
def append (a b : Output) : Output :=
  if a.broken then a
  else ⟨a.standard ++ b.standard, a.errors ++ b.errors, a.failed || b.failed, b.broken⟩

/-- A line of results. -/
def line (text : String) : Output := ⟨text ++ "\n", "", false, false⟩

/-- A text about a failure. -/
def failure (text : String) : Output := ⟨"", text, true, false⟩

/-- The report of an error. -/
def report (source : String) (error : Error) : Output :=
  match Report.render? source error with
  | some text => .failure text
  | none => ⟨"", "", true, true⟩

/-- The exit code. -/
def code (o : Output) : Nat := if o.broken then 101 else if o.failed then 1 else 0

end Output

/-- How deep calls may be nested. An evaluation with the options nests them two deep inside it at most, so this is no
bound on it. -/
def callDepth : Nat := 3

/-- The evaluator that the options describe. -/
def Options.evaluator (options : Options) : Evaluator :=
  let overrides := options.enabled.map (·, true) ++ options.disabled.map (·, false)
  (Evaluator.standard.updateOperators overrides).defineNames
    (options.names.map fun (id, x) => (id, .number x))

/-- The tokens of a formula. -/
def showTokens (json : Json.Codec) (e : Evaluator) (source : String) : Output :=
  match e.tokenize source with
  | .ok tokens =>
    match json.write (Token.listToJson tokens) with
    | .ok text => .line text
    | .error reason => .failure ("Failed to serialize tokens: " ++ reason ++ "\n")
  | .error error => .report source (.scan error)

/-- The value of a formula, and the draws left after it. -/
def showValue (e : Evaluator) (source : String) (draws : Draws) : Output × Draws :=
  match e.evaluate callDepth (.text source) draws with
  | .ok v draws => (.line v.display, draws)
  | .error (.failed error) draws => (.report source error, draws)
  -- never met, see `Options.evaluate_ne_exhausted`
  | .error .exhausted draws => (.empty, draws)

/-- What is shown for a formula. -/
def Options.show (options : Options) (json : Json.Codec) (source : String) (draws : Draws) : Output × Draws :=
  if options.tokens then (showTokens json options.evaluator source, draws)
  else showValue options.evaluator source draws

/-- What is shown for several formulas. -/
def Options.showAll (options : Options) (json : Json.Codec) : List String → Draws → Output
  | [], _ => .empty
  | source :: rest, draws =>
    let (output, draws) := options.show json source draws
    output.append (options.showAll json rest draws)

/-- A line without its end. -/
def dropLineEnd (line : List Char) : List Char :=
  match line.reverse with
  | '\n' :: '\r' :: rest => rest.reverse
  | '\n' :: rest => rest.reverse
  | _ => line

/-- The lines of an input that are not blank. -/
def inputLines (input : String) : List String :=
  ((Text.pieces input.toList).map fun piece => String.ofList (dropLineEnd piece)).filter
    fun line => !Text.isBlankText line

/-- What a run shows: for the expressions among the arguments, or else for the lines of the input. -/
def Options.run (options : Options) (json : Json.Codec) (input : String) (draws : Draws) : Output :=
  options.showAll json
    (if options.expressions.isEmpty then inputLines input else options.expressions) draws

end Formula.CommandLine
