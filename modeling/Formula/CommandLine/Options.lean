import Formula.Number.Reading
import Formula.Text.Blank
import Formula.Text.Quoted

/-!
# Options

What the arguments of the program ask for, and how the values of its options are read.
-/

namespace Formula.CommandLine

/-- What the arguments ask for. -/
structure Options where
  names : List (String × Double)
  enabled : List String
  disabled : List String
  tokens : Bool
  expressions : List String

/-- What is asked for without arguments. -/
def Options.none : Options := ⟨[], [], [], false, []⟩

/-- Why no formula is evaluated: the arguments are misused, in a name or otherwise, or they ask for
a text about the program. -/
inductive Halt
  | misuse (reason? : Option String)
  | help
  | version
deriving DecidableEq, Repr

/-- The options that take a value. -/
inductive ValueOption
  | name
  | operator
  | disable
deriving DecidableEq, Repr

/-- The parts of a text before and after the first equals sign. -/
def splitEquals? (cs : List Char) : Option (List Char × List Char) :=
  match cs.dropWhile (· != '=') with
  | _ :: rest => some (cs.takeWhile (· != '='), rest)
  | [] => none

/-- A definition `NAME=VALUE` of a number, or the reason why it is none. -/
def readName (argument : String) : Except String (String × Double) :=
  match splitEquals? argument.toList with
  | none => .error ("expected NAME=VALUE, got " ++ Text.quote argument)
  | some (name, value) =>
    match Number.read (Text.trim (String.ofList value)) with
    | .ok x => .ok (Text.trim (String.ofList name), x)
    | .error e => .error ("invalid value for " ++ String.ofList name ++ ": " ++ e.message)

/-- The options with the value of one more. -/
def Options.take (options : Options) (value : String) : ValueOption → Except Halt Options
  | .name =>
    match readName value with
    | .ok entry => .ok { options with names := options.names ++ [entry] }
    | .error reason => .error (.misuse (some reason))
  | .operator => .ok { options with enabled := options.enabled ++ [value] }
  | .disable => .ok { options with disabled := options.disabled ++ [value] }

end Formula.CommandLine
