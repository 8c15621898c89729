import Formula.CommandLine.Options

/-!
# Reading arguments

Arguments are read one after the other into `Options`. An option's value is checked when the next
option or expression is taken up, or at the end, so a later argument that is no option at all is
refused first.
-/

namespace Formula.CommandLine

/-- What stands behind a dash. -/
inductive Flag
  | valued (option : ValueOption)
  | tokens
  | halting (halt : Halt)
deriving DecidableEq, Repr

/-- The option with this letter. -/
def Flag.ofLetter? : Char → Option Flag
  | 'n' => some (.valued .name)
  | 'o' => some (.valued .operator)
  | 'd' => some (.valued .disable)
  | 't' => some .tokens
  | 'h' => some (.halting .help)
  | 'V' => some (.halting .version)
  | _ => none

/-- The option with this name. -/
def Flag.ofWord? : String → Option Flag
  | "name" => some (.valued .name)
  | "operator" => some (.valued .operator)
  | "disable-operator" => some (.valued .disable)
  | "tokens" => some .tokens
  | "help" => some (.halting .help)
  | "version" => some (.halting .version)
  | _ => none

/-- The options read so far, and the one whose value is still to come or to be checked. -/
structure Progress where
  options : Options
  pending? : Option (ValueOption × Option String)

namespace Progress

/-- No argument read yet. -/
def start : Progress := ⟨.none, none⟩

/-- Takes up the pending value, which must be there. -/
def settle (p : Progress) : Except Halt Options :=
  match p.pending? with
  | none => .ok p.options
  | some (_, none) => .error (.misuse none)
  | some (option, some value) => p.options.take value option

/-- Reads an option with the value that is glued to it. -/
def glued (p : Progress) (option : ValueOption) (value : List Char) : Except Halt Progress := do
  let options ← p.settle
  let options ← options.take (String.ofList value) option
  return ⟨options, none⟩

/-- Reads an option whose value is the next argument. -/
def awaiting (p : Progress) (option : ValueOption) : Except Halt Progress := do
  let options ← p.settle
  return ⟨options, some (option, none)⟩

/-- Reads an option that takes no value; the one for tokens may stand once. -/
def switch (p : Progress) (flag : Flag) : Except Halt Progress := do
  let options ← p.settle
  match flag with
  | .halting halt => throw halt
  | _ =>
    if options.tokens then throw (.misuse none)
    else return ⟨{ options with tokens := true }, none⟩

/-- Reads an expression. -/
def expression (p : Progress) (text : String) : Except Halt Progress := do
  let options ← p.settle
  return ⟨{ options with expressions := options.expressions ++ [text] }, none⟩

/-- Reads what follows two dashes. -/
def long (p : Progress) (cs : List Char) : Except Halt Progress :=
  let (word, value?) := match splitEquals? cs with
    | some (word, value) => (word, some value)
    | none => (cs, none)
  match Flag.ofWord? (String.ofList word), value? with
  | some (.valued option), some value => p.glued option value
  | some (.valued option), none => p.awaiting option
  | some flag, none => p.switch flag
  | _, _ => .error (.misuse none)

/-- Reads what follows one dash: letters up to one that takes a value, and that value. -/
def short (p : Progress) : List Char → Except Halt Progress
  | [] => .ok p
  | c :: rest =>
    match Flag.ofLetter? c with
    | none => .error (.misuse none)
    | some (.valued option) =>
      match rest with
      | [] => p.awaiting option
      | '=' :: value => p.glued option value
      | value => p.glued option value
    | some flag => do
      let p ← p.switch flag
      p.short rest

/-- Reads an argument that is no option. -/
def plain (p : Progress) (text : String) : Except Halt Progress :=
  match p.pending? with
  | some (option, none) => .ok { p with pending? := some (option, some text) }
  | _ => p.expression text

/-- Reads the arguments; after `--` all of them are expressions. -/
def readAll (p : Progress) : List String → Except Halt Progress
  | [] => .ok p
  | argument :: rest =>
    match argument.toList with
    | ['-', '-'] => rest.foldlM expression p
    | '-' :: '-' :: cs => do
      let p ← p.long cs
      p.readAll rest
    | '-' :: c :: cs => do
      let p ← p.short (c :: cs)
      p.readAll rest
    | _ => do
      let p ← p.plain argument
      p.readAll rest

end Progress

/-- The options that the arguments write. -/
def Options.read (arguments : List String) : Except Halt Options := do
  let p ← Progress.start.readAll arguments
  p.settle

end Formula.CommandLine
