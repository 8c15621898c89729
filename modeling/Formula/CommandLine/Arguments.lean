import Formula.CommandLine.Options

/-!
# Arguments

Arguments write options and expressions one after the other: a text that is no option stands for itself, an option with
a value has it glued to it or behind it, letters may share a dash, and two dashes end the options (`Writes`, `Ending`).
They are read by a library (`Parser`). `Parser.Documented` is what is known of it: it takes up what is written in the
order in which it is written, and accepts nothing that is not written in one of these ways.
-/

namespace Formula.CommandLine

/-! ## Options and expressions in writing -/

/-- An option, with its value if it takes one, or an expression. -/
inductive Item
  | valued (option : ValueOption) (value : String)
  | tokens
  | expression (text : String)
deriving DecidableEq, Repr

/-- The name of an option. -/
def ValueOption.word : ValueOption → String
  | .name => "name"
  | .operator => "operator"
  | .disable => "disable-operator"

/-- The letter of an option. -/
def ValueOption.letter : ValueOption → Char
  | .name => 'n'
  | .operator => 'o'
  | .disable => 'd'

/-- A text that is no option: no dash stands in front, or nothing behind it. -/
def IsPlain (text : String) : Prop := ∀ c cs, text.toList ≠ '-' :: c :: cs

/-- What letters behind one dash write, and the option whose value is still to come. -/
inductive Letters : List Char → List Item → Option ValueOption → Prop
  | nil : Letters [] [] none
  | tokens {cs : List Char} {items : List Item} {awaiting? : Option ValueOption} : Letters cs items awaiting? →
    Letters ('t' :: cs) (.tokens :: items) awaiting?
  | bare (option : ValueOption) : Letters [option.letter] [] (some option)
  | equals (option : ValueOption) (value : List Char) :
    Letters (option.letter :: '=' :: value) [.valued option (String.ofList value)] none
  | glued (option : ValueOption) {value : List Char} : value ≠ [] → value.head? ≠ some '=' →
    Letters (option.letter :: value) [.valued option (String.ofList value)] none

/-- What an argument with a dash in front writes, and the option whose value is still to come. -/
inductive Spells : String → List Item → Option ValueOption → Prop
  | letters {cs : List Char} {items : List Item} {awaiting? : Option ValueOption} : Letters cs items awaiting? →
    cs ≠ [] → Spells (String.ofList ('-' :: cs)) items awaiting?
  | bare (option : ValueOption) : Spells ("--" ++ option.word) [] (some option)
  | equals (option : ValueOption) (value : String) :
    Spells ("--" ++ option.word ++ "=" ++ value) [.valued option value] none
  | tokens : Spells "--tokens" [.tokens] none

/-- What arguments write, where the value of an option may still be to come. -/
inductive Writes : Option ValueOption → List String → List Item → Prop
  | nil : Writes none [] []
  | expression {text : String} {rest : List String} {items : List Item} : IsPlain text → Writes none rest items →
    Writes none (text :: rest) (.expression text :: items)
  | value {option : ValueOption} {text : String} {rest : List String} {items : List Item} : IsPlain text →
    Writes none rest items → Writes (some option) (text :: rest) (.valued option text :: items)
  | option {argument : String} {rest : List String} {items more : List Item} {awaiting? : Option ValueOption} :
    Spells argument items awaiting? → Writes awaiting? rest more → Writes none (argument :: rest) (items ++ more)

/-- Nothing behind the arguments, or two dashes and expressions. -/
inductive Ending : List String → List String → Prop
  | nil : Ending [] []
  | dashes (texts : List String) : Ending ("--" :: texts) texts

/-! ## Taking up what is written -/

/-- The options with one more of them, or with one more expression. -/
def Options.add (options : Options) : Item → Except Halt Options
  | .valued option value => options.take value option
  | .tokens => if options.tokens then .error (.misuse Option.none) else .ok { options with tokens := true }
  | .expression text => .ok { options with expressions := options.expressions ++ [text] }

/-- The options with several more, one after the other. -/
def Options.addAll (options : Options) (items : List Item) : Except Halt Options := items.foldlM add options

/-! ## Reading -/

/-- A library that reads arguments. -/
abbrev Parser := List String → Except Halt Options

/-- What a library that reads arguments is documented to do. -/
structure Parser.Documented (parse : Parser) : Prop where
  /-- The options and expressions that are written are taken up in turn. -/
  reads {front tail texts : List String} {items : List Item} {options : Options} : Writes none front items →
    Ending tail texts →
      (parse (front ++ tail) = .ok options ↔ Options.none.addAll (items ++ texts.map .expression) = .ok options)
  /-- What is accepted is written in one of the ways. -/
  writes {front tail texts : List String} {options : Options} : parse (front ++ tail) = .ok options → "--" ∉ front →
    Ending tail texts → ∃ items, Writes none front items

end Formula.CommandLine
