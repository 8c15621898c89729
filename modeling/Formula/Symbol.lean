import Formula.Rule

/-!
# Symbols

A symbol has a spelling, a binding power toward an operand on its left, and a kind, which says how a
use of it is read and what it evaluates to. A `SymbolTable` holds one symbol for each spelling.

Main statements: `get?_define`, `get?_define_of_ne`, `get?_erase` and `get?_erase_of_ne` say what the
two changes of a table do to the view `get?`.
-/

namespace Formula

/-- How tightly an operator takes the operand on its left. -/
abbrev BindingPower := Nat

namespace BindingPower

/-- Symbols that take no operand on their left. -/
def none : BindingPower := 0
def ternary : BindingPower := 20
def logical : BindingPower := 30
def relational : BindingPower := 40
def additive : BindingPower := 50
def multiplicative : BindingPower := 60
def exponent : BindingPower := 70
/-- The power at which an operator before its operand reads it. -/
def unary : BindingPower := 70
def member : BindingPower := 80

end BindingPower

/-- The spelling of the symbol that stands behind the last token. -/
def endId : String := "(end)"

/-- The spelling of the symbol for numbers and strings. -/
def literalId : String := "(literal)"

/-- How a function turns what stands between its parentheses into values. -/
inductive ArgumentMode
  /-- Bare parentheses; only a value before a dot is passed. -/
  | bare
  /-- An array in the first place is replaced by its elements. -/
  | spread
  /-- The values as they are written. -/
  | exact
deriving DecidableEq, Repr

/-- How an operator that starts an expression is read. -/
inductive LeadingForm
  /-- One operand follows. -/
  | operand
  /-- One operand follows, and the operator is a sign. -/
  | sign
  /-- An expression up to the closing spelling follows. -/
  | grouping (closing : String)
  /-- A list of expressions up to a closing square bracket follows. -/
  | array
deriving DecidableEq, Repr

/-- How an operator after its first operand is read. -/
inductive TrailingForm
  /-- A second operand follows. -/
  | binary
  /-- Two operands with a colon between them follow. -/
  | ternary
deriving DecidableEq, Repr

/-- What a symbol is. -/
inductive SymbolKind
  /-- Brackets, separators and the end; no value. -/
  | punctuation
  /-- A number or string, whose value the use carries. -/
  | literal
  | constant (value : Value)
  /-- An operator before its operand. -/
  | leading (rule : OperatorRule) (form : LeadingForm)
  /-- An operator between operands whose chains group from the left, and which may have a reading
  at the start of an expression as well. -/
  | leftward (rule : OperatorRule) (form : TrailingForm) (leading? : Option LeadingForm)
  /-- An operator between operands whose chains group from the right. -/
  | rightward (rule : OperatorRule)
  | function (rule : FunctionRule) (mode : ArgumentMode)

namespace SymbolKind

/-- The name of a kind. -/
def label : SymbolKind → String
  | .punctuation => "punctuation"
  | .literal => "literal"
  | .constant _ => "constant"
  | .leading .. => "prefix"
  | .leftward .. => "infix"
  | .rightward _ => "infix-right"
  | .function .. => "function"

/-- Whether a value before a dot can be handed to the symbol. -/
def isFunction : SymbolKind → Bool
  | .function .. => true
  | _ => false

end SymbolKind

/-- A spelling with its definition. -/
structure Symbol where
  id : String
  power : BindingPower
  kind : SymbolKind

namespace Symbol

/-- Punctuation. -/
def simple (id : String) : Symbol := ⟨id, .none, .punctuation⟩

/-- A name for a value. -/
def constant (id : String) (value : Value) : Symbol := ⟨id, .none, .constant value⟩

/-- A function. -/
def function (id : String) (mode : ArgumentMode) (rule : FunctionRule) : Symbol :=
  ⟨id, .none, .function rule mode⟩

/-- An operator before its operand. -/
def leading (id : String) (form : LeadingForm) (rule : OperatorRule) : Symbol :=
  ⟨id, .none, .leading rule form⟩

/-- An operator between two operands that groups from the left. -/
def binary (id : String) (power : BindingPower) (rule : OperatorRule) : Symbol :=
  ⟨id, power, .leftward rule .binary .none⟩

/-- An operator between two operands that groups from the right. -/
def rightward (id : String) (power : BindingPower) (rule : OperatorRule) : Symbol :=
  ⟨id, power, .rightward rule⟩

/-- A symbol as it is shown to a developer. -/
def render (s : Symbol) : String :=
  "Symbol \x7b id: " ++ Text.quote s.id ++ ", lbp: " ++ toString s.power ++ ", kind: "
    ++ Text.quote s.kind.label ++ " \x7d"

end Symbol

/-- At most one symbol for each spelling. -/
structure SymbolTable where
  symbols : List Symbol

namespace SymbolTable

/-- The table without symbols. -/
def empty : SymbolTable := ⟨[]⟩

/-- The symbol with this spelling. -/
def get? (table : SymbolTable) (id : String) : Option Symbol :=
  table.symbols.find? (·.id == id)

/-- The table without the symbol of this spelling. -/
def erase (table : SymbolTable) (id : String) : SymbolTable :=
  ⟨table.symbols.filter (·.id != id)⟩

/-- The table in which the symbol takes the place of any other with its spelling. -/
def define (table : SymbolTable) (s : Symbol) : SymbolTable :=
  ⟨s :: (table.erase s.id).symbols⟩

/-- Defines symbols in order. -/
def defineAll (table : SymbolTable) (symbols : List Symbol) : SymbolTable :=
  symbols.foldl define table

/-- The number of symbols. -/
def size (table : SymbolTable) : Nat := table.symbols.length

theorem get?_erase (table : SymbolTable) (id : String) : (table.erase id).get? id = none := by
  simp [get?, erase, List.find?_filter]

theorem get?_erase_of_ne (table : SymbolTable) {id other : String} (h : other ≠ id) :
    (table.erase id).get? other = table.get? other := by
  simp only [get?, erase, List.find?_filter]
  congr 1
  funext s
  by_cases hs : s.id = other
  · simp [hs, h]
  · simp [hs]

theorem get?_define (table : SymbolTable) (s : Symbol) : (table.define s).get? s.id = some s := by
  simp [get?, define]

theorem get?_define_of_ne (table : SymbolTable) (s : Symbol) {other : String} (h : other ≠ s.id) :
    (table.define s).get? other = table.get? other := by
  have hb : (s.id == other) = false := beq_eq_false_iff_ne.mpr (Ne.symm h)
  rw [← get?_erase_of_ne table h]
  simp [get?, define, hb]

end SymbolTable

end Formula
