import Formula.Evaluator
import Formula.Proofs.Readings

/-!
# Symbol tables that definitions reach

A table is `Extended` when it is reached from the standard one by defining constants, functions and operators of the
default forms under spellings that are not taken. Such a table is `Regular`: brackets, commas, colons, literals and the
end are read as in the standard table, and only an operator after an operand binds to its left, so a use that is no
operator never takes the place of an operand that has been read (`Extended.regular`). A table that is `Derived` from the
standard one without the functions that draw random numbers is `Regular` as well (`Derived.regular`). That only operators
bind to their left also holds when constants take the place of any symbols (`operatorsBind_defineNames`).
-/

namespace Formula

/-! ## Defining symbols -/

namespace SymbolTable

variable {table : SymbolTable}

theorem mem_of_get? {id : String} {s : Symbol} (h : table.get? id = some s) : s ∈ table.symbols :=
  List.mem_of_find?_eq_some h

theorem mem_define {s s' : Symbol} (h : s' ∈ (table.define s).symbols) : s' = s ∨ s' ∈ table.symbols := by
  rcases List.mem_cons.mp h with h | h
  · exact Or.inl h
  · exact Or.inr (List.mem_filter.mp h).1

theorem mem_defineAll : ∀ {symbols : List Symbol} {table : SymbolTable} {s : Symbol},
    s ∈ (table.defineAll symbols).symbols → s ∈ symbols ∨ s ∈ table.symbols
  | [], _, _, h => Or.inr h
  | x :: xs, table, s, h => by
    rcases @mem_defineAll xs (table.define x) s h with h | h
    · exact Or.inl (List.mem_cons_of_mem _ h)
    · rcases mem_define h with rfl | h
      · exact Or.inl List.mem_cons_self
      · exact Or.inr h

theorem get?_defineAll_of_not_mem : ∀ {symbols : List Symbol} {table : SymbolTable} {id : String},
    id ∉ symbols.map Symbol.id → (table.defineAll symbols).get? id = table.get? id
  | [], _, _, _ => rfl
  | x :: xs, table, id, h => by
    rw [List.map_cons, List.mem_cons, not_or] at h
    rw [show table.defineAll (x :: xs) = (table.define x).defineAll xs from rfl, get?_defineAll_of_not_mem h.2]
    exact get?_define_of_ne table x h.1

/-- Of symbols with different spellings, each is found under its own. -/
theorem get?_defineAll : ∀ {symbols : List Symbol} {table : SymbolTable} {s : Symbol},
    (symbols.map Symbol.id).Nodup → s ∈ symbols → (table.defineAll symbols).get? s.id = some s
  | [], _, _, _, h => by cases h
  | x :: xs, table, s, hn, h => by
    rw [List.map_cons, List.nodup_cons] at hn
    rw [show table.defineAll (x :: xs) = (table.define x).defineAll xs from rfl]
    rcases List.mem_cons.mp h with rfl | h
    · rw [get?_defineAll_of_not_mem hn.1]
      exact get?_define table s
    · exact get?_defineAll hn.2 h

end SymbolTable

/-! ## Symbols of the default forms -/

/-- A symbol as a definition makes it when it gives no form of its own. -/
inductive Symbol.Plain : Symbol → Prop
  | constant (id : String) (value : Value) : Plain (.constant id value)
  | function (id : String) (mode : ArgumentMode) (rule : FunctionRule) : Plain (.function id mode rule)
  | leading (id : String) (rule : OperatorRule) : Plain (.leading id .operand rule)
  | binary (id : String) (power : BindingPower) (rule : OperatorRule) : Plain (.binary id power rule)
  | rightward (id : String) (power : BindingPower) (rule : OperatorRule) : Plain (.rightward id power rule)

namespace Library

/-- The spellings of brackets, separators and the end. -/
def simpleIds : List String := [":", ",", ")", "]", "\x7d", endId]

/-- The symbols of the standard table. -/
def symbols : List Symbol := structuralSymbols ++ standardSymbols

/-- The symbols of the standard table that have a form of their own. -/
def formedSymbols : List Symbol :=
  structuralSymbols ++
    [ .leading "[" .array elements,
      .leading "\x7b" (.grouping "\x7d") group,
      ⟨"-", .additive, .leftward subtract .binary (some .sign)⟩,
      ⟨"?", .ternary, .leftward choice .ternary none⟩ ]

theorem formedSymbols_power : ∀ s ∈ formedSymbols, s.kind.trailingForm? = none → s.power = .none := by
  simp [formedSymbols, structuralSymbols, Symbol.simple, Symbol.leading, SymbolKind.trailingForm?]

theorem formedSymbols_closing : ∀ s ∈ formedSymbols, ∀ closing, s.kind.leadingForm? = some (.grouping closing) →
    closing = ")" ∨ closing = "\x7d" := by
  simp [formedSymbols, structuralSymbols, Symbol.simple, Symbol.leading, SymbolKind.leadingForm?]

theorem symbols_nodup : (symbols.map Symbol.id).Nodup := by decide +kernel

theorem operatorSymbols_plain : ∀ s ∈ operatorSymbols, s.Plain ∨ s ∈ formedSymbols := by
  have binary (id : String) (power : BindingPower) (rule : OperatorRule) :
      (Symbol.binary id power rule).Plain ∨ Symbol.binary id power rule ∈ formedSymbols := Or.inl (.binary ..)
  simp only [operatorSymbols, List.forall_mem_cons]
  refine ⟨Or.inl (.leading ..), Or.inr ?_, Or.inr ?_, binary .., binary .., Or.inr ?_, binary .., binary ..,
    binary .., binary .., binary .., binary .., binary .., binary .., binary .., binary .., Or.inr ?_,
    Or.inl (.rightward ..), Or.inl (.rightward ..), by simp⟩ <;> simp [formedSymbols]

theorem mem_functionSymbols {s : Symbol} (h : s ∈ functionSymbols) :
    ∃ id mode rule, s = .function id mode rule := by
  simp only [functionSymbols, List.mem_append, List.mem_map] at h
  rcases h with ((⟨⟨id, rule⟩, -, rfl⟩ | h) | ⟨⟨id, rule⟩, -, rfl⟩) | ⟨⟨id, rule⟩, -, rfl⟩
  · exact ⟨_, _, _, rfl⟩
  · simp only [randomSymbols, List.mem_cons, List.not_mem_nil, or_false] at h
    rcases h with rfl | rfl | rfl <;> exact ⟨_, _, _, rfl⟩
  · exact ⟨_, _, _, rfl⟩
  · exact ⟨_, _, _, rfl⟩

/-- A symbol of the standard table has a default form or is one of the few others. -/
theorem symbols_plain {s : Symbol} (h : s ∈ symbols) : s.Plain ∨ s ∈ formedSymbols := by
  simp only [symbols, standardSymbols, List.mem_append] at h
  rcases h with h | (h | h) | h
  · exact Or.inr (List.mem_append_left _ h)
  · exact operatorSymbols_plain s h
  · obtain ⟨⟨id, x⟩, -, rfl⟩ := List.mem_map.mp h
    exact Or.inl (.constant ..)
  · obtain ⟨id, mode, rule, rfl⟩ := mem_functionSymbols h
    exact Or.inl (.function ..)

end Library

/-! ## Tables -/

namespace SymbolTable

/-- Tables reached from the standard one by definitions of the default forms under spellings that are not taken. -/
inductive Extended : SymbolTable → Prop
  | standard : Extended Evaluator.standard.symbols
  | define {table : SymbolTable} {s : Symbol} : Extended table → s.Plain → table.get? s.id = none →
      Extended (table.define s)

/-- Only an operator after an operand binds to its left. -/
def OperatorsBind (table : SymbolTable) : Prop :=
  ∀ ⦃id : String⦄ ⦃s : Symbol⦄, table.get? id = some s → s.kind.trailingForm? = none → s.power = .none

/-- Brackets, commas, colons, literals and the end are read as in the standard table. -/
structure Regular (table : SymbolTable) : Prop where
  simple : ∀ id ∈ Library.simpleIds, table.get? id = some (.simple id)
  literal : table.get? literalId = some ⟨literalId, .none, .literal⟩
  opening : ∃ s, table.get? "(" = some s
  operatorsBind : table.OperatorsBind
  closing : ∀ {id s closing}, table.get? id = some s → s.kind.leadingForm? = some (.grouping closing) →
    closing = ")" ∨ closing = "\x7d"

variable {table : SymbolTable} {id : String} {s : Symbol}

theorem standard_eq : Evaluator.standard.symbols = empty.defineAll Library.symbols :=
  (List.foldl_append ..).symm

theorem get?_standard (h : s ∈ Library.symbols) : Evaluator.standard.symbols.get? s.id = some s := by
  rw [standard_eq]
  exact get?_defineAll Library.symbols_nodup h

theorem mem_standard (h : s ∈ Evaluator.standard.symbols.symbols) : s ∈ Library.symbols := by
  rw [standard_eq] at h
  rcases mem_defineAll h with h | h
  · exact h
  · cases h

namespace Extended

/-- The symbols of the standard table stay. -/
theorem get?_of_mem (ht : table.Extended) (hs : s ∈ Library.symbols) : table.get? s.id = some s := by
  induction ht with
  | standard => exact get?_standard hs
  | define _ _ hf ih =>
    rw [get?_define_of_ne _ _ (fun he => by rw [he, hf] at ih; cases ih)]
    exact ih

/-- A symbol has a default form or is one of the few others of the standard table. -/
theorem plain (ht : table.Extended) (hs : s ∈ table.symbols) : s.Plain ∨ s ∈ Library.formedSymbols := by
  induction ht with
  | standard => exact Library.symbols_plain (mem_standard hs)
  | define _ hp _ ih =>
    rcases mem_define hs with rfl | h
    · exact Or.inl hp
    · exact ih h

end Extended

/-- Of the symbols that a definition of a default form makes, and of the few others, only operators after an operand
bind to their left. -/
theorem power_of_plain (h : s.Plain ∨ s ∈ Library.formedSymbols) (hf : s.kind.trailingForm? = none) :
    s.power = .none := by
  rcases h with h | h
  · cases h with
    | constant | function | leading => rfl
    | binary | rightward => cases hf
  · exact Library.formedSymbols_power s h hf

theorem closing_of_plain {closing : String} (h : s.Plain ∨ s ∈ Library.formedSymbols)
    (hf : s.kind.leadingForm? = some (.grouping closing)) : closing = ")" ∨ closing = "\x7d" := by
  rcases h with h | h
  · cases h <;> cases hf
  · exact Library.formedSymbols_closing s h closing hf

/-- A table that keeps the structural symbols is regular if its other symbols have default forms or are among the few
others of the standard table. -/
theorem Regular.of_plain (hstructural : ∀ s ∈ Library.structuralSymbols, table.get? s.id = some s)
    (hplain : ∀ s ∈ table.symbols, s.Plain ∨ s ∈ Library.formedSymbols) : table.Regular where
  simple id hid := hstructural (.simple id) (List.mem_append_left _ (List.mem_map_of_mem hid))
  literal := hstructural ⟨literalId, .none, .literal⟩ (List.mem_append_right _ (by simp))
  opening := ⟨_, hstructural (.leading "(" (.grouping ")") Library.group) (List.mem_append_right _ (by simp))⟩
  operatorsBind _ s hs hf := power_of_plain (hplain s (mem_of_get? hs)) hf
  closing hs hf := closing_of_plain (hplain _ (mem_of_get? hs)) hf

theorem Extended.regular (ht : table.Extended) : table.Regular :=
  .of_plain (fun _ hs => ht.get?_of_mem (List.mem_append_left _ hs)) fun _ hs => ht.plain hs

/-- The standard table without the functions that draw random numbers. -/
def deterministic : SymbolTable := ((Evaluator.standard.symbols.erase "rand").erase "randInt").erase "randRange"

/-- Tables reached from the standard one without the functions that draw random numbers, by definitions of some kind
under spellings that are not taken. -/
inductive Derived (allowed : Symbol → Prop) : SymbolTable → Prop
  | deterministic : Derived allowed deterministic
  | define {table : SymbolTable} {s : Symbol} : Derived allowed table → allowed s → table.get? s.id = none →
      Derived allowed (table.define s)

theorem get?_deterministic (hid : id ∉ Library.randomSymbols.map Symbol.id) :
    deterministic.get? id = Evaluator.standard.symbols.get? id := by
  simp only [Library.randomSymbols, Symbol.function, List.map_cons, List.map_nil, List.mem_cons, List.not_mem_nil,
    or_false, not_or] at hid
  rw [deterministic, get?_erase_of_ne _ hid.2.2, get?_erase_of_ne _ hid.2.1, get?_erase_of_ne _ hid.1]

theorem mem_deterministic (h : s ∈ deterministic.symbols) :
    s ∈ Library.symbols ∧ s.id ∉ Library.randomSymbols.map Symbol.id := by
  simp only [deterministic, erase, List.mem_filter, bne_iff_ne] at h
  obtain ⟨⟨⟨h, h₁⟩, h₂⟩, h₃⟩ := h
  refine ⟨mem_standard h, ?_⟩
  simp [Library.randomSymbols, Symbol.function, h₁, h₂, h₃]

namespace Derived

variable {allowed : Symbol → Prop}

/-- The symbols of the standard table stay, except for those that draw random numbers. -/
theorem get?_of_mem (ht : table.Derived allowed) (hs : s ∈ Library.symbols)
    (hid : s.id ∉ Library.randomSymbols.map Symbol.id) : table.get? s.id = some s := by
  induction ht with
  | deterministic => rw [get?_deterministic hid, get?_standard hs]
  | define _ _ hf ih =>
    rw [get?_define_of_ne _ _ (fun he => by rw [he, hf] at ih; cases ih)]
    exact ih

/-- A symbol is one that was allowed, or one of the standard table that does not draw random numbers. -/
theorem mem (ht : table.Derived allowed) (hs : s ∈ table.symbols) :
    allowed s ∨ s ∈ Library.symbols ∧ s.id ∉ Library.randomSymbols.map Symbol.id := by
  induction ht with
  | deterministic => exact .inr (mem_deterministic hs)
  | define _ ha _ ih =>
    rcases mem_define hs with rfl | h
    · exact .inl ha
    · exact ih h

theorem regular (ht : table.Derived allowed) (hallowed : ∀ s, allowed s → s.Plain) : table.Regular := by
  refine .of_plain (fun s hs => ht.get?_of_mem (List.mem_append_left _ hs) ?_) fun s hs => ?_
  · exact (show ∀ s ∈ Library.structuralSymbols, s.id ∉ Library.randomSymbols.map Symbol.id by decide) s hs
  · rcases ht.mem hs with ha | ⟨hs, -⟩
    · exact .inl (hallowed s ha)
    · exact Library.symbols_plain hs

end Derived

/-- A definition keeps that only operators bind to their left if what it defines does so. -/
theorem OperatorsBind.define (ht : table.OperatorsBind) (hs : s.kind.trailingForm? = none → s.power = .none) :
    (table.define s).OperatorsBind := by
  intro id s' h hf
  by_cases hid : id = s.id
  · rw [hid, get?_define] at h
    cases h
    exact hs hf
  · rw [get?_define_of_ne _ _ hid] at h
    exact ht h hf

end SymbolTable

/-- What holds of the symbols of an evaluator and of all constants holds where constants take the place of symbols. -/
theorem Evaluator.forall_defineNames {P : Symbol → Prop} (hP : ∀ id v, P (.constant id v)) :
    ∀ {names : List (String × Value)} {e : Evaluator}, (∀ s ∈ e.symbols.symbols, P s) →
      ∀ s ∈ (e.defineNames names).symbols.symbols, P s
  | [], _, he => he
  | (id, v) :: names, e, he => by
    refine @forall_defineNames P hP names (e.define (.constant id v)) fun s hs => ?_
    rcases SymbolTable.mem_define hs with rfl | hs
    · exact hP id v
    · exact he s hs

/-- With constants in the place of any symbols only operators bind to their left. -/
theorem Evaluator.operatorsBind_defineNames : ∀ {names : List (String × Value)} {e : Evaluator},
    e.symbols.OperatorsBind → (e.defineNames names).symbols.OperatorsBind
  | [], _, he => he
  | (id, v) :: names, e, he =>
    @operatorsBind_defineNames names (e.define (.constant id v)) (he.define fun _ => rfl)

end Formula
