/-!
# Operator spellings

An `OperatorSet` says which spellings a text may use as operators. Later entries win; a spelling that
was switched off stays registered, so that its characters keep taking part in the reading of
operators of several characters. The characters at the two ends of those are kept in indexes, which
each update builds anew from all entries; a set whose indexes are out of date cannot be built.

Main statements: `entries_update`, `starts_iff` and `ends_iff` (what an update does to the entries, and
what the indexes say about them).
-/

namespace Formula

/-- The registered spellings with their switches, newest first, and the indexes of their ends. -/
structure OperatorSet where
  entries : List (String × Bool)
  /-- The first characters of the spellings of several characters. -/
  prefixes : List Char
  /-- The last characters of the spellings of several characters. -/
  suffixes : List Char
  mem_prefixes : ∀ c, c ∈ prefixes ↔
    ∃ entry ∈ entries, 1 < entry.1.toList.length ∧ entry.1.toList.head? = some c
  mem_suffixes : ∀ c, c ∈ suffixes ↔
    ∃ entry ∈ entries, 1 < entry.1.toList.length ∧ entry.1.toList.getLast? = some c
deriving DecidableEq, Repr

namespace OperatorSet

/-- The spellings that are allowed at first. -/
def standardSpellings : List String :=
  ["(", ")", "[", "]", "+", "-", "*", "/", "^", "%", "?", ":", ",", "<", "<=", ">", ">=",
    "==", "!=", "!", "&&", "||", "."]

/-- A character of each spelling of several characters. -/
def ofLongSpellings (character? : List Char → Option Char) (entries : List (String × Bool)) :
    List Char :=
  entries.filterMap fun (spelling, _) =>
    let characters := spelling.toList
    if 1 < characters.length then character? characters else none

theorem mem_ofLongSpellings {character? : List Char → Option Char}
    {entries : List (String × Bool)} {c : Char} : c ∈ ofLongSpellings character? entries ↔
      ∃ entry ∈ entries, 1 < entry.1.toList.length ∧ character? entry.1.toList = some c := by
  unfold ofLongSpellings
  rw [List.mem_filterMap]
  apply exists_congr
  rintro ⟨spelling, allowed⟩
  apply and_congr_right
  intro _
  dsimp only
  split
  · next hlong => simp [hlong]
  · next hshort => simp [hshort]

/-- The set with these entries, newest first. -/
def indexed (entries : List (String × Bool)) : OperatorSet where
  entries := entries
  prefixes := ofLongSpellings List.head? entries
  suffixes := ofLongSpellings List.getLast? entries
  mem_prefixes _ := mem_ofLongSpellings
  mem_suffixes _ := mem_ofLongSpellings

/-- Registers several spellings as allowed or not, in order, and builds the indexes anew. -/
def update (ops : OperatorSet) (overrides : List (String × Bool)) : OperatorSet :=
  indexed (overrides.foldl (fun entries override => override :: entries) ops.entries)

/-- The set that allows the standard spellings. -/
def standard : OperatorSet := (indexed []).update (standardSpellings.map (·, true))

/-- Whether a spelling is an allowed operator. -/
def isAllowed (ops : OperatorSet) (spelling : String) : Bool :=
  (ops.entries.lookup spelling).getD false

/-- Whether a character starts a registered spelling of several characters. -/
def starts (ops : OperatorSet) (c : Char) : Bool := ops.prefixes.contains c

/-- Whether a character ends a registered spelling of several characters. -/
def ends (ops : OperatorSet) (c : Char) : Bool := ops.suffixes.contains c

section Entries

variable {ops : OperatorSet} {c : Char}

/-- Later entries stand in front. -/
theorem entries_update (ops : OperatorSet) (overrides : List (String × Bool)) :
    (ops.update overrides).entries = overrides.reverse ++ ops.entries :=
  List.foldl_flip_cons_eq_append' ..

theorem starts_iff : ops.starts c = true ↔
    ∃ entry ∈ ops.entries, 1 < entry.1.toList.length ∧ entry.1.toList.head? = some c := by
  rw [starts, List.contains_iff_mem, ops.mem_prefixes]

theorem ends_iff : ops.ends c = true ↔
    ∃ entry ∈ ops.entries, 1 < entry.1.toList.length ∧ entry.1.toList.getLast? = some c := by
  rw [ends, List.contains_iff_mem, ops.mem_suffixes]

end Entries

end OperatorSet

end Formula
