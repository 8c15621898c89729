import Formula.Proofs.Pieces

/-!
# Registered spellings

`Registered batches s` says that `s` is a standard spelling or that one of the updates has an entry for it, whatever its
switch; `updated batches` is the set after these updates of the standard one. Its two views of characters are views of
the registered spellings of several characters: `starts` of their first ones and `ends` of their last ones
(`starts_updated`, `ends_updated`). The scanner knows no more of an operator than these two views, so it reads an
allowed spelling as one token exactly if each character between the first and the last ends a registered spelling
(`tokenize_allowed_iff`). Up to two characters there is none between them; from three on an allowed spelling may be one
that no text can have.
-/

namespace Formula.OperatorSet

open Scanner

/-! ## Entries -/

section Entries

variable {ops : OperatorSet} {s : String}

/-- An allowed spelling has an entry. -/
theorem mem_entries_of_isAllowed (h : ops.isAllowed s = true) : ∃ entry ∈ ops.entries, entry.1 = s := by
  by_contra hnone
  have hlookup : ops.entries.lookup s = none := by
    rw [List.lookup_eq_none_iff]
    intro entry hentry
    exact bne_iff_ne.2 fun hs => hnone ⟨entry, hentry, hs.symm⟩
  rw [isAllowed, hlookup] at h
  cases h

/-- The standard spellings are allowed at first. -/
theorem mem_entries_standard {entry : String × Bool} :
    entry ∈ standard.entries ↔ entry.1 ∈ standardSpellings ∧ entry.2 = true := by
  rw [standard, entries_update, List.mem_append, List.mem_reverse, List.mem_map]
  constructor
  · rintro (⟨s, hs, rfl⟩ | hnone)
    · exact ⟨hs, rfl⟩
    · cases hnone
  · rintro ⟨hs, hallowed⟩
    exact .inl ⟨entry.1, hs, by rw [← hallowed]⟩

end Entries

/-! ## Updates of the standard set -/

/-- The set after the updates of the standard one, in order. -/
def updated (batches : List (List (String × Bool))) : OperatorSet := batches.foldl update standard

/-- A standard spelling, or one that an update has an entry for. -/
def Registered (batches : List (List (String × Bool))) (s : String) : Prop :=
  s ∈ standardSpellings ∨ ∃ batch ∈ batches, ∃ allowed, (s, allowed) ∈ batch

section Updates

variable {batches : List (List (String × Bool))} {c : Char} {s : String}

theorem mem_entries_foldl_update {entry : String × Bool} :
    ∀ {batches : List (List (String × Bool))} {ops : OperatorSet},
      entry ∈ (batches.foldl update ops).entries ↔ (∃ batch ∈ batches, entry ∈ batch) ∨ entry ∈ ops.entries
  | [], ops => by simp
  | batch :: batches, ops => by
    rw [List.foldl_cons, mem_entries_foldl_update, entries_update, List.mem_append, List.mem_reverse]
    simp only [List.mem_cons, exists_eq_or_imp, or_assoc, or_left_comm]

/-- The entries are those of the registered spellings. -/
theorem registered_iff : Registered batches s ↔ ∃ entry ∈ (updated batches).entries, entry.1 = s := by
  unfold Registered updated
  simp only [mem_entries_foldl_update, mem_entries_standard]
  constructor
  · rintro (hs | ⟨batch, hbatch, allowed, hs⟩)
    · exact ⟨(s, true), Or.inr ⟨hs, rfl⟩, rfl⟩
    · exact ⟨(s, allowed), Or.inl ⟨batch, hbatch, hs⟩, rfl⟩
  · rintro ⟨⟨_, allowed⟩, ⟨batch, hbatch, hs⟩ | ⟨hs, -⟩, rfl⟩
    · exact Or.inr ⟨batch, hbatch, allowed, hs⟩
    · exact Or.inl hs

/-- What some registered spelling has, that of some entry has. -/
theorem exists_registered_iff {p : String → Prop} :
    (∃ s, Registered batches s ∧ p s) ↔ ∃ entry ∈ (updated batches).entries, p entry.1 := by
  simp only [registered_iff]
  constructor
  · rintro ⟨_, ⟨entry, hentry, rfl⟩, h⟩
    exact ⟨entry, hentry, h⟩
  · rintro ⟨entry, hentry, h⟩
    exact ⟨entry.1, ⟨entry, hentry, rfl⟩, h⟩

theorem starts_updated : (updated batches).starts c = true ↔
    ∃ s, Registered batches s ∧ 1 < s.toList.length ∧ s.toList.head? = some c := by
  rw [exists_registered_iff]
  exact starts_iff

theorem ends_updated : (updated batches).ends c = true ↔
    ∃ s, Registered batches s ∧ 1 < s.toList.length ∧ s.toList.getLast? = some c := by
  rw [exists_registered_iff]
  exact ends_iff

/-- An allowed spelling of several characters starts and ends one, namely itself. -/
theorem starts_ends_of_isAllowed {first second : Char} {rest : List Char}
    (h : (updated batches).isAllowed (String.ofList (first :: second :: rest)) = true) :
    (updated batches).starts first = true ∧
      (updated batches).ends ((second :: rest).getLast (List.cons_ne_nil _ _)) = true := by
  have hs := registered_iff.2 (mem_entries_of_isAllowed h)
  constructor
  · exact starts_updated.2 ⟨_, hs, by simp, by simp⟩
  · refine ends_updated.2 ⟨_, hs, by simp, ?_⟩
    rw [String.toList_ofList, List.getLast?_cons_cons]
    exact List.getLast?_eq_some_getLast _

end Updates

/-! ## Reading an allowed spelling -/

/-- A text in which no other token than an operator can start. -/
def IsOperatorText (s : String) : Prop := s ≠ "" ∧ ∀ c ∈ s.toList, isOperatorStart c = true

section Reading

variable {batches : List (List (String × Bool))} {ops : OperatorSet} {c w : Char} {more rest : List Char}

theorem standard_ends : ∀ s ∈ standardSpellings, 1 < s.toList.length →
    s.toList.getLast?.any (fun c => c.toNat ≤ 32) = false := by
  decide +kernel

/-- No blank is taken in if only operator texts are added. -/
theorem ends_blank (hb : ∀ batch ∈ batches, ∀ override ∈ batch, IsOperatorText override.1) (hw : isGap w = true) :
    (updated batches).ends w = false := by
  rw [Bool.eq_false_iff]
  intro hends
  obtain ⟨s, hs, hlong, hlast⟩ := ends_updated.1 hends
  rcases hs with hs | ⟨batch, hbatch, allowed, hs⟩
  · have hcode := standard_ends s hs hlong
    rw [hlast] at hcode
    grind
  · have hstart := (hb batch hbatch _ hs).2 w (List.mem_of_getLast? hlast)
    grind

/-- The operator in front of a blank is read where its characters are those that the scanner takes in. -/
theorem lexes_operator_iff (hc : isOperatorStart c = true)
    (hallowed : ops.isAllowed (String.ofList (c :: more)) = true) :
    Lexes ops (.operator (String.ofList (c :: more))) (c :: more) (w :: rest) ↔ Run ops c more (w :: rest) := by
  constructor
  · intro h
    generalize ht : Token.operator (String.ofList (c :: more)) = t at h
    cases h with
    | operator _ hr => exact hr
    | point => exact absurd hc (by decide)
    | name | number | string => cases ht
  · exact fun hr => .operator hc hr hallowed (by simp)

/-- What an allowed spelling takes in in front of a blank: the characters between its first and its last are left to
check. -/
theorem run_iff (hallowed : (updated batches).isAllowed (String.ofList (c :: more)) = true)
    (hw : (updated batches).ends w = false) :
    Run (updated batches) c more (w :: rest) ↔ ∀ d ∈ more.dropLast, (updated batches).ends d = true := by
  unfold Run
  cases more with
  | nil => simp [stops_cons, hw]
  | cons d more =>
    obtain ⟨hstarts, hlast⟩ := starts_ends_of_isAllowed hallowed
    rw [if_pos hstarts]
    constructor
    · exact fun h e he => h.1 e (List.dropLast_subset _ he)
    · intro h
      refine ⟨fun e he => ?_, stops_cons.2 hw⟩
      rw [← List.dropLast_concat_getLast (List.cons_ne_nil d more)] at he
      rcases List.mem_append.1 he with he | he
      · exact h e he
      · rw [List.mem_singleton.1 he]
        exact hlast

theorem scans_one : Scans ops [' ', '1'] [.number 1] := by
  have hbody : Body ['1'] ([] ++ ([] ++ [])) := .plain (by simp) stops_nil
  have hn : Numeral (['1'] ++ ([] ++ [])) [] :=
    .intro (by decide) hbody (.none stops_nil) (by simp) (by simp) stops_nil stops_nil
  exact .gap (by decide) (.token (.number hn (by decide +kernel) (by decide +kernel)) .nil)

/-- The tokens of an operator text in front of a blank and a number. -/
theorem scans_operator_iff {op : List Char} (hop : op ≠ []) (hstart : ∀ c ∈ op, isOperatorStart c = true) :
    Scans ops (op ++ [' ', '1']) [.operator (String.ofList op), .number 1] ↔
      Lexes ops (.operator (String.ofList op)) op [' ', '1'] := by
  constructor
  · intro h
    obtain ⟨c, more, rfl⟩ := List.exists_cons_of_ne_nil hop
    have hc := isOperatorStart_iff.1 (hstart c List.mem_cons_self)
    generalize htext : c :: more ++ [' ', '1'] = text at h
    generalize htokens : [Token.operator (String.ofList (c :: more)), .number 1] = tokens at h
    cases h with
    | nil => cases htext
    | gap hgap =>
      cases htext
      exact absurd hgap (by simp [hc.1])
    | @token t spelling rest tokens hlex hscan =>
      cases htokens
      -- the token tells its spelling, so what follows is the blank and the number
      have hspelling : spelling = c :: more := by
        generalize ht : Token.operator (String.ofList (c :: more)) = t at hlex
        cases hlex with
        | operator => exact (String.ofList_injective (congrArg Payload.display (congrArg Token.payload ht))).symm
        | point => simpa [Token.operator, String.ext_iff] using ht.symm
        | name | number | string => cases ht
      subst hspelling
      rwa [← List.append_cancel_left htext] at hlex
  · exact fun h => .token h scans_one

/-- An allowed spelling in front of a blank and a number is read as one operator exactly if each character between its
first and its last ends a registered spelling of several characters. -/
theorem tokenize_allowed_iff {op : String} (hb : ∀ batch ∈ batches, ∀ override ∈ batch, IsOperatorText override.1)
    (hop : IsOperatorText op) (hallowed : (updated batches).isAllowed op = true) :
    (updated batches).tokenize (op ++ " 1") = .ok [.operator op, .number 1] ↔
      ∀ c ∈ op.toList.tail.dropLast,
        ∃ s, Registered batches s ∧ 1 < s.toList.length ∧ s.toList.getLast? = some c := by
  obtain ⟨characters, rfl⟩ : ∃ characters, op = String.ofList characters := ⟨_, String.ofList_toList.symm⟩
  obtain ⟨hne, hstart⟩ := hop
  rw [String.toList_ofList] at hstart
  have hcharacters : characters ≠ [] := by
    rintro rfl
    exact hne rfl
  have hblank : (updated batches).ends ' ' = false := ends_blank hb (by decide)
  have htext : (String.ofList characters ++ " 1").toList = characters ++ [' ', '1'] := by simp
  rw [tokenize, htext, tokensFrom_ok, scans_operator_iff hcharacters hstart, String.toList_ofList]
  obtain ⟨c, more, rfl⟩ := List.exists_cons_of_ne_nil hcharacters
  rw [lexes_operator_iff (hstart c List.mem_cons_self) hallowed, run_iff hallowed hblank, List.tail_cons]
  simp only [ends_updated]

/-- The spelling `=~=` is allowed, but nothing registered ends in `~`, so only its first character is taken for an
operator. -/
theorem tokenize_allowed_unread :
    (updated [[("=~=", true)]]).isAllowed "=~=" = true ∧
      (updated [[("=~=", true)]]).tokenize ("=~=" ++ " 1") ≠ .ok [.operator "=~=", .number 1] ∧
      (updated [[("=~=", true)]]).tokenize ("=~=" ++ " 1") =
        .error { fault := .invalidOperator, text := "=", position := 0 } := by
  have hop : IsOperatorText "=~=" := ⟨by decide, List.all_eq_true.1 (by decide)⟩
  have hb : ∀ batch ∈ [[("=~=", true)]], ∀ override ∈ batch, IsOperatorText override.1 := by simpa using hop
  have hallowed : (updated [[("=~=", true)]]).isAllowed "=~=" = true := by decide
  refine ⟨hallowed, fun h => ?_, tokensFrom_error rfl rfl⟩
  have htilde := (tokenize_allowed_iff hb hop hallowed).1 h '~' (by decide)
  exact absurd (ends_updated.2 htilde) (by decide)

end Reading

end Formula.OperatorSet
