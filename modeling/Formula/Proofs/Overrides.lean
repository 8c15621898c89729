import Formula.Proofs.Switches

/-!
# Sequences of overrides

What a set of operator spellings answers after any updates depends on its overrides only, and not on how they were
batched. A spelling is allowed as the last of its overrides says (`lookup_foldl_update`), and the indexes hold the ends
of all spellings that an override was ever given for, since each update takes them from all entries (`starts_updated`,
`ends_updated`). So overrides of different spellings may trade places, and batches may be split and merged
(`updated_answers`).
-/

namespace Formula

open Scanner

namespace OperatorSet

/-- The switch that a spelling gets from the last of its overrides. -/
def lastSwitch? (overrides : List (String × Bool)) (s : String) : Option Bool :=
  (overrides.filter (·.1 == s)).getLast?.map Prod.snd

/-- Each spelling has the same overrides in the same order, whatever stands between them. -/
def SameOrders (overrides overrides' : List (String × Bool)) : Prop :=
  ∀ s : String, overrides.filter (·.1 == s) = overrides'.filter (·.1 == s)

/-- The sets answer each question alike, and read each text alike. -/
structure SameAnswers (ops ops' : OperatorSet) : Prop where
  isAllowed (s : String) : ops.isAllowed s = ops'.isAllowed s
  starts (c : Char) : ops.starts c = ops'.starts c
  ends (c : Char) : ops.ends c = ops'.ends c
  tokenize (source : String) : ops.tokenize source = ops'.tokenize source

/-- The sets answer alike, and still do so after whatever updates. -/
def Indistinguishable (ops ops' : OperatorSet) : Prop :=
  ∀ batches : List (List (String × Bool)), SameAnswers (batches.foldl update ops) (batches.foldl update ops')

/-! ## Entries -/

section Entries

variable {ops ops' : OperatorSet} {s : String} {overrides : List (String × Bool)}

theorem lookup_eq_find? (s : String) : ∀ entries : List (String × Bool),
    entries.lookup s = (entries.find? (·.1 == s)).map Prod.snd
  | [] => rfl
  | (t, allowed) :: entries => by
    rw [List.lookup_cons, List.find?_cons, lookup_eq_find? s entries, Bool.beq_comm]
    cases t == s <;> rfl

/-- An update gives the spellings among its overrides the last of their switches, and leaves the others as they are. -/
theorem lookup_update (ops : OperatorSet) (overrides : List (String × Bool)) (s : String) :
    (ops.update overrides).entries.lookup s = (lastSwitch? overrides s).or (ops.entries.lookup s) := by
  rw [entries_update, List.lookup_append, lookup_eq_find? s overrides.reverse, ← List.getLast?_filter]
  rfl

theorem lastSwitch?_append (overrides more : List (String × Bool)) (s : String) :
    lastSwitch? (overrides ++ more) s = (lastSwitch? more s).or (lastSwitch? overrides s) := by
  rw [lastSwitch?, List.filter_append, List.getLast?_append, Option.map_or]
  rfl

/-- How the overrides are batched makes no difference. -/
theorem lookup_foldl_update (batches : List (List (String × Bool))) (ops : OperatorSet) (s : String) :
    (batches.foldl update ops).entries.lookup s = (lastSwitch? batches.flatten s).or (ops.entries.lookup s) := by
  induction batches generalizing ops with
  | nil => rfl
  | cons batch batches ih =>
    rw [List.foldl_cons, ih, lookup_update, List.flatten_cons, lastSwitch?_append, Option.or_assoc]

/-- An entry of a spelling is found. -/
theorem registers_iff : ops.Registers s ↔ ∃ allowed, ops.entries.lookup s = some allowed := by
  rw [← Option.isSome_iff_exists, ← not_iff_not, Option.not_isSome_iff_eq_none, List.lookup_eq_none_iff]
  constructor
  · intro h entry hentry
    exact bne_iff_ne.2 fun hs => h ⟨entry.2, hs ▸ hentry⟩
  · rintro h ⟨allowed, hentry⟩
    exact bne_iff_ne.1 (h _ hentry) rfl

/-- Of the standard set, the standard spellings are allowed and no others. -/
theorem isAllowed_standard (s : String) : standard.isAllowed s = standardSpellings.contains s := by
  rw [Bool.eq_iff_iff, List.contains_iff_mem, isAllowed]
  constructor
  · intro h
    cases hs : standard.entries.lookup s with
    | none => rw [hs] at h; cases h
    | some allowed =>
      obtain ⟨before, after, hentries, -⟩ := List.lookup_eq_some_iff.1 hs
      exact (mem_entries_standard.1 (hentries ▸ List.mem_append_right before List.mem_cons_self)).1
  · intro h
    obtain ⟨allowed, hs⟩ := registers_iff.1 ⟨true, mem_entries_standard.2 ⟨h, rfl⟩⟩
    obtain ⟨before, after, hentries, -⟩ := List.lookup_eq_some_iff.1 hs
    rw [hs]
    exact (mem_entries_standard.1 (hentries ▸ List.mem_append_right before List.mem_cons_self)).2

end Entries

/-! ## Sets with the same switches -/

/-- The sets have the same spellings with the same switches. -/
def SameSwitches (ops ops' : OperatorSet) : Prop := ∀ s, ops.entries.lookup s = ops'.entries.lookup s

namespace SameSwitches

variable {ops ops' : OperatorSet} (h : ops.SameSwitches ops')
include h

theorem isAllowed_eq : ops.isAllowed = ops'.isAllowed := by
  funext s
  rw [isAllowed, isAllowed, h s]

theorem alikeSpelled : ops'.AlikeSpelled ops := by
  intro s _
  rw [registers_iff, registers_iff, h s]

theorem readToken_eq : readToken ops = readToken ops' := by
  have hop : readOperator ops = readOperator ops' := by
    unfold readOperator mayEnd
    rw [h.isAllowed_eq, h.alikeSpelled.starts_eq, h.alikeSpelled.ends_eq]
  unfold readToken
  rw [hop, h.isAllowed_eq]

/-- The scanner asks a set for nothing else. -/
theorem tokensFrom_eq (position : Nat) (text : List Char) :
    tokensFrom ops position text = tokensFrom ops' position text := by
  fun_induction tokensFrom ops position text with
  | case1 => rw [tokensFrom]
  | case2 position c cs hgap ih => rw [tokensFrom_gap hgap, ih]
  | case3 position c cs hgap fault shown hread =>
    rw [h.readToken_eq] at hread
    rw [tokensFrom_error (by simpa using hgap) hread]
  | case4 position c cs hgap l hread tokens hrest ih =>
    rw [h.readToken_eq] at hread
    rw [tokensFrom_read (by simpa using hgap) hread, ← ih, hrest]
    rfl
  | case5 position c cs hgap l hread e hrest ih =>
    rw [h.readToken_eq] at hread
    rw [tokensFrom_read (by simpa using hgap) hread, ← ih, hrest]
    rfl

theorem sameAnswers : SameAnswers ops ops' where
  isAllowed := congrFun h.isAllowed_eq
  starts := congrFun h.alikeSpelled.starts_eq
  ends := congrFun h.alikeSpelled.ends_eq
  tokenize source := h.tokensFrom_eq 0 source.toList

theorem indistinguishable : Indistinguishable ops ops' := by
  intro batches
  have hbatches : (batches.foldl update ops).SameSwitches (batches.foldl update ops') := by
    intro s
    rw [lookup_foldl_update, lookup_foldl_update, h s]
  exact hbatches.sameAnswers

end SameSwitches

/-! ## Updates of the standard set -/

/-- After any updates of the standard set, a spelling is allowed as the last of its overrides says, or without one if
it is a standard spelling; and the indexes hold the first characters and the last ones of those registered spellings
that have several. So neither the batches of the overrides matter nor what order overrides of different spellings stand
in: the sets cannot be told apart, now or after further updates. -/
theorem updated_answers (batches : List (List (String × Bool))) :
    (∀ s, (updated batches).isAllowed s = (lastSwitch? batches.flatten s).getD (standardSpellings.contains s)) ∧
      (∀ c, (updated batches).starts c = true ↔
        ∃ s, Registered batches s ∧ 1 < s.toList.length ∧ s.toList.head? = some c) ∧
      (∀ c, (updated batches).ends c = true ↔
        ∃ s, Registered batches s ∧ 1 < s.toList.length ∧ s.toList.getLast? = some c) ∧
      ∀ batches', SameOrders batches.flatten batches'.flatten →
        Indistinguishable (updated batches) (updated batches') := by
  refine ⟨fun s => ?_, fun c => starts_updated, fun c => ends_updated, fun batches' horders => ?_⟩
  · rw [isAllowed, updated, lookup_foldl_update, ← isAllowed_standard, isAllowed]
    cases lastSwitch? batches.flatten s <;> rfl
  · refine SameSwitches.indistinguishable fun s => ?_
    rw [updated, updated, lookup_foldl_update, lookup_foldl_update, lastSwitch?, lastSwitch?, horders s]

/-- `~~` switched on and off again, with the switches of `<` at other places and in other batches. -/
theorem updated_answers_interleaved :
    let batches := [[("~~", true), ("<", false)], [("~~", false)], [("<", true)]]
    let batches' := [[("<", false), ("<", true), ("~~", true), ("~~", false)]]
    SameOrders batches.flatten batches'.flatten ∧ Indistinguishable (updated batches) (updated batches') ∧
      (updated batches').isAllowed "~~" = false ∧ (updated batches').isAllowed "<" = true ∧
      (updated batches').starts '~' = true := by
  intro batches batches'
  have horders : SameOrders batches.flatten batches'.flatten := by
    intro s
    by_cases htilde : "~~" = s
    · rw [← htilde]
      rfl
    · simp [batches, batches', List.filter_cons, htilde]
  obtain ⟨-, -, -, hsame⟩ := updated_answers batches
  obtain ⟨hallowed, hstarts, -, -⟩ := updated_answers batches'
  refine ⟨horders, hsame batches' horders, (hallowed "~~").trans rfl, (hallowed "<").trans rfl, ?_⟩
  exact (hstarts '~').2 ⟨"~~", .inr ⟨_, List.mem_singleton_self _, true, by decide⟩, by decide, by decide⟩

end OperatorSet

end Formula
