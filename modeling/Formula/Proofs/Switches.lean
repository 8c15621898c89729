import Formula.Proofs.Registered
import Formula.Proofs.Scanning

/-!
# Switched operators

Two sets of operator spellings may differ in what they allow, and in their spellings of one character altogether. As
long as they register the same spellings of several characters, an operator takes in the same characters under both
(`AlikeSpelled.starts_eq`, `AlikeSpelled.ends_eq`), and all that a lexeme needs of a set besides is that its operator is
allowed (`Lexes.switch`). The point is no exception: in front of a name no number starts with it, so where it is not
allowed nothing else is read in its place. So the tokens of a text are the same under the other set exactly if that
allows the operators among them (`OperatorSet.tokenize_switched_iff`).
-/

namespace Formula

open Scanner

namespace OperatorSet

/-- The set has an entry for the spelling, whatever its switch. -/
def Registers (ops : OperatorSet) (s : String) : Prop := ∃ allowed, (s, allowed) ∈ ops.entries

/-- The two sets register the same spellings of several characters. -/
def AlikeSpelled (ops ops' : OperatorSet) : Prop :=
  ∀ s : String, 1 < s.toList.length → (ops.Registers s ↔ ops'.Registers s)

namespace AlikeSpelled

variable {ops ops' : OperatorSet} (h : ops.AlikeSpelled ops')
include h

/-- What some long spelling of one set has, one of the other has. -/
theorem exists_entry_iff {p : String → Prop} :
    (∃ entry ∈ ops.entries, 1 < entry.1.toList.length ∧ p entry.1) ↔
      ∃ entry ∈ ops'.entries, 1 < entry.1.toList.length ∧ p entry.1 := by
  constructor
  · rintro ⟨⟨s, allowed⟩, hentry, hlong, hp⟩
    obtain ⟨allowed', hentry'⟩ := (h s hlong).1 ⟨allowed, hentry⟩
    exact ⟨(s, allowed'), hentry', hlong, hp⟩
  · rintro ⟨⟨s, allowed⟩, hentry, hlong, hp⟩
    obtain ⟨allowed', hentry'⟩ := (h s hlong).2 ⟨allowed, hentry⟩
    exact ⟨(s, allowed'), hentry', hlong, hp⟩

theorem starts_eq : ops'.starts = ops.starts := by
  funext c
  rw [Bool.eq_iff_iff, starts_iff, starts_iff]
  exact (h.exists_entry_iff (p := fun s => s.toList.head? = some c)).symm

theorem ends_eq : ops'.ends = ops.ends := by
  funext c
  rw [Bool.eq_iff_iff, ends_iff, ends_iff]
  exact (h.exists_entry_iff (p := fun s => s.toList.getLast? = some c)).symm

end AlikeSpelled

end OperatorSet

namespace Scanner

variable {ops ops' : OperatorSet} (h : ops.AlikeSpelled ops')
include h

/-- A lexeme is one under the other set as well, if that allows its operator. -/
theorem Lexes.switch {t : Token} {spelling rest : List Char} (hlex : Lexes ops t spelling rest)
    (hallowed : ∀ s, t = .operator s → ops'.isAllowed s = true) : Lexes ops' t spelling rest := by
  cases hlex with
  | name hname hd hs => exact .name hname hd hs
  | point hname => exact .point hname (hallowed "." rfl)
  | number hn hx hfin => exact .number hn hx hfin
  | string hquote hd => exact .string hquote hd
  | operator hstart hrun _ hlast =>
    refine .operator hstart ?_ (hallowed _ rfl) ?_
    · rwa [Run, h.starts_eq, h.ends_eq]
    · rwa [h.starts_eq]

theorem Scans.switch {text : List Char} {tokens : List Token} (hscan : Scans ops text tokens)
    (hallowed : ∀ s, .operator s ∈ tokens → ops'.isAllowed s = true) : Scans ops' text tokens := by
  induction hscan with
  | nil => exact .nil
  | gap hc _ ih => exact .gap hc (ih hallowed)
  | token hlex _ ih =>
    refine .token (hlex.switch h fun s hs => hallowed s ?_) (ih fun s hs => hallowed s (List.mem_cons_of_mem _ hs))
    rw [hs]
    exact List.mem_cons_self

end Scanner

/-- The tokens of a text are the same under another set that registers the same spellings of several characters, exactly
if that set allows the operators among them. -/
theorem OperatorSet.tokenize_switched_iff {ops ops' : OperatorSet} (hspellings : ops.AlikeSpelled ops')
    {source : String} {tokens : List Token} (h : ops.tokenize source = .ok tokens) :
    ops'.tokenize source = .ok tokens ↔ ∀ s, .operator s ∈ tokens → ops'.isAllowed s = true := by
  constructor
  · exact fun h' s hs => tokenize_allowed h' hs
  · exact fun hallowed => tokensFrom_ok.2 ((tokensFrom_ok.1 h).switch hspellings hallowed)

/-- `.5<=a` with the point and `==` off, and `~` on. -/
theorem OperatorSet.tokenize_switched_point :
    standard.AlikeSpelled (standard.update [(".", false), ("==", false), ("~", true)]) ∧
      standard.tokenize ".5<=a" = .ok [.number 0.5, .operator "<=", .name "a"] ∧
      (standard.update [(".", false), ("==", false), ("~", true)]).tokenize ".5<=a" =
        .ok [.number 0.5, .operator "<=", .name "a"] := by
  have hspellings : standard.AlikeSpelled (standard.update [(".", false), ("==", false), ("~", true)]) := by
    intro s hs
    have hpoint : s ≠ "." := by rintro rfl; exact absurd hs (by decide)
    have htilde : s ≠ "~" := by rintro rfl; exact absurd hs (by decide)
    have hequal : (s, true) ∈ standard.entries ∨ s ≠ "==" := by
      by_cases h : s = "=="
      · exact .inl (by rw [h]; decide)
      · exact .inr h
    simp only [Registers, entries_update, List.mem_append, List.mem_reverse, List.mem_cons, Prod.mk.injEq]
    grind
  have htokens : standard.tokenize ".5<=a" = .ok [.number 0.5, .operator "<=", .name "a"] :=
    tokensFrom_token rfl rfl (tokensFrom_token rfl rfl (tokensFrom_token rfl rfl (tokensFrom_nil _ _)))
  refine ⟨hspellings, htokens, (tokenize_switched_iff hspellings htokens).2 fun s hs => ?_⟩
  obtain rfl : s = "<=" := by simpa [Token.operator, Token.number, Token.name] using hs
  decide

end Formula
