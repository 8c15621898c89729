import Formula.Proofs.Words

/-!
# Texts that are one number

The pattern that a number is taken in by is wider than the literals: a point may stand at its head and another one
behind it. Such a text has no value (`not_read_points`), so the numerals with a value are the literals
(`Numeral.read_iff`). A text without blanks is one number exactly if it is a literal with a finite value, whatever the
operators (`OperatorSet.tokenize_number_iff`).
-/

namespace Formula

open Scanner

/-! ## From a numeral to its literal -/

section Numerals

variable {spelling next marker digits cs : List Char} {x : Double}

theorem Scanner.Body.stops (h : Body spelling next) : Stops Char.isDigit next := by
  cases h with
  | plain _ hstop => exact hstop.isDigit
  | pointed _ _ hstop => exact hstop

/-- What the body leaves and no marker introduces is empty. -/
theorem Scanner.Marker.exponent (h : Marker marker digits) (hd : ∀ d ∈ digits, d.isDigit = true)
    (hne : marker ≠ [] → digits ≠ []) (hstop : Stops Char.isDigit (marker ++ digits)) :
    Exponent (marker ++ digits) := by
  cases digits with
  | nil =>
    obtain rfl : marker = [] := by simpa using hne
    exact .none
  | cons c more =>
    obtain ⟨hc, hmore⟩ := List.forall_mem_cons.1 hd
    cases h with
    | none =>
      rw [List.nil_append, stops_cons, hc] at hstop
      cases hstop
    | plain he => exact .plain he hc hmore
    | signed he hs => exact .signed he hs hc hmore

/-- Two points do not stand in one number. -/
theorem not_read_points (hd : ∀ d ∈ digits, d.isDigit = true) :
    Number.read (String.ofList ('.' :: (digits ++ '.' :: cs))) ≠ .ok x := by
  have hdigit : '.'.isDigit = false := by decide
  have hpoint : Stops Char.isDigit ('.' :: cs) := stops_cons.2 hdigit
  obtain ⟨htake, hdrop⟩ := span_iff.2 ⟨rfl, hd, hpoint⟩
  have hexponent : Number.readExponent? ('.' :: cs) = none := by simp [Number.readExponent?]
  have hmagnitude : Number.readMagnitude? ('.' :: (digits ++ '.' :: cs)) = none := by
    simp [Number.readMagnitude?, Number.readDecimal?, Number.splitFraction, hdigit, htake, hdrop, hexponent]
  simp [Number.read, Number.readSigned?, hmagnitude]

theorem Scanner.Body.mantissa (h : Body spelling next) (hx : Number.read (String.ofList (spelling ++ next)) = .ok x)
    (hstart : ∀ c, spelling.head? = some c → isNumberStart c = true) : Mantissa spelling := by
  cases h with
  | @plain c digits _ hd hstop =>
    by_cases hc : c.isDigit = true
    · exact .whole hc hd
    · obtain rfl : c = '.' := by simpa [isNumberStart, hc] using hstart c rfl
      obtain ⟨d, after, hafter, hdigit⟩ := read_point hx
      cases digits with
      | nil =>
        -- a digit behind the point is taken in with it
        subst hafter
        have : isNumberStart d = false := stops_cons.1 hstop
        grind
      | cons d' more =>
        obtain ⟨hd', hmore⟩ := List.forall_mem_cons.1 hd
        exact .fraction hd' hmore
  | @pointed c digits fraction _ hd hf =>
    by_cases hc : c.isDigit = true
    · exact .pointed hc hd hf
    · obtain rfl : c = '.' := by simpa [isNumberStart, hc] using hstart c rfl
      rw [List.cons_append, List.append_assoc] at hx
      exact absurd hx (not_read_points hd)

/-- A numeral at the end of a text has a value exactly if it is a literal. -/
theorem Scanner.Numeral.read_iff (h : Numeral cs []) :
    (∃ x, Number.read (String.ofList cs) = .ok x) ↔ Literal cs := by
  refine ⟨?_, Literal.read⟩
  rintro ⟨x, hx⟩
  cases h with
  | intro hc hbody hmarker hd hne =>
    simp only [List.append_nil] at hbody hmarker
    exact .intro (hbody.mantissa hx (by simpa using hc)) (hmarker.exponent hd hne hbody.stops)

end Numerals

/-! ## Texts -/

namespace Scanner

variable {ops : OperatorSet} {text spelling rest : List Char} {t : Token} {x : Double}

theorem Lexes.number_iff (h : t.kind = .number) : Lexes ops t spelling rest ↔
    Numeral spelling rest ∧ ∃ x, Number.read (String.ofList spelling) = .ok x ∧ x.isFinite = true ∧ t = .number x := by
  constructor
  · intro hlex
    cases hlex with
    | name | point | string | operator => cases h
    | number hn hx hfin => exact ⟨hn, _, hx, hfin, rfl⟩
  · rintro ⟨hn, x, hx, hfin, rfl⟩
    exact .number hn hx hfin

/-- A text without blanks that has one token is the spelling of it. -/
theorem scans_one_iff (hblank : ∀ c ∈ text, isGap c = false) : Scans ops text [t] ↔ Lexes ops t text [] := by
  constructor
  · intro h
    cases h with
    | gap hc =>
      rw [hblank _ List.mem_cons_self] at hc
      cases hc
    | token hlex hrest =>
      cases hrest with
      | nil => rwa [List.append_nil]
      | gap hc =>
        rw [hblank _ (List.mem_append_right _ List.mem_cons_self)] at hc
        cases hc
  · intro h
    have hscan := Scans.token h .nil
    rwa [List.append_nil] at hscan

end Scanner

/-- A text without blanks is one number exactly if it is a literal with a finite value, and that is the number. -/
theorem OperatorSet.tokenize_number_iff {ops : OperatorSet} {source : String}
    (hblank : ∀ c ∈ source.toList, ' ' < c) (t : Token) :
    ops.tokenize source = .ok [t] ∧ t.kind = .number ↔
      Literal source.toList ∧ ∃ x, Number.read source = .ok x ∧ x.isFinite = true ∧ t = .number x := by
  have hgap : ∀ c ∈ source.toList, isGap c = false := fun c hc => by simpa [isGap] using hblank c hc
  rw [tokenize, tokensFrom_ok, scans_one_iff hgap]
  constructor
  · rintro ⟨hlex, hkind⟩
    obtain ⟨hn, x, hx, hfin, rfl⟩ := (Lexes.number_iff hkind).1 hlex
    rw [String.ofList_toList] at hx
    exact ⟨hn.read_iff.1 ⟨x, by rw [String.ofList_toList, hx]⟩, x, hx, hfin, rfl⟩
  · rintro ⟨hl, x, hx, hfin, rfl⟩
    exact ⟨.number hl.numeral (by rw [String.ofList_toList, hx]) hfin, rfl⟩

/-- `.5E+2` is one number where the point is no operator. -/
theorem OperatorSet.tokenize_number_point :
    (∀ c ∈ ".5E+2".toList, ' ' < c) ∧
      (standard.update [(".", false)]).tokenize ".5E+2" = .ok [.number 50] := by
  have hblank : ∀ c ∈ ".5E+2".toList, ' ' < c := by simp
  have hmantissa : Mantissa ['.', '5'] := .fraction (by decide) (by simp)
  have hexponent : Exponent ['E', '+', '2'] := .signed (by decide) (by decide) (by decide) (by simp)
  have hread : Number.read ".5E+2" = .ok 50 := by decide +kernel
  have hfinite : (50 : Double).isFinite = true := by decide +kernel
  exact ⟨hblank, ((tokenize_number_iff hblank (.number 50)).2
    ⟨.intro hmantissa hexponent, 50, hread, hfinite, rfl⟩).1⟩

end Formula
