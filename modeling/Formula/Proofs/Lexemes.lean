import Formula.Token.Scanner
import Mathlib.Data.List.TakeWhile

/-!
# The lexemes of tokens

`Lexes ops token spelling rest` says that the token is written by these characters where `rest` follows them. Its rules
are the classes of tokens: each says which characters write a token of the class, what the token is, and what cannot
follow, since it would be taken in as well. `readToken_ok` says that these are exactly the tokens that `readToken` finds,
so what holds of every token is shown by cases on the rules.
-/

namespace Formula.Scanner

/-! ## Classes of characters -/

section Classes

variable {c : Char}

/-- Whether a character starts a number. -/
def isNumberStart (c : Char) : Bool := c.isDigit || c == '.'

/-- Whether a character starts an exponent. -/
def isMarker (c : Char) : Bool := c == 'e' || c == 'E'

/-- Whether a character is the sign of an exponent. -/
def isSign (c : Char) : Bool := c == '+' || c == '-'

/-- Whether a character is a quote. -/
def isQuote (c : Char) : Bool := c == '"' || c == '\x27'

/-- Whether a character starts an operator. -/
def isOperatorStart (c : Char) : Bool := !(isGap c || isNameStart c || isNumberStart c || isQuote c)

/-! The classes by their codes. Of two of them `grind` tells whether they have a character in common. -/

theorem beq_iff_toNat (d : Char) : (c == d) = true ↔ c.toNat = d.toNat := by
  rw [beq_iff_eq, Char.toNat_inj]

@[grind =]
theorem isGap_iff : isGap c = true ↔ c.toNat ≤ 32 := by
  simp [isGap, Char.le_def, UInt32.le_iff_toNat_le]

@[grind =]
theorem isDigit_iff : c.isDigit = true ↔ 48 ≤ c.toNat ∧ c.toNat ≤ 57 := Char.isDigit_iff_toNat

@[grind =]
theorem isLower_iff : c.isLower = true ↔ 97 ≤ c.toNat ∧ c.toNat ≤ 122 := by
  have h : c.isLower = (decide ('a'.val ≤ c.val) && decide (c.val ≤ 'z'.val)) := rfl
  simp [h, UInt32.le_iff_toNat_le]

@[grind =]
theorem isNameStart_iff : isNameStart c = true ↔
    65 ≤ c.toNat ∧ c.toNat ≤ 90 ∨ c.isLower = true ∨ c.toNat = 95 := by
  have h : c.isAlpha = (decide ('A'.val ≤ c.val ∧ c.val ≤ 'Z'.val) || c.isLower) := rfl
  simp [isNameStart, h, beq_iff_toNat, UInt32.le_iff_toNat_le, or_assoc, -beq_iff_eq]

@[grind =]
theorem isNameRest_iff : isNameRest c = true ↔ isNameStart c = true ∨ c.isDigit = true := by
  simp [isNameRest, isNameStart, Char.isAlphanum, or_assoc, or_comm, or_left_comm]

@[grind =]
theorem isNumberStart_iff : isNumberStart c = true ↔ c.isDigit = true ∨ c.toNat = 46 := by
  simp [isNumberStart, beq_iff_toNat, -beq_iff_eq]

@[grind =]
theorem isMarker_iff : isMarker c = true ↔ c.toNat = 101 ∨ c.toNat = 69 := by
  simp [isMarker, beq_iff_toNat, -beq_iff_eq]

@[grind =]
theorem isSign_iff : isSign c = true ↔ c.toNat = 43 ∨ c.toNat = 45 := by
  simp [isSign, beq_iff_toNat, -beq_iff_eq]

@[grind =]
theorem isQuote_iff : isQuote c = true ↔ c.toNat = 34 ∨ c.toNat = 39 := by
  simp [isQuote, beq_iff_toNat, -beq_iff_eq]

@[grind =]
theorem isOperatorStart_iff : isOperatorStart c = true ↔
    isGap c = false ∧ isNameStart c = false ∧ isNumberStart c = false ∧ isQuote c = false := by
  simp [isOperatorStart, and_assoc]

end Classes

/-! ## Runs of characters -/

section Runs

variable {p : Char → Bool} {cs xs rest : List Char}

/-- No character of the class stands at the head. -/
def Stops (p : Char → Bool) (cs : List Char) : Prop := ∀ c, cs.head? = some c → p c = false

theorem stops_nil : Stops p [] := fun _ h => by cases h

theorem stops_cons {c : Char} : Stops p (c :: cs) ↔ p c = false := by
  constructor
  · exact fun h => h c rfl
  · rintro h d hd
    rwa [← Option.some.inj hd]

theorem Stops.isDigit (h : Stops isNumberStart cs) : Stops Char.isDigit cs := by
  intro d hd
  have := h d hd
  grind

theorem stops_dropWhile : Stops p (cs.dropWhile p) := by
  intro c hc
  have h := List.head?_dropWhile_not p cs
  rwa [hc] at h

/-- The longest run of a class at the head of a text, and what follows it. -/
theorem span_iff : cs.takeWhile p = xs ∧ cs.dropWhile p = rest ↔
    cs = xs ++ rest ∧ (∀ c ∈ xs, p c = true) ∧ Stops p rest := by
  constructor
  · rintro ⟨rfl, rfl⟩
    exact ⟨List.takeWhile_append_dropWhile.symm, fun c hc => List.mem_takeWhile_imp hc, stops_dropWhile⟩
  · rintro ⟨rfl, hx, hr⟩
    rw [List.takeWhile_append_of_pos hx, List.dropWhile_append_of_pos hx]
    cases rest with
    | nil => simp
    | cons c rest =>
      have hc : p c = false := stops_cons.1 hr
      simp [hc]

end Runs

/-! ## Numbers -/

/-- The characters of a number up to its exponent, in front of what follows them. -/
inductive Body : List Char → List Char → Prop
  | plain {c : Char} {digits next : List Char} : (∀ d ∈ digits, d.isDigit = true) → Stops isNumberStart next →
      Body (c :: digits) next
  | pointed {c : Char} {digits fraction next : List Char} : (∀ d ∈ digits, d.isDigit = true) →
      (∀ d ∈ fraction, d.isDigit = true) → Stops Char.isDigit next → Body (c :: (digits ++ '.' :: fraction)) next

/-- The marker of an exponent with its sign, in front of what follows them, or nothing. -/
inductive Marker : List Char → List Char → Prop
  | none {next : List Char} : Stops isMarker next → Marker [] next
  | plain {e : Char} {next : List Char} : isMarker e = true → Stops isSign next → Marker [e] next
  | signed {e sign : Char} {next : List Char} : isMarker e = true → isSign sign = true → Marker [e, sign] next

/-- The characters of a number, in front of what follows them. They need not write a number: a point may stand at their
head and another one behind it. -/
inductive Numeral : List Char → List Char → Prop
  | intro {c : Char} {more marker digits rest : List Char} : isNumberStart c = true →
      Body (c :: more) (marker ++ (digits ++ rest)) → Marker marker (digits ++ rest) →
      (∀ d ∈ digits, d.isDigit = true) → (marker ≠ [] → digits ≠ []) → Stops Char.isDigit rest →
      Stops Char.isLower rest → Numeral (c :: more ++ (marker ++ digits)) rest

section Numbers

variable {c : Char} {cs body marker next : List Char}

theorem splitBody_ok : splitBody c cs = (body, next) ↔ body ++ next = c :: cs ∧ Body body next := by
  constructor
  · intro h
    have hsplit := splitBody_split c cs
    rw [h] at hsplit
    refine ⟨hsplit, ?_⟩
    have hdigits : ∀ d ∈ cs.takeWhile Char.isDigit, d.isDigit = true := fun d hd => List.mem_takeWhile_imp hd
    unfold splitBody at h
    split at h
    · cases h
      exact .pointed hdigits (fun d hd => List.mem_takeWhile_imp hd) stops_dropWhile
    · next hpoint =>
      cases h
      refine .plain hdigits fun d hd => ?_
      have hdigit : d.isDigit = false := stops_dropWhile d hd
      have hne : d ≠ '.' := by
        rintro rfl
        obtain ⟨more, hmore⟩ := List.head?_eq_some_iff.1 hd
        exact hpoint more hmore
      simp [isNumberStart, hdigit, hne]
  · rintro ⟨h, hb⟩
    cases hb with
    | @plain _ digits _ hd hn =>
      obtain ⟨rfl, rfl⟩ : c = _ ∧ digits ++ next = cs := by simpa [eq_comm] using h
      obtain ⟨ht, hdrop⟩ := span_iff.2 ⟨rfl, hd, hn.isDigit⟩
      unfold splitBody
      rw [ht, hdrop]
      split
      · next more => exact absurd (stops_cons.1 hn) (by decide)
      · rfl
    | @pointed _ digits fraction _ hd hf hn =>
      obtain ⟨rfl, rfl⟩ : c = _ ∧ digits ++ '.' :: (fraction ++ next) = cs := by simpa [eq_comm] using h
      have hpoint : Stops Char.isDigit ('.' :: (fraction ++ next)) := stops_cons.2 (by decide)
      obtain ⟨ht, hdrop⟩ := span_iff.2 ⟨rfl, hd, hpoint⟩
      obtain ⟨ht', hdrop'⟩ := span_iff.2 ⟨rfl, hf, hn⟩
      simp only [splitBody, ht, hdrop, ht', hdrop']

theorem splitMarker_ok : splitMarker cs = (marker, next) ↔ marker ++ next = cs ∧ Marker marker next := by
  constructor
  · intro h
    have hsplit := splitMarker_split cs
    rw [h] at hsplit
    refine ⟨hsplit, ?_⟩
    unfold splitMarker at h
    split at h
    · cases h
      exact .none stops_nil
    · next e rest =>
      split at h
      · next he =>
        have hmarker : isMarker e = true := by simpa [isMarker] using he
        split at h
        · next sign more =>
          split at h
          · next hs =>
            cases h
            exact .signed hmarker (by simpa [isSign] using hs)
          · next hs =>
            cases h
            exact .plain hmarker (stops_cons.2 (by simpa [isSign] using hs))
        · cases h
          exact .plain hmarker stops_nil
      · next he =>
        cases h
        exact .none (stops_cons.2 (by simpa [isMarker] using he))
  · rintro ⟨rfl, hm⟩
    cases hm with
    | none hn =>
      cases next with
      | nil => rfl
      | cons e rest =>
        have he : ¬ (e = 'e' ∨ e = 'E') := by simpa [isMarker] using stops_cons.1 hn
        simp [splitMarker, he]
    | @plain e _ he hn =>
      have he : e = 'e' ∨ e = 'E' := by simpa [isMarker] using he
      cases next with
      | nil => simp [splitMarker, he]
      | cons sign rest =>
        have hs : ¬ (sign = '+' ∨ sign = '-') := by simpa [isSign] using stops_cons.1 hn
        simp [splitMarker, he, hs]
    | @signed e sign _ he hs =>
      have he : e = 'e' ∨ e = 'E' := by simpa [isMarker] using he
      have hs : sign = '+' ∨ sign = '-' := by simpa [isSign] using hs
      simp [splitMarker, he, hs]

/-- A number starts with a digit or a point. -/
theorem Numeral.start {spelling rest : List Char} (h : Numeral spelling rest) :
    ∃ c more, spelling = c :: more ∧ isNumberStart c = true := by
  cases h with
  | intro hc => exact ⟨_, _, rfl, hc⟩

theorem letterAhead_iff : letterAhead cs = false ↔ Stops Char.isLower cs := by
  cases cs with
  | nil => exact ⟨fun _ => stops_nil, fun _ => rfl⟩
  | cons c cs => rw [letterAhead, stops_cons]

/-- A number is read where its characters write one, with nothing behind them that would be taken in. -/
theorem readNumber_ok {t : Token} {spelling rest : List Char} (hc : isNumberStart c = true) :
    readNumber c cs = .ok ⟨t, spelling, rest⟩ ↔ spelling ++ rest = c :: cs ∧ Numeral spelling rest ∧
      ∃ x : Double, t = .number x ∧ Number.read (String.ofList spelling) = .ok x ∧ x.isFinite = true := by
  constructor
  · intro h
    refine ⟨readNumber_split h, ?_⟩
    obtain ⟨body, afterBody, hbody⟩ : ∃ body afterBody, splitBody c cs = (body, afterBody) := ⟨_, _, rfl⟩
    obtain ⟨marker, afterMarker, hmarker⟩ : ∃ m after, splitMarker afterBody = (m, after) := ⟨_, _, rfl⟩
    obtain ⟨digits, hdigits⟩ : ∃ digits, afterMarker.takeWhile Char.isDigit = digits := ⟨_, rfl⟩
    obtain ⟨after, hafter⟩ : ∃ after, afterMarker.dropWhile Char.isDigit = after := ⟨_, rfl⟩
    simp only [readNumber, hbody, hmarker, hdigits, hafter] at h
    obtain ⟨hsplit, hb⟩ := splitBody_ok.1 hbody
    obtain ⟨rfl, hm⟩ := splitMarker_ok.1 hmarker
    obtain ⟨rfl, hd, hs⟩ := span_iff.1 ⟨hdigits, hafter⟩
    obtain ⟨more, rfl⟩ : ∃ more, body = c :: more := by
      cases hb <;> simp_all
    split at h
    · cases h
    · next hne =>
      split at h
      · cases h
      · next hl =>
        split at h
        · next x hx =>
          split at h
          · next hfin =>
            cases h
            exact ⟨.intro hc hb hm hd (fun hm' hd' => hne ⟨hm', hd'⟩) hs
              (letterAhead_iff.1 (Bool.not_eq_true _ ▸ hl)), x, rfl, hx, hfin⟩
          · cases h
        · cases h
  · rintro ⟨hsplit, hn, x, rfl, hx, hfin⟩
    obtain ⟨hc', hb, hm, hd, hne, hs, hl⟩ := hn
    rename_i c' more marker digits
    have hbody : splitBody c cs = (c' :: more, marker ++ (digits ++ rest)) :=
      splitBody_ok.2 ⟨by simpa using hsplit, hb⟩
    have hmarker := splitMarker_ok.2 ⟨rfl, hm⟩
    obtain ⟨hdigits, hafter⟩ := span_iff.2 ⟨rfl, hd, hs⟩
    have hne : ¬ (marker ≠ [] ∧ digits = []) := fun h => hne h.1 h.2
    simp only [readNumber, hbody, hmarker, hdigits, hafter, if_neg hne, letterAhead_iff.2 hl, hx, hfin, if_true]
    rfl

end Numbers

/-! ## Strings and operators -/

theorem readString_ok {quote : Char} {cs spelling rest : List Char} {t : Token} :
    readString quote cs = .ok ⟨t, spelling, rest⟩ ↔ ∃ content, cs = content ++ quote :: rest ∧
      (∀ d ∈ content, d ≠ quote ∧ ' ' ≤ d) ∧ t = .string (String.ofList content) ∧
      spelling = quote :: (content ++ [quote]) := by
  have hcontent : ∀ d, isContent quote d = true ↔ d ≠ quote ∧ ' ' ≤ d := by simp [isContent]
  constructor
  · intro h
    simp only [readString] at h
    split at h
    · cases h
    · next c after hafter =>
      split at h
      · next hc =>
        subst hc
        cases h
        obtain ⟨hsplit, hd, -⟩ := span_iff.1 ⟨rfl, hafter⟩
        exact ⟨_, hsplit, fun d hm => (hcontent d).1 (hd d hm), rfl, rfl⟩
      · cases h
  · rintro ⟨content, rfl, hd, rfl, rfl⟩
    have hstop : Stops (isContent quote) (quote :: rest) := stops_cons.2 (by simp [isContent])
    obtain ⟨htake, hdrop⟩ := span_iff.2 ⟨rfl, fun d hm => (hcontent d).2 (hd d hm), hstop⟩
    simp only [readString, htake, hdrop, if_true]

/-- What an operator takes in behind its first character: where that starts longer spellings, all characters that end
one. -/
def Run (ops : OperatorSet) (c : Char) (more rest : List Char) : Prop :=
  if ops.starts c then (∀ d ∈ more, ops.ends d = true) ∧ Stops ops.ends rest else more = []

theorem readOperator_ok {ops : OperatorSet} {c : Char} {cs spelling rest : List Char} {t : Token} :
    readOperator ops c cs = .ok ⟨t, spelling, rest⟩ ↔ ∃ more, cs = more ++ rest ∧ Run ops c more rest ∧
      spelling = c :: more ∧ t = .operator (String.ofList spelling) ∧ ops.isAllowed (String.ofList spelling) = true ∧
      (rest = [] → ops.starts c = false ∧ (c = ')' ∨ c = ']')) := by
  -- the run is split off in the same way for every operator, so what is left depends on it alone
  have hrun : ∀ more after, (if ops.starts c then (cs.takeWhile ops.ends, cs.dropWhile ops.ends) else ([], cs)) =
      (more, after) ↔ cs = more ++ after ∧ Run ops c more after := by
    intro more after
    unfold Run
    split
    · rw [Prod.mk.injEq]
      exact span_iff
    · rw [Prod.mk.injEq]
      constructor
      · rintro ⟨rfl, rfl⟩
        exact ⟨rfl, rfl⟩
      · rintro ⟨rfl, rfl⟩
        exact ⟨rfl, rfl⟩
  have hend : ∀ after : List Char, (after.isEmpty && !mayEnd ops c) = false ↔
      (after = [] → ops.starts c = false ∧ (c = ')' ∨ c = ']')) := by
    intro after
    cases after with
    | nil => grind [mayEnd]
    | cons d after => simp
  constructor
  · intro h
    obtain ⟨⟨more, after⟩, hm⟩ : ∃ p, (if ops.starts c then (cs.takeWhile ops.ends, cs.dropWhile ops.ends)
      else ([], cs)) = p := ⟨_, rfl⟩
    simp only [readOperator, hm] at h
    obtain ⟨hsplit, hr⟩ := (hrun more after).1 hm
    split at h
    · cases h
    · next hallowed =>
      split at h
      · cases h
      · next hlast =>
        cases h
        exact ⟨more, hsplit, hr, rfl, rfl, by simpa using hallowed, (hend rest).1 (by simpa using hlast)⟩
  · rintro ⟨more, hsplit, hr, rfl, rfl, hallowed, hlast⟩
    simp only [readOperator, (hrun more rest).2 ⟨hsplit, hr⟩, hallowed, (hend rest).2 hlast]
    rfl

/-! ## Tokens -/

/-- The characters that write a token, in front of what follows them. -/
inductive Lexes (ops : OperatorSet) : Token → List Char → List Char → Prop
  | name {c : Char} {more rest : List Char} : isNameStart c = true → (∀ d ∈ more, isNameRest d = true) →
      Stops isNameRest rest → Lexes ops (.name (String.ofList (c :: more))) (c :: more) rest
  | point {c : Char} {more : List Char} : isNameStart c = true → ops.isAllowed "." = true →
      Lexes ops (.operator ".") ['.'] (c :: more)
  | number {spelling rest : List Char} {x : Double} : Numeral spelling rest →
      Number.read (String.ofList spelling) = .ok x → x.isFinite = true → Lexes ops (.number x) spelling rest
  | string {quote : Char} {content rest : List Char} : isQuote quote = true →
      (∀ d ∈ content, d ≠ quote ∧ ' ' ≤ d) →
      Lexes ops (.string (String.ofList content)) (quote :: (content ++ [quote])) rest
  | operator {c : Char} {more rest : List Char} : isOperatorStart c = true → Run ops c more rest →
      ops.isAllowed (String.ofList (c :: more)) = true →
      (rest = [] → ops.starts c = false ∧ (c = ')' ∨ c = ']')) →
      Lexes ops (.operator (String.ofList (c :: more))) (c :: more) rest

section Tokens

variable {ops : OperatorSet} {c : Char} {cs spelling rest : List Char} {t : Token}

/-- A number that starts with a point has a digit next. -/
theorem read_point {more : List Char} {x : Double} (h : Number.read (String.ofList ('.' :: more)) = .ok x) :
    ∃ d digits, more = d :: digits ∧ d.isDigit = true := by
  cases more with
  | nil => cases h
  | cons d digits =>
    refine ⟨d, digits, rfl, ?_⟩
    by_contra hd
    have hmagnitude : Number.readMagnitude? ('.' :: d :: digits) = none := by
      simp [Number.readMagnitude?, Number.readDecimal?, Number.splitFraction, hd]
    simp [Number.read, Number.readSigned?, hmagnitude] at h

/-- So no name follows a point that a number starts with. -/
theorem nameAhead_of_number {x : Double} (hn : Numeral ('.' :: spelling) rest)
    (hx : Number.read (String.ofList ('.' :: spelling)) = .ok x) : nameAhead (spelling ++ rest) = false := by
  obtain ⟨d, digits, rfl, hd⟩ := read_point hx
  have hname : isNameStart d = false := by grind
  simp [nameAhead, hname]

/-! The first character tells the classes apart, and for a point the next one. -/

theorem readToken_name (h : isNameStart c = true) : readToken ops c cs = .ok (readName c cs) := by
  rw [readToken, if_pos h]

theorem readToken_point (hahead : nameAhead cs = true) (hallowed : ops.isAllowed "." = true) :
    readToken ops '.' cs = .ok ⟨.operator ".", ['.'], cs⟩ := by
  have hname : isNameStart '.' = false := by decide
  simp [readToken, hname, hahead, hallowed]

theorem readToken_number (h : isNumberStart c = true)
    (hpoint : c = '.' → nameAhead cs = true → ops.isAllowed "." = false) : readToken ops c cs = readNumber c cs := by
  have hname : ¬ isNameStart c = true := by grind
  have hpoint : ¬ (c == '.' && nameAhead cs && ops.isAllowed ".") = true := by
    simp only [Bool.and_eq_true, beq_iff_eq]
    rintro ⟨⟨hc, hahead⟩, hallowed⟩
    rw [hpoint hc hahead] at hallowed
    cases hallowed
  rw [readToken, if_neg hname, if_neg hpoint]
  exact if_pos h

theorem readToken_string (h : isQuote c = true) : readToken ops c cs = readString c cs := by
  have hname : ¬ isNameStart c = true := by grind
  have hnumber : ¬ isNumberStart c = true := by grind
  have hpoint : (c == '.') = false := by
    simp only [isNumberStart, Bool.or_eq_true, not_or] at hnumber
    exact Bool.eq_false_iff.2 hnumber.2
  rw [readToken, if_neg hname, if_neg (by simp [hpoint])]
  exact (if_neg hnumber).trans (if_pos h)

theorem readToken_operator (h : isOperatorStart c = true) : readToken ops c cs = readOperator ops c cs := by
  obtain ⟨-, hname, hnumber, hquote⟩ := isOperatorStart_iff.1 h
  have hpoint : (c == '.') = false := by
    simp only [isNumberStart, Bool.or_eq_false_iff] at hnumber
    exact hnumber.2
  rw [readToken, if_neg (by simp [hname]), if_neg (by simp [hpoint])]
  exact (if_neg (Bool.eq_false_iff.1 hnumber)).trans (if_neg (Bool.eq_false_iff.1 hquote))

/-- A token is read where its characters write one, with nothing behind them that would be taken in. -/
theorem readToken_ok (hc : isGap c = false) :
    readToken ops c cs = .ok ⟨t, spelling, rest⟩ ↔ spelling ++ rest = c :: cs ∧ Lexes ops t spelling rest := by
  constructor
  · intro h
    refine ⟨readToken_split h, ?_⟩
    by_cases hname : isNameStart c = true
    · rw [readToken_name hname] at h
      cases h
      exact .name hname (fun d hd => List.mem_takeWhile_imp hd) stops_dropWhile
    · by_cases hnumber : isNumberStart c = true
      · by_cases hpoint : c = '.' ∧ nameAhead cs = true ∧ ops.isAllowed "." = true
        · obtain ⟨rfl, hahead, hallowed⟩ := hpoint
          rw [readToken_point hahead hallowed] at h
          cases h
          cases cs with
          | nil => cases hahead
          | cons d more => exact .point hahead hallowed
        · rw [readToken_number hnumber (by simpa using hpoint)] at h
          obtain ⟨-, hn, x, rfl, hx, hfin⟩ := (readNumber_ok hnumber).1 h
          exact .number hn hx hfin
      · by_cases hquote : isQuote c = true
        · rw [readToken_string hquote] at h
          obtain ⟨content, -, hd, rfl, rfl⟩ := readString_ok.1 h
          exact .string hquote hd
        · have hstart : isOperatorStart c = true := by
            simp [isOperatorStart, hc, hname, hnumber, hquote]
          rw [readToken_operator hstart] at h
          obtain ⟨more, -, hr, rfl, rfl, hallowed, hlast⟩ := readOperator_ok.1 h
          exact .operator hstart hr hallowed hlast
  · rintro ⟨hsplit, h⟩
    cases h with
    | @name c' more _ hname hd hs =>
      obtain ⟨rfl, rfl⟩ : c' = c ∧ more ++ rest = cs := by simpa using hsplit
      obtain ⟨htake, hdrop⟩ := span_iff.2 ⟨rfl, hd, hs⟩
      rw [readToken_name hname]
      simp only [readName, htake, hdrop]
    | @point d more hname hallowed =>
      obtain ⟨rfl, rfl⟩ : '.' = c ∧ d :: more = cs := by simpa using hsplit
      exact readToken_point hname hallowed
    | @number _ _ x hn hx hfin =>
      obtain ⟨c', more, rfl, hnumber⟩ := hn.start
      obtain ⟨rfl, rfl⟩ : c' = c ∧ more ++ rest = cs := by simpa using hsplit
      have hpoint : c' = '.' → nameAhead (more ++ rest) = false := by
        rintro rfl
        exact nameAhead_of_number hn hx
      rw [readToken_number hnumber fun hc hahead => absurd (hpoint hc) (by simp [hahead])]
      exact (readNumber_ok hnumber).2 ⟨rfl, hn, x, rfl, hx, hfin⟩
    | @string quote content _ hquote hd =>
      obtain ⟨rfl, rfl⟩ : quote = c ∧ content ++ quote :: rest = cs := by simpa using hsplit
      rw [readToken_string hquote]
      exact readString_ok.2 ⟨content, rfl, hd, rfl, rfl⟩
    | @operator c' more _ hstart hr hallowed hlast =>
      obtain ⟨rfl, rfl⟩ : c' = c ∧ more ++ rest = cs := by simpa using hsplit
      rw [readToken_operator hstart]
      exact readOperator_ok.2 ⟨more, rfl, hr, rfl, rfl, hallowed, hlast⟩

end Tokens

end Formula.Scanner
