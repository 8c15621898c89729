import Formula.Proofs.Pieces

/-!
# The tokens of texts one behind the other

A blank ends every lexeme, so what follows it changes none of the tokens in front of it (`Lexes.append`), and scanning
carries nothing over from one token to the next but the position, which only errors show (`tokensFrom_add`). The tokens
of two texts with a blank between them are those of the first and then those of the second, and an error in the second
moves with its text (`OperatorSet.tokenize_append`).
-/

namespace Formula

/-- The same error, further on by this many bytes. -/
def ScanError.shift (offset : Nat) (e : ScanError) : ScanError :=
  { e with position := (e.position + offset) % positions }

namespace Scanner

variable {ops : OperatorSet} {w : Char} {more : List Char}

/-! ## Lexemes in front of a blank -/

section Blanks

variable {spelling rest behind : List Char} {t : Token}

theorem Stops.replace {p : Char → Bool} (h : Stops p (rest ++ behind)) (hw : p w = false) :
    Stops p (rest ++ w :: more) := by
  cases rest with
  | nil => exact stops_cons.2 hw
  | cons c rest => exact stops_cons.2 (stops_cons.1 h)

theorem Body.replace (h : Body spelling (rest ++ behind)) (hw : isGap w = true) :
    Body spelling (rest ++ w :: more) := by
  generalize hnext : rest ++ behind = next at h
  cases h with
  | plain hd hn =>
    subst hnext
    exact .plain hd (hn.replace (by grind))
  | pointed hd hf hn =>
    subst hnext
    exact .pointed hd hf (hn.replace (by grind))

theorem Marker.replace (h : Marker spelling (rest ++ behind)) (hw : isGap w = true) :
    Marker spelling (rest ++ w :: more) := by
  generalize hnext : rest ++ behind = next at h
  cases h with
  | none hn =>
    subst hnext
    exact .none (hn.replace (by grind))
  | plain he hn =>
    subst hnext
    exact .plain he (hn.replace (by grind))
  | signed he hs => exact .signed he hs

theorem Numeral.replace (h : Numeral spelling (rest ++ behind)) (hw : isGap w = true) :
    Numeral spelling (rest ++ w :: more) := by
  generalize hnext : rest ++ behind = next at h
  cases h with
  | @intro c body marker digits _ hc hb hm hd hne hs hl =>
    subst hnext
    simp only [← List.append_assoc] at hb hm
    have hb : Body _ (_ ++ w :: more) := hb.replace hw
    have hm : Marker _ (_ ++ w :: more) := hm.replace hw
    simp only [List.append_assoc] at hb hm
    exact .intro hc hb hm hd hne (hs.replace (by grind)) (hl.replace (by grind))

theorem Run.replace {c : Char} {run : List Char} (h : Run ops c run (rest ++ behind)) (hw : ops.ends w = false) :
    Run ops c run (rest ++ w :: more) := by
  unfold Run at h ⊢
  split
  · next hstarts =>
    rw [if_pos hstarts] at h
    exact ⟨h.1, h.2.replace hw⟩
  · next hstarts =>
    rw [if_neg hstarts] at h
    exact h

/-- A lexeme stays as it is when a blank that no operator takes in is put in the place of what stands behind it, or of a
later part of that. Only a point needs the name behind it. -/
theorem Lexes.replace (h : Lexes ops t spelling (rest ++ behind)) (hname : rest = [] → Stops isNameStart behind)
    (hw : isGap w = true) (hends : ops.ends w = false) : Lexes ops t spelling (rest ++ w :: more) := by
  generalize hnext : rest ++ behind = next at h
  cases h with
  | name hc hd hs =>
    subst hnext
    exact .name hc hd (hs.replace (by grind))
  | point hc hallowed =>
    cases rest with
    | nil =>
      rw [List.nil_append] at hnext
      have hstop := stops_cons.1 (hnext ▸ hname rfl)
      rw [hc] at hstop
      cases hstop
    | cons d rest =>
      cases hnext
      exact .point hc hallowed
  | number hn hx hfin =>
    subst hnext
    exact .number (hn.replace hw) hx hfin
  | string hquote hd => exact .string hquote hd
  | operator hstart hr hallowed _ =>
    subst hnext
    exact .operator hstart (hr.replace hends) hallowed (by simp)

/-- What is added behind a lexeme leaves it as it is, if it starts with a blank that no operator takes in. -/
theorem Lexes.append (h : Lexes ops t spelling rest) (hw : isGap w = true) (hends : ops.ends w = false) :
    Lexes ops t spelling (rest ++ w :: more) := by
  rw [← List.append_nil rest] at h
  exact h.replace (fun _ => stops_nil) hw hends

end Blanks

/-! ## Texts -/

section Texts

variable {text : List Char} {tokens : List Token} {position : Nat}

/-- The tokens of a text, and those of what follows it and a blank. -/
theorem tokensFrom_append (h : Scans ops text tokens) (hw : isGap w = true) (hends : ops.ends w = false) :
    tokensFrom ops position (text ++ w :: more) =
      (tokensFrom ops (position + Text.byteSize text + w.utf8Size) more).map (tokens ++ ·) := by
  induction h generalizing position with
  | nil =>
    rw [List.nil_append, tokensFrom_gap hw]
    exact (congrFun Except.map_id _).symm
  | @gap c cs tokens hc _ ih =>
    rw [List.cons_append, tokensFrom_gap hc, ih, Text.byteSize_cons, Nat.add_assoc position]
  | @token t spelling rest tokens hlex _ ih =>
    rw [List.append_assoc, tokensFrom_lexeme (hlex.append hw hends), ih, Text.byteSize_append, Nat.add_assoc position]
    cases tokensFrom ops (position + (Text.byteSize spelling + Text.byteSize rest) + w.utf8Size) more <;> rfl

/-- Only the position of an error depends on where a text starts. -/
theorem tokensFrom_add (offset : Nat) :
    tokensFrom ops (position + offset) text = (tokensFrom ops position text).mapError (.shift offset) := by
  fun_induction tokensFrom ops position text with
  | case1 => exact tokensFrom_nil ops _
  | case2 position c cs hc ih => rw [tokensFrom_gap hc, Nat.add_right_comm, ih]
  | case3 position c cs hc fault shown hl =>
    rw [tokensFrom_error (Bool.not_eq_true _ ▸ hc) hl, Except.mapError, ScanError.shift, Nat.mod_add_mod]
  | case4 position c cs hc l hl tokens hrest ih =>
    rw [tokensFrom_read (Bool.not_eq_true _ ▸ hc) hl, Nat.add_right_comm, ih, hrest]
    rfl
  | case5 position c cs hc l hl e hrest ih =>
    rw [tokensFrom_read (Bool.not_eq_true _ ▸ hc) hl, Nat.add_right_comm, ih, hrest]
    rfl

/-- An error lies within its text. -/
theorem position_lt_of_error {e : ScanError} (h : tokensFrom ops position text = .error e) :
    e.position < position + Text.byteSize text := by
  fun_induction tokensFrom ops position text with
  | case1 => cases h
  | case2 position c cs hc ih =>
    rw [Text.byteSize_cons, ← Nat.add_assoc]
    exact ih h
  | case3 position c cs hc fault shown hl =>
    cases h
    have hmod := Nat.mod_le position ScanError.positions
    have hsize := c.utf8Size_pos
    simp only [Text.byteSize_cons]
    omega
  | case4 => cases h
  | case5 position c cs hc l hl e' hrest ih =>
    cases h
    have hsplit := readToken_split hl
    rw [← hsplit, Text.byteSize_append, ← Nat.add_assoc]
    exact ih hrest

end Texts

end Scanner

open Scanner

/-- The tokens of two texts with a blank between them that no operator takes in. -/
theorem OperatorSet.tokenize_append {ops : OperatorSet} {w : Char} {first second : String} {tokens : List Token}
    (hw : w ≤ ' ') (hends : ops.ends w = false) (h : ops.tokenize first = .ok tokens)
    (hsize : (first ++ String.singleton w ++ second).utf8ByteSize < ScanError.positions) :
    ops.tokenize (first ++ String.singleton w ++ second) = match ops.tokenize second with
      | .ok more => .ok (tokens ++ more)
      | .error e => .error { e with position := e.position + (first ++ String.singleton w).utf8ByteSize } := by
  have htext : (first ++ String.singleton w ++ second).toList = first.toList ++ w :: second.toList := by
    simp [String.toList_append]
  have hoffset : (first ++ String.singleton w).utf8ByteSize = Text.byteSize first.toList + w.utf8Size := by
    rw [String.utf8ByteSize_append, String.utf8ByteSize_singleton, Text.byteSize_toList]
  simp only [tokenize] at h ⊢
  rw [htext, tokensFrom_append (tokensFrom_ok.1 h) (decide_eq_true hw) hends, Nat.add_assoc, ← hoffset,
    tokensFrom_add]
  cases hsecond : tokensFrom ops 0 second.toList with
  | ok more => rfl
  | error e =>
    have hlt := position_lt_of_error hsecond
    have hfits : e.position + (first ++ String.singleton w).utf8ByteSize < ScanError.positions := by
      rw [String.utf8ByteSize_append] at hsize
      rw [Text.byteSize_toList] at hlt
      omega
    simp only [Except.mapError, Except.map, ScanError.shift, Nat.mod_eq_of_lt hfits]

/-- The error at the head of the second text stands behind two bytes. -/
theorem tokenize_append_invalidOperator :
    OperatorSet.standard.tokenize ("a" ++ String.singleton ' ' ++ "#") =
      .error { fault := .invalidOperator, text := "#", position := 2 } := by
  have hfirst : OperatorSet.standard.tokenize "a" = .ok [.name "a"] :=
    tokensFrom_token rfl rfl (tokensFrom_nil _ _)
  have hsecond : OperatorSet.standard.tokenize "#" =
      .error { fault := .invalidOperator, text := "#", position := 0 } := tokensFrom_error rfl rfl
  rw [OperatorSet.tokenize_append (by decide) (by decide) hfirst (by decide), hsecond]
  rfl

end Formula
