import Formula.Json.Reader
import Formula.Json.Writer
import Formula.Proofs.Numerals
import Mathlib.Data.List.Forall2

/-!
# Documents that are written and read

The library for JSON of this project does what such a library is documented to do (`Json.Codec.compact_documented`).
The text that it writes spells the document, by recursion over the document. A text is read as the document that it
spells: a string whichever escapes stand for its characters (`Json.EscapesAll.readPieces`), and a part up to the comma
or bracket behind it, with two steps of the reader for each character (`Json.Tree.Spells.reads`).
-/

namespace Formula.Json

/-! ## Strings -/

/-- What stands for a character is read as parts of a string that denote the character, whatever stands behind them. -/
def ReadsEscape (c : Char) (es : List Char) : Prop :=
  ∀ rest pieces more, readPieces rest = some (pieces, more) →
    ∃ pieces', readPieces (es ++ rest) = some (pieces', more) ∧ joinPieces pieces' = (joinPieces pieces).map (c :: ·)

/-- A character is no half of a pair. -/
theorem toNat_not_surrogate (c : Char) : c.toNat < 0xD800 ∨ 0xE000 ≤ c.toNat := by
  have hvalid : c.toNat < 0xD800 ∨ 0xDFFF < c.toNat ∧ c.toNat < 0x110000 := c.valid
  omega

theorem joinPieces_unit (c : Char) (pieces : List Piece) :
    joinPieces (.unit c.toNat :: pieces) = (joinPieces pieces).map (c :: ·) := by
  have hc : Char.ofNat c.toNat = c := Char.ofNat_toNat c
  have hsurrogate := toNat_not_surrogate c
  have hhigh : ¬ (0xD800 ≤ c.toNat ∧ c.toNat < 0xDC00) := by omega
  have hlow : ¬ (0xDC00 ≤ c.toNat ∧ c.toNat < 0xE000) := by omega
  have hnone : ¬ (0xD800 ≤ c.toNat ∧ c.toNat < 0xE000) := by omega
  rcases pieces with - | ⟨d | n, pieces⟩
  · simp [joinPieces, hnone, hc]
  · simp [joinPieces, hnone, hc]
  · rw [joinPieces, if_neg hhigh, if_neg hlow, hc]

theorem joinPieces_pair {c : Char} {high low : Nat} (hhigh : high < 0x400) (hlow : low < 0x400)
    (hc : c.toNat = 0x10000 + high * 0x400 + low) (pieces : List Piece) :
    joinPieces (.unit (0xD800 + high) :: .unit (0xDC00 + low) :: pieces) = (joinPieces pieces).map (c :: ·) := by
  have hcode : 0x10000 + (0xD800 + high - 0xD800) * 0x400 + (0xDC00 + low - 0xDC00) = c.toNat := by omega
  rw [joinPieces, if_pos (by omega), if_pos (by omega)]
  simp only [hcode, Char.ofNat_toNat]

theorem Escapes.reads {c : Char} {es : List Char} (h : Escapes c es) : ReadsEscape c es := by
  intro rest pieces more hrest
  cases h with
  | plain hspace hquote hbackslash =>
    refine ⟨.char c :: pieces, ?_, by rw [joinPieces]⟩
    rw [List.singleton_append, readPieces, if_pos ⟨hspace, hbackslash⟩, hrest]
    · rfl
    · exact hquote
    · exact fun _ _ _ _ _ hb => absurd hb hbackslash
    · exact fun _ _ hb => absurd hb hbackslash
  | @short e he =>
    refine ⟨.char c :: pieces, ?_, by rw [joinPieces]⟩
    rw [List.cons_append, List.singleton_append, readPieces, he, hrest]
    · rfl
    · rintro _ _ _ _ _ rfl
      cases he
  | @unit x y z w hunit =>
    refine ⟨.unit c.toNat :: pieces, ?_, joinPieces_unit c pieces⟩
    simp only [List.cons_append, List.nil_append]
    rw [readPieces, hunit, hrest]
    rfl
  | @pair x y z w x' y' z' w' high low hhigh hlow hh hl hc =>
    refine ⟨.unit (0xD800 + high) :: .unit (0xDC00 + low) :: pieces, ?_, joinPieces_pair hh hl hc pieces⟩
    simp only [List.cons_append, List.nil_append]
    rw [readPieces, hhigh, readPieces, hlow, hrest]
    rfl

/-- The characters between quotes are read, whichever escapes stand for them. -/
theorem EscapesAll.readPieces {cs es : List Char} (h : EscapesAll cs es) (rest : List Char) :
    ∃ pieces, readPieces (es ++ '"' :: rest) = some (pieces, rest) ∧ joinPieces pieces = some cs := by
  induction h with
  | nil => exact ⟨[], by rw [List.nil_append, Json.readPieces], rfl⟩
  | cons hc _ ih =>
    obtain ⟨pieces, hread, hjoin⟩ := ih
    obtain ⟨pieces', hread', hjoin'⟩ := hc.reads _ _ _ hread
    exact ⟨pieces', by rw [List.append_assoc, hread'], by rw [hjoin', hjoin]; rfl⟩

/-- A string is read from each of its texts. -/
theorem Quotes.read {s : String} {text : List Char} (h : Quotes s text) :
    ∃ more, text = '"' :: more ∧ ∀ rest, readString? (more ++ rest) = some (some s, rest) := by
  obtain ⟨hes⟩ := h
  refine ⟨_, rfl, fun rest => ?_⟩
  obtain ⟨pieces, hread, hjoin⟩ := hes.readPieces rest
  rw [List.append_assoc, List.singleton_append]
  simp only [readString?, hread, hjoin, Option.map_some, String.ofList_toList]

/-- The four digits of a control give its code. -/
theorem codeUnit?_hexDigits {n : Nat} (h : n < 32) :
    ∃ a b c d, hexDigits n = [a, b, c, d] ∧ codeUnit? a b c d = some n := by
  have hall : ∀ n < 32, hexDigits n = ['0', '0', Nat.digitChar (n / 16), Nat.digitChar (n % 16)] ∧
      codeUnit? '0' '0' (Nat.digitChar (n / 16)) (Nat.digitChar (n % 16)) = some n := by decide
  exact ⟨_, _, _, _, hall n h⟩

/-- What is written for a character stands for it. -/
theorem escapes_escape (c : Char) : Escapes c (escape c) := by
  unfold escape
  split
  · next h => exact .short (by rw [h]; rfl)
  split
  · next h => exact .short (by rw [h]; rfl)
  split
  · next h => exact .short (by rw [h]; rfl)
  split
  · next h => exact .short (by rw [h]; rfl)
  split
  · next h => exact .short (by rw [h]; rfl)
  split
  · next h => exact .short (by rw [h]; rfl)
  split
  · next h => exact .short (by rw [h]; rfl)
  split
  · next h =>
    obtain ⟨x, y, z, w, hdigits, hunit⟩ := codeUnit?_hexDigits (show c.toNat < 32 from h)
    rw [hdigits]
    exact .unit hunit
  · next hquote hbackslash _ _ _ _ _ hcontrol => exact .plain (Char.not_lt.1 hcontrol) hquote hbackslash

theorem quotes_writeString (s : String) : Quotes s (writeString s).toList := by
  have hall : ∀ cs, EscapesAll cs (cs.flatMap escape) := by
    intro cs
    induction cs with
    | nil => exact .nil
    | cons c cs ih => exact .cons (escapes_escape c) ih
  rw [writeString, String.toList_ofList]
  exact .intro (hall s.toList)

/-! ## Writing documents -/

theorem toList_intercalate_comma : ∀ texts : List String,
    (",".intercalate texts).toList = commas (texts.map String.toList)
  | [] => rfl
  | [text] => by simp [commas]
  | text :: next :: rest => by
    rw [String.intercalate_cons_cons, String.toList_append, String.toList_append,
      toList_intercalate_comma (next :: rest), List.append_assoc]
    rfl

namespace Tree

open Codec (compact)

mutual

/-- What is written for a document spells it. -/
theorem spells_write : ∀ {t : Tree Double}, t.Complete → (t.replace compact.written).Spells t.write.toList
  | .null, _ => rfl
  | .bool b, _ => by cases b <;> rfl
  | .number x, _ => by
    rw [replace, Codec.written, write]
    split
    · next h => exact ⟨Number.wire.write_spelled h, rfl⟩
    · rfl
  | .string (some s), _ => ⟨s, rfl, quotes_writeString s⟩
  | .string none, h => by cases h
  | .array items, h => by
    refine ⟨_, spellsAll_write h, ?_⟩
    rw [write, String.toList_append, String.toList_append, toList_intercalate_comma]
    rfl
  | .object fields, h => by
    refine ⟨_, spellsFields_write h, ?_⟩
    rw [write, String.toList_append, String.toList_append, toList_intercalate_comma]
    rfl

theorem spellsAll_write : ∀ {items : List (Tree Double)}, CompleteAll items →
    SpellsAll (replaceAll compact.written items) ((writeAll items).map String.toList)
  | [], _ => rfl
  | _ :: _, ⟨ht, hitems⟩ => ⟨_, _, rfl, spells_write ht, spellsAll_write hitems⟩

theorem spellsFields_write : ∀ {fields : List (Option String × Tree Double)}, CompleteFields fields →
    SpellsFields (replaceFields compact.written fields) ((writeFields fields).map String.toList)
  | [], _ => rfl
  | (some s, t) :: fields, ⟨_, ht, hfields⟩ => by
    refine ⟨s, _, _, _, ?_, rfl, quotes_writeString s, spells_write ht, spellsFields_write hfields⟩
    simp only [writeFields, List.map_cons, String.toList_append, Option.getD_some, List.append_assoc]
    rfl
  | (none, _) :: _, ⟨h, _⟩ => by cases h

end

/-! ## Reading documents -/

/-- With two steps for each of its characters, the text is read as the document, up to what stands behind it. -/
def Reads (t : Tree (List Char)) (text : List Char) : Prop :=
  ∀ ⦃fuel : Nat⦄ ⦃rest : List Char⦄, 2 * text.length < fuel → Behind rest →
    readTree fuel (text ++ rest) = some (t.replace compact.reading, rest)

/-- The same for a key with its document. -/
def ReadsField (field : Option String × Tree (List Char)) (text : List Char) : Prop :=
  ∀ ⦃fuel : Nat⦄ ⦃rest : List Char⦄, 2 * text.length < fuel → Behind rest →
    readField fuel (text ++ rest) = some ((field.1, field.2.replace compact.reading), rest)

/-- A number starts with no character that anything else starts with, or ends with. -/
theorem number_first {c : Char} (h : c = '-' ∨ c.isDigit = true) :
    isSpace c = false ∧ c ∉ ['n', 't', 'f', '"', '[', '\x7b', ']'] := by
  rcases h with rfl | h
  · decide
  · have hne {d : Char} (hd : d.isDigit = false) : c ≠ d := by
      rintro rfl
      rw [h] at hd
      cases hd
    simp [isSpace, hne]

/-- The text of a document starts with a character that is neither white space nor a closing bracket. -/
theorem Spells.first : ∀ {t : Tree (List Char)} {text : List Char}, t.Spells text →
    ∃ c more, text = c :: more ∧ isSpace c = false ∧ c ≠ ']'
  | .null, _, rfl => ⟨'n', ['u', 'l', 'l'], rfl, rfl, by decide⟩
  | .bool true, _, rfl => ⟨'t', ['r', 'u', 'e'], rfl, rfl, by decide⟩
  | .bool false, _, rfl => ⟨'f', ['a', 'l', 's', 'e'], rfl, rfl, by decide⟩
  | .number digits, _, ⟨h, rfl⟩ => by
    obtain ⟨c, more, rfl, hfirst⟩ := h.first
    obtain ⟨hspace, hne⟩ := number_first hfirst
    exact ⟨c, more, rfl, hspace, fun h => hne (by simp [h])⟩
  | .string _, _, ⟨s, _, h⟩ => by
    obtain ⟨more, rfl, -⟩ := h.read
    exact ⟨'"', more, rfl, rfl, by decide⟩
  | .array _, _, ⟨_, _, rfl⟩ => ⟨'[', _, rfl, rfl, by decide⟩
  | .object _, _, ⟨_, _, rfl⟩ => ⟨'\x7b', _, rfl, rfl, by decide⟩

theorem reads_null : Reads .null ['n', 'u', 'l', 'l'] := by
  intro fuel rest hfuel _
  obtain ⟨fuel, rfl⟩ := Nat.exists_eq_add_one_of_ne_zero (Nat.ne_zero_of_lt hfuel)
  rw [List.cons_append, readTree, skipSpace_cons rfl]
  simp [afterWord?, replace]

theorem reads_bool (b : Bool) : Reads (.bool b) (if b then ['t', 'r', 'u', 'e'] else ['f', 'a', 'l', 's', 'e']) := by
  intro fuel rest hfuel _
  obtain ⟨fuel, rfl⟩ := Nat.exists_eq_add_one_of_ne_zero (Nat.ne_zero_of_lt hfuel)
  cases b with
  | true =>
    rw [if_pos rfl, List.cons_append, readTree, skipSpace_cons rfl]
    simp [afterWord?, replace]
  | false =>
    rw [if_neg (by decide), List.cons_append, readTree, skipSpace_cons rfl]
    simp [afterWord?, replace]

theorem reads_number {digits : List Char} (h : Numeral.Spelled digits) : Reads (.number digits) digits := by
  intro fuel rest hfuel hrest
  obtain ⟨n, hread⟩ := h.read
  have halone : Numeral.read? digits = some (n, []) := by simpa using hread [] behind_nil
  have hvalue : compact.value? digits = n.value?.map .ofFloat := by
    show (Numeral.read? digits).bind _ = _
    rw [halone, Option.bind_some]
  obtain ⟨c, more, hc, hfirst⟩ := h.first
  obtain ⟨hspace, hne⟩ := number_first hfirst
  simp only [List.mem_cons, List.not_mem_nil, or_false, not_or] at hne
  obtain ⟨hn', ht', hf', hs', ha', ho', -⟩ := hne
  obtain ⟨fuel, rfl⟩ := Nat.exists_eq_add_one_of_ne_zero (Nat.ne_zero_of_lt hfuel)
  have hread := hread rest hrest
  rw [replace, Codec.reading, hvalue]
  rw [hc, List.cons_append] at hread ⊢
  rw [readTree, skipSpace_cons hspace]
  split <;> simp_all

theorem reads_string {s : String} {text : List Char} (h : Quotes s text) : Reads (.string (some s)) text := by
  intro fuel rest hfuel _
  obtain ⟨more, rfl, hread⟩ := h.read
  obtain ⟨fuel, rfl⟩ := Nat.exists_eq_add_one_of_ne_zero (Nat.ne_zero_of_lt hfuel)
  rw [List.cons_append, readTree, skipSpace_cons rfl]
  simp only [hread, Option.map_some, replace]

section Brackets

variable {fuel : Nat} {c : Char} {rest : List Char}

theorem readTree_array (hc : isSpace c = false) (hne : c ≠ ']') :
    readTree (fuel + 1) ('[' :: c :: rest) =
      (readItems fuel (c :: rest)).map fun (items, rest) => (.array items, rest) := by
  rw [readTree, skipSpace_cons rfl]
  simp only [skipSpace_cons hc]
  split
  · next h => exact absurd (List.cons.inj h).1 hne
  · rfl

theorem readTree_emptyObject : readTree (fuel + 1) ('\x7b' :: '\x7d' :: rest) = some (.object [], rest) := by
  rw [readTree, skipSpace_cons rfl]
  simp only [skipSpace_cons (show isSpace '\x7d' = false from rfl)]

theorem readTree_object (hc : isSpace c = false) (hne : c ≠ '\x7d') :
    readTree (fuel + 1) ('\x7b' :: c :: rest) =
      (readFields fuel (c :: rest)).map fun (fields, rest) => (.object fields, rest) := by
  rw [readTree, skipSpace_cons rfl]
  simp only [skipSpace_cons hc]
  split
  · next h => exact absurd (List.cons.inj h).1 hne
  · rfl

end Brackets

theorem readItems_commas {items : List (Tree (List Char))} {texts : List (List Char)} {fuel : Nat} {rest : List Char}
    (h : List.Forall₂ Reads items texts) (hne : items ≠ []) (hfuel : 2 * (commas texts).length + 1 < fuel) :
    readItems fuel (commas texts ++ ']' :: rest) = some (replaceAll compact.reading items, rest) := by
  induction h generalizing fuel with
  | nil => exact absurd rfl hne
  | @cons t text items texts ht hitems ih =>
    obtain ⟨fuel, rfl⟩ := Nat.exists_eq_add_one_of_ne_zero (Nat.ne_zero_of_lt hfuel)
    cases hitems with
    | nil =>
      rw [commas] at hfuel ⊢
      rw [readItems, ht (by omega) (behind_cons (by decide))]
      simp only [skipSpace_cons (show isSpace ']' = false from rfl), replaceAll]
    | cons =>
      rw [commas] at hfuel ⊢
      simp only [List.length_append, List.length_cons] at hfuel
      have hrest := @ih fuel (List.cons_ne_nil _ _) (by omega)
      rw [List.append_assoc, List.cons_append, readItems, ht (by omega) (behind_cons (by decide))]
      simp only [skipSpace_cons (show isSpace ',' = false from rfl), hrest, Option.map_some]
      rfl

theorem readFields_commas {fields : List (Option String × Tree (List Char))} {texts : List (List Char)} {fuel : Nat}
    {rest : List Char} (h : List.Forall₂ ReadsField fields texts) (hne : fields ≠ [])
    (hfuel : 2 * (commas texts).length + 1 < fuel) :
    readFields fuel (commas texts ++ '\x7d' :: rest) = some (replaceFields compact.reading fields, rest) := by
  induction h generalizing fuel with
  | nil => exact absurd rfl hne
  | @cons field text fields texts hfield hfields ih =>
    obtain ⟨fuel, rfl⟩ := Nat.exists_eq_add_one_of_ne_zero (Nat.ne_zero_of_lt hfuel)
    cases hfields with
    | nil =>
      rw [commas] at hfuel ⊢
      rw [readFields, hfield (by omega) (behind_cons (by decide))]
      simp only [skipSpace_cons (show isSpace '\x7d' = false from rfl), replaceFields]
    | cons =>
      rw [commas] at hfuel ⊢
      simp only [List.length_append, List.length_cons] at hfuel
      have hrest := @ih fuel (List.cons_ne_nil _ _) (by omega)
      rw [List.append_assoc, List.cons_append, readFields, hfield (by omega) (behind_cons (by decide))]
      simp only [skipSpace_cons (show isSpace ',' = false from rfl), hrest, Option.map_some]
      rfl

/-- Texts with commas between them start as the first one does. -/
theorem commas_first {text : List Char} {c : Char} {more : List Char} (h : text = c :: more)
    (texts : List (List Char)) : ∃ more', commas (text :: texts) = c :: more' := by
  subst h
  cases texts with
  | nil => exact ⟨more, rfl⟩
  | cons => exact ⟨_, rfl⟩

theorem reads_array {items : List (Tree (List Char))} {texts : List (List Char)} (h : List.Forall₂ Reads items texts)
    (hfirst : ∀ text ∈ texts, ∃ c more, text = c :: more ∧ isSpace c = false ∧ c ≠ ']') :
    Reads (.array items) ('[' :: (commas texts ++ [']'])) := by
  intro fuel rest hfuel _
  obtain ⟨fuel, rfl⟩ := Nat.exists_eq_add_one_of_ne_zero (Nat.ne_zero_of_lt hfuel)
  simp only [List.length_cons, List.length_append] at hfuel
  rw [List.cons_append, List.append_assoc, List.singleton_append, replace]
  cases h with
  | nil => rw [commas, List.nil_append, readTree_emptyArray, replaceAll]
  | @cons t text items texts ht hitems =>
    have hread := @readItems_commas _ _ fuel rest (.cons ht hitems) (List.cons_ne_nil t items) (by omega)
    obtain ⟨c, more, htext, hspace, hne⟩ := hfirst text List.mem_cons_self
    obtain ⟨more', hc⟩ := commas_first htext texts
    rw [hc, List.cons_append] at hread ⊢
    rw [readTree_array hspace hne, hread]
    rfl

theorem reads_object {fields : List (Option String × Tree (List Char))} {texts : List (List Char)}
    (h : List.Forall₂ ReadsField fields texts) (hfirst : ∀ text ∈ texts, ∃ more, text = '"' :: more) :
    Reads (.object fields) ('\x7b' :: (commas texts ++ ['\x7d'])) := by
  intro fuel rest hfuel _
  obtain ⟨fuel, rfl⟩ := Nat.exists_eq_add_one_of_ne_zero (Nat.ne_zero_of_lt hfuel)
  simp only [List.length_cons, List.length_append] at hfuel
  rw [List.cons_append, List.append_assoc, List.singleton_append, replace]
  cases h with
  | nil => rw [commas, List.nil_append, readTree_emptyObject, replaceFields]
  | @cons field text fields texts hfield hfields =>
    have hread := @readFields_commas _ _ fuel rest (.cons hfield hfields) (List.cons_ne_nil field fields) (by omega)
    obtain ⟨more, htext⟩ := hfirst text List.mem_cons_self
    obtain ⟨more', hc⟩ := commas_first htext texts
    rw [hc, List.cons_append] at hread ⊢
    rw [readTree_object rfl (by decide), hread]
    rfl

theorem reads_field {s : String} {t : Tree (List Char)} {quoted text : List Char} (hs : Quotes s quoted)
    (ht : Reads t text) : ReadsField (some s, t) (quoted ++ ':' :: text) := by
  intro fuel rest hfuel hrest
  obtain ⟨fuel, rfl⟩ := Nat.exists_eq_add_one_of_ne_zero (Nat.ne_zero_of_lt hfuel)
  obtain ⟨more, rfl, hread⟩ := hs.read
  simp only [List.length_cons, List.length_append] at hfuel
  simp only [List.cons_append, List.append_assoc]
  rw [readField, skipSpace_cons rfl]
  simp only [hread, skipSpace_cons (show isSpace ':' = false from rfl)]
  rw [ht (by omega) hrest]
  rfl

theorem SpellsAll.first : ∀ {items : List (Tree (List Char))} {texts : List (List Char)}, SpellsAll items texts →
    ∀ text ∈ texts, ∃ c more, text = c :: more ∧ isSpace c = false ∧ c ≠ ']'
  | [], _, rfl => fun _ h => by cases h
  | _ :: _, _, ⟨_, _, rfl, ht, hitems⟩ => List.forall_mem_cons.2 ⟨ht.first, SpellsAll.first hitems⟩

theorem SpellsFields.first : ∀ {fields : List (Option String × Tree (List Char))} {texts : List (List Char)},
    SpellsFields fields texts → ∀ text ∈ texts, ∃ more, text = '"' :: more
  | [], _, rfl => fun _ h => by cases h
  | _ :: _, _, ⟨_, _, _, _, rfl, _, hs, _, hfields⟩ => by
    obtain ⟨more, rfl, -⟩ := hs.read
    exact List.forall_mem_cons.2 ⟨⟨_, rfl⟩, SpellsFields.first hfields⟩

mutual

/-- A text is read as the document that it spells. -/
theorem Spells.reads : ∀ {t : Tree (List Char)} {text : List Char}, t.Spells text → Reads t text
  | .null, _, rfl => reads_null
  | .bool b, _, rfl => reads_bool b
  | .number _, _, ⟨h, rfl⟩ => reads_number h
  | .string _, _, ⟨_, rfl, h⟩ => reads_string h
  | .array _, _, ⟨_, h, rfl⟩ => reads_array (SpellsAll.reads h) (SpellsAll.first h)
  | .object _, _, ⟨_, h, rfl⟩ => reads_object (SpellsFields.reads h) (SpellsFields.first h)

theorem SpellsAll.reads : ∀ {items : List (Tree (List Char))} {texts : List (List Char)}, SpellsAll items texts →
    List.Forall₂ Reads items texts
  | [], _, rfl => .nil
  | _ :: _, _, ⟨_, _, rfl, ht, hitems⟩ => .cons (Spells.reads ht) (SpellsAll.reads hitems)

theorem SpellsFields.reads : ∀ {fields : List (Option String × Tree (List Char))} {texts : List (List Char)},
    SpellsFields fields texts → List.Forall₂ ReadsField fields texts
  | [], _, rfl => .nil
  | (_, _) :: _, _, ⟨_, _, _, _, rfl, rfl, hs, ht, hfields⟩ =>
    .cons (reads_field hs (Spells.reads ht)) (SpellsFields.reads hfields)

end

/-- The whole text is read as the document that it spells. -/
theorem Spells.readText? {t : Tree (List Char)} {text : String} (h : t.Spells text.toList) :
    readText? text = some (t.replace compact.reading) := by
  have hread := h.reads (show 2 * text.toList.length < 2 * text.toList.length + 2 by omega) behind_nil
  rw [List.append_nil] at hread
  simp only [Tree.readText?, hread]
  rfl

mutual

/-- Arrays are nested in arrays at most as deep as arrays and objects are in each other. -/
theorem arrayNesting_replace : ∀ t : Tree (List Char), (t.replace compact.reading).arrayNesting ≤ t.nesting
  | .null | .bool _ | .number _ | .string _ | .object _ => Nat.zero_le _
  | .array items => Nat.succ_le_succ (arrayNestingAll_replace items)

theorem arrayNestingAll_replace : ∀ items : List (Tree (List Char)),
    arrayNestingAll (replaceAll compact.reading items) ≤ nestingAll items
  | [] => Nat.le_refl _
  | t :: items => by
    have ht := arrayNesting_replace t
    have hitems := arrayNestingAll_replace items
    rw [replaceAll, arrayNestingAll, nestingAll]
    omega

end

end Tree

/-- The library that is written here does what such a library is documented to do. -/
theorem Codec.compact_documented : compact.Documented where
  digits hx := Number.wire.write_spelled hx
  write ht := ⟨_, rfl, Tree.spells_write ht⟩
  read {t text} h hnesting := by
    show (Tree.readText? text).filter _ = _
    rw [h.readText?, Option.filter_some_pos]
    exact decide_eq_true (Nat.le_trans (Tree.arrayNesting_replace t) hnesting)
  read_only {t text u} h hu := by
    change (Tree.readText? text).filter _ = _ at hu
    rw [h.readText?] at hu
    exact (Option.some.inj (Option.filter_eq_some_iff.1 hu).1).symm

end Formula.Json
