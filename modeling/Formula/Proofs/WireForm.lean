import Formula.Evaluator
import Formula.Json.Wire
import Formula.Proofs.Documents
import Formula.Proofs.Scanning

/-!
# Tokens and values in documents

Tokens and values that are written as documents are read as themselves, by any library for JSON that does what it is
documented to do (`wireForm_readsBack`): the kind of a payload or value shows in the form of its document, whatever the
characters of its strings, and arrays may be nested 127 deep. This takes the numbers to be finite and their digits to be
read back as the same numbers. A number that is not finite is written as `null`, and nothing is read from a document in
which it stands.
-/

namespace Formula

open Json (Tree Codec)

/-! ## Numbers -/

/-- The numbers of a payload. -/
def Payload.numbers : Payload → List Double
  | .number x => [x]
  | .text _ => []

/-- The numbers of tokens. -/
def Token.numbers (ts : List Token) : List Double := ts.flatMap (·.payload.numbers)

namespace Value

mutual

/-- The numbers of a value. -/
def numbers : Value → List Double
  | .number x => [x]
  | .string _ => []
  | .array items => numbersAll items

/-- The numbers of several values. -/
def numbersAll : List Value → List Double
  | [] => []
  | v :: rest => v.numbers ++ numbersAll rest

end

mutual

/-- How deep arrays are nested in a value. -/
def nesting : Value → Nat
  | .number _ => 0
  | .string _ => 0
  | .array items => nestingAll items + 1

/-- How deep arrays are nested in several values. -/
def nestingAll : List Value → Nat
  | [] => 0
  | v :: rest => max v.nesting (nestingAll rest)

end

end Value

/-! ## Documents -/

namespace Json

section Trees

variable {ν μ : Type}

mutual

/-- How often `null` stands in a document. -/
def Tree.nulls : Tree ν → Nat
  | .null => 1
  | .array items => Tree.nullsAll items
  | .object fields => Tree.nullsFields fields
  | _ => 0

/-- How often `null` stands in several documents. -/
def Tree.nullsAll : List (Tree ν) → Nat
  | [] => 0
  | t :: rest => t.nulls + Tree.nullsAll rest

/-- How often `null` stands under several keys. -/
def Tree.nullsFields : List (Option String × Tree ν) → Nat
  | [] => 0
  | (_, t) :: rest => t.nulls + Tree.nullsFields rest

end

mutual

/-- Parts that hold nothing do not change how deep a document is nested. -/
theorem Tree.nesting_replace {f : ν → Tree μ} (hf : ∀ x, (f x).nesting = 0) :
    ∀ t : Tree ν, (t.replace f).nesting = t.nesting
  | .null | .bool _ | .string _ => rfl
  | .number x => hf x
  | .array items => congrArg (· + 1) (Tree.nestingAll_replace hf items)
  | .object fields => congrArg (· + 1) (Tree.nestingFields_replace hf fields)

theorem Tree.nestingAll_replace {f : ν → Tree μ} (hf : ∀ x, (f x).nesting = 0) :
    ∀ items : List (Tree ν), Tree.nestingAll (Tree.replaceAll f items) = Tree.nestingAll items
  | [] => rfl
  | t :: items => by
    rw [Tree.replaceAll, Tree.nestingAll, Tree.nestingAll, t.nesting_replace hf, Tree.nestingAll_replace hf items]

theorem Tree.nestingFields_replace {f : ν → Tree μ} (hf : ∀ x, (f x).nesting = 0) :
    ∀ fields : List (Option String × Tree ν),
      Tree.nestingFields (Tree.replaceFields f fields) = Tree.nestingFields fields
  | [] => rfl
  | (key, t) :: fields => by
    rw [Tree.replaceFields, Tree.nestingFields, Tree.nestingFields, t.nesting_replace hf,
      Tree.nestingFields_replace hf fields]

end

end Trees

/-- Whether a number is written as `null`. -/
def isNull (x : Double) : Bool := !x.isFinite

namespace Codec

variable {c : Codec} {x : Double}

/-- The document that is read where this one is written. -/
def reread (c : Codec) (t : Tree Double) : Tree (Option Double) := (t.replace c.written).replace c.reading

theorem reread_finite (h : x.isFinite = true) : c.reread (.number x) = .number (c.value? (c.digits x)) := by
  rw [reread, Tree.replace, written, if_pos h, Tree.replace, reading]

theorem reread_not_finite (h : x.isFinite = false) : c.reread (.number x) = .null := by
  rw [reread, Tree.replace, written, if_neg (by rw [h]; decide), Tree.replace]

theorem nulls_written (c : Codec) (x : Double) : (c.written x).nulls = [x].countP isNull := by
  cases h : x.isFinite <;> simp [written, Tree.nulls, isNull, h]

theorem nesting_written (c : Codec) (x : Double) : (c.written x).nesting = 0 := by
  rw [written]
  split <;> rfl

/-- A document that is written spells out its numbers, and nothing else is read from its text than what they are read
as, which is read unless the document is nested too deep. -/
theorem Documented.readsBack (hc : c.Documented) {t : Tree Double} (ht : t.Complete) :
    ∃ text, c.write t = .ok text ∧ (t.replace c.written).Spells text.toList ∧
      (t.nesting ≤ maxNesting → c.read? text = some (c.reread t)) ∧ ∀ u, c.read? text = some u → u = c.reread t := by
  obtain ⟨text, hwrite, hspells⟩ := hc.write ht
  refine ⟨text, hwrite, hspells, fun hnesting => hc.read hspells ?_, fun u hu => hc.read_only hspells hu⟩
  rwa [Tree.nesting_replace c.nesting_written]

end Codec

end Json

/-! ## Tokens -/

namespace Token

variable {c : Codec}

theorem ofLabel?_label (kind : TokenKind) : TokenKind.ofLabel? kind.label = some kind := by
  cases kind <;> rfl

/-- A token is read where its payload is. -/
theorem ofJson?_reread (t : Token) :
    ofJson? (c.reread t.toJson) =
      (Payload.ofJson? (c.reread t.payload.toJson)).map fun payload => ⟨t.kind, payload⟩ := by
  have hparts : ofJson? (c.reread t.toJson) = ofParts? (.string (some t.kind.label)) (c.reread t.payload.toJson) := rfl
  rw [hparts, ofParts?, show TokenKind.ofJson? (.string (some t.kind.label)) = some t.kind from ofLabel?_label t.kind]
  cases Payload.ofJson? (c.reread t.payload.toJson) with
  | none => rfl
  | some payload => rfl

theorem reread_listToJson (ts : List Token) :
    c.reread (listToJson ts) = .array (ts.map fun t => c.reread t.toJson) := by
  rw [Codec.reread, listToJson, Tree.replace, Tree.replace]
  congr 1
  induction ts with
  | nil => rfl
  | cons t ts ih => rw [List.map_cons, List.map_cons, ← ih, Tree.replaceAll, Tree.replaceAll, Codec.reread]

theorem payload_complete (p : Payload) : p.toJson.Complete := by
  cases p with
  | number x => trivial
  | text s => rfl

theorem listToJson_complete (ts : List Token) : (listToJson ts).Complete := by
  show Tree.CompleteAll (ts.map toJson)
  induction ts with
  | nil => trivial
  | cons t ts ih => exact ⟨⟨rfl, rfl, rfl, payload_complete t.payload, trivial⟩, ih⟩

theorem nesting_listToJson (ts : List Token) : (listToJson ts).nesting ≤ 2 := by
  refine Nat.succ_le_succ ?_
  show Tree.nestingAll (ts.map toJson) ≤ 1
  induction ts with
  | nil => exact Nat.zero_le _
  | cons t ts ih =>
    have hpayload : t.payload.toJson.nesting = 0 := by cases t.payload <;> rfl
    have ht : t.toJson.nesting = 1 := by
      simp [toJson, Tree.nesting, Tree.nestingFields, hpayload]
    rw [List.map_cons, Tree.nestingAll, ht]
    omega

theorem ofJson?_eq_some {t : Token} (hfinite : ∀ x ∈ t.payload.numbers, x.isFinite = true)
    (hdigits : ∀ x ∈ t.payload.numbers, c.value? (c.digits x) = some x) : ofJson? (c.reread t.toJson) = some t := by
  obtain ⟨kind, payload⟩ := t
  rw [ofJson?_reread]
  cases payload with
  | number x =>
    rw [Payload.toJson, Codec.reread_finite (hfinite x List.mem_cons_self), hdigits x List.mem_cons_self]
    rfl
  | text s => rfl

theorem ofJson?_eq_none {t : Token} (h : ∃ x ∈ t.payload.numbers, x.isFinite = false) :
    ofJson? (c.reread t.toJson) = none := by
  obtain ⟨kind, payload⟩ := t
  obtain ⟨x, hx, hfinite⟩ := h
  rw [ofJson?_reread]
  cases payload with
  | number y =>
    obtain rfl := List.mem_singleton.1 hx
    rw [Payload.toJson, Codec.reread_not_finite hfinite]
    rfl
  | text s => cases hx

theorem mem_numbers_cons {t : Token} {ts : List Token} {x : Double} :
    x ∈ numbers (t :: ts) ↔ x ∈ t.payload.numbers ∨ x ∈ numbers ts := by
  rw [numbers, List.flatMap_cons, List.mem_append, numbers]

theorem mapM_eq_some {ts : List Token} (hfinite : ∀ x ∈ numbers ts, x.isFinite = true)
    (hdigits : ∀ x ∈ numbers ts, c.value? (c.digits x) = some x) :
    (ts.map fun t => c.reread t.toJson).mapM ofJson? = some ts := by
  induction ts with
  | nil => rfl
  | cons t ts ih =>
    have ht := ofJson?_eq_some (fun x hx => hfinite x (mem_numbers_cons.2 (.inl hx)))
      fun x hx => hdigits x (mem_numbers_cons.2 (.inl hx))
    have hts := ih (fun x hx => hfinite x (mem_numbers_cons.2 (.inr hx)))
      fun x hx => hdigits x (mem_numbers_cons.2 (.inr hx))
    rw [List.map_cons, List.mapM_cons, ht, hts]
    rfl

theorem mapM_eq_none {ts : List Token} (h : ∃ x ∈ numbers ts, x.isFinite = false) :
    (ts.map fun t => c.reread t.toJson).mapM ofJson? = none := by
  obtain ⟨x, hx, hfinite⟩ := h
  induction ts with
  | nil => cases hx
  | cons t ts ih =>
    rw [List.map_cons, List.mapM_cons]
    rcases mem_numbers_cons.1 hx with hx | hx
    · rw [ofJson?_eq_none ⟨x, hx, hfinite⟩]
      rfl
    · rw [ih hx]
      cases ofJson? (c.reread t.toJson) <;> rfl

/-- As many numbers as are not finite are written as `null`. -/
theorem nulls_listToJson (c : Codec) (ts : List Token) :
    ((listToJson ts).replace c.written).nulls = (numbers ts).countP Json.isNull := by
  have hpayload : ∀ p : Payload, (p.toJson.replace c.written).nulls = p.numbers.countP Json.isNull := by
    rintro (x | s)
    · exact c.nulls_written x
    · rfl
  rw [listToJson, Tree.replace, Tree.nulls]
  induction ts with
  | nil => rfl
  | cons t ts ih =>
    have ht : (t.toJson.replace c.written).nulls = t.payload.numbers.countP Json.isNull := by
      simp only [toJson, Tree.replace, Tree.replaceFields, Tree.nulls, Tree.nullsFields, hpayload]
      omega
    rw [List.map_cons, Tree.replaceAll, Tree.nullsAll, ih, ht, numbers, numbers, List.flatMap_cons, List.countP_append]

end Token

namespace Value

variable {c : Codec}

mutual

theorem toJson_complete : ∀ v : Value, v.toJson.Complete
  | .number _ => trivial
  | .string _ => rfl
  | .array items => allToJson_complete items

theorem allToJson_complete : ∀ items : List Value, Tree.CompleteAll (allToJson items)
  | [] => trivial
  | v :: items => ⟨v.toJson_complete, allToJson_complete items⟩

end

mutual

theorem nesting_toJson : ∀ v : Value, v.toJson.nesting = v.nesting
  | .number _ | .string _ => rfl
  | .array items => congrArg (· + 1) (nesting_allToJson items)

theorem nesting_allToJson : ∀ items : List Value, Tree.nestingAll (allToJson items) = nestingAll items
  | [] => rfl
  | v :: items => by rw [allToJson, Tree.nestingAll, nestingAll, v.nesting_toJson, nesting_allToJson items]

end

mutual

theorem ofJson?_eq_some : ∀ {v : Value}, (∀ x ∈ v.numbers, x.isFinite = true) →
    (∀ x ∈ v.numbers, c.value? (c.digits x) = some x) → ofJson? (c.reread v.toJson) = some v
  | .number x, hfinite, hdigits => by
    rw [toJson, Codec.reread_finite (hfinite x List.mem_cons_self), hdigits x List.mem_cons_self]
    rfl
  | .string s, _, _ => rfl
  | .array items, hfinite, hdigits => by
    have hitems : allOfJson? (Tree.replaceAll c.reading (Tree.replaceAll c.written (allToJson items))) = some items :=
      allOfJson?_eq_some hfinite hdigits
    show (allOfJson? (Tree.replaceAll c.reading (Tree.replaceAll c.written (allToJson items)))).map array = _
    rw [hitems]
    rfl

theorem allOfJson?_eq_some : ∀ {items : List Value}, (∀ x ∈ numbersAll items, x.isFinite = true) →
    (∀ x ∈ numbersAll items, c.value? (c.digits x) = some x) →
      allOfJson? (Tree.replaceAll c.reading (Tree.replaceAll c.written (allToJson items))) = some items
  | [], _, _ => rfl
  | v :: items, hfinite, hdigits => by
    obtain ⟨hfv, hfi⟩ := List.forall_mem_append.1 hfinite
    obtain ⟨hdv, hdi⟩ := List.forall_mem_append.1 hdigits
    have hv := ofJson?_eq_some hfv hdv
    have hi := allOfJson?_eq_some hfi hdi
    rw [allToJson, Tree.replaceAll, Tree.replaceAll, allOfJson?, ← Codec.reread]
    simp only [hv, hi]

end

mutual

theorem ofJson?_eq_none {x : Double} (hx : x.isFinite = false) : ∀ v : Value, x ∈ v.numbers →
    ofJson? (c.reread v.toJson) = none
  | .number y, h => by
    obtain rfl := List.mem_singleton.1 h
    rw [toJson, Codec.reread_not_finite hx]
    rfl
  | .string _, h => by cases h
  | .array items, h => by
    show (allOfJson? (Tree.replaceAll c.reading (Tree.replaceAll c.written (allToJson items)))).map array = _
    rw [allOfJson?_eq_none hx items h]
    rfl

theorem allOfJson?_eq_none {x : Double} (hx : x.isFinite = false) : ∀ items : List Value, x ∈ numbersAll items →
    allOfJson? (Tree.replaceAll c.reading (Tree.replaceAll c.written (allToJson items))) = none
  | [], h => by cases h
  | v :: items, h => by
    rw [allToJson, Tree.replaceAll, Tree.replaceAll, allOfJson?, ← Codec.reread]
    rcases List.mem_append.1 h with h | h
    · rw [ofJson?_eq_none hx v h]
    · rw [allOfJson?_eq_none hx items h]
      cases ofJson? (c.reread v.toJson) <;> rfl

end

mutual

/-- As many numbers as are not finite are written as `null`. -/
theorem nulls_toJson (c : Codec) : ∀ v : Value, (v.toJson.replace c.written).nulls = v.numbers.countP Json.isNull
  | .number x => c.nulls_written x
  | .string _ => rfl
  | .array items => nulls_allToJson c items

theorem nulls_allToJson (c : Codec) : ∀ items : List Value,
    Tree.nullsAll (Tree.replaceAll c.written (allToJson items)) = (numbersAll items).countP Json.isNull
  | [] => rfl
  | v :: items => by
    rw [allToJson, Tree.replaceAll, Tree.nullsAll, v.nulls_toJson, nulls_allToJson c items, numbersAll,
      List.countP_append]

end

end Value

/-! ## The wire form -/

/-- Tokens that are written and read are the same tokens, with the same value, and so are values whose arrays are nested
at most 127 deep, if their numbers are finite, as those of a text are, and the digits of each are read back as that
number. Every number that is not finite is written as `null`, and where there is one, neither tokens nor a value are
read. -/
theorem wireForm_readsBack {c : Codec} (hc : c.Documented) :
    (∀ ts : List Token, (∀ x ∈ Token.numbers ts, x.isFinite = true) →
      (∀ x ∈ Token.numbers ts, c.value? (c.digits x) = some x) →
        ∃ text, c.write (Token.listToJson ts) = .ok text ∧ Token.readList? c text = some ts ∧
          ∀ (e : Evaluator) (depth : Nat),
            (Token.readList? c text).map (e.runTokens depth) = some (e.runTokens depth ts)) ∧
    (∀ (e : Evaluator) (source : String) (ts : List Token), e.tokenize source = .ok ts →
      ∀ x ∈ Token.numbers ts, x.isFinite = true) ∧
    (∀ v : Value, (∀ x ∈ v.numbers, x.isFinite = true) → (∀ x ∈ v.numbers, c.value? (c.digits x) = some x) →
      v.nesting ≤ 127 → ∃ text, c.write v.toJson = .ok text ∧ Value.read? c text = some v) ∧
    (∀ ts : List Token, ∃ text doc, c.write (Token.listToJson ts) = .ok text ∧ Tree.Spells doc text.toList ∧
      doc.nulls = (Token.numbers ts).countP Json.isNull ∧
        ((∃ x ∈ Token.numbers ts, x.isFinite = false) → Token.readList? c text = none)) ∧
    ∀ v : Value, ∃ text doc, c.write v.toJson = .ok text ∧ Tree.Spells doc text.toList ∧
      doc.nulls = v.numbers.countP Json.isNull ∧
        ((∃ x ∈ v.numbers, x.isFinite = false) → Value.read? c text = none) := by
  refine ⟨fun ts hfinite hdigits => ?_, fun e source ts htok x hx => ?_, fun v hfinite hdigits hnesting => ?_,
    fun ts => ?_, fun v => ?_⟩
  · obtain ⟨text, hwrite, -, hread, -⟩ := hc.readsBack (Token.listToJson_complete ts)
    have htokens : Token.readList? c text = some ts := by
      rw [Token.readList?, hread (Nat.le_trans (Token.nesting_listToJson ts) (by decide)), Token.reread_listToJson]
      exact Token.mapM_eq_some hfinite hdigits
    refine ⟨text, hwrite, htokens, fun e depth => ?_⟩
    rw [htokens]
    rfl
  · obtain ⟨t, ht, hx⟩ := List.mem_flatMap.1 hx
    refine OperatorSet.tokenize_finite htok t ht x ?_
    cases hp : t.payload with
    | number y =>
      rw [hp] at hx
      rw [List.mem_singleton.1 hx]
    | text s =>
      rw [hp] at hx
      cases hx
  · obtain ⟨text, hwrite, -, hread, -⟩ := hc.readsBack v.toJson_complete
    refine ⟨text, hwrite, ?_⟩
    rw [Value.read?, hread (by rwa [v.nesting_toJson]), Option.bind_some]
    exact Value.ofJson?_eq_some hfinite hdigits
  · obtain ⟨text, hwrite, hspells, -, hread⟩ := hc.readsBack (Token.listToJson_complete ts)
    refine ⟨text, _, hwrite, hspells, Token.nulls_listToJson c ts, fun h => ?_⟩
    rw [Token.readList?]
    cases hu : c.read? text with
    | none => rfl
    | some u =>
      rw [hread u hu, Token.reread_listToJson]
      exact Token.mapM_eq_none h
  · obtain ⟨text, hwrite, hspells, -, hread⟩ := hc.readsBack v.toJson_complete
    refine ⟨text, _, hwrite, hspells, v.nulls_toJson c, ?_⟩
    rintro ⟨x, hx, hfinite⟩
    rw [Value.read?]
    cases hu : c.read? text with
    | none => rfl
    | some u =>
      rw [hread u hu, Option.bind_some]
      exact Value.ofJson?_eq_none hfinite v hx

/-- Digits, quotes and controls in strings, numbers that only an exponent or a point shows, and one that is not
finite. -/
theorem wireForm_readsBack_text :
    (∃ text, Codec.compact.write (Token.listToJson
        [.name "max", .operator "(", .number 1e16, .string "1\n\"", .operator ")"]) = .ok text ∧
      Token.readList? .compact text =
        some [.name "max", .operator "(", .number 1e16, .string "1\n\"", .operator ")"]) ∧
    (∃ text, Codec.compact.write (Value.array [.array [], .number (-0.5), .string "é"]).toJson = .ok text ∧
      Value.read? .compact text = some (.array [.array [], .number (-0.5), .string "é"])) ∧
    (∃ text, Codec.compact.write (Token.listToJson [.number 1, .number (0.0 / 0.0)]) = .ok text ∧
      Token.readList? .compact text = none) ∧
    ∃ text, Codec.compact.write (Value.array [.number (1.0 / 0.0)]).toJson = .ok text ∧
      Value.read? .compact text = none := by
  obtain ⟨htokens, -, hvalue, hnullTokens, hnullValue⟩ := wireForm_readsBack Codec.compact_documented
  have hread : ∀ x ∈ [(1e16 : Double), -0.5], x.isFinite = true ∧
      Codec.compact.value? (Codec.compact.digits x) = some x := by decide +kernel
  refine ⟨?_, ?_, ?_, ?_⟩
  · obtain ⟨text, hwrite, htext, -⟩ := htokens
      [.name "max", .operator "(", .number 1e16, .string "1\n\"", .operator ")"]
      (List.forall_mem_singleton.2 (hread _ List.mem_cons_self).1)
      (List.forall_mem_singleton.2 (hread _ List.mem_cons_self).2)
    exact ⟨text, hwrite, htext⟩
  · exact hvalue (.array [.array [], .number (-0.5), .string "é"])
      (List.forall_mem_singleton.2 (hread _ (List.mem_cons_of_mem _ List.mem_cons_self)).1)
      (List.forall_mem_singleton.2 (hread _ (List.mem_cons_of_mem _ List.mem_cons_self)).2) (by decide)
  · obtain ⟨text, _, hwrite, -, -, hnone⟩ := hnullTokens [.number 1, .number (0.0 / 0.0)]
    exact ⟨text, hwrite, hnone ⟨0.0 / 0.0, List.mem_cons_of_mem _ List.mem_cons_self, by decide +kernel⟩⟩
  · obtain ⟨text, _, hwrite, -, -, hnone⟩ := hnullValue (.array [.number (1.0 / 0.0)])
    exact ⟨text, hwrite, hnone ⟨1.0 / 0.0, List.mem_cons_self, by decide +kernel⟩⟩

end Formula
