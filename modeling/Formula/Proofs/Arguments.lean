import Formula.CommandLine.Arguments
import Formula.CommandLine.Reader
import Mathlib.Data.List.Induction
import Mathlib.Logic.Basic

/-!
# What arguments write

The reader of arguments does what one is documented to do (`read_documented`): it takes up each option and expression
that is written in turn (`Progress.readAll_writes`), and all arguments that it accepts write some
(`Progress.exists_writes`).

What the options hold in the end only depends on what was written: the definitions, the spellings switched on and those
switched off, whether tokens are asked for, which may be written once, and the expressions
(`Options.collected_of_addAll`).
-/

namespace Formula.CommandLine

theorem isPlain_of_head? {text : String} (h : text.toList.head? ≠ some '-') : IsPlain text :=
  fun _ _ heq => h (congrArg List.head? heq)

/-! The flags of the options with a value, and no dash, are read from their names and letters. -/

section Flags

theorem Flag.ofWord?_eq {word : String} {option : ValueOption} :
    ofWord? word = some (.valued option) ↔ word = option.word := by
  constructor
  · intro h
    unfold ofWord? at h
    split at h <;> cases h <;> rfl
  · rintro rfl
    cases option <;> rfl

theorem Flag.ofLetter?_eq {c : Char} {option : ValueOption} :
    ofLetter? c = some (.valued option) ↔ c = option.letter := by
  constructor
  · intro h
    unfold ofLetter? at h
    split at h <;> cases h <;> rfl
  · rintro rfl
    cases option <;> rfl

theorem Flag.ofLetter?_tokens {c : Char} (h : ofLetter? c = some .tokens) : c = 't' := by
  unfold ofLetter? at h
  split at h <;> cases h
  rfl

theorem Flag.ofWord?_tokens {word : String} (h : ofWord? word = some .tokens) : word = "tokens" := by
  unfold ofWord? at h
  split at h <;> cases h
  rfl

theorem Letters.ne_dash {c : Char} {cs : List Char} {items : List Item} {next? : Option ValueOption}
    (hw : Letters (c :: cs) items next?) : c ≠ '-' := by
  generalize hcs : c :: cs = ds at hw
  cases hw with
  | nil => cases hcs
  | tokens => cases hcs; decide
  | bare option | equals option | glued option =>
    cases hcs
    cases option <;> decide

end Flags

/-! ## Taking up what is written -/

section AddAll

variable (options : Options) (item : Item) (items more : List Item)

theorem Options.addAll_nil : options.addAll [] = pure options := rfl

theorem Options.addAll_cons : options.addAll (item :: items) = options.add item >>= fun o => o.addAll items := rfl

theorem Options.addAll_singleton : options.addAll [item] = options.add item := bind_pure _

theorem Options.addAll_append : options.addAll (items ++ more) = options.addAll items >>= fun o => o.addAll more :=
  List.foldlM_append

end AddAll

namespace Progress

variable {p : Progress}

/-- The option whose value is still to come. -/
def awaiting? (p : Progress) : Option ValueOption :=
  match p.pending? with
  | some (option, none) => some option
  | _ => none

/-- What was written so far, with a value that is still to be checked. -/
def taken (p : Progress) : Except Halt Options :=
  match p.pending? with
  | some (option, some value) => p.options.take value option
  | _ => .ok p.options

theorem settle_eq (h : p.awaiting? = none) : p.settle = p.taken := by
  obtain ⟨options, pending?⟩ := p
  rcases pending? with - | ⟨option, - | value⟩
  · rfl
  · cases h
  · rfl

theorem awaiting?_of_settle {options : Options} (h : p.settle = .ok options) : p.awaiting? = none := by
  obtain ⟨_, pending?⟩ := p
  rcases pending? with - | ⟨option, - | value⟩
  · rfl
  · cases h
  · rfl

theorem plain_eq (h : p.awaiting? = none) (text : String) : p.plain text = p.expression text := by
  obtain ⟨options, pending?⟩ := p
  rcases pending? with - | ⟨option, - | value⟩
  · rfl
  · cases h
  · rfl

theorem eq_of_awaiting {option : ValueOption} (h : p.awaiting? = some option) :
    ∃ options, p = ⟨options, some (option, none)⟩ := by
  obtain ⟨options, pending?⟩ := p
  rcases pending? with - | ⟨option, - | value⟩
  · cases h
  · cases h
    exact ⟨options, rfl⟩
  · cases h

/-- A step fails as taking up does, or it has taken up the same and then may await the value of this option. -/
inductive Yields (awaiting? : Option ValueOption) : Except Halt Progress → Except Halt Options → Prop
  | error (halt : Halt) : Yields awaiting? (.error halt) (.error halt)
  | ok {p : Progress} {options : Except Halt Options} : p.awaiting? = awaiting? → p.taken = options →
    Yields awaiting? (.ok p) options

namespace Yields

variable {awaiting? : Option ValueOption} {step : Except Halt Progress} {options : Except Halt Options}

theorem awaiting_eq {p : Progress} (h : Yields awaiting? step options) (hs : step = .ok p) :
    p.awaiting? = awaiting? := by
  cases h with
  | error halt => cases hs
  | ok hp _ =>
    cases hs
    exact hp

theorem bind_eq {next : Progress → Except Halt Options} {take : Options → Except Halt Options}
    (h : Yields awaiting? step options) (hnext : ∀ p, p.awaiting? = awaiting? → next p = p.taken >>= take) :
    step >>= next = options >>= take := by
  cases h with
  | error halt => rfl
  | @ok p _ hp ho =>
    subst ho
    exact hnext p hp

theorem bind {next : Progress → Except Halt Progress} {take : Options → Except Halt Options}
    {next? : Option ValueOption} (h : Yields awaiting? step options)
    (hnext : ∀ p, p.awaiting? = awaiting? → Yields next? (next p) (p.taken >>= take)) :
    Yields next? (step >>= next) (options >>= take) := by
  cases h with
  | error halt => exact .error halt
  | @ok p _ hp ho =>
    subst ho
    exact hnext p hp

end Yields

section Steps

variable (h : p.awaiting? = none)
include h

theorem yields_expression (text : String) :
    Yields none (p.expression text) (p.taken >>= fun options => options.add (.expression text)) := by
  rw [expression, settle_eq h]
  cases p.taken with
  | error halt => exact .error halt
  | ok options => exact .ok rfl rfl

theorem yields_glued (option : ValueOption) (value : List Char) :
    Yields none (p.glued option value)
      (p.taken >>= fun options => options.add (.valued option (String.ofList value))) := by
  rw [glued, settle_eq h]
  cases p.taken with
  | error halt => exact .error halt
  | ok options =>
    show Yields none (options.take (String.ofList value) option >>= _) (options.take (String.ofList value) option)
    cases options.take (String.ofList value) option with
    | error halt => exact .error halt
    | ok options => exact .ok rfl rfl

theorem yields_awaiting (option : ValueOption) : Yields (some option) (p.awaiting option) p.taken := by
  rw [awaiting, settle_eq h]
  cases p.taken with
  | error halt => exact .error halt
  | ok options => exact .ok rfl rfl

theorem yields_switch : Yields none (p.switch .tokens) (p.taken >>= fun options => options.add .tokens) := by
  rw [switch, settle_eq h]
  cases p.taken with
  | error halt => exact .error halt
  | ok options =>
    obtain ⟨names, enabled, disabled, tokens, expressions⟩ := options
    cases tokens with
    | false => exact .ok rfl rfl
    | true => exact .error _

end Steps

/-- A letter of an option with a value, by what stands behind it. -/
theorem short_letter (p : Progress) (option : ValueOption) (value : List Char) :
    p.short (option.letter :: value) =
      match value with
      | [] => p.awaiting option
      | '=' :: value => p.glued option value
      | value => p.glued option value := by
  cases option <;> rfl

/-- Letters are taken up one after the other. -/
theorem yields_short {cs : List Char} {items : List Item} {next? : Option ValueOption} (hw : Letters cs items next?)
    {p : Progress} (h : p.awaiting? = none) :
    Yields next? (p.short cs) (p.taken >>= fun options => options.addAll items) := by
  induction hw generalizing p with
  | nil =>
    simp only [Options.addAll_nil, bind_pure]
    exact .ok h rfl
  | tokens _ ih =>
    simp only [Options.addAll_cons, ← bind_assoc]
    exact (yields_switch h).bind fun p hp => ih hp
  | bare option =>
    simp only [Options.addAll_nil, bind_pure, short_letter]
    exact yields_awaiting h option
  | equals option value =>
    simp only [Options.addAll_singleton, short_letter]
    exact yields_glued h option value
  | glued option hne heq =>
    simp only [Options.addAll_singleton, short_letter]
    split
    · exact absurd rfl hne
    · exact absurd rfl heq
    · exact yields_glued h option _

/-- The parts of a name with a value behind it. -/
theorem splitEquals?_word (option : ValueOption) (value : List Char) :
    splitEquals? (option.word.toList ++ '=' :: value) = some (option.word.toList, value) := by
  cases option <;> rfl

/-! An argument is read by what stands in front, and the rest after it. -/

section Arguments

variable {argument : String} {c : Char} {cs : List Char}

theorem readAll_letters (h : argument.toList = '-' :: c :: cs) (hc : c ≠ '-') (p : Progress) (rest : List String) :
    p.readAll (argument :: rest) = p.short (c :: cs) >>= fun p => p.readAll rest := by
  rw [readAll, h]
  split
  · next heq => exact absurd (List.cons.inj (List.cons.inj heq).2).1 hc
  · next heq => exact absurd (List.cons.inj (List.cons.inj heq).2).1 hc
  · next heq =>
    cases heq
    rfl
  · next hother => exact absurd rfl (hother c cs)

theorem readAll_word (h : argument.toList = '-' :: '-' :: cs) (hne : cs ≠ []) (p : Progress) (rest : List String) :
    p.readAll (argument :: rest) = p.long cs >>= fun p => p.readAll rest := by
  rw [readAll, h]
  split
  · next heq => exact absurd (List.cons.inj (List.cons.inj heq).2).2 hne
  · next heq =>
    cases heq
    rfl
  · next hdashes heq =>
    cases heq
    exact (hdashes rfl).elim
  · next hother => exact absurd rfl (hother '-' cs)

theorem readAll_plain (h : IsPlain argument) (p : Progress) (rest : List String) :
    p.readAll (argument :: rest) = p.plain argument >>= fun p => p.readAll rest := by
  rw [readAll]
  split
  · next heq => exact absurd heq (h _ _)
  · next heq => exact absurd heq (h _ _)
  · next heq => exact absurd heq (h _ _)
  · rfl

end Arguments

/-- An argument that is an option is taken up on its own. -/
theorem yields_option {argument : String} {items : List Item} {next? : Option ValueOption}
    (hs : Spells argument items next?) :
    ∃ step : Progress → Except Halt Progress,
      (∀ p rest, p.readAll (argument :: rest) = step p >>= fun p => p.readAll rest) ∧
        ∀ p, p.awaiting? = none →
          Yields next? (step p) (p.taken >>= fun options => options.addAll items) := by
  cases hs with
  | @letters cs _ _ hw hne =>
    refine ⟨fun p => p.short cs, ?_, fun p h => yields_short hw h⟩
    cases cs with
    | nil => exact absurd rfl hne
    | cons c cs => exact readAll_letters String.toList_ofList hw.ne_dash
  | bare option =>
    refine ⟨fun p => p.awaiting option, fun p rest => ?_, fun p h => ?_⟩
    · cases option <;> rfl
    · simp only [Options.addAll_nil, bind_pure]
      exact yields_awaiting h option
  | equals option value =>
    refine ⟨fun p => p.glued option value.toList, fun p rest => ?_, fun p h => ?_⟩
    · have hchars : ("--" ++ option.word ++ "=" ++ value).toList =
          '-' :: '-' :: (option.word.toList ++ '=' :: value.toList) := by simp
      have hlong : p.long (option.word.toList ++ '=' :: value.toList) = p.glued option value.toList := by
        rw [long, splitEquals?_word]
        simp only [String.ofList_toList]
        rw [Flag.ofWord?_eq.2 rfl]
      rw [readAll_word hchars (by simp), hlong]
    · have hglued := yields_glued h option value.toList
      rw [String.ofList_toList] at hglued
      simp only [Options.addAll_singleton]
      exact hglued
  | tokens =>
    refine ⟨fun p => p.switch .tokens, fun p rest => rfl, fun p h => ?_⟩
    simp only [Options.addAll_singleton]
    exact yields_switch h

theorem yields_expressions : ∀ (texts : List String) {p : Progress}, p.awaiting? = none →
    (texts.foldlM expression p >>= settle) =
      p.taken >>= fun options => options.addAll (texts.map .expression)
  | [], p, h => by
    simp only [List.map_nil, List.foldlM_nil, Options.addAll_nil, bind_pure, pure_bind]
    exact settle_eq h
  | text :: rest, p, h => by
    simp only [List.map_cons, List.foldlM_cons, Options.addAll_cons, bind_assoc]
    rw [← bind_assoc p.taken]
    exact (yields_expression h text).bind_eq fun p hp => yields_expressions rest hp

/-- Everything that is written is taken up in turn. -/
theorem readAll_writes {awaiting? : Option ValueOption} {front tail texts : List String} {items : List Item}
    (hw : Writes awaiting? front items) (ht : Ending tail texts) {p : Progress} (h : p.awaiting? = awaiting?) :
    (p.readAll (front ++ tail) >>= settle) =
      p.taken >>= fun options => options.addAll (items ++ texts.map .expression) := by
  induction hw generalizing p with
  | nil =>
    cases ht with
    | nil =>
      simp only [List.map_nil, List.append_nil, Options.addAll_nil, bind_pure]
      exact settle_eq h
    | dashes texts => exact yields_expressions texts h
  | @expression text rest items hplain _ ih =>
    simp only [List.cons_append, readAll_plain hplain, plain_eq h, Options.addAll_cons, bind_assoc]
    rw [← bind_assoc p.taken]
    exact (yields_expression h text).bind_eq fun p hp => ih hp
  | @value option text rest items hplain _ ih =>
    obtain ⟨options, rfl⟩ := eq_of_awaiting h
    rw [List.cons_append, readAll_plain hplain]
    exact ih rfl
  | option hs _ ih =>
    obtain ⟨step, hread, hyields⟩ := yields_option hs
    simp only [List.cons_append, List.append_assoc, hread, Options.addAll_append _ _ (_ ++ _), bind_assoc]
    rw [← bind_assoc p.taken]
    exact (hyields p h).bind_eq fun p hp => ih hp

/-! ## Arguments that are accepted -/

/-- What stands behind the first two dashes are expressions. -/
theorem readAll_append (texts : List String) : ∀ {arguments : List String} {p : Progress}, "--" ∉ arguments →
    p.readAll (arguments ++ "--" :: texts) = p.readAll arguments >>= fun p => texts.foldlM expression p
  | [], p, _ => rfl
  | argument :: rest, p, h => by
    rw [List.mem_cons, not_or] at h
    have ih := fun p : Progress => readAll_append texts (p := p) h.2
    simp only [List.cons_append, readAll]
    split
    · next hdashes => exact absurd (String.toList_injective hdashes).symm h.1
    -- an argument of any other form is read on its own, and the rest after it
    all_goals simp only [bind_assoc, ih]

theorem bind_ok {α β : Type} {step : Except Halt α} {next : α → Except Halt β} {b : β} :
    step >>= next = .ok b ↔ ∃ a, step = .ok a ∧ next a = .ok b := by
  cases step with
  | error halt => exact ⟨nofun, nofun⟩
  | ok a => exact ⟨fun h => ⟨a, rfl, h⟩, fun ⟨_, ha, h⟩ => Except.ok.inj ha ▸ h⟩

/-- Every step settles the value that came before. -/
theorem awaiting?_of_bind {α : Type} {next : Options → Except Halt α} {a : α} (h : p.settle >>= next = .ok a) :
    p.awaiting? = none :=
  let ⟨_, hs, _⟩ := bind_ok.1 h
  awaiting?_of_settle hs

theorem switch_halting {halt : Halt} {p' : Progress} : p.switch (.halting halt) ≠ .ok p' := by
  rw [switch]
  cases p.settle <;> nofun

theorem exists_letters : ∀ {cs : List Char} {p p' : Progress}, p.awaiting? = none → p.short cs = .ok p' →
    ∃ items, Letters cs items p'.awaiting?
  | [], p, p', hp, h => by
    cases h
    rw [hp]
    exact ⟨_, .nil⟩
  | c :: rest, p, p', hp, h => by
    cases hc : Flag.ofLetter? c with
    | none =>
      rw [short, hc] at h
      cases h
    | some flag =>
      cases flag with
      | valued option =>
        obtain rfl := Flag.ofLetter?_eq.1 hc
        rw [short_letter] at h
        split at h
        · rw [(yields_awaiting hp option).awaiting_eq h]
          exact ⟨_, .bare option⟩
        · rw [(yields_glued hp option _).awaiting_eq h]
          exact ⟨_, .equals option _⟩
        · next hne heq =>
          rw [(yields_glued hp option _).awaiting_eq h]
          exact ⟨_, .glued option hne fun hhead => heq _ (List.head?_eq_some_iff.1 hhead).choose_spec⟩
      | tokens =>
        obtain rfl := Flag.ofLetter?_tokens hc
        obtain ⟨p₁, hs, hrest⟩ := bind_ok.1 h
        obtain ⟨items, hw⟩ := exists_letters ((yields_switch hp).awaiting_eq hs) hrest
        exact ⟨_, .tokens hw⟩
      | halting halt =>
        rw [short, hc] at h
        obtain ⟨p₁, hs, -⟩ := bind_ok.1 h
        exact absurd hs switch_halting

theorem eq_of_splitEquals? {cs word value : List Char} (h : splitEquals? cs = some (word, value)) :
    cs = word ++ '=' :: value := by
  have hcs : cs.takeWhile (· != '=') ++ cs.dropWhile (· != '=') = cs := List.takeWhile_append_dropWhile
  have hhead := List.head?_dropWhile_not (· != '=') cs
  unfold splitEquals? at h
  split at h
  · next c rest hdrop =>
    cases h
    rw [hdrop] at hcs hhead
    obtain rfl : c = '=' := by simpa using hhead
    exact hcs.symm
  · cases h

/-- A word that is accepted is that of an option, which has its value behind it or awaits it. -/
theorem exists_spells_word {argument : String} {cs : List Char} (harg : argument.toList = '-' :: '-' :: cs)
    {p p' : Progress} (h : p.long cs = .ok p') : p.awaiting? = none ∧ ∃ items, Spells argument items p'.awaiting? := by
  unfold long at h
  cases hs : splitEquals? cs with
  | none =>
    simp only [hs] at h
    obtain rfl : argument = "--" ++ String.ofList cs := String.toList_injective (by simp [harg])
    cases hword : Flag.ofWord? (String.ofList cs) with
    | none =>
      rw [hword] at h
      cases h
    | some flag =>
      simp only [hword] at h
      cases flag with
      | valued option =>
        have hp := awaiting?_of_bind h
        rw [Flag.ofWord?_eq.1 hword, (yields_awaiting hp option).awaiting_eq h]
        exact ⟨hp, _, .bare option⟩
      | tokens =>
        have hp := awaiting?_of_bind h
        rw [Flag.ofWord?_tokens hword, (yields_switch hp).awaiting_eq h]
        exact ⟨hp, _, .tokens⟩
      | halting halt => exact absurd h switch_halting
  | some parts =>
    obtain ⟨word, value⟩ := parts
    simp only [hs] at h
    rw [eq_of_splitEquals? hs] at harg
    obtain rfl : argument = "--" ++ String.ofList word ++ "=" ++ String.ofList value :=
      String.toList_injective (by simp [harg])
    cases hword : Flag.ofWord? (String.ofList word) with
    | none =>
      rw [hword] at h
      cases h
    | some flag =>
      simp only [hword] at h
      cases flag with
      | valued option =>
        have hp := awaiting?_of_bind h
        rw [Flag.ofWord?_eq.1 hword, (yields_glued hp option value).awaiting_eq h]
        exact ⟨hp, _, .equals option _⟩
      | tokens | halting => cases h

theorem awaiting?_of_short {c : Char} {cs : List Char} {p' : Progress} (h : p.short (c :: cs) = .ok p') :
    p.awaiting? = none := by
  cases hc : Flag.ofLetter? c with
  | none =>
    rw [short, hc] at h
    cases h
  | some flag =>
    cases flag with
    | valued option =>
      obtain rfl := Flag.ofLetter?_eq.1 hc
      rw [short_letter] at h
      split at h <;> exact awaiting?_of_bind h
    | tokens | halting =>
      rw [short, hc] at h
      obtain ⟨_, hs, _⟩ := bind_ok.1 h
      exact awaiting?_of_bind hs

/-- An argument that is accepted as an option. -/
theorem exists_spells {argument : String} {rest : List String} {p p' : Progress} (hplain : ¬ IsPlain argument)
    (hdashes : "--" ≠ argument) (h : p.readAll (argument :: rest) = .ok p') :
    p.awaiting? = none ∧
      ∃ (p₁ : Progress) (items : List Item), Spells argument items p₁.awaiting? ∧ p₁.readAll rest = .ok p' := by
  simp only [IsPlain, not_forall, not_not] at hplain
  obtain ⟨c, cs, harg⟩ := hplain
  by_cases hc : c = '-'
  · subst hc
    have hne : cs ≠ [] := by
      rintro rfl
      exact hdashes (String.toList_injective harg.symm)
    rw [readAll_word harg hne] at h
    obtain ⟨p₁, hstep, hrest⟩ := bind_ok.1 h
    obtain ⟨hp, items, hs⟩ := exists_spells_word harg hstep
    exact ⟨hp, p₁, items, hs, hrest⟩
  · rw [readAll_letters harg hc] at h
    obtain ⟨p₁, hstep, hrest⟩ := bind_ok.1 h
    have hp := awaiting?_of_short hstep
    obtain ⟨items, hw⟩ := exists_letters hp hstep
    obtain rfl : argument = String.ofList ('-' :: c :: cs) := String.toList_injective (by simp [harg])
    exact ⟨hp, p₁, items, .letters hw (List.cons_ne_nil c cs), hrest⟩

/-- All arguments that are accepted write something. -/
theorem exists_writes : ∀ {arguments : List String} {p p' : Progress}, "--" ∉ arguments →
    p.readAll arguments = .ok p' → p'.awaiting? = none → ∃ items, Writes p.awaiting? arguments items
  | [], p, p', _, h, hp' => by
    cases h
    rw [hp']
    exact ⟨_, .nil⟩
  | argument :: rest, p, p', hdashes, h, hp' => by
    rw [List.mem_cons, not_or] at hdashes
    by_cases hplain : IsPlain argument
    · rw [readAll_plain hplain] at h
      obtain ⟨p₁, hstep, hrest⟩ := bind_ok.1 h
      obtain ⟨items, hw⟩ := exists_writes hdashes.2 hrest hp'
      cases hp : p.awaiting? with
      | none =>
        rw [plain_eq hp] at hstep
        rw [(yields_expression hp argument).awaiting_eq hstep] at hw
        exact ⟨_, .expression hplain hw⟩
      | some option =>
        obtain ⟨options, rfl⟩ := eq_of_awaiting hp
        cases hstep
        exact ⟨_, .value hplain hw⟩
    · obtain ⟨hp, p₁, items, hs, hrest⟩ := exists_spells hplain hdashes.1 h
      obtain ⟨more, hw⟩ := exists_writes hdashes.2 hrest hp'
      rw [hp]
      exact ⟨_, .option hs hw⟩

end Progress

theorem read_writes {front tail texts : List String} {items : List Item} (hw : Writes none front items)
    (ht : Ending tail texts) :
    Options.read (front ++ tail) = Options.none.addAll (items ++ texts.map .expression) :=
  Progress.readAll_writes hw ht rfl

theorem exists_writes {front tail texts : List String} {options : Options}
    (h : Options.read (front ++ tail) = .ok options) (hfront : "--" ∉ front) (ht : Ending tail texts) :
    ∃ items, Writes none front items := by
  obtain ⟨p, hread, hp⟩ := Progress.bind_ok.1 h
  cases ht with
  | nil =>
    rw [List.append_nil] at hread
    exact Progress.exists_writes hfront hread (Progress.awaiting?_of_settle hp)
  | dashes texts =>
    rw [Progress.readAll_append texts hfront] at hread
    obtain ⟨p₁, hread, htexts⟩ := Progress.bind_ok.1 hread
    refine Progress.exists_writes hfront hread ?_
    cases texts with
    | nil =>
      cases htexts
      exact Progress.awaiting?_of_settle hp
    | cons text rest =>
      obtain ⟨_, hstep, -⟩ := Progress.bind_ok.1 htexts
      exact Progress.awaiting?_of_bind hstep

/-- The reader of arguments does what one is documented to do. -/
theorem read_documented : Parser.Documented Options.read where
  reads hw ht := by rw [read_writes hw ht]
  writes := exists_writes

/-! ## What the options hold -/

/-- The value, if it is one of this option. -/
def Item.value? (option : ValueOption) : Item → Option String
  | .valued option' value => if option' = option then some value else none
  | _ => none

/-- The text of an expression. -/
def Item.text? : Item → Option String
  | .expression text => some text
  | _ => none

/-- The values of this option, in order. -/
def valuesOf (option : ValueOption) (items : List Item) : List String := items.filterMap (Item.value? option)

/-- The expressions, in order. -/
def textsOf (items : List Item) : List String := items.filterMap Item.text?

theorem valuesOf_append (option : ValueOption) (items more : List Item) :
    valuesOf option (items ++ more) = valuesOf option items ++ valuesOf option more := List.filterMap_append

theorem textsOf_append (items more : List Item) : textsOf (items ++ more) = textsOf items ++ textsOf more :=
  List.filterMap_append

@[simp] theorem valuesOf_concat (option : ValueOption) (items : List Item) (item : Item) :
    valuesOf option (items ++ [item]) = valuesOf option items ++ (item.value? option).toList := by
  rw [valuesOf_append]
  cases h : item.value? option <;> simp [valuesOf, h]

@[simp] theorem textsOf_concat (items : List Item) (item : Item) :
    textsOf (items ++ [item]) = textsOf items ++ item.text?.toList := by
  rw [textsOf_append]
  cases h : item.text? <;> simp [textsOf, h]

theorem mem_valuesOf {option : ValueOption} {items : List Item} {value : String} :
    value ∈ valuesOf option items ↔ .valued option value ∈ items := by
  rw [valuesOf, List.mem_filterMap]
  constructor
  · rintro ⟨item, hitem, hvalue⟩
    cases item with
    | valued option' value' =>
      rw [Item.value?] at hvalue
      split at hvalue
      · next hoption =>
        cases hvalue
        rwa [← hoption]
      · cases hvalue
    | tokens | expression => cases hvalue
  · exact fun h => ⟨_, h, if_pos rfl⟩

/-- The options hold what was written. -/
structure Collected (items : List Item) (options : Options) : Prop where
  names : options.names.map .ok = (valuesOf .name items).map readName
  enabled : options.enabled = valuesOf .operator items
  disabled : options.disabled = valuesOf .disable items
  tokens : options.tokens = true ↔ .tokens ∈ items
  once : items.count .tokens ≤ 1
  expressions : options.expressions = textsOf items

namespace Collected

variable {items : List Item} {item : Item} {before options : Options}

theorem empty : Collected [] .none := ⟨rfl, rfl, rfl, by simp [Options.none], Nat.zero_le 1, rfl⟩

theorem add (h : Collected items before) (hadd : before.add item = .ok options) :
    Collected (items ++ [item]) options := by
  obtain ⟨hnames, henabled, hdisabled, htokens, honce, htexts⟩ := h
  cases item with
  | valued option value =>
    cases option with
    | name =>
      simp only [Options.add, Options.take] at hadd
      split at hadd
      · next entry hentry =>
        cases hadd
        constructor <;> simp [*, Item.value?, Item.text?]
      · cases hadd
    | operator | disable =>
      cases hadd
      constructor <;> simp [*, Item.value?, Item.text?]
  | tokens =>
    simp only [Options.add] at hadd
    split at hadd
    · cases hadd
    · next hnone =>
      cases hadd
      have hcount : items.count .tokens = 0 := List.count_eq_zero.2 (mt htokens.2 hnone)
      constructor <;> simp [*, Item.value?, Item.text?]
  | expression text =>
    cases hadd
    constructor <;> simp [*, Item.value?, Item.text?]

/-- One more can be taken up, if it is not a definition that cannot be read or the option for tokens again. -/
theorem exists_add (h : Collected items before)
    (hnames : ∀ text ∈ valuesOf .name (items ++ [item]), ∃ entry, readName text = .ok entry)
    (honce : (items ++ [item]).count .tokens ≤ 1) : ∃ options, before.add item = .ok options := by
  cases item with
  | valued option value =>
    cases option with
    | name =>
      obtain ⟨entry, hentry⟩ := hnames value (by simp [Item.value?])
      exact ⟨_, by rw [Options.add, Options.take, hentry]⟩
    | operator | disable => exact ⟨_, rfl⟩
  | tokens =>
    have hcount : items.count .tokens = 0 := by simpa using honce
    have hnone : ¬ before.tokens = true := mt h.tokens.1 (List.count_eq_zero.1 hcount)
    exact ⟨_, if_neg hnone⟩
  | expression text => exact ⟨_, rfl⟩

end Collected

namespace Options

variable {items : List Item}

/-- What was taken up is what the options hold. -/
theorem collected_of_addAll {options : Options} (h : Options.none.addAll items = .ok options) :
    Collected items options := by
  induction items using List.reverseRecOn generalizing options with
  | nil =>
    cases h
    exact .empty
  | append_singleton items item ih =>
    rw [addAll_append] at h
    obtain ⟨before, hbefore, hadd⟩ := Progress.bind_ok.1 h
    rw [addAll_singleton] at hadd
    exact (ih hbefore).add hadd

/-- Options and expressions are taken up if the definitions among them can be read and tokens are asked for once. -/
theorem exists_addAll (hnames : ∀ text ∈ valuesOf .name items, ∃ entry, readName text = .ok entry)
    (honce : items.count .tokens ≤ 1) : ∃ options, Options.none.addAll items = .ok options := by
  induction items using List.reverseRecOn with
  | nil => exact ⟨_, rfl⟩
  | append_singleton items item ih =>
    have hinit : items.count .tokens ≤ (items ++ [item]).count .tokens := (List.sublist_append_left _ _).count_le _
    obtain ⟨before, hbefore⟩ := ih (fun text htext => hnames text (by simp [htext])) (Nat.le_trans hinit honce)
    obtain ⟨options, hadd⟩ := (collected_of_addAll hbefore).exists_add hnames honce
    refine ⟨options, ?_⟩
    rw [addAll_append, hbefore]
    exact (addAll_singleton before item).trans hadd

end Options

end Formula.CommandLine
