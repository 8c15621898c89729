import Formula.Proofs.CommandLines
import Formula.Proofs.Overrides

/-!
# The order of options

Arguments may be rearranged in front of two dashes, as long as definitions stay in order and expressions do, too
(`Rearranged`): they are accepted as before, and a run shows the same. An evaluator takes from its options all spellings
that are switched on and then all that are switched off, so only which they are matters (`Options.lookup_evaluator`),
and not in what order or how often they were written. Of several definitions of a name the last one counts
(`Evaluator.get?_defineNames`).
-/

namespace Formula

/-! ## Definitions -/

namespace Evaluator

variable {e e' : Evaluator} {names : List (String × Value)} {id : String} {v : Value}

theorem operators_defineNames : ∀ (names : List (String × Value)) (e : Evaluator),
    (e.defineNames names).operators = e.operators
  | [], _ => rfl
  | (id, v) :: names, e => operators_defineNames names (e.define (.constant id v))

theorem symbols_defineNames_congr (h : e.symbols = e'.symbols) (names : List (String × Value)) :
    (e.defineNames names).symbols = (e'.defineNames names).symbols := by
  induction names generalizing e e' with
  | nil => exact h
  | cons name names ih => exact ih (congrArg (SymbolTable.define · _) h)

theorem get?_defineNames_of_not_mem (e : Evaluator) (h : ∀ v, (id, v) ∉ names) :
    (e.defineNames names).symbols.get? id = e.symbols.get? id := by
  induction names generalizing e with
  | nil => rfl
  | cons name names ih =>
    obtain ⟨other, v⟩ := name
    have hne : id ≠ other := fun hid => h v (hid ▸ List.mem_cons_self)
    have hrest := ih (e.define (.constant other v)) fun v hv => h v (List.mem_cons_of_mem _ hv)
    exact hrest.trans (SymbolTable.get?_define_of_ne e.symbols (.constant other v) hne)

/-- The last definition of a name counts. -/
theorem get?_defineNames (e : Evaluator) (before : List (String × Value)) {after : List (String × Value)}
    (h : ∀ v, (id, v) ∉ after) :
    (e.defineNames (before ++ (id, v) :: after)).symbols.get? id = some (.constant id v) := by
  have hsplit : e.defineNames (before ++ (id, v) :: after) =
      (((e.defineNames before).define (.constant id v)).defineNames after) := by
    simp only [defineNames, List.foldl_append, List.foldl_cons]
  rw [hsplit, get?_defineNames_of_not_mem _ h]
  exact SymbolTable.get?_define _ (.constant id v)

/-- Evaluators with the same symbols that read all texts alike evaluate alike. -/
theorem run_congr (hsymbols : e.symbols = e'.symbols) (htokenize : e.tokenize = e'.tokenize) (depth : Nat) :
    e.run depth = e'.run depth := by
  induction depth with
  | zero => rfl
  | succ depth ih =>
    funext tokens
    rw [run, run, hsymbols, htokenize, ih]

end Evaluator

namespace CommandLine

/-! ## Options that differ in their order -/

section LastSwitch

open OperatorSet

theorem lastSwitch?_map (spellings : List String) (allowed : Bool) (s : String) :
    lastSwitch? (spellings.map (·, allowed)) s = if s ∈ spellings then some allowed else none := by
  have hfilter : (spellings.map (·, allowed)).filter (·.1 == s) =
      (List.replicate (spellings.count s) s).map (·, allowed) := by
    rw [List.filter_map, ← List.filter_beq]
    rfl
  rw [lastSwitch?, hfilter, List.map_replicate, List.getLast?_replicate]
  simp only [List.count_eq_zero]
  by_cases h : s ∈ spellings
  · rw [if_neg (not_not_intro h), if_pos h]
    rfl
  · rw [if_pos h, if_neg h]
    rfl

end LastSwitch

namespace Options

variable {options options' : Options}

/-- A spelling that is switched off is so whether it is also switched on or not. -/
theorem lookup_evaluator (options : Options) (s : String) :
    options.evaluator.operators.entries.lookup s =
      if s ∈ options.disabled then some false
      else if s ∈ options.enabled then some true
      else OperatorSet.standard.entries.lookup s := by
  rw [evaluator, Evaluator.operators_defineNames]
  show (OperatorSet.standard.update _).entries.lookup s = _
  rw [OperatorSet.lookup_update, OperatorSet.lastSwitch?_append, lastSwitch?_map, lastSwitch?_map]
  by_cases hdisabled : s ∈ options.disabled
  · simp only [if_pos hdisabled]
    rfl
  · simp only [if_neg hdisabled]
    split <;> rfl

/-- Options with the same definitions and expressions in the same order that switch the same spellings. -/
structure Alike (options options' : Options) : Prop where
  names : options'.names = options.names
  enabled (s : String) : s ∈ options'.enabled ↔ s ∈ options.enabled
  disabled (s : String) : s ∈ options'.disabled ↔ s ∈ options.disabled
  tokens : options'.tokens = options.tokens
  expressions : options'.expressions = options.expressions

namespace Alike

variable (h : Alike options options')
include h

theorem symbols_eq : options'.evaluator.symbols = options.evaluator.symbols := by
  rw [evaluator, evaluator, h.names]
  refine Evaluator.symbols_defineNames_congr ?_ _
  rfl

theorem tokenize_eq : options'.evaluator.tokenize = options.evaluator.tokenize := by
  have hswitches : options'.evaluator.operators.SameSwitches options.evaluator.operators := by
    intro s
    simp only [lookup_evaluator, h.enabled, h.disabled]
  funext source
  exact hswitches.sameAnswers.tokenize source

theorem show_eq : options'.show = options.show := by
  funext json source draws
  have hrun : options'.evaluator.run = options.evaluator.run :=
    funext (Evaluator.run_congr h.symbols_eq h.tokenize_eq)
  unfold Options.show showTokens showValue Evaluator.evaluate Evaluator.runTokens
  rw [h.tokens, h.tokenize_eq, hrun]

/-- What is shown is the same, with the same random numbers. -/
theorem run_eq : options'.run = options.run := by
  have hall : ∀ json sources draws, options'.showAll json sources draws = options.showAll json sources draws := by
    intro json sources
    induction sources with
    | nil => exact fun _ => rfl
    | cons source rest ih =>
      intro draws
      simp only [showAll, h.show_eq, ih]
  funext json input draws
  rw [run, run, h.expressions, hall]

end Alike

theorem isAllowed_of_disabled {s : String} (h : s ∈ options.disabled) :
    options.evaluator.operators.isAllowed s = false := by
  rw [OperatorSet.isAllowed, lookup_evaluator, if_pos h]
  rfl

/-- The expressions of a run. -/
def sources (options : Options) (input : String) : List String :=
  if options.expressions.isEmpty then inputLines input else options.expressions

/-- A run of expressions that draw nothing shows the same for all random numbers. -/
theorem run_still {json : Json.Codec} {input : String} (h : ∀ source ∈ options.sources input, options.Still source)
    (draws draws' : Draws) : options.run json input draws = options.run json input draws' := by
  have halone (draws : Draws) : ∀ source ∈ options.sources input, ∀ draws',
      (options.show json source draws').1 = (options.show json source draws).1 :=
    fun source hsource draws' => (h source hsource).show_eq draws' draws
  show options.showAll json (options.sources input) draws = options.showAll json (options.sources input) draws'
  rw [showAll_eq draws (halone draws'), showAll_eq draws' (halone draws')]

end Options

/-! ## Rearranged arguments -/

/-- The same options and expressions, with the definitions in the same order and the expressions, too. -/
structure Rearranged (items items' : List Item) : Prop where
  perm : items.Perm items'
  names : valuesOf .name items' = valuesOf .name items
  texts : textsOf items' = textsOf items

namespace Rearranged

variable {items items' : List Item}

theorem append (h : Rearranged items items') (more : List Item) : Rearranged (items ++ more) (items' ++ more) where
  perm := h.perm.append_right more
  names := by rw [valuesOf_append, valuesOf_append, h.names]
  texts := by rw [textsOf_append, textsOf_append, h.texts]

theorem mem_values (h : Rearranged items items') {option : ValueOption} {value : String} :
    value ∈ valuesOf option items' ↔ value ∈ valuesOf option items := by
  rw [mem_valuesOf, mem_valuesOf, h.perm.mem_iff]

/-- What was taken up can be taken up in the other order. -/
theorem exists_alike (h : Rearranged items items') {options : Options}
    (hall : Options.none.addAll items = .ok options) :
    ∃ options', Options.none.addAll items' = .ok options' ∧ options.Alike options' := by
  have hcollected := Options.collected_of_addAll hall
  have hnames : ∀ text ∈ valuesOf .name items', ∃ entry, readName text = .ok entry := by
    intro text htext
    have hmem : readName text ∈ options.names.map .ok := by
      rw [hcollected.names, ← h.names]
      exact List.mem_map_of_mem htext
    obtain ⟨entry, -, hentry⟩ := List.mem_map.1 hmem
    exact ⟨entry, hentry.symm⟩
  obtain ⟨options', hall'⟩ := Options.exists_addAll hnames (h.perm.count_eq _ ▸ hcollected.once)
  have hcollected' := Options.collected_of_addAll hall'
  refine ⟨options', hall', ?_, fun s => ?_, fun s => ?_, ?_, ?_⟩
  · have hmap := hcollected'.names.trans ((congrArg _ h.names).trans hcollected.names.symm)
    exact List.map_injective_iff.2 (fun _ _ => Except.ok.inj) hmap
  · rw [hcollected'.enabled, hcollected.enabled, h.mem_values]
  · rw [hcollected'.disabled, hcollected.disabled, h.mem_values]
  · rw [Bool.eq_iff_iff, hcollected'.tokens, hcollected.tokens, h.perm.mem_iff]
  · rw [hcollected'.expressions, hcollected.expressions, h.texts]

end Rearranged

/-- The last definition of a name is the one that evaluations find. -/
theorem Collected.get?_last {before after : List Item} {argument id : String} {x : Double} {options : Options}
    (h : Collected (before ++ .valued .name argument :: after) options) (hread : readName argument = .ok (id, x))
    (hlast : ∀ later y, .valued .name later ∈ after → readName later ≠ .ok (id, y)) :
    options.evaluator.symbols.get? id = some (.constant id (.number x)) := by
  have hnames := h.names
  rw [valuesOf_append, List.map_append] at hnames
  obtain ⟨names, rest, hsplit, -, hrest⟩ := List.map_eq_append_iff.1 hnames
  rw [show valuesOf .name (.valued .name argument :: after) = argument :: valuesOf .name after from rfl,
    List.map_cons, hread] at hrest
  obtain ⟨entry, later, rfl, hentry, hlater⟩ := List.map_eq_cons_iff.1 hrest
  cases hentry
  have hnone : ∀ v, (id, v) ∉ later.map fun entry => (entry.1, Value.number entry.2) := by
    intro v hv
    obtain ⟨⟨_, y⟩, hmem, hy⟩ := List.mem_map.1 hv
    cases hy
    obtain ⟨text, htext, hreads⟩ := List.mem_map.1 (hlater ▸ List.mem_map_of_mem hmem)
    exact hlast text y (mem_valuesOf.1 htext) hreads
  rw [Options.evaluator, hsplit, List.map_append, List.map_cons]
  exact Evaluator.get?_defineNames _ _ hnone

/-- Arguments in front of two dashes, or of the end, write options and expressions. If the arguments are accepted, those
that write the same in another order are, too, as long as the definitions stay in order and the expressions do; and then
a run shows the same with the same random numbers, and with any where its expressions draw none. A spelling that is
switched off somewhere among the arguments is not allowed, and the last definition of a name is the one that counts. -/
theorem shows_rearranged {parse : Parser} (hparse : parse.Documented) {front tail texts : List String}
    {options : Options} (hread : parse (front ++ tail) = .ok options) (hfront : "--" ∉ front) (ht : Ending tail texts) :
    (∃ items, Writes none front items) ∧ ∀ items, Writes none front items →
      (∀ front' items', Writes none front' items' → Rearranged items items' →
        (∃ options', parse (front' ++ tail) = .ok options' ∧ options'.run = options.run) ∧
          ∀ json input, (∀ source ∈ options.sources input, options.Still source) →
            ∃ output, Shows parse json (front ++ tail) input output ∧ Shows parse json (front' ++ tail) input output) ∧
      (∀ s, .valued .disable s ∈ items → options.evaluator.operators.isAllowed s = false) ∧
      ∀ before argument after id x, items = before ++ .valued .name argument :: after →
        readName argument = .ok (id, x) → (∀ later y, .valued .name later ∈ after → readName later ≠ .ok (id, y)) →
          options.evaluator.symbols.get? id = some (.constant id (.number x)) := by
  refine ⟨hparse.writes hread hfront ht, fun items hw => ?_⟩
  have hall := (hparse.reads hw ht).1 hread
  have hcollected := Options.collected_of_addAll hall
  refine ⟨fun front' items' hw' hitems => ?_, fun s hs => ?_, ?_⟩
  · obtain ⟨options', hall', halike⟩ := (hitems.append (texts.map Item.expression)).exists_alike hall
    have hread' := (hparse.reads hw' ht).2 hall'
    refine ⟨⟨options', hread', halike.run_eq⟩, fun json input hstill => ?_⟩
    refine ⟨options.run json input default, ⟨options, hread, fun draws => ?_⟩, options', hread', fun draws => ?_⟩
    · exact Options.run_still hstill draws default
    · rw [halike.run_eq]
      exact Options.run_still hstill draws default
  · refine Options.isAllowed_of_disabled ?_
    rw [hcollected.disabled, mem_valuesOf]
    exact List.mem_append_left _ hs
  · rintro before argument after id x rfl hargument hlast
    rw [List.append_assoc, List.cons_append] at hcollected
    refine hcollected.get?_last hargument fun later y hlater => hlast later y ?_
    simpa using hlater

/-- The power switched on and off, and a number named in between. -/
theorem shows_rearranged_switched :
    let front := ["-d", "^", "-n", "x=1", "\"a\"", "--operator=^"]
    let front' := ["-o^", "\"a\"", "--disable-operator", "^", "-nx=1"]
    ∃ options output, Options.read (front ++ ["--", "\"b\""]) = .ok options ∧
      Shows Options.read .compact (front ++ ["--", "\"b\""]) "" output ∧
      Shows Options.read .compact (front' ++ ["--", "\"b\""]) "" output ∧
      options.evaluator.operators.isAllowed "^" = false ∧
      options.evaluator.symbols.get? "x" = some (.constant "x" (.number 1)) := by
  intro front front'
  let options : Options := ⟨[("x", 1)], ["^"], ["^"], false, ["\"a\"", "\"b\""]⟩
  have hread : Options.read (front ++ ["--", "\"b\""]) = .ok options := rfl
  have hpower : IsPlain "^" := isPlain_of_head? (by decide)
  have hstring : IsPlain "\"a\"" := isPlain_of_head? (by decide)
  have hw : Writes none front
      [.valued .disable "^", .valued .name "x=1", .expression "\"a\"", .valued .operator "^"] :=
    .option (.letters (.bare .disable) nofun) (.value hpower
      (.option (.letters (.bare .name) nofun) (.value (isPlain_of_head? (by decide))
        (.expression hstring (.option (.equals .operator "^") .nil)))))
  have hw' : Writes none front'
      [.valued .operator "^", .expression "\"a\"", .valued .disable "^", .valued .name "x=1"] :=
    .option (.letters (@Letters.glued .operator ['^'] nofun (by decide)) nofun) (.expression hstring
      (.option (.bare .disable) (.value hpower
        (.option (.letters (@Letters.glued .name ['x', '=', '1'] nofun (by decide)) nofun) .nil))))
  have hitems : Rearranged
      [.valued .disable "^", .valued .name "x=1", .expression "\"a\"", .valued .operator "^"]
      [.valued .operator "^", .expression "\"a\"", .valued .disable "^", .valued .name "x=1"] :=
    ⟨by decide, rfl, rfl⟩
  have hstill : ∀ source ∈ options.sources "", options.Still source := by
    have hvalue (s : String) : options.evaluator.run callDepth [.string s] = pure (.string s) := rfl
    refine List.forall_mem_cons.2 ⟨fun _ tokens ht => ?_, List.forall_mem_singleton.2 fun _ tokens ht => ?_⟩
    · have htokens : options.evaluator.tokenize "\"a\"" = .ok [.string "a"] :=
        Scanner.tokensFrom_token rfl rfl (Scanner.tokensFrom_nil _ _)
      cases htokens.symm.trans ht
      exact .inl ⟨_, hvalue "a"⟩
    · have htokens : options.evaluator.tokenize "\"b\"" = .ok [.string "b"] :=
        Scanner.tokensFrom_token rfl rfl (Scanner.tokensFrom_nil _ _)
      cases htokens.symm.trans ht
      exact .inl ⟨_, hvalue "b"⟩
  obtain ⟨-, hall⟩ := shows_rearranged read_documented hread (by decide) (.dashes ["\"b\""])
  obtain ⟨horder, hdisabled, hnames⟩ := hall _ hw
  obtain ⟨output, hshows, hshows'⟩ := (horder front' _ hw' hitems).2 .compact "" hstill
  refine ⟨options, output, hread, hshows, hshows', hdisabled "^" List.mem_cons_self, ?_⟩
  exact hnames [.valued .disable "^"] "x=1" [.expression "\"a\"", .valued .operator "^"] "x" 1 rfl rfl (by simp)

end CommandLine

end Formula
