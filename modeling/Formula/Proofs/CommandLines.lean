import Formula.CommandLine.Run
import Formula.Json.Reader
import Formula.Proofs.Arguments
import Formula.Proofs.CallDepth
import Formula.Proofs.Lines
import Formula.Proofs.Reports
import Formula.Proofs.Substitution

/-!
# Expressions among the arguments and on lines

A run takes its expressions from the arguments behind two dashes, or else from the lines of the input. Two dashes end
the options (`Parser.Documented.read_append`), and a text that is written as lines is cut into these lines again
(`inputLines_eq`). From there on both runs go through the same list, and what is shown for an expression that draws
nothing does not depend on what was evaluated in front of it (`showAll_eq`). What is shown for several expressions ends
with the first one at which the program breaks off, and that is one with an error that is too far to the right to be
reported (`Options.broken_show`).
-/

namespace Formula.CommandLine

/-! ## Arguments behind two dashes -/

theorem Options.addAll_expressions (options : Options) : ∀ texts : List String,
    options.addAll (texts.map .expression) = .ok { options with expressions := options.expressions ++ texts }
  | [] => by
    rw [List.append_nil]
    rfl
  | text :: rest => by
    have hrest := addAll_expressions { options with expressions := options.expressions ++ [text] } rest
    rw [List.append_assoc] at hrest
    exact hrest

/-- The options, and behind two dashes the expressions. -/
theorem Parser.Documented.read_append {parse : Parser} (hparse : parse.Documented) {arguments : List String}
    {options : Options} (h : parse arguments = .ok options) (hdashes : "--" ∉ arguments) (texts : List String) :
    parse (arguments ++ "--" :: texts) = .ok { options with expressions := options.expressions ++ texts } := by
  rw [← arguments.append_nil] at h
  obtain ⟨items, hw⟩ := hparse.writes h hdashes .nil
  have hall := (hparse.reads hw .nil).1 h
  rw [List.map_nil, List.append_nil] at hall
  refine (hparse.reads hw (.dashes texts)).2 ?_
  rw [Options.addAll_append, hall]
  exact options.addAll_expressions texts

/-! ## Lines of an input -/

/-- The text is not white space throughout, and is the same after it was written as a line. -/
structure IsLine (line : String) : Prop where
  not_blank : Text.isBlankText line = false
  newline : '\n' ∉ line.toList
  carriageReturn : line.toList.getLast? ≠ some '\r'

/-- The input consists of these lines; the last one may have no end. -/
inductive Written : List String → String → Prop
  | nil : Written [] ""
  | last (line : String) : Written [line] line
  | newline {lines : List String} {input : String} (line : String) : Written lines input →
    Written (line :: lines) (line ++ "\n" ++ input)
  | carriageReturn {lines : List String} {input : String} (line : String) : Written lines input →
    Written (line :: lines) (line ++ "\r\n" ++ input)

/-! The end of a line is dropped, and nothing else. -/

section LineEnds

variable {line : List Char}

theorem dropLineEnd_of_not_mem (h : '\n' ∉ line) : dropLineEnd line = line := by
  rw [← List.mem_reverse] at h
  unfold dropLineEnd
  split
  · next hreverse => simp [hreverse] at h
  · next hreverse => simp [hreverse] at h
  · rfl

theorem dropLineEnd_newline (h : line.getLast? ≠ some '\r') : dropLineEnd (line ++ ['\n']) = line := by
  have hreverse : (line ++ ['\n']).reverse = '\n' :: line.reverse := List.reverse_append
  rw [List.getLast?_eq_head?_reverse] at h
  rw [dropLineEnd, hreverse]
  split
  · next hline =>
    rw [(List.cons.inj hline).2] at h
    exact absurd rfl h
  · next hline =>
    rw [← (List.cons.inj hline).2]
    exact line.reverse_reverse
  · next hother => exact absurd rfl (hother line.reverse)

theorem dropLineEnd_carriageReturn (line : List Char) : dropLineEnd (line ++ ['\r', '\n']) = line := by
  rw [dropLineEnd, List.reverse_append]
  exact line.reverse_reverse

end LineEnds

namespace IsLine

variable {line : String} (h : IsLine line)
include h

theorem ne_nil : line.toList ≠ [] := by
  intro hnil
  have hblank := h.not_blank
  rw [Text.isBlankText, hnil] at hblank
  cases hblank

/-- The first piece of an input is a line that is evaluated. -/
theorem inputLines_cons {input rest : String} {piece : List Char}
    (hpieces : Text.pieces input.toList = piece :: Text.pieces rest.toList) (hdrop : dropLineEnd piece = line.toList) :
    inputLines input = line :: inputLines rest := by
  rw [inputLines, hpieces, List.map_cons, hdrop, String.ofList_toList,
    List.filter_cons_of_pos (by rw [h.not_blank]; rfl)]
  rfl

theorem inputLines_newline (rest : String) : inputLines (line ++ "\n" ++ rest) = line :: inputLines rest := by
  refine h.inputLines_cons ?_ (dropLineEnd_newline h.carriageReturn)
  rw [String.toList_append, String.toList_append, List.append_assoc]
  exact Text.pieces_line h.newline rest.toList

theorem inputLines_carriageReturn (rest : String) : inputLines (line ++ "\r\n" ++ rest) = line :: inputLines rest := by
  have hline : '\n' ∉ line.toList ++ ['\r'] := by simp [h.newline]
  have hpieces := Text.pieces_line hline rest.toList
  rw [List.append_assoc, List.append_assoc] at hpieces
  refine h.inputLines_cons ?_ (dropLineEnd_carriageReturn line.toList)
  rw [String.toList_append, String.toList_append, List.append_assoc]
  exact hpieces

end IsLine

/-- The lines that an input consists of are those that are evaluated. -/
theorem inputLines_eq {lines : List String} {input : String} (hw : Written lines input)
    (h : ∀ line ∈ lines, IsLine line) : inputLines input = lines := by
  induction hw with
  | nil => rfl
  | last line =>
    have hline := List.forall_mem_singleton.1 h
    have hpieces : Text.pieces line.toList = line.toList :: Text.pieces "".toList :=
      Text.pieces_of_not_mem hline.newline hline.ne_nil
    exact hline.inputLines_cons hpieces (dropLineEnd_of_not_mem hline.newline)
  | newline line _ ih =>
    obtain ⟨hline, hlines⟩ := List.forall_mem_cons.1 h
    rw [hline.inputLines_newline, ih hlines]
  | carriageReturn line _ ih =>
    obtain ⟨hline, hlines⟩ := List.forall_mem_cons.1 h
    rw [hline.inputLines_carriageReturn, ih hlines]

/-- A name with an operator behind it is a line. -/
theorem isLine_behind_name (n : Nat) : IsLine (String.ofList (List.replicate n 'a' ++ ['$'])) where
  not_blank := by
    rw [Text.isBlankText, String.toList_ofList, List.all_append, Bool.and_eq_false_iff]
    exact .inr rfl
  newline h := by
    rw [String.toList_ofList, List.mem_append] at h
    rcases h with h | h
    · exact absurd (List.eq_of_mem_replicate h) (by decide)
    · exact absurd (List.mem_singleton.1 h) (by decide)
  carriageReturn := by
    rw [String.toList_ofList, List.getLast?_concat]
    decide

/-! ## What is shown -/

namespace Output

/-- The outputs up to the first one that breaks off. -/
def reached : List Output → List Output
  | [] => []
  | o :: rest => if o.broken then [o] else o :: reached rest

/-- Several outputs after another, as far as they are reached. -/
def concat (outputs : List Output) : Output where
  standard := String.join ((reached outputs).map standard)
  errors := String.join ((reached outputs).map errors)
  failed := (reached outputs).any failed
  broken := (reached outputs).any broken

theorem concat_cons (o : Output) (outputs : List Output) : concat (o :: outputs) = o.append (concat outputs) := by
  cases h : o.broken with
  | true =>
    rw [append, if_pos h, concat, reached, if_pos h]
    simp [String.join_cons]
  | false => simp [concat, append, reached, h, String.join_cons]

theorem concat_singleton (o : Output) : concat [o] = o := by
  simp [concat, reached, String.join_cons]

/-- All are reached if none in front of the last one breaks off. -/
theorem reached_eq_iff : ∀ {outputs : List Output},
    reached outputs = outputs ↔ ∀ o ∈ outputs.dropLast, o.broken = false
  | [] => by simp [reached]
  | [o] => by simp [reached]
  | o :: next :: rest => by
    rw [reached, List.dropLast_cons_cons, List.forall_mem_cons, ← reached_eq_iff]
    cases h : o.broken <;> simp

theorem code_eq_zero {o : Output} : o.code = 0 ↔ o.failed = false ∧ o.broken = false := by
  rw [code]
  split <;> simp_all

theorem code_append {a b : Output} : (a.append b).code = 0 ↔ a.code = 0 ∧ b.code = 0 := by
  cases h : a.broken with
  | true => simp [append, code_eq_zero, h]
  | false =>
    simp only [append, h, code_eq_zero]
    grind

theorem code_concat {outputs : List Output} : (concat outputs).code = 0 ↔ ∀ o ∈ outputs, o.code = 0 := by
  induction outputs with
  | nil => simp [concat, reached, code]
  | cons o outputs ih => rw [concat_cons, code_append, ih, List.forall_mem_cons]

theorem broken_report {source : String} {error : Error} :
    (report source error).broken = true ↔ Report.render? source error = Option.none := by
  rw [report]
  cases Report.render? source error with
  | none => simp
  | some text => simp [failure]

end Output

namespace Options

variable {options : Options} {json : Json.Codec}

/-- The expression is evaluated, if it is, without a random number. -/
def Still (options : Options) (source : String) : Prop :=
  options.tokens = false → ∀ tokens, options.evaluator.tokenize source = .ok tokens →
    EvalM.Still (options.evaluator.run callDepth tokens)

/-- What is shown for an expression that draws nothing is the same for all random numbers. -/
theorem Still.show_eq {source : String} (h : options.Still source) (draws draws' : Draws) :
    (options.show json source draws).1 = (options.show json source draws').1 := by
  rw [Options.show, Options.show]
  split
  · rfl
  · next htokens =>
    rw [showValue, showValue, Evaluator.evaluate]
    cases ht : options.evaluator.tokenize source with
    | error error => rfl
    | ok tokens =>
      simp only [Evaluator.runTokens]
      rcases h (by simpa using htokens) tokens ht with ⟨v, hv⟩ | ⟨stop, hstop⟩
      · rw [hv]
        rfl
      · rw [hstop]
        cases stop <;> rfl

/-- An error of the scanner is reported. -/
theorem show_of_error {source : String} {error : ScanError} (ht : options.evaluator.tokenize source = .error error)
    (draws : Draws) : (options.show json source draws).1 = .report source (.scan error) := by
  rw [Options.show]
  split
  · rw [showTokens, ht]
  · rw [showValue, Evaluator.evaluate, ht]
    rfl

/-- Nothing is shown for the expressions behind one at which the program breaks off. -/
theorem showAll_of_broken {source : String} {draws : Draws} {o : Output}
    (h : (options.show json source draws).1 = o) (hbroken : o.broken = true) (rest : List String) :
    options.showAll json (source :: rest) draws = o := by
  have hcons : options.showAll json (source :: rest) draws = (options.show json source draws).1.append
      (options.showAll json rest (options.show json source draws).2) := rfl
  rw [hcons, h, Output.append, if_pos hbroken]

/-- The program breaks off at an expression exactly if the scanner refuses it at a place that cannot be reported. -/
theorem broken_show {source : String} {draws : Draws} : (options.show json source draws).1.broken = true ↔
    ∃ error, options.evaluator.tokenize source = .error error ∧
      Report.render? source (.scan error) = Option.none := by
  cases ht : options.evaluator.tokenize source with
  | error error =>
    rw [show_of_error ht, Output.broken_report]
    simp
  | ok tokens =>
    have hshow : (options.show json source draws).1.broken = false := by
      rw [Options.show]
      split
      · simp only [showTokens, ht]
        split <;> rfl
      · simp only [showValue, Evaluator.evaluate, ht, Evaluator.runTokens]
        rcases options.evaluator.run callDepth tokens draws with ⟨v, draws'⟩ | ⟨error | _, draws'⟩ <;> rfl
    rw [hshow]
    simp

/-- Each output follows those in front of it. -/
theorem showAll_eq {alone : String → Output} : ∀ {sources : List String} (draws : Draws),
    (∀ source ∈ sources, ∀ draws, (options.show json source draws).1 = alone source) →
    options.showAll json sources draws = .concat (sources.map alone)
  | [], _, _ => rfl
  | source :: rest, draws, h => by
    obtain ⟨hsource, hrest⟩ := List.forall_mem_cons.1 h
    rw [List.map_cons, Output.concat_cons, ← hsource draws, ← showAll_eq (options.show json source draws).2 hrest]
    rfl

theorem trimmed_evaluator (options : Options) : options.evaluator.symbols.Trimmed :=
  Evaluator.trimmed_defineNames _ SymbolTable.trimmed_standard

/-- The bound on calls is never met: the same comes out with any larger one. -/
theorem run_callDepth (options : Options) (depth : Nat) (tokens : List Token) :
    options.evaluator.run (depth + callDepth) tokens = options.evaluator.run callDepth tokens :=
  (Evaluator.run_settled options.trimmed_evaluator (n := depth) (m := 0) tokens).1

/-- No expression is given up for the depth of its calls. -/
theorem evaluate_ne_exhausted (options : Options) (source : String) (draws draws' : Draws) :
    options.evaluator.evaluate callDepth (.text source) draws ≠ .error .exhausted draws' := by
  rw [Evaluator.evaluate]
  cases options.evaluator.tokenize source with
  | error error => exact fun h => by cases h
  | ok tokens =>
    have hrun := (Evaluator.run_settled options.trimmed_evaluator (n := 0) (m := 0) tokens).2 draws
    simp only [Evaluator.runTokens]
    intro h
    split at h
    · cases h
    · cases h
    · next hexhausted => exact hrun _ hexhausted

end Options

/-! ## Runs -/

section Runs

variable (parse : Parser) (json : Json.Codec)

/-- Whatever the random numbers are, a run with these arguments and this input shows this. -/
def Shows (arguments : List String) (input : String) (output : Output) : Prop :=
  ∃ options, parse arguments = .ok options ∧ ∀ draws, options.run json input draws = output

/-- With these options, the output is shown for the expressions among the arguments as well as on the lines of the
input. -/
def ShowsFor (arguments expressions : List String) (output : Output) : Prop :=
  (∀ input, Shows parse json (arguments ++ "--" :: expressions) input output) ∧
    ∀ input, Written expressions input → Shows parse json arguments input output

variable {parse} {arguments expressions : List String} {options : Options}

theorem showsFor (hparse : parse.Documented) (hread : parse arguments = .ok options) (hnone : options.expressions = [])
    (hdashes : "--" ∉ arguments) (hne : expressions ≠ []) (hlines : ∀ e ∈ expressions, IsLine e)
    {alone : String → Output} (halone : ∀ e ∈ expressions, ∀ draws, (options.show json e draws).1 = alone e) :
    ShowsFor parse json arguments expressions (.concat (expressions.map alone)) := by
  constructor
  · intro input
    refine ⟨_, hparse.read_append hread hdashes expressions, fun draws => ?_⟩
    rw [hnone, List.nil_append, Options.run, if_neg (by simpa using hne)]
    exact Options.showAll_eq draws halone
  · intro input hw
    refine ⟨options, hread, fun draws => ?_⟩
    rw [Options.run, hnone, inputLines_eq hw hlines]
    exact Options.showAll_eq draws halone

/-- Where the arguments hold options only, neither expressions nor the dashes behind them, it is one and the same
whether expressions follow among the arguments or stand on the lines of the input: what is shown for them is what is
shown for each of them alone, in order, up to the first one at which the program breaks off, and the run succeeds
exactly if all of them do alone. So all of it comes out exactly if the program breaks off at none but the last one, and
it breaks off exactly where the scanner refuses an expression at a place that cannot be reported. -/
theorem showsFor_concat (hparse : parse.Documented) (hread : parse arguments = .ok options)
    (hnone : options.expressions = []) (hdashes : "--" ∉ arguments) (hne : expressions ≠ [])
    (hlines : ∀ e ∈ expressions, IsLine e) (hstill : ∀ e ∈ expressions, options.Still e) :
    ∃ alone : String → Output, (∀ e ∈ expressions, ShowsFor parse json arguments [e] (alone e)) ∧
      ShowsFor parse json arguments expressions (.concat (expressions.map alone)) ∧
      ((Output.concat (expressions.map alone)).code = 0 ↔ ∀ e ∈ expressions, (alone e).code = 0) ∧
      (∀ e ∈ expressions, (alone e).broken = true ↔
        ∃ error, options.evaluator.tokenize e = .error error ∧ Report.render? e (.scan error) = none) ∧
      (Output.reached (expressions.map alone) = expressions.map alone ↔
        ∀ e ∈ expressions.dropLast, (alone e).broken = false) := by
  let alone : String → Output := fun e => (options.show json e default).1
  have halone : ∀ e ∈ expressions, ∀ draws, (options.show json e draws).1 = alone e := fun e he draws =>
    (hstill e he).show_eq draws default
  refine ⟨alone, fun e he => ?_, showsFor json hparse hread hnone hdashes hne hlines halone, ?_,
    fun e _ => Options.broken_show, ?_⟩
  · rw [← Output.concat_singleton (alone e)]
    exact showsFor json hparse hread hnone hdashes (List.cons_ne_nil e []) (List.forall_mem_singleton.2 (hlines e he))
      (List.forall_mem_singleton.2 (halone e he))
  · rw [Output.code_concat, List.forall_mem_map]
  · rw [Output.reached_eq_iff, ← List.map_dropLast, List.forall_mem_map]

end Runs

/-- Behind an error that is too far to the right to be reported, a string is not evaluated any more: neither among the
arguments nor on the next line, which has another end. -/
theorem showsFor_concat_broken :
    let long := String.ofList (List.replicate 65535 'a' ++ ['$'])
    ∃ output, Shows Options.read .compact ["-n", "x=1", "--", long, "\"a\""] "" output ∧
      Shows Options.read .compact ["-n", "x=1"] (long ++ "\r\n" ++ "\"a\"") output ∧
      output.standard = "" ∧ output.code = 101 := by
  intro long
  let options : Options := ⟨[("x", 1)], [], [], false, []⟩
  have hoperators : options.evaluator.tokenize = OperatorSet.standard.tokenize := rfl
  have hlong : OperatorSet.standard.tokenize long =
      .error { fault := .invalidOperator, text := "$", position := 65535 } := OperatorSet.tokenize_behind_name 65534
  rw [← hoperators] at hlong
  have hreport : Report.render? long (.scan { fault := .invalidOperator, text := "$", position := 65535 }) = none :=
    Report.render?_behind_name (Nat.le_refl _) _ _
  have hline : IsLine long := isLine_behind_name 65535
  clear_value long
  have hstring : options.evaluator.tokenize "\"a\"" = .ok [.string "a"] :=
    Scanner.tokensFrom_token rfl rfl (Scanner.tokensFrom_nil _ _)
  have hvalue : options.evaluator.run callDepth [.string "a"] = pure (.string "a") := rfl
  have hstill : ∀ e ∈ [long, "\"a\""], options.Still e := by
    refine List.forall_mem_cons.2 ⟨fun _ tokens ht => ?_, List.forall_mem_singleton.2 fun _ tokens ht => ?_⟩
    · cases hlong.symm.trans ht
    · cases hstring.symm.trans ht
      exact .inl ⟨_, hvalue⟩
  have hlines : ∀ e ∈ [long, "\"a\""], IsLine e :=
    List.forall_mem_cons.2 ⟨hline, List.forall_mem_singleton.2 ⟨rfl, by decide, by decide⟩⟩
  have hread : Options.read ["-n", "x=1"] = .ok options := rfl
  obtain ⟨alone, -, ⟨hargs, hinput⟩, -⟩ :=
    showsFor_concat .compact read_documented hread rfl (by decide) (List.cons_ne_nil _ _) hlines hstill
  refine ⟨_, hargs "", hinput _ (.carriageReturn long (.last "\"a\"")), ?_⟩
  obtain ⟨options', hread', hrun⟩ := hargs ""
  obtain rfl : options' = { options with expressions := [long, "\"a\""] } := Except.ok.inj (hread'.symm.trans rfl)
  rw [← hrun default]
  have heval : Options.evaluator { options with expressions := [long, "\"a\""] } = options.evaluator := rfl
  rw [← heval] at hlong
  have hall : Options.run { options with expressions := [long, "\"a\""] } .compact "" default =
      ⟨"", "", true, true⟩ := by
    rw [Options.run, if_neg (by simp)]
    refine Options.showAll_of_broken ?_ rfl _
    rw [Options.show_of_error hlong, Output.report, hreport]
  rw [hall]
  exact ⟨rfl, rfl⟩

end Formula.CommandLine
