import Formula.Proofs.NestedCalls

/-!
# Callbacks as list functions

A function of an array and a function calls the latter by its name, and each call is an evaluation of its own. As long
as the values of a call leave a level for it, the call is what the function's rule makes of the values
(`Evaluator.call_of_need_le`), so the five functions are the list functions for that rule: `mapM`, `filterM`, `allM`,
`anyM`, and a fold over the elements with their indices (`OnLists`).

Each of them is a recursion over the elements, and is compared with the list function at the elements that it comes to:
behind the element that decides it comes to no other one (`Searches.decided`), and the values that a
fold hands on are known as the fold goes on only, so the condition on them is carried through it (`foldItems_eq`).
-/

namespace Formula

/-- The value leaves a level for a call that takes it. -/
def Value.Fits (v : Value) : Prop := 1 + v.need ≤ maxDepth

instance : DecidablePred Value.Fits := fun v => inferInstanceAs (Decidable (1 + v.need ≤ maxDepth))

/-- Called with values that leave a level for the call, the function of this name does what `apply` does. -/
def Reentry.CallsAs (reentry : Reentry) (f : String) (apply : List Value → EvalM Value) : Prop :=
  ∀ values : List Value, (∀ v ∈ values, v.Fits) → reentry.call f values = apply values

namespace Value.Fits

theorem number (x : Double) : (Value.number x).Fits := by
  rw [Fits, need, maxDepth]
  decide

theorem of_mem {items : List Value} (h : (array items).Fits) {v : Value} (hv : v ∈ items) : v.Fits := by
  have hneed := needAll_le.1 (Nat.le_refl (needAll items)) v hv
  rw [Fits, need] at h
  rw [Fits]
  omega

end Value.Fits

namespace Library

/-! ## The list functions -/

/-- Whether the result for an element is true. -/
def holds (f : OnElement) (x : Value) : EvalM Bool := do
  let v ← f x
  pure v.isTruthy

section Fold

variable (apply : List Value → EvalM Value) (items : List Value)

/-- What the function makes of an accumulator and an element with its index in the array. -/
def foldedWith (accumulator : Value) (element : Value × Nat) : EvalM Value :=
  apply [accumulator, element.1, .number (Double.ofNat element.2), .array items]

/-- The elements from an index on, folded into an accumulator. -/
def folded (start : Nat) (initial : Value) : EvalM Value :=
  ((items.drop start).zipIdx start).foldlM (foldedWith apply items) initial

/-- Wherever the fold has come to an element, the accumulator and the array leave a level for a call. -/
def FoldFits (start : Nat) (initial : Value) (draws : Draws) : Prop :=
  ∀ n accumulator draws', start + n < items.length →
    (((items.drop start).zipIdx start).take n).foldlM (foldedWith apply items) initial draws = .ok accumulator draws' →
    accumulator.Fits ∧ (Value.array items).Fits

end Fold

/-! ## The recursions over the elements -/

section Recursions

variable {f g : OnElement}

theorem mapItems_eq : ∀ {items : List Value}, (∀ x ∈ items, f x = g x) → mapItems f items = items.mapM g
  | [], _ => rfl
  | x :: rest, h => by
    obtain ⟨hx, hrest⟩ := List.forall_mem_cons.1 h
    rw [mapItems, List.mapM_cons, hx, mapItems_eq hrest]

/-- The filter collects the elements from the last one on, in front of those that it has. -/
theorem filterAuxM_eq : ∀ {items : List Value} (kept : List Value), (∀ x ∈ items, f x = g x) →
    items.filterAuxM (holds g) kept = filterItems f items >>= fun vs => pure (vs.reverse ++ kept)
  | [], _, _ => rfl
  | x :: rest, kept, h => by
    obtain ⟨hx, hrest⟩ := List.forall_mem_cons.1 h
    simp only [List.filterAuxM, filterItems, holds, bind_assoc, pure_bind, hx, filterAuxM_eq _ hrest]
    refine bind_congr fun v => bind_congr fun vs => ?_
    cases v.isTruthy <;> simp

theorem filterItems_eq {items : List Value} (h : ∀ x ∈ items, f x = g x) :
    filterItems f items = items.filterM (holds g) := by
  simp [List.filterM, filterAuxM_eq _ h]

/-- A search goes through the elements until the result for one of them is the decisive one. -/
structure Searches (f : OnElement) (decisive : Bool) (search : List Value → EvalM Bool) : Prop where
  nil : search [] = pure !decisive
  cons (x : Value) (rest : List Value) :
    search (x :: rest) = holds f x >>= fun b => if b = decisive then pure decisive else search rest

theorem searches_everyItem (f : OnElement) : Searches f false (everyItem f) where
  nil := rfl
  cons x rest := by
    simp only [everyItem, holds, bind_assoc, pure_bind]
    refine bind_congr fun v => ?_
    cases v.isTruthy <;> rfl

theorem searches_someItem (f : OnElement) : Searches f true (someItem f) where
  nil := rfl
  cons x rest := by simp only [someItem, holds, bind_assoc, pure_bind]

theorem searches_allM (f : OnElement) : Searches f false (List.allM (holds f)) where
  nil := rfl
  cons x rest := by
    rw [List.allM_cons]
    refine bind_congr fun b => ?_
    cases b <;> rfl

theorem searches_anyM (f : OnElement) : Searches f true (List.anyM (holds f)) where
  nil := rfl
  cons _ _ := List.anyM_cons

namespace Searches

variable {decisive : Bool} {search search' : List Value → EvalM Bool}

theorem eq (h : Searches f decisive search) (h' : Searches g decisive search') :
    ∀ {items : List Value}, (∀ x ∈ items, f x = g x) → search items = search' items
  | [], _ => by rw [h.nil, h'.nil]
  | x :: rest, hfg => by
    obtain ⟨hx, hrest⟩ := List.forall_mem_cons.1 hfg
    rw [h.cons, h'.cons, eq h h' hrest, holds, holds, hx]

/-- What is behind the first decisive element is not looked at. -/
theorem decided (h : Searches f decisive search) {v : Value} {draws₁ draws₂ : Draws} (rest : List Value)
    (hv : holds f v draws₁ = .ok decisive draws₂) :
    ∀ {seen : List Value} {draws : Draws}, search seen draws = .ok (!decisive) draws₁ →
      search (seen ++ v :: rest) draws = .ok decisive draws₂
  | [], draws, hseen => by
    rw [h.nil] at hseen
    obtain ⟨-, rfl⟩ := pure_ok.1 hseen
    rw [List.nil_append, h.cons]
    exact bind_ok.2 ⟨decisive, draws₂, hv, by rw [if_pos rfl]; rfl⟩
  | x :: seen, draws, hseen => by
    rw [h.cons] at hseen
    obtain ⟨b, draws', hx, hseen⟩ := bind_ok.1 hseen
    rw [List.cons_append, h.cons]
    refine bind_ok.2 ⟨b, draws', hx, ?_⟩
    split at hseen
    · exact absurd (pure_ok.1 hseen).1 (by simp)
    · next hb =>
      rw [if_neg hb]
      exact decided h rest hv hseen

end Searches

/-- A fold is compared at the accumulators that it comes to. -/
theorem foldItems_eq {step : Value → Value → Nat → EvalM Value} {plain : Value → Value × Nat → EvalM Value} :
    ∀ {items : List Value} {index : Nat} {initial : Value} {draws : Draws},
      (∀ n accumulator draws' x, items[n]? = some x →
        ((items.zipIdx index).take n).foldlM plain initial draws = .ok accumulator draws' →
        step accumulator x (index + n) = plain accumulator (x, index + n)) →
      foldItems step index initial items draws = (items.zipIdx index).foldlM plain initial draws
  | [], _, _, _, _ => rfl
  | x :: rest, index, initial, draws, h => by
    have hstep : step initial x index = plain initial (x, index) := h 0 initial draws x rfl rfl
    rw [foldItems, List.zipIdx_cons, List.foldlM_cons, hstep]
    cases hx : plain initial (x, index) draws with
    | error stop draws₁ => simp only [bind, EStateM.bind, hx]
    | ok next draws₁ =>
      simp only [bind, EStateM.bind, hx]
      refine foldItems_eq fun n accumulator draws' y hy hfold => ?_
      rw [Nat.add_assoc, Nat.add_comm 1 n]
      refine h (n + 1) accumulator draws' y hy ?_
      rw [List.zipIdx_cons, List.take_succ_cons, List.foldlM_cons]
      exact bind_ok.2 ⟨next, draws₁, hx, hfold⟩

end Recursions

/-! ## The functions -/

/-- The functions that take a callback are list functions for what `f` does. -/
structure OnLists (reentry : Reentry) (f : String) (apply : List Value → EvalM Value) : Prop where
  map {items : List Value} (name : String) (more : List Value) : (∀ x ∈ items, x.Fits) →
    mapRule reentry ⟨name, .array items :: .string f :: more⟩ =
      items.mapM (fun x => apply [x]) >>= fun vs => pure (.array vs)
  filter {items : List Value} (name : String) (more : List Value) : (∀ x ∈ items, x.Fits) →
    filterRule reentry ⟨name, .array items :: .string f :: more⟩ =
      items.filterM (holds fun x => apply [x]) >>= fun vs => pure (.array vs)
  every {items : List Value} (name : String) (more : List Value) : (∀ x ∈ items, x.Fits) →
    everyRule reentry ⟨name, .array items :: .string f :: more⟩ =
      items.allM (holds fun x => apply [x]) >>= fun b => pure (.ofBool b)
  some {items : List Value} (name : String) (more : List Value) : (∀ x ∈ items, x.Fits) →
    someRule reentry ⟨name, .array items :: .string f :: more⟩ =
      items.anyM (holds fun x => apply [x]) >>= fun b => pure (.ofBool b)
  /-- Whatever stands behind the first element that does not hold, the result is there. -/
  every_decided {draws draws₁ draws₂ : Draws} (name : String) (seen : List Value) (v : Value)
    (rest more : List Value) : (∀ x ∈ seen, x.Fits) → v.Fits →
    seen.allM (holds fun x => apply [x]) draws = .ok true draws₁ →
    holds (fun x => apply [x]) v draws₁ = .ok false draws₂ →
    everyRule reentry ⟨name, .array (seen ++ v :: rest) :: .string f :: more⟩ draws = .ok (.ofBool false) draws₂
  /-- Whatever stands behind the first element that holds, the result is there. -/
  some_decided {draws draws₁ draws₂ : Draws} (name : String) (seen : List Value) (v : Value)
    (rest more : List Value) : (∀ x ∈ seen, x.Fits) → v.Fits →
    seen.anyM (holds fun x => apply [x]) draws = .ok false draws₁ →
    holds (fun x => apply [x]) v draws₁ = .ok true draws₂ →
    someRule reentry ⟨name, .array (seen ++ v :: rest) :: .string f :: more⟩ draws = .ok (.ofBool true) draws₂
  reduce {items : List Value} {initial : Value} {draws : Draws} (name : String) (more : List Value) :
    FoldFits apply items 0 initial draws →
    reduceRule reentry ⟨name, .array items :: .string f :: initial :: more⟩ draws = folded apply items 0 initial draws
  reduce_first {first : Value} {rest : List Value} {draws : Draws} (name : String) :
    FoldFits apply (first :: rest) 1 first draws →
    reduceRule reentry ⟨name, [.array (first :: rest), .string f]⟩ draws = folded apply (first :: rest) 1 first draws

/-- The table has the functions that take a callback under their names, and they get their arguments as they are. -/
structure HasCallbacks (table : SymbolTable) : Prop where
  map : table.get? "mapA" = Option.some (.function "mapA" .exact mapRule)
  filter : table.get? "filterA" = Option.some (.function "filterA" .exact filterRule)
  every : table.get? "everyA" = Option.some (.function "everyA" .exact everyRule)
  some : table.get? "someA" = Option.some (.function "someA" .exact someRule)
  reduce : table.get? "reduceA" = Option.some (.function "reduceA" .exact reduceRule)

/-- On an empty array, nothing depends on what the callback does or whether there is one: only a fold without an
initial accumulator fails. -/
structure OnEmpty (reentry : Reentry) (f : String) : Prop where
  map (name : String) (more : List Value) : mapRule reentry ⟨name, .array [] :: .string f :: more⟩ = pure (.array [])
  filter (name : String) (more : List Value) :
    filterRule reentry ⟨name, .array [] :: .string f :: more⟩ = pure (.array [])
  every (name : String) (more : List Value) :
    everyRule reentry ⟨name, .array [] :: .string f :: more⟩ = pure (.ofBool true)
  some (name : String) (more : List Value) :
    someRule reentry ⟨name, .array [] :: .string f :: more⟩ = pure (.ofBool false)
  reduce (name : String) (initial : Value) (more : List Value) :
    reduceRule reentry ⟨name, .array [] :: .string f :: initial :: more⟩ = pure initial
  reduce_first (name : String) : reduceRule reentry ⟨name, [.array [], .string f]⟩ =
    EvalM.fail (.argumentRange (Call.describe ⟨name, [.array [], .string f]⟩)
      "an empty array needs an initial accumulator")

theorem onEmpty (reentry : Reentry) (f : String) : OnEmpty reentry f where
  map _ _ := rfl
  filter _ _ := rfl
  every _ _ := rfl
  some _ _ := rfl
  reduce _ _ _ := rfl
  reduce_first _ := rfl

section Rules

theorem everyRule_call (reentry : Reentry) (name f : String) (items more : List Value) :
    everyRule reentry ⟨name, .array items :: .string f :: more⟩ =
      everyItem (fun x => reentry.call f [x]) items >>= fun b => pure (.ofBool b) := rfl

theorem someRule_call (reentry : Reentry) (name f : String) (items more : List Value) :
    someRule reentry ⟨name, .array items :: .string f :: more⟩ =
      someItem (fun x => reentry.call f [x]) items >>= fun b => pure (.ofBool b) := rfl

variable {reentry : Reentry} {f : String} {apply : List Value → EvalM Value} (h : reentry.CallsAs f apply)
include h

theorem call_element {x : Value} (hx : x.Fits) : reentry.call f [x] = apply [x] :=
  h [x] (List.forall_mem_singleton.2 hx)

theorem holds_element {x : Value} (hx : x.Fits) :
    holds (fun x => reentry.call f [x]) x = holds (fun x => apply [x]) x := by
  rw [holds, holds, call_element h hx]

/-- The fold calls the function with values that leave a level. -/
theorem foldStep_eq {items : List Value} {accumulator x : Value} (index : Nat) (hacc : accumulator.Fits)
    (hitems : (Value.array items).Fits) (hx : x ∈ items) :
    foldStep reentry f items accumulator x index = foldedWith apply items accumulator (x, index) := by
  refine h _ fun v hv => ?_
  simp only [List.mem_cons, List.not_mem_nil, or_false] at hv
  rcases hv with rfl | rfl | rfl | rfl
  · exact hacc
  · exact hitems.of_mem hx
  · exact .number _
  · exact hitems

/-- The elements behind the first ones are folded in with their indices in the whole array. -/
theorem foldItems_drop {items : List Value} {initial : Value} {draws : Draws} (start : Nat)
    (hfits : FoldFits apply items start initial draws) :
    foldItems (foldStep reentry f items) start initial (items.drop start) draws =
      folded apply items start initial draws := by
  refine foldItems_eq fun n accumulator draws' x hx hfold => ?_
  rw [List.getElem?_drop] at hx
  obtain ⟨hn, -⟩ := List.getElem?_eq_some_iff.1 hx
  obtain ⟨hacc, hitems⟩ := hfits n accumulator draws' hn hfold
  exact foldStep_eq h _ hacc hitems (List.mem_of_getElem? hx)

theorem onLists : OnLists reentry f apply where
  map name more hfits := by
    rw [← mapItems_eq fun x hx => call_element h (hfits x hx)]
    rfl
  filter name more hfits := by
    rw [← filterItems_eq fun x hx => call_element h (hfits x hx)]
    rfl
  every name more hfits := by
    rw [everyRule_call, (searches_everyItem _).eq (searches_allM _) fun x hx => call_element h (hfits x hx)]
  some name more hfits := by
    rw [someRule_call, (searches_someItem _).eq (searches_anyM _) fun x hx => call_element h (hfits x hx)]
  every_decided name seen v rest more hseen hv hall hfalse := by
    rw [← (searches_everyItem _).eq (searches_allM _) fun x hx => call_element h (hseen x hx)] at hall
    rw [← holds_element h hv] at hfalse
    rw [everyRule_call]
    exact bind_ok.2 ⟨false, _, (searches_everyItem _).decided rest hfalse hall, rfl⟩
  some_decided name seen v rest more hseen hv hany htrue := by
    rw [← (searches_someItem _).eq (searches_anyM _) fun x hx => call_element h (hseen x hx)] at hany
    rw [← holds_element h hv] at htrue
    rw [someRule_call]
    exact bind_ok.2 ⟨true, _, (searches_someItem _).decided rest htrue hany, rfl⟩
  reduce name more hfits := foldItems_drop h 0 hfits
  reduce_first name hfits := foldItems_drop h 1 hfits

end Rules

end Library

namespace Evaluator

open Library (HasCallbacks OnLists OnEmpty onLists onEmpty mapRule filterRule everyRule someRule reduceRule)

variable {e : Evaluator} {f : String} {s : Symbol} {rule : FunctionRule} {mode : ArgumentMode}

theorem callsAs (ht : e.symbols.Structural) (hf : e.symbols.get? f = some s) (hk : s.kind = .function rule mode)
    (hbare : mode ≠ .bare) (depth : Nat) :
    (e.reentry (depth + 1)).CallsAs f fun values => rule (e.reentry depth) ⟨f, mode.arrange values⟩ := by
  intro values hfits
  have hall : Value.needAll values ≤ maxDepth - 1 := Value.needAll_le.2 fun v hv => Nat.le_sub_of_add_le' (hfits v hv)
  refine call_of_need_le ht hf hk hbare ?_
  rw [maxDepth] at hall ⊢
  omega

theorem hasCallbacks_standard : HasCallbacks standard.symbols where
  map := rfl
  filter := rfl
  every := rfl
  some := rfl
  reduce := rfl

/-- With the function that a name stands for, the library's functions that take a callback are the list functions for
its rule on the values after its argument mode; on an empty array the name may be any. -/
theorem callbacks_onLists (ht : e.symbols.Structural) (hf : e.symbols.get? f = some s)
    (hk : s.kind = .function rule mode) (hbare : mode ≠ .bare) (depth : Nat) :
    HasCallbacks standard.symbols ∧
      OnLists (e.reentry (depth + 1)) f (fun values => rule (e.reentry depth) ⟨f, mode.arrange values⟩) ∧
      ∀ reentry unknown, OnEmpty reentry unknown :=
  ⟨hasCallbacks_standard, onLists (callsAs ht hf hk hbare depth), onEmpty⟩

/-- With a function that gives its only argument or an array of several: an element that is nested too deep for a call
stands behind the one that decides, and a fold starts with the first element or with a value in front of it. -/
theorem callbacks_onLists_pick :
    let pick : FunctionRule := fun _ call =>
      pure (match call.arguments with
        | [x] => x
        | values => .array values)
    let e := standard.define (.function "pick" .exact pick)
    let a := Value.string "a"
    let empty := Value.string ""
    let deep := (fun v => Value.array [v])^[256] a
    let whole := Value.array [a, empty]
    mapRule (e.reentry 1) ⟨"mapA", [.array [a, empty, a], .string "pick"]⟩ = pure (.array [a, empty, a]) ∧
      filterRule (e.reentry 1) ⟨"filterA", [.array [a, empty, a], .string "pick"]⟩ = pure (.array [a, a]) ∧
      (∀ draws, everyRule (e.reentry 1) ⟨"everyA", [.array [a, empty, deep], .string "pick"]⟩ draws =
        .ok (.ofBool false) draws) ∧
      (∀ draws, someRule (e.reentry 1) ⟨"someA", [.array [empty, a, deep], .string "pick"]⟩ draws =
        .ok (.ofBool true) draws) ∧
      (∀ draws, reduceRule (e.reentry 1) ⟨"reduceA", [whole, .string "pick", a]⟩ draws =
        .ok (.array [.array [a, a, .number (Double.ofNat 0), whole], empty, .number (Double.ofNat 1), whole]) draws) ∧
      (∀ draws, reduceRule (e.reentry 1) ⟨"reduceA", [whole, .string "pick"]⟩ draws =
        .ok (.array [a, empty, .number (Double.ofNat 1), whole]) draws) ∧
      mapRule (e.reentry 1) ⟨"mapA", [.array [], .string "unknown"]⟩ = pure (.array []) := by
  intro pick e a empty deep whole
  have ht : e.symbols.Structural := fun id hid =>
    SymbolTable.get?_define_of_ne _ _ (by rintro rfl; exact absurd hid (by decide))
  have hf : e.symbols.get? "pick" = _ := SymbolTable.get?_define _ _
  obtain ⟨-, h, hempty⟩ := callbacks_onLists ht hf rfl (by decide) 0
  have hwhole : whole.Fits := by decide
  refine ⟨h.map "mapA" [] ?_, h.filter "filterA" [] ?_, fun draws => ?_, fun draws => ?_, fun draws => ?_,
    fun draws => ?_, (hempty _ "unknown").map "mapA" []⟩
  · decide
  · decide
  · exact h.every_decided "everyA" [a] empty [deep] [] (by decide) (by decide) rfl rfl
  · exact h.some_decided "someA" [empty] a [deep] [] (by decide) (by decide) rfl rfl
  · refine h.reduce "reduceA" [] fun n accumulator draws' hn hfold => ⟨?_, hwhole⟩
    obtain rfl | rfl : n = 0 ∨ n = 1 := by
      simp only [List.length_cons, List.length_nil] at hn
      omega
    · cases hfold
      decide
    · cases hfold
      decide
  · refine h.reduce_first "reduceA" fun n accumulator draws' hn hfold => ⟨?_, hwhole⟩
    obtain rfl : n = 0 := by
      simp only [List.length_cons, List.length_nil] at hn
      omega
    cases hfold
    decide

end Evaluator

end Formula
