import Formula.Node

/-!
# Trees as text

The form in which a tree is shown to a developer: each node with its spelling and those of its parts
that are set, on one line.
-/

namespace Formula

mutual

/-- A value with the name of its kind. -/
def Value.render : Value → String
  | .number x => "Number(" ++ Number.exact.write x.toFloat ++ ")"
  | .string s => "String(" ++ Text.quote s ++ ")"
  | .array items => "Array([" ++ ", ".intercalate (Value.renderAll items) ++ "])"

/-- Several values. -/
def Value.renderAll : List Value → List String
  | [] => []
  | v :: rest => v.render :: Value.renderAll rest

end

namespace Node

/-- A node with these fields after its spelling. -/
def renderFields (head : Head) (fields : List String) : String :=
  let literal := (head.literal?.map fun v => "value: " ++ v.render).toList
  let id := "id: " ++ Text.quote head.id
  "Node \x7b " ++ ", ".intercalate (id :: (literal ++ fields)) ++ " \x7d"

mutual

/-- A tree on one line. -/
def render : Node → String
  | .leaf head => renderFields head []
  | .unary head sign a =>
    renderFields head (("first: " ++ render a) :: (if sign then ["prefix: true"] else []))
  | .binary head a b => renderFields head ["first: " ++ render a, "second: " ++ render b]
  | .ternary head a b c =>
    renderFields head ["first: " ++ render a, "second: " ++ render b, "third: " ++ render c]
  | .sequence head [] => renderFields head []
  | .sequence head (item :: items) =>
    renderFields head
      ["args: [" ++ ", ".intercalate (render item :: renderAll items) ++ "]"]

/-- Several trees. -/
def renderAll : List Node → List String
  | [] => []
  | node :: rest => render node :: renderAll rest

end

end Node

end Formula
