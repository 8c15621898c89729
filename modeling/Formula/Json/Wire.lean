import Formula.Json.Codec
import Formula.Token
import Formula.Value

/-!
# Tokens and values in JSON

A token is an object with the fields `type` and `value`, in any order and among others, or an array
of the two. A value is a number, a string or an array of values. The text of a document is left to a library for JSON
(`Json.Codec`).
-/

namespace Formula

/-! ## Writing -/

/-- The document for a payload. -/
def Payload.toJson : Payload → Json.Tree Double
  | .number x => .number x
  | .text s => .string (some s)

/-- The document for a token. -/
def Token.toJson (t : Token) : Json.Tree Double :=
  .object [(some "type", .string (some t.kind.label)), (some "value", t.payload.toJson)]

/-- The document for several tokens. -/
def Token.listToJson (ts : List Token) : Json.Tree Double := .array (ts.map Token.toJson)

mutual

/-- The document for a value. -/
def Value.toJson : Value → Json.Tree Double
  | .number x => .number x
  | .string s => .string (some s)
  | .array items => .array (Value.allToJson items)

/-- The documents for several values. -/
def Value.allToJson : List Value → List (Json.Tree Double)
  | [] => []
  | v :: rest => v.toJson :: Value.allToJson rest

end

/-! ## Reading -/

/-- The kind with this name. -/
def TokenKind.ofLabel? : String → Option TokenKind
  | "number" => some .number
  | "string" => some .string
  | "name" => some .name
  | "operator" => some .operator
  | _ => none

/-- A kind is its name, or an object whose one field has that name and no value. -/
def TokenKind.ofJson? : Json.Tree (Option Double) → Option TokenKind
  | .string (some s) => TokenKind.ofLabel? s
  | .object [(some s, .null)] => TokenKind.ofLabel? s
  | _ => none

/-- A payload is a number or a string. -/
def Payload.ofJson? : Json.Tree (Option Double) → Option Payload
  | .number (some x) => some (.number x)
  | .string (some s) => some (.text s)
  | _ => none

/-- The one field with a name. -/
def Json.field? (name : String) (fields : List (Option String × Json.Tree (Option Double))) :
    Option (Json.Tree (Option Double)) :=
  match fields.filter (fun (key, _) => key == some name) with
  | [(_, tree)] => some tree
  | _ => none

/-- The token with this kind and payload. -/
def Token.ofParts? (kind payload : Json.Tree (Option Double)) : Option Token :=
  match TokenKind.ofJson? kind, Payload.ofJson? payload with
  | some kind, some payload => some ⟨kind, payload⟩
  | _, _ => none

/-- The token that a document stands for. -/
def Token.ofJson? : Json.Tree (Option Double) → Option Token
  | .array [kind, payload] => Token.ofParts? kind payload
  | .object fields =>
    if fields.all (fun (key, _) => key.isSome) then
      match Json.field? "type" fields, Json.field? "value" fields with
      | some kind, some payload => Token.ofParts? kind payload
      | _, _ => none
    else none
  | _ => none

/-- The tokens that a text stands for. -/
def Token.readList? (c : Json.Codec) (text : String) : Option (List Token) :=
  match c.read? text with
  | some (.array items) => items.mapM Token.ofJson?
  | _ => none

mutual

/-- The value that a document stands for. -/
def Value.ofJson? : Json.Tree (Option Double) → Option Value
  | .number (some x) => some (.number x)
  | .string (some s) => some (.string s)
  | .array items => (Value.allOfJson? items).map .array
  | _ => none

/-- The values that several documents stand for. -/
def Value.allOfJson? : List (Json.Tree (Option Double)) → Option (List Value)
  | [] => some []
  | tree :: rest =>
    match Value.ofJson? tree, Value.allOfJson? rest with
    | some v, some vs => some (v :: vs)
    | _, _ => none

end

/-- The value that a text stands for. -/
def Value.read? (c : Json.Codec) (text : String) : Option Value := (c.read? text).bind Value.ofJson?

end Formula
