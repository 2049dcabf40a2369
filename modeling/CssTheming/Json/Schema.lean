import CssTheming.Json.Decode
import CssTheming.Json.Document
import CssTheming.Schema

/-!
# Schemas in JSON

A value node says by its `type` what else it holds. It can also be an array that starts with the type.
-/

namespace CssTheming

namespace Value

mutual
def Node.toJson : Node → Json
  | .word value => .record [("type", .text "word"), ("value", .text value)]
  | .string value quote =>
    .record [("type", .text "string"), ("value", .text value), ("quote", .text quote.toString)]
  | .divider value before after =>
    .record [("type", .text "div"), ("value", .text value), ("before", .text before), ("after", .text after)]
  | .space value => .record [("type", .text "space"), ("value", .text value)]
  | .comment value => .record [("type", .text "comment"), ("value", .text value)]
  | .call name before after args key =>
    .record ([("type", .text "function"), ("value", .text name), ("before", .text before), ("after", .text after),
      ("nodes", .array (nodesToJson args))] ++ key.toList.map fun key => ("key", .text key))

def nodesToJson : List Node → List Json
  | [] => []
  | n :: ns => n.toJson :: nodesToJson ns
end

/-- A text of one character. -/
def char? (j : Json) : Option Char := do
  match (← Json.string? j).toList with
  | [c] => some c
  | _ => none

/-- What a node holds besides its type: the rest of an array or the entries of an object. -/
def typeAndRest? : Json → Option (String × Json)
  | .array (kind :: rest) => do return (← Json.string? kind, .array rest)
  | .object entries =>
    match entries.filter fun e => e.1 = some "type" with
    | [(_, kind)] => do return (← Json.string? kind, .object (entries.filter fun e => e.1 ≠ some "type"))
    | _ => none
  | _ => none

/-- The fields of a call. In an array the key may be left out. -/
def callFields? (rest : Json) : Option (List (Option Json)) :=
  let names := ["value", "before", "after", "nodes", "key"]
  match rest with
  | .array [a, b, c, d] => Json.fields? names (.array [a, b, c, d, .null])
  | rest => Json.fields? names rest

/-- The node of a tree; nodes are nested at most `fuel` deep. -/
def node? (fuel : Nat) (j : Json) : Option Node := do
  match fuel with
  | 0 => none
  | fuel + 1 =>
    let (kind, rest) ← typeAndRest? j
    match kind with
    | "word" =>
      match ← Json.fields? ["value"] rest with
      | [some value] => return .word (← Json.string? value)
      | _ => none
    | "string" =>
      match ← Json.fields? ["value", "quote"] rest with
      | [some value, some quote] => return .string (← Json.string? value) (← char? quote)
      | _ => none
    | "div" =>
      match ← Json.fields? ["value", "before", "after"] rest with
      | [some value, some before, some after] =>
        return .divider (← Json.string? value) (← Json.string? before) (← Json.string? after)
      | _ => none
    | "space" =>
      match ← Json.fields? ["value"] rest with
      | [some value] => return .space (← Json.string? value)
      | _ => none
    | "comment" =>
      match ← Json.fields? ["value"] rest with
      | [some value] => return .comment (← Json.string? value)
      | _ => none
    | "function" =>
      match ← callFields? rest with
      | [some name, some before, some after, some args, key] =>
        return .call (← Json.string? name) (← Json.string? before) (← Json.string? after)
          (← (← Json.items? args).mapM (node? fuel)) (← Json.optional? Json.string? key)
      | _ => none
    | _ => none

mutual
/-- Whether every leaf of a tree names a value and it is nested at most so many levels deep. -/
def isPlain (levels : Nat) : Json → Bool
  | .number value => value.isSome
  | .string value => value.isSome
  | .array items => levels > 0 && arePlain (levels - 1) items
  | .object entries => levels > 0 && entriesArePlain (levels - 1) entries
  | _ => true

def arePlain (levels : Nat) : List Json → Bool
  | [] => true
  | j :: js => isPlain levels j && arePlain levels js

def entriesArePlain (levels : Nat) : List (Option String × Json) → Bool
  | [] => true
  | (key, j) :: rest => key.isSome && isPlain levels j && entriesArePlain levels rest
end

/-- Value nodes that stand so many levels deep in a text. -/
def nodes? (depth : Nat) (j : Json) : Option (List Node) := do
  let items ← Json.items? j
  if arePlain (Json.maxDepth - depth) items then items.mapM (node? Json.maxDepth) else none

end Value

def SchemaUsage.ofJson? (j : Json) : Option SchemaUsage := do
  match ← Json.fields? ["selectors", "property", "value", "tokens"] j with
  | [some selectors, some property, some value, some tokens] =>
    return ⟨← Json.strings? selectors, ← Json.string? property, ← Json.string? value, ← Value.nodes? 4 tokens⟩
  | _ => none

def SchemaUsage.toJson (u : SchemaUsage) : Json :=
  .record [("selectors", .texts u.selectors), ("property", .text u.property), ("value", .text u.value),
    ("tokens", .array (Value.nodesToJson u.tokens))]

def Schema.ofJson? (j : Json) : Option Schema := do
  match ← Json.fields? ["path", "usages"] j with
  | [some path, some usages] => return ⟨← Json.string? path, ← (← Json.items? usages).mapM SchemaUsage.ofJson?⟩
  | _ => none

def Schema.toJson (s : Schema) : Json :=
  .record [("path", .text s.path), ("usages", .array (s.usages.map SchemaUsage.toJson))]

end CssTheming
