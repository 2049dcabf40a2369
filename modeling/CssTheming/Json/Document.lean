import CssTheming.Error
import CssTheming.Json.Parser

/-!
# Documents in JSON

A document is nested at most 127 deep and repeats no key.
-/

namespace CssTheming.Json

/-- How deep arrays and objects may be nested. -/
def maxDepth : Nat := 127

/-- Whether a key occurs twice. -/
def hasRepeat : List (Document × Document) → Bool
  | [] => false
  | e :: es => es.any (fun e' => e.1.same e'.1) || hasRepeat es

mutual
/-- The document of a tree with so many levels of nesting. -/
def document? (levels : Nat) : Json → Option Document
  | .null => some .null
  | .bool value => some (.bool value)
  | .number value => value.map .number
  | .string value => value.map .text
  | .array items => if levels = 0 then none else (documents? (levels - 1) items).map .list
  | .object entries =>
    if levels = 0 then none
    else
      match entries? (levels - 1) entries with
      | some es => if hasRepeat es then none else some (.mapping es)
      | none => none

def documents? (levels : Nat) : List Json → Option (List Document)
  | [] => some []
  | j :: js => do return (← document? levels j) :: (← documents? levels js)

def entries? (levels : Nat) : List (Option String × Json) → Option (List (Document × Document))
  | [] => some []
  | (key, j) :: rest => do return (.text (← key), ← document? levels j) :: (← entries? levels rest)
end

/-- Reads a document. -/
def readDocument (text : String) : Except Error Document :=
  match (parse? text).bind (document? maxDepth) with
  | some d => .ok d
  | none => .error (.format .json)

end CssTheming.Json
