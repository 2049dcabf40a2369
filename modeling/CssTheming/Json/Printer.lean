import CssTheming.Json.Basic

/-!
# Writing JSON

Trees are written over several lines, two spaces a level. Doubles show a sign in positive exponents, and those that are
not finite are written as `null`.
-/

namespace CssTheming.Json

def numberLayout : Decimal.Layout := ⟨-5, 15, true, "null", "null", "null"⟩

def numberText : Number → String
  | .int value => toString value
  | .float value => numberLayout.text value

def hexDigit (n : Nat) : Char := (Nat.toDigits 16 n).headD '0'

/-- A character inside quotes. -/
def escapeChar (c : Char) : List Char :=
  if c = '"' then ['\\', '"']
  else if c = '\\' then ['\\', '\\']
  else if c = '\x08' then ['\\', 'b']
  else if c = '\x09' then ['\\', 't']
  else if c = '\x0a' then ['\\', 'n']
  else if c = '\x0c' then ['\\', 'f']
  else if c = '\x0d' then ['\\', 'r']
  else if c.toNat < 0x20 then ['\\', 'u', '0', '0', hexDigit (c.toNat / 16), hexDigit (c.toNat % 16)]
  else [c]

def quote (value : String) : String := String.ofList ('"' :: value.toList.flatMap escapeChar ++ ['"'])

def lineBreak (depth : Nat) : String := "\n" ++ String.ofList (List.replicate (2 * depth) ' ')

mutual
/-- A leaf without a value is written as `null`. -/
def pretty (depth : Nat) : Json → String
  | .null => "null"
  | .bool value => if value then "true" else "false"
  | .number value => (value.map numberText).getD "null"
  | .string value => (value.map quote).getD "null"
  | .array items => if items.isEmpty then "[]" else "[" ++ prettyItems (depth + 1) items ++ lineBreak depth ++ "]"
  | .object entries =>
    if entries.isEmpty then "\x7b\x7d" else "\x7b" ++ prettyEntries (depth + 1) entries ++ lineBreak depth ++ "\x7d"

def prettyItems (depth : Nat) : List Json → String
  | [] => ""
  | j :: js => lineBreak depth ++ pretty depth j ++ (if js.isEmpty then "" else ",") ++ prettyItems depth js

def prettyEntries (depth : Nat) : List (Option String × Json) → String
  | [] => ""
  | (key, j) :: rest =>
    lineBreak depth ++ quote (key.getD "") ++ ": " ++ pretty depth j ++ (if rest.isEmpty then "" else ",") ++
      prettyEntries depth rest
end

def print (j : Json) : String := pretty 0 j

end CssTheming.Json
