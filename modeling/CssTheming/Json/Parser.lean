import CssTheming.Json.Basic
import CssTheming.Json.Numeral
import CssTheming.Text.Hex
import CssTheming.Text.Lexeme

/-!
# Reading JSON

`parse?` goes over the text once, with the arrays and objects that are open on a stack, and refuses what is not JSON.
-/

namespace CssTheming.Json

def isBlank (c : Char) : Bool := c = ' ' || c = '\t' || c = '\n' || c = '\r'

def skipBlank (s : List Char) : List Char := s.dropWhile isBlank

def isDigit (c : Char) : Bool := '0' ≤ c && c ≤ '9'

/-! ## Strings -/

/-- The 16-bit unit that four hexadecimal digits write. -/
def hexUnit? (a b c d : Char) : Option Nat := do
  return 4096 * (← Text.hexValue? a) + 256 * (← Text.hexValue? b) + 16 * (← Text.hexValue? c) + (← Text.hexValue? d)

/-- What an escape writes: a character or a unit that may be half of a pair. -/
def simpleEscape? : Char → Option Char
  | '"' => some '"'
  | '\\' => some '\\'
  | '/' => some '/'
  | 'b' => some '\x08'
  | 'f' => some '\x0c'
  | 'n' => some '\n'
  | 'r' => some '\r'
  | 't' => some '\t'
  | _ => none

/-- The units of a string behind its opening quote, through its closing quote, and the rest. A character counts as the
unit of its code point. -/
def readUnits : List Char → Option (List Nat × List Char)
  | [] => none
  | '"' :: r => some ([], r)
  | '\\' :: 'u' :: a :: b :: c :: d :: r =>
    match hexUnit? a b c d with
    | some n => (readUnits r).map fun (t, rest) => (n :: t, rest)
    | none => none
  | '\\' :: e :: r =>
    match simpleEscape? e with
    | some c => (readUnits r).map fun (t, rest) => (c.toNat :: t, rest)
    | none => none
  | c :: r =>
    if c = '\\' ∨ c.toNat < 0x20 then none else (readUnits r).map fun (t, rest) => (c.toNat :: t, rest)

/-- The text of units, a high surrogate and the low one behind it being one character; none if half of a pair stands
alone. -/
def ofUnits? : List Nat → Option (List Char)
  | [] => some []
  | m :: n :: r =>
    if 0xD800 ≤ m ∧ m < 0xDC00 ∧ 0xDC00 ≤ n ∧ n < 0xE000 then
      (ofUnits? r).map (Char.ofNat (0x10000 + 0x400 * (m - 0xD800) + (n - 0xDC00)) :: ·)
    else if 0xD800 ≤ m ∧ m < 0xE000 then none
    else (ofUnits? (n :: r)).map (Char.ofNat m :: ·)
  | [m] => if 0xD800 ≤ m ∧ m < 0xE000 then none else some [Char.ofNat m]

/-! ## Numerals -/

/-- The fraction behind a numeral's whole part: a point and at least one digit, or nothing. -/
def readFraction (s : List Char) : Option (List Char × List Char) :=
  match s with
  | '.' :: r => if (r.takeWhile isDigit).isEmpty then none else some (r.takeWhile isDigit, r.dropWhile isDigit)
  | r => some ([], r)

/-- The sign and digits of an exponent, whether it is negative first. -/
def readExponentDigits (negative : Bool) (s : List Char) : Option (Option (Bool × List Char) × List Char) :=
  if (s.takeWhile isDigit).isEmpty then none else some (some (negative, s.takeWhile isDigit), s.dropWhile isDigit)

def readExponent (s : List Char) : Option (Option (Bool × List Char) × List Char) :=
  match s with
  | c :: r =>
    if c = 'e' ∨ c = 'E' then
      match r with
      | '+' :: t => readExponentDigits false t
      | '-' :: t => readExponentDigits true t
      | t => readExponentDigits false t
    else some (none, c :: r)
  | [] => some (none, [])

/-- A numeral behind its sign. A zero in front stands alone. -/
def readNumeral (negative : Bool) (s : List Char) : Option (Numeral × List Char) := do
  let whole := s.takeWhile isDigit
  if whole.isEmpty || (whole.head? == some '0' && whole.length > 1) then none
  else
    let (fraction, r) ← readFraction (s.dropWhile isDigit)
    let (exponent, rest) ← readExponent r
    return (⟨negative, whole, fraction, exponent⟩, rest)

/-! ## Values -/

/-- Scalars other than strings, by their first character, and the rest. -/
def readScalar (s : List Char) : Option (Json × List Char) :=
  match s with
  | 'n' :: 'u' :: 'l' :: 'l' :: r => some (.null, r)
  | 't' :: 'r' :: 'u' :: 'e' :: r => some (.bool true, r)
  | 'f' :: 'a' :: 'l' :: 's' :: 'e' :: r => some (.bool false, r)
  | '-' :: r => (readNumeral true r).map fun (n, rest) => (.number n.number?, rest)
  | r => (readNumeral false r).map fun (n, rest) => (.number n.number?, rest)

/-- The text of the units of a string. -/
def stringOf (units : List Nat) : Option String := (ofUnits? units).map String.ofList

/-- The key of an entry behind its opening quote, through the colon, and the rest. -/
def readKey (s : List Char) : Option (Option String × List Char) :=
  match readUnits s with
  | some (units, rest) =>
    match skipBlank rest with
    | ':' :: r => some (stringOf units, r)
    | _ => none
  | none => none

/-- An array or object whose closing bracket has not been read, its items so far last first. -/
inductive Frame where
  | array (items : List Json)
  | object (entries : List (Option String × Json)) (key : Option String)

/-- What is read next: a value, or what may follow one. -/
inductive Mode where
  | value
  | behind (value : Json)

/-- Reads on in a mode, with the open arrays and objects. -/
def run (mode : Mode) (s : List Char) (frames : List Frame) (fuel : Nat) : Option Json :=
  match fuel with
  | 0 => none
  | fuel + 1 =>
    match mode with
    | .value =>
      match skipBlank s with
      | '[' :: r =>
        match skipBlank r with
        | ']' :: t => run (.behind (.array [])) t frames fuel
        | t => run .value t (.array [] :: frames) fuel
      | '{' :: r =>
        match skipBlank r with
        | '}' :: t => run (.behind (.object [])) t frames fuel
        | '"' :: t => (readKey t).bind fun (key, u) => run .value u (.object [] key :: frames) fuel
        | _ => none
      | '"' :: r => (readUnits r).bind fun (units, t) => run (.behind (.string (stringOf units))) t frames fuel
      | t => (readScalar t).bind fun (value, u) => run (.behind value) u frames fuel
    | .behind value =>
      match frames, skipBlank s with
      | [], [] => some value
      | .array items :: fs, ',' :: r => run .value r (.array (value :: items) :: fs) fuel
      | .array items :: fs, ']' :: r => run (.behind (.array (value :: items).reverse)) r fs fuel
      | .object entries key :: fs, ',' :: r =>
        match skipBlank r with
        | '"' :: t => (readKey t).bind fun (key', u) => run .value u (.object ((key, value) :: entries) key' :: fs) fuel
        | _ => none
      | .object entries key :: fs, '}' :: r => run (.behind (.object ((key, value) :: entries).reverse)) r fs fuel
      | _, _ => none

/-- The tree of a text. Every step of the reader but the last takes at least one character. -/
def parse? (text : String) : Option Json := run .value text.toList [] (text.length + 1)

end CssTheming.Json
