import CssTheming.Decimal.Read
import CssTheming.Text.Hex
import CssTheming.Toml.Basic

/-!
# Scalars in TOML
-/

namespace CssTheming.Toml

def isBlank (c : Char) : Bool := c = ' ' || c = '\t'

def skipBlank (s : List Char) : List Char := s.dropWhile isBlank

/-- Characters that may stand in comments and, with the exception of quotes and backslashes, in strings. -/
def isPlain (c : Char) : Bool := c = '\t' || (0x20 ≤ c.toNat && c.toNat ≠ 0x7F)

/-- What follows a line break. -/
def newline? : List Char → Option (List Char)
  | '\n' :: r => some r
  | '\r' :: '\n' :: r => some r
  | _ => none

/-! ## Strings -/

/-- The character that an escape writes, by what follows the backslash, and the rest. -/
def readEscape : List Char → Option (Char × List Char)
  | 'b' :: r => some ('\x08', r)
  | 't' :: r => some ('\t', r)
  | 'n' :: r => some ('\n', r)
  | 'f' :: r => some ('\x0c', r)
  | 'r' :: r => some ('\r', r)
  | '"' :: r => some ('"', r)
  | '\\' :: r => some ('\\', r)
  | 'u' :: r =>
    if r.length < 4 then none
    else ((Text.hexNumber? (r.take 4)).bind Text.charOfCode?).map fun c => (c, r.drop 4)
  | 'U' :: r =>
    if r.length < 8 then none
    else ((Text.hexNumber? (r.take 8)).bind Text.charOfCode?).map fun c => (c, r.drop 8)
  | _ => none

/-- A string on one line behind its opening quote, and the rest. -/
def readLine (mark : Char) (escapes : Bool) (s : List Char) (fuel : Nat) : Option (List Char × List Char) :=
  match fuel, s with
  | 0, _ => none
  | _, [] => none
  | fuel + 1, c :: r =>
    if c = mark then some ([], r)
    else if escapes && c = '\\' then do
      let (d, r) ← readEscape r
      (readLine mark escapes r fuel).map fun (t, rest) => (d :: t, rest)
    else if isPlain c then (readLine mark escapes r fuel).map fun (t, rest) => (c :: t, rest)
    else none

/-- Skips blanks and line breaks. -/
def skipSpace : List Char → List Char
  | ' ' :: r => skipSpace r
  | '\t' :: r => skipSpace r
  | '\n' :: r => skipSpace r
  | '\r' :: '\n' :: r => skipSpace r
  | r => r

/-- Skips the blanks and line breaks behind a backslash, if there is a line break before anything else. -/
def skipFolded (s : List Char) : Option (List Char) := (newline? (skipBlank s)).map skipSpace

/-- A string of several lines behind its opening quotes, and the rest. Up to two quotes may stand before the closing
ones. -/
def readLines (mark : Char) (escapes : Bool) (s : List Char) (fuel : Nat) : Option (List Char × List Char) :=
  match fuel, s with
  | 0, _ => none
  | _, [] => none
  | fuel + 1, c :: r =>
    if c = mark then
      let run := min 5 ((c :: r).takeWhile (· = mark)).length
      if run ≥ 3 then some (List.replicate (run - 3) mark, (c :: r).drop run)
      else (readLines mark escapes r fuel).map fun (t, rest) => (c :: t, rest)
    else if escapes && c = '\\' then
      match skipFolded r with
      | some r => readLines mark escapes r fuel
      | none => do
        let (d, r) ← readEscape r
        (readLines mark escapes r fuel).map fun (t, rest) => (d :: t, rest)
    else
      match newline? (c :: r) with
      | some r => (readLines mark escapes r fuel).map fun (t, rest) => ('\n' :: t, rest)
      | none => if isPlain c then (readLines mark escapes r fuel).map fun (t, rest) => (c :: t, rest) else none

/-- A string, by the quotes that it opens with, and the rest. A line break right behind three quotes does not count. -/
def readString (s : List Char) : Option (String × List Char) :=
  let content := match s with
    | '"' :: '"' :: '"' :: r => readLines '"' true ((newline? r).getD r) (s.length + 1)
    | '\'' :: '\'' :: '\'' :: r => readLines '\'' false ((newline? r).getD r) (s.length + 1)
    | '"' :: r => readLine '"' true r (s.length + 1)
    | '\'' :: r => readLine '\'' false r (s.length + 1)
    | _ => none
  content.map fun (t, rest) => (String.ofList t, rest)

/-! ## Dates and times -/

/-- So many digits, as a number within bounds, and the rest. -/
def readDigits (count least greatest : Nat) (s : List Char) : Option (Nat × List Char) :=
  let digits := s.take count
  let n := Decimal.ofDigits digits
  if digits.length = count ∧ digits.all Char.isDigit ∧ least ≤ n ∧ n ≤ greatest then some (n, s.drop count) else none

def skipChar (c : Char) : List Char → Option (List Char)
  | d :: r => if d = c then some r else none
  | [] => none

def isLeapYear (year : Nat) : Bool := year % 4 = 0 && (year % 100 ≠ 0 || year % 400 = 0)

def monthLength (year month : Nat) : Nat :=
  if month = 2 then (if isLeapYear year then 29 else 28)
  else if [4, 6, 9, 11].contains month then 30
  else 31

/-- What follows a date. -/
def skipDate (s : List Char) : Option (List Char) := do
  let (year, r) ← readDigits 4 0 9999 s
  let (month, r) ← readDigits 2 1 12 (← skipChar '-' r)
  let (_, r) ← readDigits 2 1 (monthLength year month) (← skipChar '-' r)
  return r

/-- What follows a time of day. -/
def skipTime (s : List Char) : Option (List Char) := do
  let (_, r) ← readDigits 2 0 23 s
  let (_, r) ← readDigits 2 0 59 (← skipChar ':' r)
  let (_, r) ← readDigits 2 0 60 (← skipChar ':' r)
  match r with
  | '.' :: d :: t => if d.isDigit then return t.dropWhile Char.isDigit else return r
  | _ => return r

/-- What follows the offset from universal time, which may be missing. -/
def skipOffset (s : List Char) : Option (List Char) :=
  match s with
  | 'Z' :: r => some r
  | 'z' :: r => some r
  | c :: r =>
    if c = '+' ∨ c = '-' then do
      let (_, t) ← readDigits 2 0 23 r
      let (_, t) ← readDigits 2 0 59 (← skipChar ':' t)
      return t
    else some (c :: r)
  | [] => some []

/-- What follows a date or a time of day or both. -/
def skipDateTime (s : List Char) : Option (List Char) :=
  match skipDate s with
  | some r =>
    match r with
    | c :: t => if ['T', 't', ' '].contains c && (skipTime t).isSome then (skipTime t).bind skipOffset else some r
    | [] => some r
  | none => skipTime s

/-! ## Numbers -/

/-- Digits of a base, which single underscores may separate, and the rest. -/
def readGroups (isDigit : Char → Bool) (s : List Char) : Option (List Char × List Char) :=
  let text := s.takeWhile fun c => isDigit c || c = '_'
  let groups := text.splitBy fun a b => (a = '_') == (b = '_')
  let ends := text.head? ≠ some '_' ∧ text.getLast? ≠ some '_'
  if text ≠ [] ∧ ends ∧ groups.all (fun g => g.head? ≠ some '_' || g.length = 1) then
    some (text.filter (· ≠ '_'), s.drop text.length)
  else none

/-- Whether an integer fits 64 bits with a sign. -/
def fitsWord (n : Int) : Bool := -Int.ofNat (Nat.pow 2 63) ≤ n && n < Int.ofNat (Nat.pow 2 63)

/-- An integer behind `0x`, `0o` or `0b`. -/
def readBased (base : Nat) (s : List Char) : Option (Toml × List Char) := do
  let (digits, r) ← readGroups (fun c => (Text.hexValue? c).any (· < base)) s
  let n := digits.foldl (fun n c => base * n + (Text.hexValue? c).getD 0) 0
  if fitsWord n then some (.integer n, r) else none

/-- Behind the digits of a decimal: its fraction, and the rest. -/
def readFraction : List Char → Option (List Char × List Char)
  | '.' :: r => readGroups Char.isDigit r
  | r => some ([], r)

/-- Behind a fraction: the exponent, if there is one, and the rest. -/
def readExponent (s : List Char) : Option (Option Int × List Char) :=
  match s with
  | c :: r =>
    if c = 'e' ∨ c = 'E' then do
      let (negative, r) := match r with
        | '-' :: t => (true, t)
        | '+' :: t => (false, t)
        | t => (false, t)
      let (digits, rest) ← readGroups Char.isDigit r
      let e : Int := Decimal.ofDigits digits
      return (some (if negative then -e else e), rest)
    else some (none, s)
  | [] => some (none, [])

/-- An integer or a double behind its sign. A zero in front stands alone, and no double may be positive infinity by
being too large. -/
def readDecimal (negative : Bool) (s : List Char) : Option (Toml × List Char) := do
  let (whole, r) ← readGroups Char.isDigit s
  if whole.head? = some '0' && s.head? = some '0' && r.length + 1 ≠ s.length then none
  let (fraction, t) ← readFraction r
  let (exponent, rest) ← readExponent t
  if fraction.isEmpty && exponent.isNone then
    let n : Int := Decimal.ofDigits whole
    let n := if negative then -n else n
    if fitsWord n then some (.integer n, rest) else none
  else
    let x := Decimal.nearest (Decimal.ofDigits (whole ++ fraction)) (exponent.getD 0 - fraction.length)
    if x.isInf && !negative then none else some (.float (if negative then -x else x), rest)

/-- A number behind its sign. -/
def readUnsigned (negative : Bool) : List Char → Option (Toml × List Char)
  | 'i' :: 'n' :: 'f' :: r => some (.float (if negative then -Decimal.infinity else Decimal.infinity), r)
  | 'n' :: 'a' :: 'n' :: r => some (.float (0.0 / 0.0), r)
  | r => readDecimal negative r

def readNumber : List Char → Option (Toml × List Char)
  | '0' :: 'x' :: r => readBased 16 r
  | '0' :: 'o' :: r => readBased 8 r
  | '0' :: 'b' :: r => readBased 2 r
  | '-' :: r => readUnsigned true r
  | '+' :: r => readUnsigned false r
  | r => readUnsigned false r

/-- Whether a date or a time of day begins here. -/
def beginsDateTime (s : List Char) : Bool :=
  let digits := s.takeWhile Char.isDigit
  (digits.length = 4 && s[4]? = some '-') || (digits.length = 2 && s[2]? = some ':')

/-- A scalar, and the rest. -/
def readScalar (s : List Char) : Option (Toml × List Char) :=
  match s with
  | 't' :: 'r' :: 'u' :: 'e' :: r => some (.bool true, r)
  | 'f' :: 'a' :: 'l' :: 's' :: 'e' :: r => some (.bool false, r)
  | c :: _ =>
    if c = '"' ∨ c = '\'' then (readString s).map fun (t, rest) => (.string t, rest)
    else if beginsDateTime s then
      (skipDateTime s).map fun rest => (.time (String.ofList (s.take (s.length - rest.length))), rest)
    else readNumber s
  | [] => none

end CssTheming.Toml
