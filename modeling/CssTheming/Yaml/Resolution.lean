import CssTheming.Decimal.Read
import CssTheming.Document.Basic
import CssTheming.Text.Hex

/-!
# What scalars mean

A plain scalar is null, a boolean, an integer, a double or else text; a quoted one is text. Tags of the core schema ask
for one of these.
-/

namespace CssTheming.Yaml

def isNull (text : String) : Bool := ["null", "Null", "NULL", "~"].contains text

def bool? (text : String) : Option Bool :=
  if ["true", "True", "TRUE"].contains text then some true
  else if ["false", "False", "FALSE"].contains text then some false
  else none

/-! ## Integers -/

/-- The number that one or more digits of a base write. -/
def digits? (base : Nat) (s : List Char) : Option Nat :=
  if s.isEmpty then none
  else s.foldlM (fun n c => (Text.hexValue? c).bind fun d => if d < base then some (base * n + d) else none) 0

/-- Digits behind a zero do not write a number. -/
def hasLeadingZero : List Char → Bool
  | '0' :: d :: r => (d :: r).all Char.isDigit
  | _ => false

/-- The number of digits that may begin with `0x`, `0o` or `0b`. -/
def magnitude? : List Char → Option Nat
  | '0' :: 'x' :: r => digits? 16 r
  | '0' :: 'o' :: r => digits? 8 r
  | '0' :: 'b' :: r => digits? 2 r
  | s => if hasLeadingZero s then none else digits? 10 s

/-- The integer that a text writes. -/
def integer? : List Char → Option Int
  | '-' :: r => (magnitude? r).map fun n => -(n : Int)
  | '+' :: r => (magnitude? r).map fun n => (n : Int)
  | s => (magnitude? s).map fun n => (n : Int)

/-- Which integers of a text can be had. -/
inductive IntegerSize where
  | word | wide | huge
  deriving DecidableEq, Repr

/-- A power of two. -/
def twoPower (n : Nat) : Int := Int.ofNat (Nat.pow 2 n)

/-- Integers of 64 bits are numbers, and those of 128 bits cannot be had. What is larger is no integer at all. -/
def IntegerSize.of (n : Int) : IntegerSize :=
  if -twoPower 63 ≤ n ∧ n < twoPower 64 then .word
  else if -twoPower 127 ≤ n ∧ n < twoPower 128 then .wide
  else .huge

/-! ## Doubles -/

/-- The double that an exponent and the digits in front of it write. -/
def scaled? (digits : List Char) (places : Nat) : List Char → Option Float
  | [] => some (Decimal.nearest (Decimal.ofDigits digits) (-places))
  | e :: r =>
    let (negative, r) := match r with
      | '-' :: t => (true, t)
      | '+' :: t => (false, t)
      | t => (false, t)
    if (e = 'e' ∨ e = 'E') ∧ !r.isEmpty ∧ r.all Char.isDigit then
      let exponent : Int := Decimal.ofDigits r
      some (Decimal.nearest (Decimal.ofDigits digits) ((if negative then -exponent else exponent) - places))
    else none

/-- The finite double that a decimal without a sign writes. -/
def decimal? (s : List Char) : Option Float :=
  let whole := s.takeWhile Char.isDigit
  let (fraction, rest) := match s.dropWhile Char.isDigit with
    | '.' :: r => (r.takeWhile Char.isDigit, r.dropWhile Char.isDigit)
    | r => ([], r)
  if whole.isEmpty && fraction.isEmpty then none
  else (scaled? (whole ++ fraction) fraction.length rest).filter Float.isFinite

def isInfinity (s : List Char) : Bool := [".inf", ".Inf", ".INF"].contains (String.ofList s)

def isNotANumber (s : List Char) : Bool := [".nan", ".NaN", ".NAN"].contains (String.ofList s)

def double? (s : List Char) : Option Float :=
  if isNotANumber s then some (0.0 / 0.0)
  else
    match s with
    | '-' :: r => if isInfinity r then some (-Decimal.infinity) else (decimal? r).map fun x => -x
    | '+' :: r => if isInfinity r then some Decimal.infinity else decimal? r
    | s => if isInfinity s then some Decimal.infinity else decimal? s

/-! ## Scalars -/

/-- A leading zero, behind a sign or not, makes a text of digits. -/
def isDigitText : List Char → Bool
  | '-' :: r => hasLeadingZero r
  | '+' :: r => hasLeadingZero r
  | s => hasLeadingZero s

def plainNumber? (text : String) : Option Document :=
  if isDigitText text.toList then none else (double? text.toList).map (.number <| .float ·)

/-- What a plain scalar means; none if it is an integer that cannot be had. -/
def plain? (text : String) : Option Document :=
  if text.isEmpty || isNull text then some .null
  else
    match bool? text with
    | some b => some (.bool b)
    | none =>
      match (integer? text.toList).map fun n => (n, IntegerSize.of n) with
      | some (n, .word) => some (.number (.int n))
      | some (_, .wide) => none
      | _ => some ((plainNumber? text).getD (.text text))

/-- A tag of the core schema. -/
def coreTag (name : String) : String := "tag:yaml.org,2002:" ++ name

/-- What a scalar with a tag that is not local means; none if the tag asks for something else. -/
def typed? (tag text : String) : Option Document :=
  if tag = coreTag "bool" then (bool? text).map .bool
  else if tag = coreTag "int" then
    match integer? text.toList with
    | some n => if IntegerSize.of n = .word then some (.number (.int n)) else none
    | none => none
  else if tag = coreTag "float" then (double? text.toList).map (.number <| .float ·)
  else if tag = coreTag "null" then if isNull text then some .null else none
  else some (.text text)

end CssTheming.Yaml
