import CssTheming.Decimal.Read
import CssTheming.Document.Basic

/-!
# Numbers in JSON

Integers of 64 bits are exact. Other numbers are read as doubles from at most the first digits that fit 64 bits, by one
multiplication or division with a power of ten, so that the result can be off by a unit in the last place.
-/

namespace CssTheming.Json

/-- A numeral's digits in front of the point and behind it, and its exponent. -/
structure Numeral where
  negative : Bool
  whole : List Char
  fraction : List Char
  exponent : Option (Bool × List Char)

/-- Digits taken into a word of 64 bits: the word, and how often a digit did not fit. -/
structure Significand where
  value : Nat
  exponent : Int

def wordLimit : Nat := Nat.pow 2 64

def digitValue (c : Char) : Nat := c.toNat - '0'.toNat

/-- Once a digit in front of the point does not fit, it and all further ones only count. -/
def Significand.ofWhole (value : Nat) : List Char → Significand
  | [] => ⟨value, 0⟩
  | c :: r =>
    let next := 10 * value + digitValue c
    if next < wordLimit then ofWhole next r else ⟨value, (c :: r).length⟩

/-- Digits behind the point are taken as long as they fit. -/
def Significand.withFraction (s : Significand) : List Char → Significand
  | [] => s
  | c :: r =>
    let next := 10 * s.value + digitValue c
    if next < wordLimit then withFraction ⟨next, s.exponent - 1⟩ r else s

/-- Divides by `10 ^ 308` as often as the exponent leaves the table of powers downwards. -/
def scaleDown (x : Float) (e : Int) : Nat → Float
  | 0 => x
  | fuel + 1 => if e ≥ -308 ∨ x == 0.0 then x / Decimal.nearest 1 (-e) else scaleDown (x / 1e308) (e + 308) fuel

/-- The double of a significand; none beyond the range of doubles. -/
def Significand.float? (s : Significand) : Option Float :=
  let x := Float.ofNat s.value
  if s.exponent > 308 then if s.value = 0 then some x else none
  else if s.exponent ≥ 0 then
    let y := x * Decimal.nearest 1 s.exponent
    if y.isInf then none else some y
  else if s.value = 0 then some x
  else if s.exponent < -1000 then some 0.0
  else some (scaleDown x s.exponent 8)

def exponentLimit : Int := Int.ofNat (Nat.pow 2 31)

/-- The exponent, kept to 32 bits; a written one that does not fit overflows the number. -/
def Numeral.float? (n : Numeral) : Option Float :=
  let s := (Significand.ofWhole 0 n.whole).withFraction n.fraction
  let magnitude :=
    match n.exponent with
    | none => s.float?
    | some (negative, digits) =>
      let e : Int := Decimal.ofDigits digits
      if e ≥ exponentLimit then if s.value = 0 ∨ negative then some 0.0 else none
      else (Significand.mk s.value (if negative then s.exponent - e else s.exponent + e)).float?
  magnitude.map fun x => if n.negative then -x else x

/-- An integer that fits 64 bits stays one, save for a negative zero. -/
def Numeral.number? (n : Numeral) : Option Number :=
  let value := Decimal.ofDigits n.whole
  let integral := n.fraction.isEmpty && n.exponent.isNone
  if integral && !n.negative && value < wordLimit then some (.int value)
  else if integral && n.negative && value ≠ 0 && 2 * value ≤ wordLimit then some (.int (-value))
  else n.float?.map .float

end CssTheming.Json
