/-!
# Reading decimals

The double nearest to a decimal. Exponents far out of the range of doubles are answered at once.
-/

namespace CssTheming.Decimal

/-- The value of a list of decimal digits. -/
def ofDigits (digits : List Char) : Nat := digits.foldl (fun n c => 10 * n + (c.toNat - '0'.toNat)) 0

def infinity : Float := 1.0 / 0.0

/-- The double nearest to `m * 10 ^ e`. -/
def nearest (m : Nat) (e : Int) : Float :=
  let top := e + (Nat.toDigits 10 m).length
  if m = 0 ∨ top < -400 then 0.0
  else if top > 400 then infinity
  else Float.ofScientific m (e < 0) e.natAbs

end CssTheming.Decimal
