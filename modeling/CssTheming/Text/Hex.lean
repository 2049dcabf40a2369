/-!
# Hexadecimal digits

Formats that can write a character by its code point do so in hexadecimal digits.
-/

namespace CssTheming.Text

/-- The value of a hexadecimal digit of either case. -/
def hexValue? (c : Char) : Option Nat :=
  if '0' ≤ c && c ≤ '9' then some (c.toNat - '0'.toNat)
  else if 'a' ≤ c && c ≤ 'f' then some (c.toNat - 'a'.toNat + 10)
  else if 'A' ≤ c && c ≤ 'F' then some (c.toNat - 'A'.toNat + 10)
  else none

/-- The number that hexadecimal digits write, if all of them are. -/
def hexNumber? (digits : List Char) : Option Nat := digits.foldlM (fun n c => (hexValue? c).map (16 * n + ·)) 0

/-- The character of a code point that is no surrogate. -/
def charOfCode? (n : Nat) : Option Char := if n.isValidChar then some (Char.ofNat n) else none

end CssTheming.Text
