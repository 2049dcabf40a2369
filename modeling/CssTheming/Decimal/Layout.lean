import CssTheming.Decimal.Shortest

/-!
# The text of a double

`Layout.text` writes a double in the shortest digits that read back as it. What a format decides for itself, the
exponents written positionally and the look of the exponent and of the values that are not finite, is a `Layout`.
-/

namespace CssTheming.Decimal

structure Layout where
  /-- Exponents of the first digit from `least` to `greatest` are written positionally. -/
  least : Int
  greatest : Int
  /-- Whether a positive exponent carries its sign. -/
  plus : Bool
  infinite : String
  negativeInfinite : String
  notANumber : String
  deriving Repr, DecidableEq

/-- A double apart: `finite negative value` with `none` for zero. -/
inductive Parts where
  | notANumber
  | infinite (negative : Bool)
  | finite (negative : Bool) (value : Option Binary)
  deriving Repr, DecidableEq

def Parts.ofBits (bits : Nat) : Parts :=
  let negative : Bool := bits / twos 63 % 2 = 1
  let exponent : Nat := bits / twos 52 % twos 11
  let fraction : Nat := bits % twos 52
  if exponent = 2047 then if fraction = 0 then .infinite negative else .notANumber
  else if exponent = 0 then .finite negative (if fraction = 0 then none else some ⟨fraction, -1074⟩)
  else .finite negative (some ⟨twos 52 + fraction, (exponent : Int) - 1075⟩)

def Parts.ofFloat (x : Float) : Parts := .ofBits x.toBits.toNat

/-- A whole number shows that it is a double by a final `.0`. -/
def Layout.positional (digits : List Char) (top : Int) : List Char :=
  let count : Int := digits.length
  if top + 1 ≥ count then digits ++ List.replicate (top + 1 - count).toNat '0' ++ ['.', '0']
  else if top ≥ 0 then digits.take (top + 1).toNat ++ '.' :: digits.drop (top + 1).toNat
  else '0' :: '.' :: List.replicate (-top - 1).toNat '0' ++ digits

def Layout.scientific (l : Layout) (digits : List Char) (top : Int) : List Char :=
  let mantissa := match digits with
    | [] => []
    | [d] => [d]
    | d :: ds => d :: '.' :: ds
  let sign := if top < 0 then ['-'] else if l.plus then ['+'] else []
  mantissa ++ 'e' :: sign ++ Nat.toDigits 10 top.natAbs

def Layout.positive (l : Layout) (s : Scaled) : List Char :=
  let digits := Nat.toDigits 10 s.digits
  let top := s.exponent + digits.length - 1
  if l.least ≤ top ∧ top ≤ l.greatest then positional digits top else l.scientific digits top

def Layout.text (l : Layout) (x : Float) : String :=
  match Parts.ofFloat x with
  | .notANumber => l.notANumber
  | .infinite negative => if negative then l.negativeInfinite else l.infinite
  | .finite negative value =>
    let digits := match value with
      | none => ['0', '.', '0']
      | some b => l.positive (shortest b)
    String.ofList (if negative then '-' :: digits else digits)

end CssTheming.Decimal
