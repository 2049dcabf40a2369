/-!
# Shortest decimals

The fewest decimal digits that read back as a given double, and of those the nearest. A positive finite double is
`m * 2 ^ q`; the reals that round to it form an interval around it (`Interval`), and `shortest` looks for the coarsest
decimal grid with a point in that interval. All arithmetic is exact.
-/

namespace CssTheming.Decimal

/-- A power of two. -/
def twos (n : Nat) : Nat := Nat.pow 2 n

/-- A power of ten. -/
def tens (n : Nat) : Nat := Nat.pow 10 n

/-- The positive rational `num / den`. -/
structure Ratio where
  num : Nat
  den : Nat
  deriving Repr, DecidableEq

/-- The value `m * 2 ^ q` of a positive double. -/
structure Binary where
  m : Nat
  q : Int
  deriving Repr, DecidableEq

/-- The value `digits * 10 ^ exponent`. -/
structure Scaled where
  digits : Nat
  exponent : Int
  deriving Repr, DecidableEq

/-- Numerators over one denominator: the reals between `low` and `high` round to the double of value `value`. The ends
belong to the interval iff `closed`. -/
structure Interval where
  low : Nat
  value : Nat
  high : Nat
  den : Nat
  closed : Bool
  deriving Repr, DecidableEq

/-- Below a power of two the neighbouring double is half as far away as above it, the least exponent apart. -/
def Binary.interval (b : Binary) : Interval :=
  let gap := if b.m = twos 52 ∧ b.q ≠ -1074 then 1 else 2
  let up := twos (b.q - 2).toNat
  ⟨(4 * b.m - gap) * up, 4 * b.m * up, (4 * b.m + 2) * up, twos (2 - b.q).toNat, b.m % 2 = 0⟩

def digitCount (n : Nat) : Nat := (Nat.toDigits 10 n).length

/-- The `e` with `10 ^ e ≤ num / den < 10 ^ (e + 1)`. -/
def Interval.magnitude (i : Interval) : Int :=
  let e := (digitCount i.value : Int) - digitCount i.den
  if i.den * tens e.toNat ≤ i.value * tens (-e).toNat then e else e - 1

/-- Whether `k * 10 ^ e` lies in the interval. -/
def Interval.contains (i : Interval) (k : Nat) (e : Int) : Bool :=
  let point := k * tens e.toNat * i.den
  let low := i.low * tens (-e).toNat
  let high := i.high * tens (-e).toNat
  if i.closed then low ≤ point && point ≤ high else low < point && point < high

/-- The grid points `k * 10 ^ e` next to the value: the one not above it, or the next one if that is nearer. A tie goes
to the even one. -/
def Interval.nearest (i : Interval) (e : Int) : Nat :=
  let num := i.value * tens (-e).toNat
  let den := i.den * tens e.toNat
  let k := num / den
  let twice := 2 * (num % den)
  if twice < den ∨ (twice = den ∧ k % 2 = 0) then k else k + 1

/-- The point of the grid `10 ^ e` that is in the interval and nearest to the value, if there is one. -/
def Interval.hit? (i : Interval) (e : Int) : Option Nat :=
  let k := i.value * tens (-e).toNat / (i.den * tens e.toNat)
  match i.contains k e, i.contains (k + 1) e with
  | true, true => some (i.nearest e)
  | true, false => some k
  | false, true => some (k + 1)
  | false, false => none

/-- Takes the zeros off the end of the digits. -/
def Scaled.reduce (s : Scaled) : Scaled := go s.digits s s.exponent
where
  go : Nat → Scaled → Int → Scaled
    | 0, s, _ => s
    | fuel + 1, s, e => if s.digits ≠ 0 ∧ s.digits % 10 = 0 then go fuel ⟨s.digits / 10, e + 1⟩ (e + 1) else s

/-- The first grid with a hit, from one digit on; seventeen digits always suffice. -/
def shortest (b : Binary) : Scaled :=
  let i := b.interval
  let top := i.magnitude
  let found := (List.range 17).findSome? fun n : Nat => (i.hit? (top - n)).map fun k => Scaled.mk k (top - n)
  (found.getD ⟨i.nearest (top - 16), top - 16⟩).reduce

end CssTheming.Decimal
