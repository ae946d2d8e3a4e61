import ToneRelay.Decimal.Exact

/-!
# The fewest digits that read back

The reals that round to a float form an interval around it, whose ends belong to it when the float's
last bit is zero. `shortest` looks for a decimal number in that interval on the grids of one digit,
two digits, and so on. The first grid that has one decides how many digits are written; of two
numbers on it the nearer one is taken.
-/

namespace ToneRelay.Decimal

/-- The number `digits · 10 ^ exponent`. -/
structure Scaled where
  digits : Nat
  exponent : Int
deriving DecidableEq, Repr

/-- The reals that round to a float, in units of `1 / den`; `value` is the float itself. -/
structure Interval where
  low : Nat
  value : Nat
  high : Nat
  den : Nat
  closed : Bool

/-- The interval of `m · 2 ^ q`. Below a power of two the next float is half as far away. -/
def Interval.of (m : Nat) (q : Int) : Interval :=
  let (num, den) := ratio m q
  let unit := Nat.pow 2 q.toNat
  let below := if m = Nat.pow 2 52 ∧ -1074 < q then unit else 2 * unit
  ⟨4 * num - below, 4 * num, 4 * num + 2 * unit, 4 * den, m % 2 = 0⟩

/-- Is `c · 10 ^ p` in the interval? -/
def Interval.has (i : Interval) (c : Nat) (p : Int) : Bool :=
  let spot := c * Nat.pow 10 p.toNat * i.den
  let scale := Nat.pow 10 (-p).toNat
  if i.closed then i.low * scale ≤ spot && spot ≤ i.high * scale
  else i.low * scale < spot && spot < i.high * scale

/-- The greatest multiple of `10 ^ p` that does not exceed the value, divided by `10 ^ p`. -/
def Interval.below (i : Interval) (p : Int) : Nat :=
  i.value * Nat.pow 10 (-p).toNat / (i.den * Nat.pow 10 p.toNat)

/-- Compares the distances of the value to its two neighbours on the grid of `10 ^ p`: is the upper
one nearer, or as near and preferred? -/
def Interval.upperNearer (i : Interval) (p : Int) (c : Nat) (tieUp : Bool) : Bool :=
  let twice := 2 * (i.value * Nat.pow 10 (-p).toNat)
  let middle := (2 * c + 1) * (i.den * Nat.pow 10 p.toNat)
  middle < twice || (middle == twice && tieUp)

/-- The decimal exponent of `num / den`: `10 ^ e ≤ num / den < 10 ^ (e + 1)`. -/
def leading (num den : Nat) : Int :=
  if den ≤ num then ((Nat.toDigits 10 (num / den)).length : Int) - 1
  else -((Nat.toDigits 10 ((den - 1) / num)).length : Int)

/-- How a number halfway between two of the shortest ones is written. -/
inductive Tie
  | up
  | even
deriving DecidableEq, Repr

/-- Looks for a number of the interval on the grid of `10 ^ p`. -/
def Interval.hit? (i : Interval) (p : Int) (tie : Tie) : Option Nat :=
  let c := i.below p
  let tieUp := match tie with
    | .up => true
    | .even => c % 2 = 1
  match i.has c p, i.has (c + 1) p with
  | true, true => some (if i.upperNearer p c tieUp then c + 1 else c)
  | true, false => some c
  | false, true => some (c + 1)
  | false, false => none

/-- Tries the grids `10 ^ p`, `10 ^ (p - 1)`, and so on, `tries` of them. -/
def Interval.search (i : Interval) (tie : Tie) : Nat → Int → Scaled
  | 0, p => ⟨i.below p, p⟩
  | tries + 1, p =>
    match i.hit? p tie with
    | some c => ⟨c, p⟩
    | none => i.search tie tries (p - 1)

/-- Seventeen digits tell every two floats apart, so more are never tried. -/
def mostDigits : Nat := 17

/-- Removes the zeros at the end of the digits. -/
def Scaled.trim (s : Scaled) : Scaled :=
  let zeros := ((Nat.toDigits 10 s.digits).reverse.takeWhile (· == '0')).length
  if s.digits = 0 then ⟨0, 0⟩ else ⟨s.digits / Nat.pow 10 zeros, s.exponent + zeros⟩

/-- The fewest digits that read back as `m · 2 ^ q`. -/
def shortest (tie : Tie) (m : Nat) (q : Int) : Scaled :=
  if m = 0 then ⟨0, 0⟩
  else
    let i := Interval.of m q
    (i.search tie mostDigits (leading i.value i.den)).trim

end ToneRelay.Decimal
