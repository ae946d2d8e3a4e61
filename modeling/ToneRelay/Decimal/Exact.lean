/-!
# The exact value of a float

A finite binary float is `± m · 2 ^ q` for whole numbers `m` and `q`. The digits that are written
for it, and its rounding to a whole number, are computed from `m` and `q` alone.
-/

namespace ToneRelay.Decimal

/-- A float taken apart. -/
inductive Exact
  | nan
  | infinite (negative : Bool)
  | finite (negative : Bool) (m : Nat) (q : Int)
deriving DecidableEq, Repr

/-- The exact value of `x`, read off its bits. -/
def Exact.ofFloat (x : Float) : Exact :=
  let bits := x.toBits.toNat
  let negative := decide (Nat.pow 2 63 ≤ bits)
  let exponent : Nat := bits / Nat.pow 2 52 % Nat.pow 2 11
  let fraction : Nat := bits % Nat.pow 2 52
  if exponent = 2047 then
    if fraction = 0 then .infinite negative else .nan
  else if exponent = 0 then .finite negative fraction (-1074)
  else .finite negative (Nat.pow 2 52 + fraction) ((exponent : Int) - 1075)

/-- `m · 2 ^ q` as a quotient of whole numbers. -/
def ratio (m : Nat) (q : Int) : Nat × Nat := (m * Nat.pow 2 q.toNat, Nat.pow 2 (-q).toNat)

/-- The whole number nearest to `num / den`; of two equally near ones the even one. -/
def divEven (num den : Nat) : Nat :=
  let floor := num / den
  let rest := 2 * (num % den)
  if rest < den then floor else if den < rest then floor + 1 else floor + floor % 2

/-- The whole number nearest to `num / den`; of two equally near ones the greater one. -/
def divUp (num den : Nat) : Nat := (2 * num + den) / (2 * den)

/-- The nearest whole number, a half going away from zero. -/
def roundAway (x : Float) : Float :=
  match Exact.ofFloat x with
  | .finite negative m q =>
    if 0 ≤ q then x
    else
      let (num, den) := ratio m q
      let whole := Float.ofNat (divUp num den)
      if negative then -whole else whole
  | _ => x

end ToneRelay.Decimal
