/-!
# Durations

Spans of time in nanoseconds, and their text: the greatest unit that fits at least once, with as
many decimal places as the value needs.
-/

namespace ToneRelay

/-- A span of time. -/
structure Duration where
  nanos : Nat
deriving DecidableEq, Repr, Inhabited

namespace Duration

def ofMillis (n : Nat) : Duration := ⟨n * 1000000⟩

def ofSecs (n : Nat) : Duration := ⟨n * 1000000000⟩

/-- Whole seconds. -/
def secs (d : Duration) : Nat := d.nanos / 1000000000

/-- The nanoseconds after the last whole second. -/
def subsecNanos (d : Duration) : Nat := d.nanos % 1000000000

/-- The decimal places of `rest / 10 ^ width`, without zeros at the end. -/
def places (width rest : Nat) : List Char :=
  let digits := Nat.toDigits 10 rest
  let padded := List.replicate (width - digits.length) '0' ++ digits
  (padded.reverse.dropWhile (· == '0')).reverse

/-- `nanos` in a unit of `10 ^ width` nanoseconds. -/
def inUnit (nanos width : Nat) (unit : String) : String :=
  let whole := Nat.toDigits 10 (nanos / Nat.pow 10 width)
  let rest := nanos % Nat.pow 10 width
  let point := if rest = 0 then [] else '.' :: places width rest
  String.ofList (whole ++ point) ++ unit

/-- The text of a duration. -/
def text (d : Duration) : String :=
  if 1000000000 ≤ d.nanos then inUnit d.nanos 9 "s"
  else if 1000000 ≤ d.nanos then inUnit d.nanos 6 "ms"
  else if 1000 ≤ d.nanos then inUnit d.nanos 3 "µs"
  else inUnit d.nanos 0 "ns"

end Duration

end ToneRelay
