import ToneRelay.Text.Blank
import ToneRelay.Text.Utf8

/-!
# Forms in a query

A query string is a list of pairs between `&` signs, each a name and a value around its first `=`.
In both, `+` stands for a blank and `%` with two hexadecimal digits for a byte; a `%` without them
stands for itself. The bytes that result are read as text. Main statement: `unescape_percent`, a
byte written with `%` is read back whatever follows it.
-/

namespace ToneRelay.Request

/-- The value of a hexadecimal digit. -/
def hexValue? (b : UInt8) : Option Nat :=
  let n := b.toNat
  if 48 ≤ n ∧ n ≤ 57 then some (n - 48)
  else if 65 ≤ n ∧ n ≤ 70 then some (n - 55)
  else if 97 ≤ n ∧ n ≤ 102 then some (n - 87)
  else none

/-- The byte that two hexadecimal digits stand for. -/
def hexByte? (high low : UInt8) : Option UInt8 :=
  (hexValue? high).bind fun h => (hexValue? low).map fun l => UInt8.ofNat (16 * h + l)

/-- The byte `%`. -/
def percent : UInt8 := 37

/-- Reads every `%` that has two hexadecimal digits after it. -/
def unescape : List UInt8 → List UInt8
  | [] => []
  | [a] => [a]
  | [a, b] => [a, b]
  | a :: b :: c :: rest =>
    if a = percent then
      match hexByte? b c with
      | some byte => byte :: unescape rest
      | none => a :: unescape (b :: c :: rest)
    else a :: unescape (b :: c :: rest)

/-- A blank for every `+`. -/
def unplus (bytes : List UInt8) : List UInt8 := bytes.map fun b => if b = 43 then 32 else b

/-- The text of a name or a value. -/
def component (bytes : List UInt8) : String := Text.decodeLossy (unescape (unplus bytes))

/-- The name and the value of a pair. -/
def pair (bytes : List UInt8) : String × String :=
  (component (bytes.takeWhile (· ≠ 61)), component ((bytes.dropWhile (· ≠ 61)).drop 1))

/-- The pairs of a query string, in order. -/
def pairs (query : List UInt8) : List (String × String) :=
  ((Text.splitFrom 38 [] query).filter (· ≠ [])).map pair

theorem unescape_cons {b : UInt8} (hb : b ≠ percent) (rest : List UInt8) :
    unescape (b :: rest) = b :: unescape rest := by
  rcases rest with _ | ⟨c, _ | ⟨d, rest⟩⟩
  · rfl
  · rfl
  · simp [unescape, hb]

theorem unescape_percent {high low b : UInt8} (hb : hexByte? high low = some b)
    (rest : List UInt8) : unescape (percent :: high :: low :: rest) = b :: unescape rest := by
  simp [unescape, hb]

/-! ## Writing -/

/-- The upper-case hexadecimal digit of a number below sixteen. -/
def hexUpper (n : Nat) : UInt8 := UInt8.ofNat (if n < 10 then 48 + n else 55 + n)

/-- A byte as `%` and two digits. -/
def escape (b : UInt8) : List UInt8 := [percent, hexUpper (b.toNat / 16), hexUpper (b.toNat % 16)]

end ToneRelay.Request
