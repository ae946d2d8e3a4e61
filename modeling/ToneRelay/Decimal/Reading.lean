import ToneRelay.Text.Numeral

/-!
# Reading floats from text

The grammar of a float in a request: a sign, then a word for infinity or for what is no number in
any case of letters, or digits with an optional point and an optional exponent. The result is the
float nearest to the number written.
-/

namespace ToneRelay.Decimal

/-- The float nearest to `digits · 10 ^ exponent`. Exponents far outside the range of floats decide
the result without being computed. -/
def nearest (digits : Nat) (exponent : Int) : Float :=
  let size : Int := (Nat.toDigits 10 digits).length + exponent
  if digits = 0 then 0.0
  else if 310 < size then Float.ofBits 0x7FF0000000000000
  else if size < -326 then 0.0
  else if 0 ≤ exponent then Float.ofScientific digits false exponent.toNat
  else Float.ofScientific digits true (-exponent).toNat

/-- The exponent written after its letter: an optional sign and at least one digit. -/
def exponent? (cs : List Char) : Option Int :=
  match cs with
  | '-' :: rest => (Text.digits? rest).map fun n => -(n : Int)
  | '+' :: rest => (Text.digits? rest).map Int.ofNat
  | _ => (Text.digits? cs).map Int.ofNat

/-- An unsigned number: digits around an optional point, at least one in all, and an optional
exponent. -/
def unsigned? (cs : List Char) : Option Float :=
  let whole := cs.takeWhile Char.isDigit
  let afterWhole := cs.dropWhile Char.isDigit
  let (part, afterPart) := match afterWhole with
    | '.' :: rest => (rest.takeWhile Char.isDigit, rest.dropWhile Char.isDigit)
    | rest => ([], rest)
  if whole.isEmpty && part.isEmpty then none
  else
    let digits := Nat.ofDigitChars 10 (whole ++ part) 0
    let places : Int := part.length
    match afterPart with
    | [] => some (nearest digits (-places))
    | c :: rest =>
      if c = 'e' ∨ c = 'E' then (exponent? rest).map fun e => nearest digits (e - places) else none

/-- The words for values that are no finite number. -/
def word? (cs : List Char) : Option Float :=
  let lowered := cs.map Char.toLower
  if lowered = "inf".toList ∨ lowered = "infinity".toList then
    some (Float.ofBits 0x7FF0000000000000)
  else if lowered = "nan".toList then some (Float.ofBits 0x7FF8000000000000)
  else none

/-- A float in a text. -/
def float? (cs : List Char) : Option Float :=
  match cs with
  | '-' :: rest => ((word? rest).orElse fun _ => unsigned? rest).map Float.neg
  | '+' :: rest => (word? rest).orElse fun _ => unsigned? rest
  | _ => (word? cs).orElse fun _ => unsigned? cs

end ToneRelay.Decimal
