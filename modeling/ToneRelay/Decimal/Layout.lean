import ToneRelay.Decimal.Shortest

/-!
# How a float is written

A `Layout` holds the choices that remain once the digits are known: where an exponent is used, what
follows a whole number, and what stands for values that are no numbers. `Layout.prose` is the one of
messages, `Layout.json` the one of documents.
-/

namespace ToneRelay.Decimal

/-- The choices of a written form. -/
structure Layout where
  /-- What follows a whole number in positional form. -/
  wholeSuffix : String
  /-- The decimal exponents of numbers that are written with an exponent. -/
  usesExponent : Int → Bool
  /-- The number that is written when two shortest ones are equally near. -/
  tie : Tie
  nan : String
  infinity : String
  negativeInfinity : String

/-- Messages never use an exponent, and a whole number ends with its last digit. -/
def Layout.prose : Layout where
  wholeSuffix := ""
  usesExponent := fun _ => false
  tie := .up
  nan := "NaN"
  infinity := "inf"
  negativeInfinity := "-inf"

/-- Documents use an exponent below `10 ^ -5` and from `10 ^ 16` on, mark a whole number as a float
with `.0`, and have no text for what is not finite. -/
def Layout.json : Layout where
  wholeSuffix := ".0"
  usesExponent := fun e => e < -5 || 16 ≤ e
  tie := .even
  nan := "null"
  infinity := "null"
  negativeInfinity := "null"

/-- Digits in positional form. -/
def positional (suffix : String) (digits : List Char) (exponent : Int) : List Char :=
  if 0 ≤ exponent then digits ++ List.replicate exponent.toNat '0' ++ suffix.toList
  else
    let places := (-exponent).toNat
    if places < digits.length then
      digits.take (digits.length - places) ++ '.' :: digits.drop (digits.length - places)
    else '0' :: '.' :: List.replicate (places - digits.length) '0' ++ digits

/-- Digits with an exponent, whose sign is always written. -/
def scientific (digits : List Char) (exponent : Int) : List Char :=
  let sign := if exponent < 0 then '-' else '+'
  let power := 'e' :: sign :: Nat.toDigits 10 exponent.natAbs
  match digits with
  | [] => power
  | [d] => d :: power
  | d :: rest => d :: '.' :: rest ++ power

/-- The digits of a number without its sign. -/
def Layout.magnitude (l : Layout) (m : Nat) (q : Int) : List Char :=
  let s := shortest l.tie m q
  let digits := Nat.toDigits 10 s.digits
  let exponent := s.exponent + digits.length - 1
  if l.usesExponent exponent then scientific digits exponent
  else positional l.wholeSuffix digits s.exponent

/-- The text of a float. -/
def Layout.chars (l : Layout) (x : Float) : List Char :=
  match Exact.ofFloat x with
  | .nan => l.nan.toList
  | .infinite false => l.infinity.toList
  | .infinite true => l.negativeInfinity.toList
  | .finite negative m q => if negative then '-' :: l.magnitude m q else l.magnitude m q

/-- The text of a float in a message. -/
def prose (x : Float) : String := String.ofList (Layout.prose.chars x)

/-- The text of a float with a fixed number of decimal places, a half going to the even neighbour.
-/
def fixed (places : Nat) (x : Float) : String :=
  match Exact.ofFloat x with
  | .finite negative m q =>
    let (num, den) := ratio m q
    let scaled := divEven (num * Nat.pow 10 places) den
    let whole := Nat.toDigits 10 (scaled / Nat.pow 10 places)
    let part := Nat.toDigits 10 (scaled % Nat.pow 10 places)
    let sign := if negative then ['-'] else []
    let point := if places = 0 then [] else '.' :: List.replicate (places - part.length) '0' ++ part
    String.ofList (sign ++ whole ++ point)
  | _ => prose x

end ToneRelay.Decimal
