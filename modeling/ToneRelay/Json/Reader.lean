import ToneRelay.Text.Numeral

/-!
# Reading the parts of a document

Readers take the characters that are left and give back what they read and the rest, or the first
fault in the order of the text. There are three kinds of fault: the text ends too early, it is no
document, or it is a document of another shape. This module reads words, quoted texts and numbers.
-/

namespace ToneRelay.Json

/-- Why a text is refused. -/
inductive ReadError
  | /-- The text ends inside the document. -/ incomplete
  | /-- The text is no document. -/ malformed
  | /-- The text is a document of another shape. -/ mismatch
deriving DecidableEq, Repr

/-- What a reader gives: a value and the characters after it. -/
abbrev Reading (α : Type) := Except ReadError (α × List Char)

/-- The characters that may stand between tokens. -/
def isSpace (c : Char) : Bool := c = ' ' || c = '\n' || c = '\t' || c = '\r'

/-- The characters from the next token on. -/
def skipSpace (cs : List Char) : List Char := cs.dropWhile isSpace

/-- Expects the characters of `word`. -/
def literal : List Char → List Char → Except ReadError (List Char)
  | [], cs => .ok cs
  | _ :: _, [] => .error .incomplete
  | w :: word, c :: cs => if c = w then literal word cs else .error .malformed

/-! ## Quoted texts -/

/-- The value of a hexadecimal digit. -/
def hexValue? (c : Char) : Option Nat :=
  let n := c.toNat
  if 48 ≤ n ∧ n ≤ 57 then some (n - 48)
  else if 97 ≤ n ∧ n ≤ 102 then some (n - 87)
  else if 65 ≤ n ∧ n ≤ 70 then some (n - 55)
  else none

/-- The number of bytes of some characters, counted up to `limit`. -/
def bytesUpTo : Nat → List Char → Nat
  | 0, _ => 0
  | _, [] => 0
  | limit + 1, c :: cs => c.utf8Size + bytesUpTo limit cs

/-- The fault of four digits that are none: there may be too little left for them. -/
def hexFault (cs : List Char) : ReadError :=
  if bytesUpTo 4 cs < 4 then .incomplete else .malformed

/-- Four hexadecimal digits. -/
def hex4 (cs : List Char) : Reading Nat :=
  match cs with
  | a :: b :: c :: d :: rest =>
    match hexValue? a, hexValue? b, hexValue? c, hexValue? d with
    | some a, some b, some c, some d => .ok (((a * 16 + b) * 16 + c) * 16 + d, rest)
    | _, _, _, _ => .error (hexFault cs)
  | _ => .error (hexFault cs)

/-- The character after a backslash that is not followed by `u`. -/
def unescape (c : Char) : Option Char :=
  match c with
  | '"' => some '"'
  | '\\' => some '\\'
  | '/' => some '/'
  | 'b' => some (Char.ofNat 8)
  | 'f' => some (Char.ofNat 12)
  | 'n' => some '\n'
  | 'r' => some '\r'
  | 't' => some '\t'
  | _ => none

/-- The second half of a pair of surrogates, after the digits of the first half. -/
def lowSurrogate (high : Nat) (cs : List Char) : Reading Char :=
  match cs with
  | [] => .error .incomplete
  | '\\' :: [] => .error .incomplete
  | '\\' :: 'u' :: rest =>
    match hex4 rest with
    | .error e => .error e
    | .ok (low, rest) =>
      if 0xDC00 ≤ low ∧ low ≤ 0xDFFF then
        .ok (Char.ofNat (0x10000 + (high - 0xD800) * 0x400 + (low - 0xDC00)), rest)
      else .error .malformed
  | _ => .error .malformed

/-- The character given by its number, after `\u`. -/
def numbered (cs : List Char) : Reading Char :=
  match hex4 cs with
  | .error e => .error e
  | .ok (n, rest) =>
    if 0xD800 ≤ n ∧ n ≤ 0xDBFF then lowSurrogate n rest
    else if 0xDC00 ≤ n ∧ n ≤ 0xDFFF then .error .malformed
    else .ok (Char.ofNat n, rest)

/-- One character of a quoted text, or `none` at its end. -/
def quotedChar (cs : List Char) : Reading (Option Char) :=
  match cs with
  | [] => .error .incomplete
  | '"' :: rest => .ok (none, rest)
  | '\\' :: [] => .error .incomplete
  | '\\' :: 'u' :: rest => (numbered rest).map fun (c, rest) => (some c, rest)
  | '\\' :: c :: rest =>
    match unescape c with
    | some c => .ok (some c, rest)
    | none => .error .malformed
  | c :: rest => if c.toNat < 32 then .error .malformed else .ok (some c, rest)

/-- The characters of a quoted text, which are collected in reverse. -/
def quotedFrom : Nat → List Char → List Char → Reading (List Char)
  | 0, _, _ => .error .incomplete
  | fuel + 1, read, cs =>
    match quotedChar cs with
    | .error e => .error e
    | .ok (none, rest) => .ok (read.reverse, rest)
    | .ok (some c, rest) => quotedFrom fuel (c :: read) rest

/-- A quoted text, after its first quotation mark. -/
def quoted (cs : List Char) : Reading (List Char) := quotedFrom (cs.length + 1) [] cs

/-! ## Numbers -/

/-- A number as it is written. -/
inductive Number
  | natural (n : Nat)
  | negative (n : Nat)
  | float (x : Float)

/-- Adds digits to a number as long as it stays below `2 ^ 64`; gives the digits that are left. -/
def accumulate (n : Nat) : List Char → Nat × List Char
  | [] => (n, [])
  | c :: cs =>
    let next := 10 * n + (c.toNat - 48)
    if next ≤ Text.max64 then accumulate next cs else (n, c :: cs)

/-- `x · 10 ^ exponent`, in steps of at most `10 ^ 308`. -/
def scale : Nat → Float → Int → Except ReadError Float
  | 0, x, _ => .ok x
  | fuel + 1, x, exponent =>
    if exponent.natAbs ≤ 308 then
      let power := Float.ofScientific 1 false exponent.natAbs
      if 0 ≤ exponent then
        let y := x * power
        if y.isInf then .error .malformed else .ok y
      else .ok (x / power)
    else if x == 0.0 then .ok x
    else if 0 ≤ exponent then .error .malformed
    else scale fuel (x / Float.ofScientific 1 false 308) (exponent + 308)

/-- The float of a significand and a decimal exponent. -/
def ofParts (isNegative : Bool) (significand : Nat) (exponent : Int) : Except ReadError Float :=
  (scale 4 significand.toUInt64.toFloat exponent).map fun x => if isNegative then -x else x

/-- The greatest exponent that is told apart from larger ones. -/
def maxExponent : Nat := 2147483647

/-- An exponent, after its letter. -/
def exponentPart (isNegative : Bool) (significand : Nat) (start : Int) (cs : List Char) :
    Reading Number :=
  let (down, cs) := match cs with
    | '+' :: rest => (false, rest)
    | '-' :: rest => (true, rest)
    | _ => (false, cs)
  let digits := cs.takeWhile Char.isDigit
  let rest := cs.dropWhile Char.isDigit
  match digits with
  | [] => if cs.isEmpty then .error .incomplete else .error .malformed
  | _ =>
    let n := Nat.ofDigitChars 10 digits 0
    if maxExponent < n then
      if significand ≠ 0 ∧ !down then .error .malformed
      else .ok (.float (if isNegative then -0.0 else 0.0), rest)
    else
      (ofParts isNegative significand (if down then start - n else start + n)).map
        fun x => (.float x, rest)

/-- What may follow the digits of a number: an exponent. -/
def afterDigits (isNegative : Bool) (significand : Nat) (exponent : Int) (cs : List Char) :
    Reading Number :=
  match cs with
  | 'e' :: rest => exponentPart isNegative significand exponent rest
  | 'E' :: rest => exponentPart isNegative significand exponent rest
  | _ => (ofParts isNegative significand exponent).map fun x => (.float x, cs)

/-- The decimal places of a number, after its point. -/
def placesPart (isNegative : Bool) (significand : Nat) (exponent : Int) (cs : List Char) :
    Reading Number :=
  let digits := cs.takeWhile Char.isDigit
  let rest := cs.dropWhile Char.isDigit
  match digits with
  | [] => if cs.isEmpty then .error .incomplete else .error .malformed
  | _ =>
    let (significand, unread) := accumulate significand digits
    afterDigits isNegative significand (exponent - (digits.length - unread.length : Nat)) rest

/-- A whole number that fits its type stays one. -/
def wholeNumber (isNegative : Bool) (n : Nat) : Number :=
  if isNegative then
    if 0 < n ∧ n ≤ Text.maxSigned64 + 1 then .negative n else .float (-n.toUInt64.toFloat)
  else .natural n

/-- A number without its sign. A whole number that does not fit sixty-four bits is read as a float,
from its leading digits. -/
def unsignedNumber (isNegative : Bool) (cs : List Char) : Reading Number :=
  let digits := cs.takeWhile Char.isDigit
  let rest := cs.dropWhile Char.isDigit
  match digits with
  | [] => if cs.isEmpty then .error .incomplete else .error .malformed
  | '0' :: _ :: _ => .error .malformed
  | _ =>
    let (significand, unread) := accumulate 0 digits
    match rest with
    | '.' :: rest => placesPart isNegative significand unread.length rest
    | c :: _ =>
      if c = 'e' ∨ c = 'E' ∨ unread ≠ [] then
        afterDigits isNegative significand unread.length rest
      else .ok (wholeNumber isNegative significand, rest)
    | [] =>
      if unread ≠ [] then afterDigits isNegative significand unread.length rest
      else .ok (wholeNumber isNegative significand, rest)

/-- A number, if the text starts with one. -/
def number? (cs : List Char) : Option (Reading Number) :=
  match cs with
  | '-' :: rest => some (unsignedNumber true rest)
  | c :: _ => if c.isDigit then some (unsignedNumber false cs) else none
  | [] => none

/-! ## Values of the wrong kind -/

/-- The fault of a value that was read but is not wanted. -/
def ReadError.ofUnwanted {α : Type} : Except ReadError α → ReadError
  | .error e => e
  | .ok _ => .mismatch

/-- The fault of a value that is not of the kind wanted: its own first fault, or that it is of
another kind. Lists and records are not looked into. -/
def wrongKind (cs : List Char) : ReadError :=
  match cs with
  | [] => .incomplete
  | 'n' :: rest => .ofUnwanted (literal "ull".toList rest)
  | 't' :: rest => .ofUnwanted (literal "rue".toList rest)
  | 'f' :: rest => .ofUnwanted (literal "alse".toList rest)
  | '"' :: rest => .ofUnwanted (quoted rest)
  | '[' :: _ => .mismatch
  | '\x7b' :: _ => .mismatch
  | _ =>
    match number? cs with
    | some r => .ofUnwanted r
    | none => .malformed

/-- A quoted text. -/
def text (cs : List Char) : Reading String :=
  match skipSpace cs with
  | '"' :: rest => (quoted rest).map fun (s, rest) => (String.ofList s, rest)
  | cs => .error (wrongKind cs)

/-- A whole number of at most `max`. -/
def whole (max : Nat) (cs : List Char) : Reading Nat :=
  let cs := skipSpace cs
  match number? cs with
  | some (.ok (.natural n, rest)) => if n ≤ max then .ok (n, rest) else .error .mismatch
  | some (.ok _) => .error .mismatch
  | some (.error e) => .error e
  | none => .error (wrongKind cs)

/-- The float that stands for a number. -/
def Number.toFloat : Number → Float
  | .natural n => n.toUInt64.toFloat
  | .negative n => -n.toUInt64.toFloat
  | .float x => x

/-- A number of any form. -/
def float (cs : List Char) : Reading Float :=
  let cs := skipSpace cs
  match number? cs with
  | some r => r.map fun (n, rest) => (n.toFloat, rest)
  | none => .error (wrongKind cs)

/-- The colon between a key and its value. -/
def colon (cs : List Char) : Except ReadError (List Char) :=
  match skipSpace cs with
  | [] => .error .incomplete
  | ':' :: rest => .ok rest
  | _ => .error .malformed

end ToneRelay.Json
