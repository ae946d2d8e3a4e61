import ToneRelay.Json.Reader

/-!
# Passing over a value

A field that a record does not know is passed over, whatever its value is. The value has to be well
formed, but a number may be out of range, and half a pair of surrogates may stand alone. The lists
and records that are open are kept on a stack, so nesting has no limit.
-/

namespace ToneRelay.Json

/-- What is open around a value. -/
inductive Frame
  | list
  | record
deriving DecidableEq, Repr

/-- What is expected next. -/
inductive Expect
  | /-- A value. -/ value
  | /-- A value, or the end of a list that is still empty. -/ firstItem
  | /-- A field, or the end of a record that is still empty. -/ firstField
  | /-- A field, after a comma. -/ field
  | /-- A comma, or the end of what is open. -/ next
deriving DecidableEq, Repr

/-- Passes over a quoted text, after its first quotation mark. -/
def passQuoted : Nat → List Char → Except ReadError (List Char)
  | 0, _ => .error .incomplete
  | fuel + 1, cs =>
    match cs with
    | [] => .error .incomplete
    | '"' :: rest => .ok rest
    | '\\' :: [] => .error .incomplete
    | '\\' :: 'u' :: rest => (hex4 rest).bind fun (_, rest) => passQuoted fuel rest
    | '\\' :: c :: rest =>
      if (unescape c).isSome then passQuoted fuel rest else .error .malformed
    | c :: rest => if c.toNat < 32 then .error .malformed else passQuoted fuel rest

/-- Passes over an exponent, after its letter. -/
def passExponent (cs : List Char) : Except ReadError (List Char) :=
  let cs := match cs with
    | '+' :: rest => rest
    | '-' :: rest => rest
    | _ => cs
  if (cs.takeWhile Char.isDigit).isEmpty then .error .malformed
  else .ok (cs.dropWhile Char.isDigit)

/-- Passes over what may follow the digits of a number. -/
def passAfterDigits (cs : List Char) : Except ReadError (List Char) :=
  match cs with
  | 'e' :: rest => passExponent rest
  | 'E' :: rest => passExponent rest
  | _ => .ok cs

/-- Passes over a number without its sign. A number that ends too early is malformed here. -/
def passNumber (cs : List Char) : Except ReadError (List Char) :=
  match cs.takeWhile Char.isDigit with
  | [] => .error .malformed
  | '0' :: _ :: _ => .error .malformed
  | _ =>
    match cs.dropWhile Char.isDigit with
    | '.' :: rest =>
      if (rest.takeWhile Char.isDigit).isEmpty then .error .malformed
      else passAfterDigits (rest.dropWhile Char.isDigit)
    | rest => passAfterDigits rest

/-- Passes over a value that is neither a list nor a record, if one starts here. -/
def passScalar (cs : List Char) : Option (Except ReadError (List Char)) :=
  match cs with
  | 'n' :: rest => some (literal "ull".toList rest)
  | 't' :: rest => some (literal "rue".toList rest)
  | 'f' :: rest => some (literal "alse".toList rest)
  | '-' :: rest => some (passNumber rest)
  | '"' :: rest => some (passQuoted (rest.length + 1) rest)
  | c :: _ => if c.isDigit then some (passNumber cs) else none
  | [] => none

/-- Passes over a key and its colon, after the first quotation mark. -/
def passKey (cs : List Char) : Except ReadError (List Char) :=
  (passQuoted (cs.length + 1) cs).bind colon

/-- Passes over what is left of a value with the given frames open. -/
def passFrom : Nat → List Frame → Expect → List Char → Except ReadError (List Char)
  | 0, _, _, _ => .error .incomplete
  | fuel + 1, open_, expect, cs =>
    match expect, open_ with
    | .next, [] => .ok cs
    | .next, .list :: outer =>
      match skipSpace cs with
      | [] => .error .incomplete
      | ',' :: rest => passFrom fuel (.list :: outer) .value rest
      | ']' :: rest => passFrom fuel outer .next rest
      | _ => .error .malformed
    | .next, .record :: outer =>
      match skipSpace cs with
      | [] => .error .incomplete
      | ',' :: rest => passFrom fuel (.record :: outer) .field rest
      | '\x7d' :: rest => passFrom fuel outer .next rest
      | _ => .error .malformed
    | .firstItem, _ =>
      match skipSpace cs with
      | [] => .error .incomplete
      | ']' :: rest => passFrom fuel open_.tail .next rest
      | cs => passFrom fuel open_ .value cs
    | .firstField, _ =>
      match skipSpace cs with
      | [] => .error .incomplete
      | '\x7d' :: rest => passFrom fuel open_.tail .next rest
      | '"' :: rest => (passKey rest).bind (passFrom fuel open_ .value)
      | _ => .error .malformed
    | .field, _ =>
      match skipSpace cs with
      | [] => .error .incomplete
      | '"' :: rest => (passKey rest).bind (passFrom fuel open_ .value)
      | _ => .error .malformed
    | .value, _ =>
      match skipSpace cs with
      | [] => .error .incomplete
      | '[' :: rest => passFrom fuel (.list :: open_) .firstItem rest
      | '\x7b' :: rest => passFrom fuel (.record :: open_) .firstField rest
      | cs =>
        match passScalar cs with
        | some r => r.bind (passFrom fuel open_ .next)
        | none => .error .malformed

/-- Passes over a value. A character takes two steps at most. -/
def pass (cs : List Char) : Except ReadError (List Char) :=
  passFrom (2 * cs.length + 2) [] .value cs

end ToneRelay.Json
