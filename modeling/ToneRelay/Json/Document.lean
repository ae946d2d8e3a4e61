import ToneRelay.Json.Record
import ToneRelay.Json.Value

/-!
# Reading any document

A reader that expects no shape and keeps all there is: the fields of a record in their order, those
with an equal key too, and the items of a list. A whole number that fits sixty-four bits stays one,
any other number becomes a float. Main definition: `Value.ofText`.
-/

namespace ToneRelay.Json

section
variable {α : Type}

/-- A field of a record, its key first. -/
def field (value : List Char → Reading α) (cs : List Char) :
    Except ReadError ((String × α) × List Char) := do
  let (key, rest) ← text cs
  let rest ← colon rest
  let (v, rest) ← value rest
  return ((key, v), rest)

/-- The fields of a record after its brace, up to and with the end. -/
def fieldsFrom (value : List Char → Reading α) :
    Nat → Bool → List (String × α) → List Char → Reading (List (String × α))
  | 0, _, _, _ => .error .incomplete
  | fuel + 1, isFirst, read, cs =>
    match skipSpace cs with
    | [] => .error .incomplete
    | '\x7d' :: rest => .ok (read.reverse, rest)
    | c :: rest =>
      if isFirst then
        (field value (c :: rest)).bind fun (m, rest) => fieldsFrom value fuel false (m :: read) rest
      else if c = ',' then
        (field value rest).bind fun (m, rest) => fieldsFrom value fuel false (m :: read) rest
      else .error .malformed

/-- The fields of a record. -/
def fields (value : List Char → Reading α) (cs : List Char) : Reading (List (String × α)) :=
  match skipSpace cs with
  | '\x7b' :: rest => fieldsFrom value (rest.length + 1) true [] rest
  | cs => .error (wrongKind cs)

end

namespace Value

/-- The value of a number. -/
def ofNumber : Number → Value
  | .natural n => .whole n
  | n => .float n.toFloat

/-- A value in which at most `depth` values are nested. -/
def read : Nat → List Char → Reading Value
  | 0, _ => .error .incomplete
  | depth + 1, cs =>
    match skipSpace cs with
    | [] => .error .incomplete
    | 'n' :: rest => (literal "ull".toList rest).map fun rest => (.null, rest)
    | 't' :: rest => (literal "rue".toList rest).map fun rest => (.bool true, rest)
    | 'f' :: rest => (literal "alse".toList rest).map fun rest => (.bool false, rest)
    | '"' :: rest => (Json.text ('"' :: rest)).map fun (s, rest) => (.text s, rest)
    | '[' :: rest => (items (read depth) ('[' :: rest)).map fun (vs, rest) => (.list vs, rest)
    | '\x7b' :: rest =>
      (fields (read depth) ('\x7b' :: rest)).map fun (fs, rest) => (.record fs, rest)
    | cs =>
      match number? cs with
      | some r => r.map fun (n, rest) => (ofNumber n, rest)
      | none => .error .malformed

/-- The document that fills a text. It is nested no deeper than the text is long. -/
def ofText (s : String) : Except ReadError Value := whole? (read s.toList.length) s.toList

end Value

end ToneRelay.Json
