import ToneRelay.Json.Ignored

/-!
# Reading lists, names and records

`items` reads a list, `variant` one of a fixed set of names, `record` a record whose fields are
known by name. The fields may come in any order and others are passed over; a field that is missing
or given twice is a mismatch. A record may also be given as the list of its fields' values in order.
-/

namespace ToneRelay.Json

/-- The items of a list after its bracket, up to and with the end. -/
def itemsFrom {α : Type} (item : List Char → Reading α) :
    Nat → Bool → List α → List Char → Reading (List α)
  | 0, _, _, _ => .error .incomplete
  | fuel + 1, isFirst, read, cs =>
    match skipSpace cs with
    | [] => .error .incomplete
    | ']' :: rest => .ok (read.reverse, rest)
    | c :: rest =>
      if isFirst then
        (item (c :: rest)).bind fun (v, rest) => itemsFrom item fuel false (v :: read) rest
      else if c = ',' then
        match skipSpace rest with
        | [] => .error .incomplete
        | ']' :: _ => .error .malformed
        | rest => (item rest).bind fun (v, rest) => itemsFrom item fuel false (v :: read) rest
      else .error .malformed

/-- A list of items. -/
def items {α : Type} (item : List Char → Reading α) (cs : List Char) : Reading (List α) :=
  match skipSpace cs with
  | '[' :: rest => itemsFrom item (rest.length + 1) true [] rest
  | cs => .error (wrongKind cs)

/-- The value with a given name. -/
def named {α : Type} (names : List (String × α)) (name : String) : Except ReadError α :=
  match names.lookup name with
  | some v => .ok v
  | none => .error .mismatch

/-- The word `null`. -/
def unit (cs : List Char) : Except ReadError (List Char) :=
  match skipSpace cs with
  | 'n' :: rest => literal "ull".toList rest
  | cs => .error (wrongKind cs)

/-- The end of a record. -/
def closeRecord (cs : List Char) : Except ReadError (List Char) :=
  match skipSpace cs with
  | [] => .error .incomplete
  | '\x7d' :: rest => .ok rest
  | _ => .error .malformed

/-- A name after its first quotation mark. -/
def quotedName {α : Type} (names : List (String × α)) (cs : List Char) :
    Except ReadError (α × List Char) := do
  let (name, rest) ← quoted cs
  let v ← named names (String.ofList name)
  return (v, rest)

/-- One of a set of names: as a text, or as the only key of a record with the value `null`. What is
no quoted text can stand in neither place. -/
def variant {α : Type} (names : List (String × α)) (cs : List Char) :
    Except ReadError (α × List Char) :=
  match skipSpace cs with
  | [] => .error .incomplete
  | '"' :: rest => quotedName names rest
  | '\x7b' :: rest =>
    match skipSpace rest with
    | [] => .error .incomplete
    | '"' :: rest => do
      let (v, rest) ← quotedName names rest
      let rest ← colon rest
      let rest ← unit rest
      let rest ← closeRecord rest
      return (v, rest)
    | _ => .error .malformed
  | _ => .error .malformed

/-- A field of a record that is collected in a `σ`. -/
structure Field (σ : Type) where
  name : String
  isSet : σ → Bool
  read : σ → List Char → Reading σ

/-- A field that is kept in one place of `σ`. -/
def Field.of {σ α : Type} (name : String) (get : σ → Option α) (set : σ → α → σ)
    (read : List Char → Reading α) : Field σ where
  name := name
  isSet s := (get s).isSome
  read s cs := (read cs).map fun (v, rest) => (set s v, rest)

/-- A field of a record after its first quotation mark. -/
def member {σ : Type} (fields : List (Field σ)) (s : σ) (cs : List Char) :
    Except ReadError (σ × List Char) := do
  let (key, rest) ← quoted cs
  match fields.find? (·.name == String.ofList key) with
  | some f =>
    if f.isSet s then .error .mismatch
    else
      let rest ← colon rest
      f.read s rest
  | none =>
    let rest ← colon rest
    let rest ← pass rest
    return (s, rest)

/-- The fields of a record after its brace, up to and with the end. -/
def membersFrom {σ : Type} (fields : List (Field σ)) : Nat → Bool → σ → List Char → Reading σ
  | 0, _, _, _ => .error .incomplete
  | fuel + 1, isFirst, s, cs =>
    match skipSpace cs with
    | [] => .error .incomplete
    | '\x7d' :: rest => .ok (s, rest)
    | c :: rest =>
      if isFirst then
        if c = '"' then
          (member fields s rest).bind fun (s, rest) => membersFrom fields fuel false s rest
        else .error .malformed
      else if c = ',' then
        match skipSpace rest with
        | [] => .error .incomplete
        | '"' :: rest =>
          (member fields s rest).bind fun (s, rest) => membersFrom fields fuel false s rest
        | _ => .error .malformed
      else .error .malformed

/-- The values of a record that is given as a list, in the order of its fields. -/
def valuesFrom {σ : Type} : List (Field σ) → Bool → σ → List Char → Reading σ
  | [], _, s, cs => .ok (s, cs)
  | f :: fields, isFirst, s, cs =>
    match skipSpace cs with
    | [] => .error .incomplete
    | ']' :: _ => .error .mismatch
    | c :: rest =>
      if isFirst then (f.read s (c :: rest)).bind fun (s, rest) => valuesFrom fields false s rest
      else if c = ',' then
        match skipSpace rest with
        | [] => .error .incomplete
        | ']' :: _ => .error .malformed
        | rest => (f.read s rest).bind fun (s, rest) => valuesFrom fields false s rest
      else .error .malformed

/-- The end of a list. -/
def closeList (cs : List Char) : Except ReadError (List Char) :=
  match skipSpace cs with
  | [] => .error .incomplete
  | ']' :: rest => .ok rest
  | _ => .error .malformed

/-- A record with the given fields, collected from `empty` and completed by `finish`. -/
def record {σ α : Type} (fields : List (Field σ)) (empty : σ) (finish : σ → Option α)
    (cs : List Char) : Except ReadError (α × List Char) :=
  match skipSpace cs with
  | '\x7b' :: rest => do
    let (s, rest) ← membersFrom fields (rest.length + 1) true empty rest
    match finish s with
    | some v => return (v, rest)
    | none => .error .mismatch
  | '[' :: rest => do
    let (s, rest) ← valuesFrom fields true empty rest
    let rest ← closeList rest
    match finish s with
    | some v => return (v, rest)
    | none => .error .mismatch
  | cs => .error (wrongKind cs)

/-- A document that fills the whole text. -/
def whole? {α : Type} (read : List Char → Reading α) (cs : List Char) : Except ReadError α := do
  let (v, rest) ← read cs
  if (skipSpace rest).isEmpty then return v else .error .malformed

end ToneRelay.Json
