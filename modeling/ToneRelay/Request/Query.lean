import ToneRelay.Request.Form

/-!
# The fields of a stream request

A request names at most seven values, all texts; other names in a query string are passed over, and
a name given twice is refused before any value is looked at. Main statements: `Query.add_other` and
`Query.add_again`.
-/

namespace ToneRelay.Request

/-- What a request can ask for. -/
inductive Field
  | freq
  | duration
  | noise
  | mode
  | carrier
  | amplitude
  | endFreq
deriving DecidableEq, Repr

def Field.name : Field → String
  | .freq => "freq"
  | .duration => "duration"
  | .noise => "noise"
  | .mode => "mode"
  | .carrier => "carrier"
  | .amplitude => "amplitude"
  | .endFreq => "end_freq"

/-- All fields, in the order in which they are read. -/
def Field.all : List Field := [.freq, .duration, .noise, .mode, .carrier, .amplitude, .endFreq]

/-- The field with a given name. -/
def Field.named? (name : String) : Option Field := Field.all.find? (·.name = name)

@[simp] theorem Field.named?_name (f : Field) : Field.named? f.name = some f := by
  cases f <;> simp [Field.named?, Field.all, Field.name]

/-- The texts given for the fields. -/
structure Query where
  value : Field → Option String

namespace Query

/-- The request that asks for nothing. -/
def empty : Query := ⟨fun _ => none⟩

/-- Gives a text for a field. -/
def set (q : Query) (f : Field) (text : String) : Query :=
  ⟨fun g => if g = f then some text else q.value g⟩

/-- Takes one pair of a query string; the error is a field that already has a text. -/
def add (q : Query) (entry : String × String) : Except Field Query :=
  match Field.named? entry.1 with
  | none => .ok q
  | some f => if (q.value f).isSome then .error f else .ok (q.set f entry.2)

/-- The fields in a list of pairs. -/
def ofPairs (entries : List (String × String)) : Except Field Query := entries.foldlM add empty

/-- The fields in a query string. -/
def decode (query : List UInt8) : Except Field Query := ofPairs (pairs query)

@[simp] theorem set_value_self (q : Query) (f : Field) (text : String) :
    (q.set f text).value f = some text := by simp [set]

theorem set_value_other (q : Query) {f g : Field} (text : String) (h : g ≠ f) :
    (q.set f text).value g = q.value g := by simp [set, h]

theorem add_other (q : Query) {name text : String} (h : Field.named? name = none) :
    q.add (name, text) = .ok q := by simp [add, h]

theorem add_again (q : Query) {f : Field} (text : String) (h : (q.value f).isSome) :
    q.add (f.name, text) = .error f := by simp [add, Field.named?_name, h]

theorem add_new (q : Query) {f : Field} (text : String) (h : q.value f = none) :
    q.add (f.name, text) = .ok (q.set f text) := by simp [add, Field.named?_name, h]

end Query

/-- What is answered to a query string that gives a field twice. -/
def repeatedMessage (f : Field) : String :=
  "Failed to deserialize query string: duplicate field `" ++ f.name ++ "`"

end ToneRelay.Request
