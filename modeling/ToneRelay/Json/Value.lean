import ToneRelay.Decimal.Layout
import ToneRelay.Json.Quoted

/-!
# Documents

The values of a document and their text. One function writes both forms: `Value.compact` puts
nothing between the tokens, `Value.pretty` puts each item on its own line, two blanks deeper than
what holds it.
-/

namespace ToneRelay.Json

/-- A document. A record keeps its fields in the order given. -/
inductive Value
  | null
  | bool (b : Bool)
  | whole (n : Nat)
  | float (x : Float)
  | text (s : String)
  | list (items : List Value)
  | record (fields : List (String × Value))

/-- What is put between the tokens. -/
structure Spacing where
  /-- Before an item at the given depth, and before the end of what holds it. -/
  line : Nat → List Char
  /-- After the colon of a field. -/
  gap : List Char

/-- Nothing between the tokens. -/
def Spacing.none : Spacing := ⟨fun _ => [], []⟩

/-- Every item on a line of its own. -/
def Spacing.lines : Spacing := ⟨fun depth => '\n' :: List.replicate (2 * depth) ' ', [' ']⟩

mutual

/-- The text of a value at a depth. -/
def Value.write (sp : Spacing) (depth : Nat) : Value → List Char
  | .null => "null".toList
  | .bool true => "true".toList
  | .bool false => "false".toList
  | .whole n => Nat.toDigits 10 n
  | .float x => Decimal.Layout.json.chars x
  | .text s => quote s.toList
  | .list [] => ['[', ']']
  | .list (v :: vs) =>
    '[' :: sp.line (depth + 1) ++ v.write sp (depth + 1) ++ writeItems sp (depth + 1) vs ++
      sp.line depth ++ [']']
  | .record [] => ['\x7b', '\x7d']
  | .record ((k, v) :: fs) =>
    '\x7b' :: sp.line (depth + 1) ++ quote k.toList ++ ':' :: sp.gap ++ v.write sp (depth + 1) ++
      writeFields sp (depth + 1) fs ++ sp.line depth ++ ['\x7d']

/-- The items after the first one. -/
def writeItems (sp : Spacing) (depth : Nat) : List Value → List Char
  | [] => []
  | v :: vs => ',' :: sp.line depth ++ v.write sp depth ++ writeItems sp depth vs

/-- The fields after the first one. -/
def writeFields (sp : Spacing) (depth : Nat) : List (String × Value) → List Char
  | [] => []
  | (k, v) :: fs =>
    ',' :: sp.line depth ++ quote k.toList ++ ':' :: sp.gap ++ v.write sp depth ++
      writeFields sp depth fs

end

/-- The text of a value with nothing between the tokens. -/
def Value.compact (v : Value) : String := String.ofList (v.write .none 0)

/-- The text of a value with every item on a line of its own. -/
def Value.pretty (v : Value) : String := String.ofList (v.write .lines 0)

/-- A field that is left out when there is no value. -/
def optional (key : String) (v : Option Value) : List (String × Value) :=
  match v with
  | some v => [(key, v)]
  | Option.none => []

end ToneRelay.Json
