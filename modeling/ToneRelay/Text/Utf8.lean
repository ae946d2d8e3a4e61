/-!
# Reading bytes as text

UTF-8 is read one byte at a time by a machine whose state is the character begun and not yet ended.
A byte that cannot go on with that character ends it: what was read of it becomes one replacement
character, and the byte starts afresh. `decodeLossy` never fails; `decode?` accepts valid text only.
-/

namespace ToneRelay.Text

/-- The character that stands for bytes that are no text. -/
def replacement : Char := '\uFFFD'

/-- A character begun: the bytes it still needs, the range of the next one, and its bits so far. -/
structure Begun where
  need : Nat
  low : UInt8
  high : UInt8
  value : Nat
deriving DecidableEq, Repr

/-- What a byte means at the start of a character. -/
inductive Lead
  | whole (c : Char)
  | begun (b : Begun)
  | invalid
deriving DecidableEq, Repr

/-- The meaning of a first byte. The ranges exclude overlong forms, surrogates and values above
`0x10FFFF`. -/
def lead (b : UInt8) : Lead :=
  if b < 0x80 then .whole (Char.ofNat b.toNat)
  else if b < 0xC2 then .invalid
  else if b < 0xE0 then .begun ⟨1, 0x80, 0xBF, b.toNat - 0xC0⟩
  else if b < 0xF0 then
    .begun ⟨2, if b = 0xE0 then 0xA0 else 0x80, if b = 0xED then 0x9F else 0xBF, b.toNat - 0xE0⟩
  else if b < 0xF5 then
    .begun ⟨3, if b = 0xF0 then 0x90 else 0x80, if b = 0xF4 then 0x8F else 0xBF, b.toNat - 0xF0⟩
  else .invalid

/-- The state of the machine: the characters read, last first, and the one begun. -/
structure Decoder where
  read : List Char := []
  begun : Option Begun := none
  valid : Bool := true
deriving DecidableEq, Repr

/-- Reads a byte where a character starts. -/
def Decoder.first (d : Decoder) (b : UInt8) : Decoder :=
  match lead b with
  | .whole c => { d with read := c :: d.read, begun := none }
  | .begun p => { d with begun := some p }
  | .invalid => { read := replacement :: d.read, begun := none, valid := false }

/-- Reads one byte. -/
def Decoder.feed (d : Decoder) (b : UInt8) : Decoder :=
  match d.begun with
  | none => d.first b
  | some p =>
    if p.low ≤ b ∧ b ≤ p.high then
      let value := p.value * 64 + (b.toNat - 0x80)
      if p.need ≤ 1 then { d with read := Char.ofNat value :: d.read, begun := none }
      else { d with begun := some ⟨p.need - 1, 0x80, 0xBF, value⟩ }
    else Decoder.first { read := replacement :: d.read, begun := none, valid := false } b

/-- Ends the text: a character that was only begun is replaced. -/
def Decoder.finish (d : Decoder) : Decoder :=
  match d.begun with
  | none => d
  | some _ => { read := replacement :: d.read, begun := none, valid := false }

/-- The machine after all of `bytes`. -/
def Decoder.run (bytes : List UInt8) : Decoder := (bytes.foldl Decoder.feed {}).finish

/-- The characters of `bytes`, each longest piece that begins no character replaced. -/
def decodeLossyChars (bytes : List UInt8) : List Char := (Decoder.run bytes).read.reverse

/-- The text of `bytes`, each longest piece that begins no character replaced. -/
def decodeLossy (bytes : List UInt8) : String := String.ofList (decodeLossyChars bytes)

/-- The text of `bytes`, if they are valid. -/
def decode? (bytes : List UInt8) : Option String :=
  let d := Decoder.run bytes
  if d.valid then some (String.ofList d.read.reverse) else none

/-- The bytes of a text. -/
def utf8 (s : String) : List UInt8 := s.toList.flatMap String.utf8EncodeChar

/-! ## Feeding the machine -/

theorem feed_of_begun {d : Decoder} {p : Begun} {b : UInt8} (h : d.begun = some p)
    (hb : p.low ≤ b ∧ b ≤ p.high) (hn : 1 < p.need) :
    d.feed b = { d with
      begun := some ⟨p.need - 1, 0x80, 0xBF, p.value * 64 + (b.toNat - 0x80)⟩ } := by
  have : ¬p.need ≤ 1 := by omega
  simp [Decoder.feed, h, hb, this]

theorem feed_of_last {d : Decoder} {p : Begun} {b : UInt8} (h : d.begun = some p)
    (hb : p.low ≤ b ∧ b ≤ p.high) (hn : p.need ≤ 1) :
    d.feed b = { d with
      read := Char.ofNat (p.value * 64 + (b.toNat - 0x80)) :: d.read, begun := none } := by
  simp [Decoder.feed, h, hb, hn]

end ToneRelay.Text
