/-!
# Identifiers

An identifier is thirty-two hexadecimal digits. It is written in lower case in five groups; it is
read in either case, with the groups or without, and in the groups also between braces or after
`urn:uuid:`, which too may be in either case. Main statement: `Uuid.parse?_text`, an identifier is
read back from its text.
-/

namespace ToneRelay.Text

/-- An identifier. -/
structure Uuid where
  digits : List (Fin 16)
  length_eq : digits.length = 32
deriving DecidableEq

namespace Uuid

/-- The identifier whose digits are the low ones of `n`. -/
def ofNat (n : Nat) : Uuid where
  digits := (List.range 32).map fun i => Fin.ofNat 16 (n / Nat.pow 16 (31 - i))
  length_eq := by simp

/-- The sizes of the groups. -/
def groups : List Nat := [8, 4, 4, 4, 12]

/-- A digit in lower case. -/
def digitChar (d : Fin 16) : Char := Nat.digitChar d

/-- The digit that a character stands for. -/
def digit? (c : Char) : Option (Fin 16) :=
  (List.finRange 16).find? fun d => digitChar d = c.toLower

/-- Cuts into groups with hyphens between them. -/
def hyphenate : List Nat → List Char → List Char
  | [], cs => cs
  | [_], cs => cs
  | n :: ns, cs => cs.take n ++ '-' :: hyphenate ns (cs.drop n)

/-- Takes out the hyphens between groups of the given sizes. -/
def unhyphenate : List Nat → List Char → Option (List Char)
  | [], cs => some cs
  | [_], cs => some cs
  | n :: ns, cs =>
    match cs.drop n with
    | '-' :: rest => (unhyphenate ns rest).map (cs.take n ++ ·)
    | _ => none

/-- The characters of an identifier without hyphens. -/
def chars (u : Uuid) : List Char := u.digits.map digitChar

/-- The text of an identifier. -/
def text (u : Uuid) : String := String.ofList (hyphenate groups u.chars)

/-- An identifier without hyphens. -/
def plain? (cs : List Char) : Option Uuid :=
  (cs.mapM digit?).bind fun ds => if h : ds.length = 32 then some ⟨ds, h⟩ else none

/-- An identifier with hyphens. -/
def grouped? (cs : List Char) : Option Uuid :=
  if cs.length = 36 then (unhyphenate groups cs).bind plain? else none

/-- What stands before an identifier that is written as a name. -/
def urn : List Char := "urn:uuid:".toList

/-- Reads an identifier in any of its forms. -/
def parse? (s : String) : Option Uuid :=
  let cs := s.toList
  if cs.length = 32 then plain? cs
  else if cs.length = 36 then grouped? cs
  else if cs.head? = some '\x7b' ∧ cs.getLast? = some '\x7d' then grouped? (cs.drop 1).dropLast
  else if (cs.take urn.length).map Char.toLower = urn then grouped? (cs.drop urn.length)
  else none

/-! ## Reading back -/

@[simp] theorem digit?_digitChar (d : Fin 16) : digit? (digitChar d) = some d := by
  revert d; decide

theorem mapM_digit?_chars (ds : List (Fin 16)) : (ds.map digitChar).mapM digit? = some ds := by
  induction ds with
  | nil => rfl
  | cons d ds ih => simp [digit?_digitChar, ih]

@[simp] theorem plain?_chars (u : Uuid) : plain? u.chars = some u := by
  simp only [plain?, chars, mapM_digit?_chars, Option.bind_some, u.length_eq, dite_true]

@[simp] theorem length_chars (u : Uuid) : u.chars.length = 32 := by simp [chars, u.length_eq]

theorem unhyphenate_hyphenate (ns : List Nat) (cs : List Char)
    (h : ns.foldr (· + ·) 0 ≤ cs.length) :
    unhyphenate ns (hyphenate ns cs) = some cs := by
  fun_induction hyphenate ns cs with
  | case1 => rfl
  | case2 => rfl
  | case3 n ns cs hne ih =>
    have hn : n ≤ cs.length := by simp at h; omega
    have hlen : (cs.take n).length = n := by simp; omega
    have hdrop : (cs.take n ++ '-' :: hyphenate ns (cs.drop n)).drop n =
        '-' :: hyphenate ns (cs.drop n) := by
      rw [List.drop_append_of_le_length (by omega), List.drop_of_length_le (by omega)]; rfl
    have htake : (cs.take n ++ '-' :: hyphenate ns (cs.drop n)).take n = cs.take n := by
      rw [List.take_append_of_le_length (by omega), List.take_take, Nat.min_self]
    cases ns with
    | nil => exact absurd rfl hne
    | cons m ms =>
      rw [unhyphenate, hdrop, htake]
      · simp only [ih (by simp at h ⊢; omega), Option.map_some, List.take_append_drop]
      · simp

theorem length_hyphenate_groups {cs : List Char} (h : cs.length = 32) :
    (hyphenate groups cs).length = 36 := by
  simp [groups, hyphenate, h]

@[simp] theorem parse?_text (u : Uuid) : parse? u.text = some u := by
  have h36 := length_hyphenate_groups u.length_chars
  have hread := unhyphenate_hyphenate groups u.chars (by simp [groups, u.length_chars])
  simp [parse?, text, h36, grouped?, hread, plain?_chars]

end Uuid

end ToneRelay.Text
