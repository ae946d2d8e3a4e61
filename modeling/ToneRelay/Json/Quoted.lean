/-!
# Quoted text

The written form of a text in a document: quotation mark, the characters with those that a document
may not hold as they are escaped, quotation mark.
-/

namespace ToneRelay.Json

/-- The digit of a number below sixteen, in lower case. -/
def hexDigit (n : Nat) : Char := Nat.digitChar n

/-- A character inside quotation marks. -/
def escape (c : Char) : List Char :=
  if c = '"' then ['\\', '"']
  else if c = '\\' then ['\\', '\\']
  else if c = '\n' then ['\\', 'n']
  else if c = '\r' then ['\\', 'r']
  else if c = '\t' then ['\\', 't']
  else if c.toNat = 8 then ['\\', 'b']
  else if c.toNat = 12 then ['\\', 'f']
  else if c.toNat < 32 then
    ['\\', 'u', '0', '0', hexDigit (c.toNat / 16), hexDigit (c.toNat % 16)]
  else [c]

/-- A text between quotation marks. -/
def quote (cs : List Char) : List Char := '"' :: cs.flatMap escape ++ ['"']

theorem escape_ne_nil (c : Char) : escape c ≠ [] := by
  unfold escape; repeat' split
  all_goals simp

end ToneRelay.Json
