/-!
# White space

The characters with the Unicode property `White_Space`, and the three things this library does with
them: trimming a text, cutting it into words, and recognising a text that holds nothing else.
-/

namespace ToneRelay.Text

/-- The property `White_Space`. -/
def isBlank (c : Char) : Bool :=
  let n := c.toNat
  (9 ≤ n && n ≤ 13) || n == 0x20 || n == 0x85 || n == 0xA0 || n == 0x1680 ||
    (0x2000 ≤ n && n ≤ 0x200A) || n == 0x2028 || n == 0x2029 || n == 0x202F || n == 0x205F ||
    n == 0x3000

/-- The characters that are left when blanks are removed from the end. -/
def trimEnd (cs : List Char) : List Char := (cs.reverse.dropWhile isBlank).reverse

/-- The characters that are left when blanks are removed from both ends. -/
def trimChars (cs : List Char) : List Char := trimEnd (cs.dropWhile isBlank)

/-- A text without the blanks at its ends. -/
def trim (s : String) : String := String.ofList (trimChars s.toList)

/-- Cuts at blanks; `word` holds the characters since the last one, in reverse. -/
def wordsFrom : List Char → List Char → List (List Char)
  | word, [] => if word.isEmpty then [] else [word.reverse]
  | word, c :: cs =>
    if isBlank c then
      if word.isEmpty then wordsFrom [] cs else word.reverse :: wordsFrom [] cs
    else wordsFrom (c :: word) cs

/-- The words of a text: its longest pieces without a blank. -/
def words (s : String) : List String := (wordsFrom [] s.toList).map String.ofList

/-- Cuts at every `sep`; `piece` holds the items since the last one, in reverse. -/
def splitFrom {α : Type} [DecidableEq α] (sep : α) : List α → List α → List (List α)
  | piece, [] => [piece.reverse]
  | piece, c :: cs =>
    if c = sep then piece.reverse :: splitFrom sep [] cs else splitFrom sep (c :: piece) cs

/-- The pieces between the separators of a text, one more than it has separators. -/
def pieces (sep : Char) (s : String) : List String := (splitFrom sep [] s.toList).map String.ofList

end ToneRelay.Text
