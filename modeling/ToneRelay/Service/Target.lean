import ToneRelay.Text.Utf8

/-!
# Targets

What a request asks for is written as a path with a query string, as `*`, as an address that puts a
scheme and an authority before the path, or as an authority alone. Main statement: `parse_absolute`,
an address asks for the same as its path.
-/

namespace ToneRelay.Service

/-- What a request asks for: a path and a query string. -/
structure Target where
  path : String
  query : List UInt8
deriving DecidableEq, Repr

namespace Target

/-- Cuts at the first question mark; a fragment belongs to neither part. -/
def cut (cs : List Char) : Target :=
  let cs := cs.takeWhile (· ≠ '#')
  { path := String.ofList (cs.takeWhile (· ≠ '?'))
    query := Text.utf8 (String.ofList ((cs.dropWhile (· ≠ '?')).drop 1)) }

/-- The path of an address without one is the root. -/
def rooted (t : Target) : Target := if t.path = "" then { t with path := "/" } else t

/-- The characters of a scheme. -/
def isSchemeChar (c : Char) : Bool := c.isAlphanum || c ∈ ['+', '-', '.', '~']

/-- What stands between a scheme and an authority. -/
def separator : List Char := "://".toList

/-- What comes after a scheme, if there is one. -/
def afterScheme? (cs : List Char) : Option (List Char) :=
  let rest := cs.dropWhile isSchemeChar
  if separator.isPrefixOf rest then some (rest.drop separator.length) else none

/-- The characters of an authority. -/
def isAuthorityChar (c : Char) : Bool := c ≠ '/' && c ≠ '?' && c ≠ '#'

/-- Reads a target. An authority alone has no path. -/
def parse (s : String) : Target :=
  let cs := s.toList
  if cs.head? = some '/' ∨ cs = ['*'] then cut cs
  else
    match afterScheme? cs with
    | some rest => (cut (rest.dropWhile isAuthorityChar)).rooted
    | none => { path := "", query := [] }

theorem parse_slash (cs : List Char) : parse (String.ofList ('/' :: cs)) = cut ('/' :: cs) := by
  simp [parse]

theorem afterScheme?_append {scheme : List Char} (rest : List Char)
    (h : ∀ c ∈ scheme, isSchemeChar c = true) :
    afterScheme? (scheme ++ (separator ++ rest)) = some rest := by
  have hd : (separator ++ rest).dropWhile isSchemeChar = separator ++ rest :=
    List.dropWhile_cons_of_neg (by decide)
  simp [afterScheme?, List.dropWhile_append_of_pos h, hd]

theorem rooted_cut_slash (cs : List Char) : (cut ('/' :: cs)).rooted = cut ('/' :: cs) := by
  have hne : (cut ('/' :: cs)).path ≠ "" := by simp [cut]
  simp [rooted, hne]

theorem parse_absolute {scheme authority : List Char} (rest : List Char)
    (hs : ∀ c ∈ scheme, isSchemeChar c = true) (ha : ∀ c ∈ authority, isAuthorityChar c = true) :
    parse (String.ofList (scheme ++ (separator ++ (authority ++ '/' :: rest)))) =
      parse (String.ofList ('/' :: rest)) := by
  have hd : (authority ++ '/' :: rest).dropWhile isAuthorityChar = '/' :: rest := by
    rw [List.dropWhile_append_of_pos ha]
    exact List.dropWhile_cons_of_neg (by decide)
  have hhead : (scheme ++ (separator ++ (authority ++ '/' :: rest))).head? ≠ some '/' := by
    cases scheme with
    | nil => simp [separator]
    | cons c cs =>
      intro h
      have hc : c = '/' := by simpa using h
      exact absurd (hc ▸ hs c (by simp)) (by decide)
  have hstar : scheme ++ (separator ++ (authority ++ '/' :: rest)) ≠ ['*'] := by
    intro h
    have := congrArg List.length h
    simp [separator] at this
    omega
  rw [parse_slash, parse, String.toList_ofList, if_neg (by simp only [hhead, hstar, or_self,
    not_false_eq_true]), afterScheme?_append _ hs]
  simp only [hd, rooted_cut_slash]

end Target

end ToneRelay.Service
