import ToneRelay.Service.Settings

/-!
# Origins

Which pages may read an answer. The settings may list origins; an entry that cannot be the value of
a header is passed over, and without a usable entry every origin is allowed. Main statement:
`allowed_listed`.
-/

namespace ToneRelay.Service

/-- The origins whose pages may read the answers. -/
inductive Origins
  | any
  | listed (entries : List String)
deriving DecidableEq, Repr

/-- What may not be listed: the sign for every origin. -/
structure WildcardListed where
deriving DecidableEq, Repr

namespace Origins

/-- What stands for every origin. -/
def wildcard : String := "*"

/-- The characters of a header value: all but the controls of ASCII other than the tab. -/
def isHeaderChar (c : Char) : Bool := (32 ≤ c.toNat && c.toNat ≠ 127) || c = '\t'

/-- The entries that can be the value of a header. -/
def usable (entries : List String) : List String :=
  entries.filter fun e => e.toList.all isHeaderChar

/-- The origins in a list of entries, every one of them if none is usable. -/
def ofEntries (entries : Option (List String)) : Except WildcardListed Origins :=
  let entries := usable (entries.getD [])
  if entries = [] then .ok .any
  else if wildcard ∈ entries then .error {}
  else .ok (.listed entries)

/-- What an answer allows to a request from an origin. -/
def allowed (o : Origins) (origin : Option String) : Option String :=
  match o with
  | any => some wildcard
  | listed entries => origin.filter (· ∈ entries)

theorem allowed_listed {entries : List String} {origin value : String} :
    (listed entries).allowed (some origin) = some value ↔ origin ∈ entries ∧ value = origin := by
  simp only [allowed, Option.filter]
  split <;> simp_all [eq_comm]

end Origins

end ToneRelay.Service
