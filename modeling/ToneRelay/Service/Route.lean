import ToneRelay.Request.Form

/-!
# Routes

What a request can be about. A path is compared as it is written; only the name of a session in it
is decoded. Main statement: `ofPath_eq_some_iff`, every route is known under its paths and under
`/api` before them, but for the page, which is found at `/api` itself and not at `/api/`.
-/

namespace ToneRelay.Service

/-- What a request is about. -/
inductive Route
  | page
  | stream
  /-- One session, named as in the path. -/
  | session (name : String)
  | health
  | measures
deriving DecidableEq, Repr

namespace Route

/-- What stands before the name of a session. -/
def sessions : List Char := "/streams/".toList

/-- The route of a path below the root. -/
def below (path : List Char) : Option Route :=
  if path = "/".toList then some .page
  else if path = "/stream".toList then some .stream
  else if path = "/health".toList ∨ path = "/healthz".toList then some .health
  else if path = "/metrics".toList then some .measures
  else if sessions.isPrefixOf path then
    let name := path.drop sessions.length
    if name = [] ∨ '/' ∈ name then none else some (.session (String.ofList name))
  else none

/-- What may stand before every path. -/
def api : List Char := "/api".toList

/-- The route of a path. -/
def ofPath (path : String) : Option Route :=
  let cs := path.toList
  if cs = api then some .page
  else if (api ++ ['/']).isPrefixOf cs then
    let rest := cs.drop api.length
    if rest = ['/'] then none else below rest
  else below cs

/-- The name of a session without its escapes, if it is text. -/
def sessionName? (name : String) : Option String :=
  Text.decode? (Request.unescape (Text.utf8 name))

/-! ## Paths of a route -/

/-- The paths of a route below the root. The name of a session is one part of its path. -/
inductive Under : Route → List Char → Prop
  | page : Under .page ['/']
  | stream : Under .stream "/stream".toList
  | health : Under .health "/health".toList
  | healthz : Under .health "/healthz".toList
  | measures : Under .measures "/metrics".toList
  | session {name : List Char} (hne : name ≠ []) (hpart : '/' ∉ name) :
    Under (.session (String.ofList name)) (sessions ++ name)

variable {r : Route} {cs : List Char}

theorem below_sessions {name : List Char} (hne : name ≠ []) (hpart : '/' ∉ name) :
    below (sessions ++ name) = some (.session (String.ofList name)) := by
  have hprefix : sessions.isPrefixOf (sessions ++ name) = true :=
    List.isPrefixOf_iff_prefix.2 (List.prefix_append _ _)
  have hlong : ∀ path : List Char, path.length ≤ sessions.length → sessions ++ name ≠ path := by
    rintro path hlength rfl
    have hpos := List.length_pos_iff.2 hne
    rw [List.length_append] at hlength
    omega
  unfold below
  rw [if_neg (hlong _ (by decide)), if_neg (hlong _ (by decide)),
    if_neg (not_or.2 ⟨hlong _ (by decide), hlong _ (by decide)⟩), if_neg (hlong _ (by decide)),
    if_pos hprefix]
  simp [hne, hpart]

theorem below_eq_some_iff : below cs = some r ↔ Under r cs := by
  constructor
  · intro h
    unfold below at h
    split at h
    · next hpath => cases h; exact hpath ▸ .page
    split at h
    · next hpath => cases h; exact hpath ▸ .stream
    split at h
    · next hpath =>
      cases h
      rcases hpath with rfl | rfl
      · exact .health
      · exact .healthz
    split at h
    · next hpath => cases h; exact hpath ▸ .measures
    split at h
    · next hprefix =>
      obtain ⟨name, rfl⟩ := List.isPrefixOf_iff_prefix.1 hprefix
      dsimp only at h
      rw [List.drop_left] at h
      split at h
      · cases h
      · next hname =>
        cases h
        exact .session (fun hne => hname (.inl hne)) fun hpart => hname (.inr hpart)
    · cases h
  · intro h
    cases h with
    | session hne hpart => exact below_sessions hne hpart
    | _ => decide

theorem Under.cons (h : Under r cs) : ∃ rest, cs = '/' :: rest := by
  cases h <;> exact ⟨_, rfl⟩

theorem under_slash_iff : Under r ['/'] ↔ r = .page := by
  simp [← below_eq_some_iff, below, eq_comm]

/-- No path below the root is one of those with `/api` before them. -/
theorem Under.not_api (h : Under r cs) : cs ≠ api ∧ ¬ (api ++ ['/']) <+: cs := by
  cases h with
  | session hne hpart =>
    have hsessions : sessions = ['/', 's', 't', 'r', 'e', 'a', 'm', 's', '/'] := rfl
    have hapi : api = ['/', 'a', 'p', 'i'] := rfl
    simp [hsessions, hapi]
  | _ => decide

/-- **The paths of a route.** -/
theorem ofPath_eq_some_iff {path : String} : ofPath path = some r ↔ Under r path.toList ∨
    ∃ cs, path.toList = api ++ cs ∧ if r = .page then cs = [] else Under r cs := by
  unfold ofPath
  dsimp only
  by_cases hpage : path.toList = api
  · have hnone : ¬ Under r [] := fun h => nomatch h.cons
    have hbelow : ¬ Under r api := fun h => h.not_api.1 rfl
    simp [hpage, hnone, hbelow, eq_comm]
  rw [if_neg hpage]
  by_cases hprefix : api ++ ['/'] <+: path.toList
  · obtain ⟨rest, hpath⟩ := hprefix
    have hbelow : ¬ Under r path.toList := fun h => h.not_api.2 ⟨rest, hpath⟩
    have hcut : path.toList = api ++ '/' :: rest := by simp [← hpath]
    rw [if_pos (List.isPrefixOf_iff_prefix.2 ⟨rest, hpath⟩), or_iff_right hbelow, hcut,
      List.drop_left]
    by_cases hslash : '/' :: rest = ['/']
    · simp [hslash, under_slash_iff]
    · rw [if_neg hslash, below_eq_some_iff]
      by_cases hr : r = .page
      · have hother : ¬ Under .page ('/' :: rest) := fun h => by cases h; exact hslash rfl
        simp [hr, hother]
      · simp [hr]
  · rw [if_neg (mt List.isPrefixOf_iff_prefix.1 hprefix), below_eq_some_iff]
    refine (or_iff_left ?_).symm
    rintro ⟨cs, hpath, hcs⟩
    by_cases hr : r = .page
    · rw [if_pos hr] at hcs
      exact hpage (by rw [hpath, hcs, List.append_nil])
    · rw [if_neg hr] at hcs
      obtain ⟨rest, rfl⟩ := hcs.cons
      exact hprefix ⟨rest, by rw [hpath, List.append_assoc]; rfl⟩

end Route

end ToneRelay.Service
