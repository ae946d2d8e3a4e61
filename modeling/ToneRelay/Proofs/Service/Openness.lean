import ToneRelay.Proofs.Service.Lookup
import ToneRelay.Proofs.Service.Uniformity

/-!
# Which pages may read an answer

The environment lists origins, and each answer to a request from an origin says whether a page from
there may read it. An entry of the list is usable when it is not empty and can be the value of a
header; without a usable entry all pages may read, and otherwise those from the usable entries.

`fair_iff` says for which lists the service keeps to that: for those without an empty entry and
without the wildcard. An empty entry counts as an origin here, so that a list of nothing else shuts
out every page, and with a wildcard the service does not come up.
-/

namespace ToneRelay.Service

/-! ## The headers of an answer -/

/-- The origins that some headers allow. -/
def allowedBy (headers : List (String × String)) : List String :=
  (headers.filter fun h => h.1 = "access-control-allow-origin").map (·.2)

@[simp] theorem allowedBy_append (hs hs' : List (String × String)) :
    allowedBy (hs ++ hs') = allowedBy hs ++ allowedBy hs' := by
  simp [allowedBy]

@[simp] theorem allowedBy_allowOrigin (o : Origins) (origin : Option String) :
    allowedBy (Response.allowOrigin o origin) = (o.allowed origin).toList := by
  unfold Response.allowOrigin
  cases o.allowed origin <;> simp [allowedBy]

@[simp] theorem allowedBy_common (o : Origins) (origin : Option String) (id : Text.Uuid) :
    allowedBy (Response.common o origin id) = (o.allowed origin).toList := by
  unfold Response.common
  rw [allowedBy_append, allowedBy_allowOrigin]
  simp [allowedBy, Response.vary]

@[simp] theorem allowedBy_preflight (o : Origins) (origin : Option String) :
    allowedBy (Response.preflight o origin).headers = (o.allowed origin).toList := by
  unfold Response.preflight Response.bare
  rw [← List.singleton_append, allowedBy_append, allowedBy_append, allowedBy_allowOrigin]
  simp [allowedBy, Response.vary]

@[simp] theorem allowedBy_ofBody (status : Nat) (contentType : String) (body : Body) :
    allowedBy (Response.ofBody status contentType body).headers = [] := by
  unfold Response.ofBody Response.typed
  cases body.text? <;> simp [allowedBy]

@[simp] theorem allowedBy_audio (id : Text.Uuid) :
    allowedBy (Response.audio id).headers = [] := by
  simp [Response.audio, Response.audioHeaders, allowedBy]

@[simp] theorem allowedBy_bare (status : Nat) :
    allowedBy (Response.bare status []).headers = [] := by
  simp [Response.bare, allowedBy]

namespace App

variable (a : App) (i : Incoming) (target : Target) (c : Circumstances)

@[simp] theorem allowedBy_allowHeader : allowedBy (allowHeader i target) = [] := by
  unfold allowHeader
  split <;> simp [allowedBy, Response.allow]

@[simp] theorem allowedBy_session (name : String) :
    allowedBy (a.session name).2.headers = [] := by
  unfold session
  split
  · exact allowedBy_ofBody _ _ _
  · split
    · exact allowedBy_ofBody _ _ _
    · dsimp only
      split <;> exact allowedBy_ofBody _ _ _

@[simp] theorem allowedBy_response? (x : Exchange) :
    allowedBy (x.response?.getD (.bare 500 [])).headers = [] := by
  cases h : x.response? with
  | none => simp
  | some r =>
    unfold Exchange.response? at h
    split at h
    · cases h
      exact allowedBy_ofBody _ _ _
    · obtain ⟨t, -, rfl⟩ := Option.map_eq_some_iff.1 h
      exact allowedBy_audio _

@[simp] theorem allowedBy_serve (r : Route) (query : List UInt8) (l : Stream.Transfer.Listener) :
    allowedBy (a.serve r query c l).2.response.headers = [] := by
  cases r with
  | page | health | measures => exact allowedBy_ofBody _ _ _
  | session name => exact allowedBy_session a name
  | stream =>
    show allowedBy (a.stream query c l).2.response.headers = []
    unfold stream
    split
    · exact allowedBy_ofBody _ _ _
    · exact allowedBy_response? _

/-- No route allows an origin by itself. -/
@[simp] theorem allowedBy_answer : allowedBy (a.answer i target c).2.response.headers = [] := by
  unfold answer
  split
  · exact allowedBy_ofBody _ _ _
  · split
    · simp
    · split <;> simp

@[simp] theorem allowedBy_withoutBody (isHead : Prop) [Decidable isHead] (r : Response) :
    allowedBy (if isHead then r.withoutBody else r).headers = allowedBy r.headers := by
  split <;> rfl

@[simp] theorem origins_serve (r : Route) (query : List UInt8) (l : Stream.Transfer.Listener) :
    (a.serve r query c l).1.origins = a.origins := by
  cases r with
  | page | health | measures => rfl
  | session name => exact origins_session name
  | stream =>
    show (a.stream query c l).1.origins = a.origins
    unfold stream
    split <;> rfl

@[simp] theorem origins_answer : (a.answer i target c).1.origins = a.origins := by
  unfold answer
  split
  · rfl
  · split
    · simp
    · split <;> simp

/-- The answer to a request for which there is a token allows what the service allows. -/
theorem allowedBy_handle (htoken : (a.bucket.take c.now).isSome) :
    allowedBy (a.handle i c).2.response.headers =
      (a.origins.allowed (i.header? "origin")).toList := by
  obtain ⟨bucket, hbucket⟩ := Option.isSome_iff_exists.1 htoken
  unfold handle
  simp only [hbucket]
  split
  · simp [Response.adding]
  · simp [Response.adding]

/-! ## Whatever is asked -/

@[simp] theorem origins_handle : (a.handle i c).1.origins = a.origins := by
  unfold handle
  split
  · rfl
  · dsimp only
    split
    · rfl
    · exact origins_answer _ i _ c

/-- The service after some requests. -/
def after (a : App) (rs : List (Incoming × Circumstances)) : App :=
  rs.foldl (fun a r => (a.handle r.1 r.2).1) a

@[simp] theorem after_nil : a.after [] = a := rfl

@[simp] theorem after_cons (r : Incoming × Circumstances) (rs : List (Incoming × Circumstances)) :
    a.after (r :: rs) = (a.handle r.1 r.2).1.after rs := rfl

@[simp] theorem origins_after (rs : List (Incoming × Circumstances)) :
    (a.after rs).origins = a.origins := by
  induction rs generalizing a with
  | nil => rfl
  | cons r rs ih => simp [ih]

end App

/-! ## What a list of entries is to mean -/

namespace Origins

/-- An entry that names an origin: it is not empty and can be the value of a header. -/
def isUsable (entry : String) : Bool := entry ≠ "" && entry.toList.all isHeaderChar

/-- What is allowed to a request from an origin by an answer, where some entries are listed: all
origins if no entry is usable, otherwise this one if it is a usable entry. -/
structure Grants (entries : List String) (origin : String) (allowed : List String) : Prop where
  every : allowed = [wildcard] ↔ entries.filter isUsable = []
  listed : entries.filter isUsable ≠ [] →
    allowed = if origin ∈ entries.filter isUsable then [origin] else []

end Origins

/-- The entries that an environment lists. -/
def Environment.listed (env : Environment) : List String :=
  match env.text? "CORS_ALLOWED_ORIGINS" with
  | some text => (Text.pieces ',' text).map Text.trim
  | none => []

/-- At all times, every request from an origin for which there is a token is granted what the
entries mean. -/
def App.Fair (entries : List String) (a : App) : Prop :=
  ∀ rs i c origin, i.header? "origin" = some origin → ((a.after rs).bucket.take c.now).isSome →
    Origins.Grants entries origin (allowedBy ((a.after rs).handle i c).2.response.headers)

theorem listed_eq (env : Environment) :
    (Settings.originsIn env).getD [] = env.listed := by
  unfold Settings.originsIn Environment.listed
  cases env.text? "CORS_ALLOWED_ORIGINS" <;> rfl

namespace Origins

variable {entries : List String}

theorem mem_usable {e : String} :
    e ∈ usable entries ↔ e ∈ entries ∧ e.toList.all isHeaderChar = true := List.mem_filter

/-- What the service takes for usable is usable, if no entry is empty. -/
theorem usable_eq_filter (h : "" ∉ entries) : usable entries = entries.filter isUsable := by
  apply List.filter_congr
  intro e he
  have hne : e ≠ "" := by
    rintro rfl
    exact h he
  simp [isUsable, hne]

theorem grants_any {origin : String} (h : entries.filter isUsable = []) :
    Grants entries origin (any.allowed (some origin)).toList :=
  ⟨⟨fun _ => h, fun _ => rfl⟩, fun hne => absurd h hne⟩

theorem grants_listed {origin : String} (h : entries.filter isUsable ≠ [])
    (hw : wildcard ∉ entries) :
    Grants entries origin ((listed (entries.filter isUsable)).allowed (some origin)).toList := by
  have hallowed : ((listed (entries.filter isUsable)).allowed (some origin)).toList =
      if origin ∈ entries.filter isUsable then [origin] else [] := by
    simp only [allowed, Option.filter_some, decide_eq_true_eq]
    split <;> rfl
  refine ⟨⟨fun hall => ?_, fun hnone => absurd hnone h⟩, fun _ => hallowed⟩
  rw [hallowed] at hall
  split at hall
  · next hmem =>
    cases hall
    exact absurd (List.mem_filter.1 hmem).1 hw
  · cases hall

/-- Entries among which there is neither an empty one nor the wildcard are taken as they are
meant. -/
theorem ofEntries_grants {given : Option (List String)} (hempty : "" ∉ given.getD [])
    (hw : wildcard ∉ given.getD []) : ∃ o, ofEntries given = .ok o ∧
      ∀ origin, Grants (given.getD []) origin (o.allowed (some origin)).toList := by
  unfold ofEntries
  simp only [usable_eq_filter hempty]
  by_cases hnone : (given.getD []).filter isUsable = []
  · rw [if_pos hnone]
    exact ⟨.any, rfl, fun _ => grants_any hnone⟩
  · rw [if_neg hnone, if_neg fun hmem => hw (List.mem_filter.1 hmem).1]
    exact ⟨_, rfl, fun _ => grants_listed hnone hw⟩

/-- The wildcard is refused. -/
theorem wildcard_not_mem {given : Option (List String)} {o : Origins}
    (h : ofEntries given = .ok o) : wildcard ∉ given.getD [] := by
  intro hmem
  have husable : wildcard ∈ usable (given.getD []) := mem_usable.2 ⟨hmem, by decide⟩
  unfold ofEntries at h
  simp only [if_neg (List.ne_nil_of_mem husable), if_pos husable] at h
  cases h

/-- An empty entry lets the empty origin in. -/
theorem allowed_empty {given : Option (List String)} {o : Origins} (h : ofEntries given = .ok o)
    (hempty : "" ∈ given.getD []) : o.allowed (some "") = some "" := by
  have husable : "" ∈ usable (given.getD []) := mem_usable.2 ⟨hempty, by decide⟩
  have hw : wildcard ∉ usable (given.getD []) := fun hmem =>
    wildcard_not_mem h (mem_usable.1 hmem).1
  unfold ofEntries at h
  simp only [if_neg (List.ne_nil_of_mem husable), if_neg hw] at h
  cases h
  exact allowed_listed.2 ⟨husable, rfl⟩

/-- No list grants anything to a request whose origin is empty. -/
theorem not_grants_empty : ¬ Grants entries "" [""] := by
  intro h
  by_cases hnone : entries.filter isUsable = []
  · exact absurd (h.every.2 hnone) (by decide)
  · have hlisted := h.listed hnone
    have hempty : "" ∉ entries.filter isUsable := by
      intro hmem
      exact absurd (List.mem_filter.1 hmem).2 (by decide)
    rw [if_neg hempty] at hlisted
    cases hlisted

end Origins

namespace App

theorem isSome_take_ofLimit (limit : UInt32) (now : Nat) :
    ((Bucket.ofLimit limit).take now).isSome := by
  have hfull : (Bucket.ofLimit limit).fullAt ≤ now := Nat.zero_le now
  have htoken : 0 < (Bucket.ofLimit limit).tokens now := by
    rw [Bucket.tokens_of_full hfull]
    exact (Bucket.ofLimit limit).burst_pos
  rw [Bucket.take_of_pos htoken, Option.isSome_some]

/-- The service that comes up allows what the entries of its settings give. -/
theorem create_eq_ok {s : Settings} {a : App} (h : create s = .ok a) :
    Origins.ofEntries s.origins = .ok a.origins ∧ a.bucket = .ofLimit s.rateLimit := by
  unfold create at h
  split at h
  · cases h
  · next o ho =>
    cases h
    exact ⟨ho, rfl⟩

theorem exists_create {s : Settings} {o : Origins} (h : Origins.ofEntries s.origins = .ok o) :
    ∃ a, create s = .ok a := by
  unfold create
  rw [h]
  exact ⟨_, rfl⟩

/-- A request from the empty origin. -/
def nowhere : Incoming := ⟨"GET", "/health", [("origin", "")]⟩

section
variable {env : Environment}

/-- The service comes up and grants what the entries mean, if none of them is empty or the
wildcard. -/
theorem fair_of_listed (h : ∀ e ∈ env.listed, e ≠ "" ∧ e ≠ Origins.wildcard) :
    ∃ a, create (.ofEnvironment env) = .ok a ∧ a.Fair env.listed := by
  rw [← listed_eq] at h ⊢
  obtain ⟨o, ho, hgrants⟩ := Origins.ofEntries_grants (fun hmem => (h _ hmem).1 rfl)
    fun hmem => (h _ hmem).2 rfl
  obtain ⟨a, ha⟩ := exists_create (s := .ofEnvironment env) ho
  have horigins : a.origins = o := Except.ok.inj ((create_eq_ok ha).1.symm.trans ho)
  refine ⟨a, ha, ?_⟩
  intro rs i c origin horigin htoken
  rw [allowedBy_handle _ _ _ htoken, origins_after, horigins, horigin]
  exact hgrants origin

/-- A service that grants what the entries mean has none that is empty. -/
theorem empty_not_mem_of_fair {a : App} (ha : create (.ofEnvironment env) = .ok a)
    (h : a.Fair env.listed) : "" ∉ env.listed := by
  intro hmem
  obtain ⟨ho, hbucket⟩ := create_eq_ok ha
  have horigin : nowhere.header? "origin" = some "" := by decide +kernel
  have htoken : ((a.after []).bucket.take calm.now).isSome := by
    show (a.bucket.take calm.now).isSome
    rw [hbucket]
    exact isSome_take_ofLimit _ _
  have hgrants := h [] nowhere calm "" horigin htoken
  rw [← listed_eq] at hmem
  rw [allowedBy_handle _ _ _ htoken, origins_after, horigin,
    Origins.allowed_empty ho hmem] at hgrants
  exact Origins.not_grants_empty hgrants

/-- **What a list of origins does.** The service comes up and grants what the entries mean exactly
when none of them is empty or the wildcard. -/
theorem fair_iff (env : Environment) :
    (∃ a, create (.ofEnvironment env) = .ok a ∧ a.Fair env.listed) ↔
      ∀ e ∈ env.listed, e ≠ "" ∧ e ≠ Origins.wildcard := by
  refine ⟨?_, fair_of_listed⟩
  rintro ⟨a, ha, hfair⟩ e he
  constructor
  · rintro rfl
    exact empty_not_mem_of_fair ha hfair he
  · rintro rfl
    rw [← listed_eq] at he
    exact Origins.wildcard_not_mem (create_eq_ok ha).1 he

end

/-! ## Two lists -/

/-- The environment that sets the list and nothing else. -/
def listing (text : String) : Environment := .set .empty "CORS_ALLOWED_ORIGINS" (Text.utf8 text)

/-- A page of another site asks for the sign of life. -/
def elsewhere : Incoming := ⟨"GET", "/health", [("origin", "https://a.example")]⟩

/-- The empty list has no usable entry, and yet no page is let in; with the wildcard the service
does not come up at all. -/
theorem unfair_empty :
    (listing "").listed.filter Origins.isUsable = [] ∧
      (∃ a, create (.ofEnvironment (listing "")) = .ok a ∧
        allowedBy (a.handle elsewhere calm).2.response.headers = [] ∧
        ¬ a.Fair (listing "").listed) ∧
      create (.ofEnvironment (listing "*")) = .error {} := by
  have hlisted : (listing "").listed = [""] := by decide +kernel
  have hnone : (listing "").listed.filter Origins.isUsable = [] := by
    rw [hlisted]
    decide
  have hopen : ∃ a, create (.ofEnvironment (listing "")) = .ok a := ⟨_, rfl⟩
  obtain ⟨a, ha⟩ := hopen
  obtain ⟨ho, hbucket⟩ := create_eq_ok ha
  have htoken : (a.bucket.take calm.now).isSome := by
    rw [hbucket]
    exact isSome_take_ofLimit _ _
  have horigin : elsewhere.header? "origin" = some "https://a.example" := by decide +kernel
  have horigins : a.origins = .listed [""] :=
    Except.ok.inj (ho.symm.trans (by decide +kernel))
  have hshut : allowedBy (a.handle elsewhere calm).2.response.headers = [] := by
    rw [allowedBy_handle _ _ _ htoken, horigins, horigin]
    decide
  refine ⟨hnone, ⟨a, ha, hshut, ?_⟩, ?_⟩
  · intro hfair
    have hevery := (hfair [] elsewhere calm _ horigin htoken).every.2 hnone
    rw [App.after_nil, hshut] at hevery
    cases hevery
  · refine create_wildcard ?_
    decide +kernel

end App

end ToneRelay.Service
