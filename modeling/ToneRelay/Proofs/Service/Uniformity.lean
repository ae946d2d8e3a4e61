import ToneRelay.Proofs.Request.Decoding
import ToneRelay.Proofs.Service.Accounts
import ToneRelay.Proofs.Service.Prompt

/-!
# Uniform answers

A uniform answer to a stream request is the stream itself or a document that tells an error and its
status; the request is counted once, and a second time, as rejected, exactly if the status tells
that it was at fault. `stream_uniform_iff`: the answer is uniform exactly if no field is given
twice, for every query string and however the steps of the exchange come. A query string that gives
a field twice does not get as far as the handler: it is answered in plain text and not counted
(`handle_repeated`).

The proof keeps with an exchange why it is refused (`Motivated`), which goes with what it counts.
-/

namespace ToneRelay.Service

open Generator (Supervised)
open ToneRelay.Stream (Books Counters Moment Session Transfer)

namespace Exchange

variable {x : Exchange} {b : Books} {es : List Effect}

/-! ## Why an exchange is refused -/

/-- A request is rejected for what it asks; a generator that does not start has a fault. -/
def Motivated (es : List Effect) (x : Exchange) : Prop :=
  match x.phase with
  | .refusing u why _ => (u = .rejected ∧ ∃ text, why = .invalid text) ∨
      (u = .spawnFailure ∧ ∃ fault, why = .generator fault)
  | .clearing _ why => ∃ fault, why = .generator fault
  | .refused why _ => (es = [.count .request, .count .rejected] ∧ ∃ text, why = .invalid text) ∨
      (es = [.count .request, .launch, .count .spawnFailure] ∧ ∃ fault, why = .generator fault)
  | _ => True

theorem motivated_of_arrived (h : x.phase = .arrived) : x.Motivated [] := by
  unfold Motivated
  rw [h]
  trivial

theorem motivated_started {now : Moment} {s : Session} {g : Supervised} (hs : Prepared s)
    (r : Generator.Reply) : (x.started now s g r).1.Motivated es := by
  have hadvance : s.advance .streaming now = .ok { s with state := .streaming } := by
    rw [Session.advance_eq_ok_iff, hs.state]
    exact ⟨by decide, rfl⟩
  unfold started
  split
  · next fault =>
    split
    · exact .inr ⟨rfl, fault, rfl⟩
    · exact ⟨fault, rfl⟩
  · rw [hadvance]
    trivial

/-- **One step of the handler.** A session is never moved against its order, so that no other reason
comes up. -/
theorem motivated_proceed (hk : x.Kept b es) (h : x.Motivated es) (now : Moment) :
    (x.proceed now).1.Motivated (es ++ (x.proceed now).2.toList) := by
  have hsame := h
  unfold Kept at hk
  unfold Motivated at h
  unfold proceed
  cases hphase : x.phase with
  | arrived => trivial
  | counted =>
    rcases x.accept_cases now with ⟨fault, -, haccept⟩ | ⟨p, s, -, -, haccept⟩
    · dsimp only
      rw [haccept]
      exact .inl ⟨rfl, _, rfl⟩
    · dsimp only
      rw [haccept]
      trivial
  | refusing u why g =>
    rw [hphase] at hk h
    rcases h with ⟨rfl, hwhy⟩ | ⟨rfl, hwhy⟩
    · have hes := (hk.resolve_right fun hk => nomatch hk.1).2
      exact .inl ⟨by rw [hes]; rfl, hwhy⟩
    · have hes := (hk.resolve_left fun hk => nomatch hk.1).2
      exact .inr ⟨by rw [hes]; rfl, hwhy⟩
  | refused why g =>
    show x.Motivated (es ++ [])
    rwa [List.append_nil]
  | launching s p =>
    dsimp only
    unfold launch
    split
    · next fault hlaunch => exact .inr ⟨rfl, fault, rfl⟩
    · trivial
  | awaiting s g =>
    rw [hphase] at hk
    dsimp only
    split
    · exact motivated_started hk.2.2.2.1 _
    · trivial
  | clearing g why =>
    rw [hphase] at h
    dsimp only
    split
    · exact .inr ⟨rfl, h⟩
    · exact h
  | opening us s t => cases us <;> trivial
  | relaying s t =>
    dsimp only
    split
    · unfold conclude
      dsimp only
      split <;> trivial
    · split
      · trivial
      · show x.Motivated (es ++ [])
        rwa [List.append_nil]
  | closing s t =>
    dsimp only
    split <;> trivial
  | settling us s t => cases us <;> trivial
  | recording s t => trivial
  | ending s t => trivial
  | «over» s t =>
    show x.Motivated (es ++ [])
    rwa [List.append_nil]

theorem motivated_mapTransfer (h : x.Motivated es) (f : Transfer → Transfer) :
    (x.mapTransfer f).Motivated es := by
  unfold Motivated mapTransfer at *
  cases hphase : x.phase <;> simp_all

theorem motivated_mapSource (h : x.Motivated es) (f : Supervised → Supervised) :
    (x.mapSource f).Motivated es := by
  have hrest := motivated_mapTransfer h fun t => { t with source := f t.source }
  unfold mapSource
  split
  · trivial
  · next g why hphase =>
    unfold Motivated at h
    rw [hphase] at h
    exact h
  · trivial
  · exact hrest

theorem motivated_step (hk : x.Kept b es) (h : x.Motivated es) (m : Move) :
    (x.step m).1.Motivated (es ++ (x.step m).2.toList) := by
  have hnone : ∀ {y : Exchange}, y.Motivated es → y.Motivated (es ++ []) := by
    intro y hy
    rwa [List.append_nil]
  cases m with
  | proceed now => exact motivated_proceed hk h now
  | take => exact hnone (motivated_mapTransfer h _)
  | leave => exact hnone (motivated_mapTransfer h _)
  | _ => exact hnone (motivated_mapSource h _)

theorem motivated_run (hk : x.Kept b es) (h : x.Motivated es) (ms : List Move) :
    (x.run ms).1.Motivated (es ++ (x.run ms).2) := by
  induction ms generalizing x b es with
  | nil =>
    rw [run_nil, List.append_nil]
    exact h
  | cons m ms ih =>
    have hrest := ih (kept_step hk m) (motivated_step hk h m)
    rwa [List.append_assoc] at hrest

/-! ## What an answered request counts -/

/-- A stream has been counted as a request, and not as rejected. -/
theorem counts_of_settling (us : List Stream.Update) {s : Session}
    (h : es ++ us.map .count = opened ++ settled s) :
    (updates es).count .request = 1 ∧ (updates es).count .rejected = 0 := by
  cases es with
  | nil =>
    have hlaunch : Effect.launch ∈ us.map .count := by
      rw [List.nil_append] at h
      rw [h]
      exact List.mem_cons_of_mem _ List.mem_cons_self
    obtain ⟨u, -, hu⟩ := List.mem_map.1 hlaunch
    cases hu
  | cons e es =>
    obtain ⟨rfl, hrest⟩ := List.cons.inj h
    replace hrest : es ++ us.map .count = [.launch, .count .started, .count .enter] ++ settled s :=
      hrest
    have hall : updates es ++ updates (us.map .count) =
        [.started, .enter, .leave, .relayed s.bytes, .ended s.state] := by
      rw [← updates_append, hrest]
      rfl
    have hprefix : updates es <+: [.started, .enter, .leave, .relayed s.bytes, .ended s.state] :=
      ⟨_, hall⟩
    have hrequest := hprefix.sublist.count_le .request
    have hrejected := hprefix.sublist.count_le .rejected
    have hcons : updates (.count .request :: es) = .request :: updates es := rfl
    rw [hcons, List.count_cons_self, List.count_cons_of_ne (by decide)]
    simp at hrequest hrejected
    simp [hrequest, hrejected]

theorem counts_of_transfer (hk : x.Kept b es) {t : Transfer} (ht : x.transfer? = some t) :
    (updates es).count .request = 1 ∧ (updates es).count .rejected = 0 := by
  have hwhole : ∀ s, (updates (opened ++ settled s)).count .request = 1 ∧
      (updates (opened ++ settled s)).count .rejected = 0 :=
    fun s => counts_of_settling [] (List.append_nil _)
  have hrecorded : ∀ s, updates (opened ++ settled s ++ [.record s.report]) =
      updates (opened ++ settled s) := by
    intro s
    rw [updates_append]
    exact List.append_nil _
  unfold Kept at hk
  unfold transfer? at ht
  cases hphase : x.phase with
  | relaying s u =>
    rw [hphase] at hk
    rw [hk.1]
    exact ⟨rfl, rfl⟩
  | closing s u =>
    rw [hphase] at hk
    exact hk.elim
  | settling us s u =>
    rw [hphase] at hk
    exact counts_of_settling us hk.1
  | recording s u =>
    rw [hphase] at hk
    rw [hk.1]
    exact hwhole s
  | ending s u =>
    rw [hphase] at hk
    rw [hk.1, hrecorded]
    exact hwhole s
  | «over» s u =>
    rw [hphase] at hk
    rw [hk.1, hrecorded]
    exact hwhole s
  | _ =>
    rw [hphase] at ht
    cases ht

/-- A request that is answered has been counted, and as rejected only if it was at fault. -/
theorem answered_of_kept {r : Response} (hk : x.Kept b es) (hm : x.Motivated es)
    (hr : x.response? = some r) : (updates es).count .request = 1 ∧
      (updates es).count .rejected = (if r.status = 400 then 1 else 0) ∧
        (r = .audio x.id ∨ ∃ why, r = .ofRefusal why) := by
  have hstream : ∀ t, x.transfer? = some t → r = .audio x.id →
      (updates es).count .request = 1 ∧
        (updates es).count .rejected = (if r.status = 400 then 1 else 0) ∧
          (r = .audio x.id ∨ ∃ why, r = .ofRefusal why) := by
    intro t ht hr
    obtain ⟨hrequest, hrejected⟩ := counts_of_transfer hk ht
    refine ⟨hrequest, ?_, .inl hr⟩
    rw [hrejected, hr]
    rfl
  unfold response? at hr
  split at hr
  · next why g hphase =>
    obtain rfl := Option.some.inj hr
    unfold Motivated at hm
    rw [hphase] at hm
    rcases hm with ⟨hes, text, rfl⟩ | ⟨hes, fault, rfl⟩
    · rw [hes]
      exact ⟨rfl, rfl, .inr ⟨_, rfl⟩⟩
    · rw [hes]
      refine ⟨rfl, ?_, .inr ⟨_, rfl⟩⟩
      have hstatus : (Refusal.generator fault).status ≠ 400 := by
        rw [Ne, Refusal.status_eq_400_iff]
        nofun
      rw [Response.status_ofRefusal, if_neg hstatus]
      rfl
  · cases ht : x.transfer? with
    | none => rw [ht] at hr; cases hr
    | some t =>
      rw [ht] at hr
      exact hstream t ht (Option.some.inj hr).symm

end Exchange

/-! ## Uniform answers -/

/-- The stream, or a document that tells an error and its status; the request is counted, and as
rejected exactly if it was at fault. -/
structure Uniform (before after : Counters) (r : Response) : Prop where
  answer : r.status = 200 ∧ r.body = .audio ∨
    ∃ text, ("content-type", Refusal.contentType) ∈ r.headers ∧
      r.body = .text (Json.Value.record [("error", .text text), ("code", .whole r.status)]).compact
  requests : after.requests = before.requests + 1
  rejected : after.rejected = before.rejected + if r.status = 400 then 1 else 0

theorem counters_applyAll (s : Shared) (es : List Effect) :
    (s.applyAll es).counters = s.counters.run (updates es) := by
  induction es generalizing s with
  | nil => rfl
  | cons e es ih =>
    have hcons : updates (e :: es) = updates [e] ++ updates es := updates_append [e] es
    rw [Shared.applyAll_cons, ih, counters_apply, hcons, Counters.run_append]

/-- Other headers do not make a difference. -/
theorem Uniform.adding {before after : Counters} {r : Response} (h : Uniform before after r)
    (headers : List (String × String)) : Uniform before after (r.adding headers) := by
  refine ⟨?_, h.requests, h.rejected⟩
  rcases h.answer with hstream | ⟨text, htype, hbody⟩
  · exact .inl hstream
  · exact .inr ⟨text, List.mem_append_left _ htype, hbody⟩

/-- **Every schedule.** A request that has reached the handler and is answered is answered
uniformly. -/
theorem uniform_run {x : Exchange} (hx : x.phase = .arrived) (ms : List Exchange.Move)
    {r : Response} (hr : (x.run ms).1.response? = some r) (s : Shared) :
    Uniform s.counters (s.applyAll (x.run ms).2).counters r := by
  have hkept := Exchange.kept_run (Exchange.kept_of_arrived hx) ms
  have hmotivated := Exchange.motivated_run (Exchange.kept_of_arrived hx)
    (Exchange.motivated_of_arrived hx) ms
  obtain ⟨hrequest, hrejected, hanswer⟩ := Exchange.answered_of_kept hkept hmotivated hr
  rw [List.nil_append] at hrequest hrejected
  have hgrown := Counters.grown_run s.counters (updates (x.run ms).2)
  rw [counters_applyAll]
  refine ⟨?_, ?_, ?_⟩
  · rcases hanswer with rfl | ⟨why, rfl⟩
    · exact .inl ⟨rfl, rfl⟩
    · exact .inr ⟨why.told, List.mem_cons_self, rfl⟩
  · rw [hgrown.requests, hrequest]
    rfl
  · rw [hgrown.rejected, hrejected]
    split <;> rfl

namespace App

/-- The exchange that a stream request starts. -/
def arrival (a : App) (c : Circumstances) (q : Request.Query) : Exchange where
  settings := a.settings
  launcher := { c.launcher with grace := a.settings.terminateGrace }
  query := q
  id := c.streamId

variable {a : App} {i : Incoming} {c : Circumstances} {bucket : Bucket}

/-- The answer to a stream request for which there is a token, but for headers that every answer
has. -/
theorem handle_stream (hget : i.method = "GET")
    (hroute : Route.ofPath (Target.parse i.target).path = some .stream)
    (htoken : a.bucket.take c.now = some bucket) :
    let served := { a with bucket := bucket }.stream (Target.parse i.target).query c c.listener
    (a.handle i c).1.shared = served.1.shared ∧
      ∃ headers, (a.handle i c).2.response = served.2.response.adding headers := by
  have hhead : i.method ≠ "HEAD" := by simp [hget]
  have hoptions : i.method ≠ "OPTIONS" := by simp [hget]
  have hanswer : { a with bucket := bucket }.answer i (Target.parse i.target) c =
      { a with bucket := bucket }.stream (Target.parse i.target).query c c.listener := by
    unfold answer
    rw [hroute]
    dsimp only
    rw [if_pos hget]
    rfl
  unfold handle
  dsimp only
  rw [htoken]
  dsimp only
  rw [if_neg hoptions, hanswer]
  dsimp only
  rw [if_neg hhead]
  exact ⟨rfl, _, rfl⟩

/-- A query string that gives a field twice is answered in plain text, and nothing is counted. -/
theorem handle_repeated {f : Request.Field} (hget : i.method = "GET")
    (hroute : Route.ofPath (Target.parse i.target).path = some .stream)
    (htoken : a.bucket.take c.now = some bucket)
    (hquery : Request.Query.decode (Target.parse i.target).query = .error f) :
    (a.handle i c).1.shared = a.shared ∧ ∃ headers, (a.handle i c).2.response =
      (Response.ofBody 400 Response.plain (.text (Request.repeatedMessage f))).adding headers := by
  obtain ⟨hshared, headers, hresponse⟩ := handle_stream hget hroute htoken
  unfold stream at hshared hresponse
  rw [hquery] at hshared hresponse
  exact ⟨hshared, headers, hresponse⟩

/-- A query string that can be decoded is answered as soon as its exchange is. -/
theorem handle_decoded {q : Request.Query} (hget : i.method = "GET")
    (hroute : Route.ofPath (Target.parse i.target).path = some .stream)
    (htoken : a.bucket.take c.now = some bucket)
    (hquery : Request.Query.decode (Target.parse i.target).query = .ok q)
    (hanswered : (((a.arrival c q).carry c.moment c.listener).1.response?).isSome) :
    Uniform a.shared.counters (a.handle i c).1.shared.counters (a.handle i c).2.response := by
  obtain ⟨hshared, headers, hresponse⟩ := handle_stream hget hroute htoken
  unfold stream at hshared hresponse
  rw [hquery] at hshared hresponse
  obtain ⟨ms, hrun⟩ := Exchange.leads_carry (a.arrival c q) c.moment c.listener
  obtain ⟨r, hr⟩ := Option.isSome_iff_exists.1 hanswered
  have huniform := uniform_run (x := a.arrival c q) rfl ms (by rw [hrun]; exact hr) a.shared
  rw [hrun] at huniform
  have hcarried : (a.handle i c).1.shared =
      a.shared.applyAll ((a.arrival c q).carry c.moment c.listener).2 := hshared
  have htold : (a.handle i c).2.response = (((a.arrival c q).carry c.moment
      c.listener).1.response?.getD (.bare 500 [])).adding headers := hresponse
  rw [hcarried, htold, hr]
  exact huniform.adding headers

/-- **Uniform answers.** The answer to a stream request is uniform exactly if its query string gives
no field twice, and then in every order in which the steps of the exchange can come. -/
theorem stream_uniform_iff (hget : i.method = "GET")
    (hroute : Route.ofPath (Target.parse i.target).path = some .stream)
    (htoken : a.bucket.take c.now = some bucket)
    (hanswered : ∀ q, Request.Query.decode (Target.parse i.target).query = .ok q →
      (((a.arrival c q).carry c.moment c.listener).1.response?).isSome) :
    (Uniform a.shared.counters (a.handle i c).1.shared.counters (a.handle i c).2.response ↔
      (Request.Query.given (Request.pairs (Target.parse i.target).query)).Nodup) ∧
    ∀ q, Request.Query.decode (Target.parse i.target).query = .ok q → ∀ ms r,
      ((a.arrival c q).run ms).1.response? = some r → Uniform a.shared.counters
        (a.shared.applyAll ((a.arrival c q).run ms).2).counters r := by
  refine ⟨?_, fun q _ ms r hr => uniform_run (x := a.arrival c q) rfl ms hr a.shared⟩
  rw [← Request.Query.decode_eq_ok_iff]
  constructor
  · intro huniform
    cases hquery : Request.Query.decode (Target.parse i.target).query with
    | ok q => exact ⟨q, rfl⟩
    | error f =>
      have hshared := (handle_repeated hget hroute htoken hquery).1
      have hrequests := huniform.requests
      rw [hshared] at hrequests
      exact absurd (UInt64.left_eq_add.1 hrequests) (by decide)
  · rintro ⟨q, hquery⟩
    exact handle_decoded hget hroute htoken hquery (hanswered q hquery)

/-! ## Two requests -/

/-- A service at which nothing has been asked. -/
def quiet : App where
  settings := {}
  origins := .any
  bucket := .ofLimit 60
  shared := { history := .empty 256 }

/-- A request that reads everything. -/
def calm : Circumstances where
  now := 0
  moment := ⟨"2024-01-01T00:00:00Z"⟩
  requestId := .ofNat 0
  streamId := .ofNat 1
  vitals := ⟨0, 0, 0, 0, 0, none⟩
  launcher := Exchange.sample.launcher
  listener := .toEnd

/-- A number that is none is answered uniformly. -/
theorem stream_uniform_number :
    Uniform quiet.shared.counters
      (quiet.handle ⟨"GET", "/stream?freq=abc", []⟩ calm).1.shared.counters
      (quiet.handle ⟨"GET", "/stream?freq=abc", []⟩ calm).2.response := by
  have htoken : ∃ bucket, quiet.bucket.take calm.now = some bucket := ⟨_, rfl⟩
  obtain ⟨bucket, htoken⟩ := htoken
  have hanswered : ((Request.Query.decode (Target.parse "/stream?freq=abc").query).toOption.all
      fun q => (((quiet.arrival calm q).carry calm.moment calm.listener).1.response?).isSome) =
        true := by decide +kernel
  refine (stream_uniform_iff (i := ⟨"GET", "/stream?freq=abc", []⟩) rfl (by decide +kernel) htoken
    fun q hq => ?_).1.2 (by decide +kernel)
  rw [hq] at hanswered
  exact hanswered

/-- The same number given twice is not: the answer is plain text, and the request is not counted. -/
theorem stream_repeated :
    let served := quiet.handle ⟨"GET", "/stream?freq=abc&freq=abc", []⟩ calm
    served.2.response.status = 400 ∧
      served.2.response.body.text? =
        some "Failed to deserialize query string: duplicate field `freq`" ∧
      served.2.response.headers.contains ("content-type", "text/plain; charset=utf-8") ∧
      served.1.shared.counters = {} ∧
      ¬ Uniform quiet.shared.counters served.1.shared.counters served.2.response := by
  have hcounters : (quiet.handle ⟨"GET", "/stream?freq=abc&freq=abc", []⟩ calm).1.shared.counters =
      {} := by decide +kernel
  refine ⟨by decide +kernel, by decide +kernel, by decide +kernel, hcounters, ?_⟩
  intro huniform
  have hrequests := huniform.requests
  rw [hcounters] at hrequests
  exact absurd hrequests (by decide)

end App

end ToneRelay.Service
