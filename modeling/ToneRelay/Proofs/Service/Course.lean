import ToneRelay.Proofs.Stream.Delivery
import ToneRelay.Service.Exchange

/-!
# The course of an exchange

`Kept` says for each phase of an exchange what its effects have been, how far its session has come,
and where the bytes of its generator are. Every step preserves it (`kept_step`), hence every run
(`kept_run`).

1. Before the relay starts, the session has made its three legal moves, so that no move is refused.
2. While the relay works, the books of its transfer are `Sound`.
3. When it has ended, the session makes one more move (`Concluded`). The generator is at rest then,
   so that it is let go of in the same step, and an exchange is never `closing`.
-/

namespace ToneRelay.Service

open Generator (Supervised Process Fault Reply Outcome)
open ToneRelay.Stream (Books Channel Ending Moment Occurrence Session Transfer Update)

namespace Exchange

/-- The bytes that the generator of a request writes if no one stops it. -/
def script (x : Exchange) : List UInt8 :=
  match x.query.accept x.settings.maxMinutes with
  | .error _ => []
  | .ok p =>
    match x.launcher.launch (Job.describe p) with
    | .error _ => []
    | .ok g => g.process.unwritten

/-- The books after one thing has happened. -/
def booked (x : Exchange) (b : Books) : Move → Books
  | .proceed _ =>
    match x.phase with
    | .relaying _ t => b.accept t.sends
    | _ => b
  | .act => b.write ((x.source?.map fun g => g.process.emits g.now).getD [])
  | .leave => b.lose ((x.transfer?.map (·.channel.queue)).getD [])
  | _ => b

/-- The books after what has happened in order. -/
def books (x : Exchange) (b : Books) : List Move → Books
  | [] => b
  | m :: ms => (x.step m).1.books (x.booked b m) ms

/-! ## What stays -/

theorem accept_eq (x : Exchange) (now : Moment) :
    ∃ p, (x.accept now).1 = { x with phase := p } := by
  unfold accept
  split
  · exact ⟨_, rfl⟩
  · dsimp only
    split <;> exact ⟨_, rfl⟩

theorem launch_eq (x : Exchange) (s : Session) (params : Job.Parameters) :
    ∃ p, (x.launch s params).1 = { x with phase := p } := by
  unfold launch
  split <;> exact ⟨_, rfl⟩

theorem started_eq (x : Exchange) (now : Moment) (s : Session) (g : Supervised) (r : Reply) :
    ∃ p, (x.started now s g r).1 = { x with phase := p } := by
  unfold started
  split
  · split <;> exact ⟨_, rfl⟩
  · split <;> exact ⟨_, rfl⟩

theorem conclude_eq (x : Exchange) (now : Moment) (s : Session) (t : Transfer) (e : Ending) :
    ∃ p, (x.conclude now s t e).1 = { x with phase := p } := by
  unfold conclude
  dsimp only
  split <;> exact ⟨_, rfl⟩

theorem proceed_eq (x : Exchange) (now : Moment) :
    ∃ p, (x.proceed now).1 = { x with phase := p } := by
  unfold proceed
  cases x.phase with
  | counted => exact x.accept_eq now
  | launching s params => exact x.launch_eq s params
  | awaiting s g =>
    dsimp only
    split
    · exact x.started_eq now s _ _
    · exact ⟨_, rfl⟩
  | clearing g why =>
    dsimp only
    split <;> exact ⟨_, rfl⟩
  | opening us s t => cases us <;> exact ⟨_, rfl⟩
  | relaying s t =>
    dsimp only
    split
    · exact x.conclude_eq now s t _
    · split
      · exact ⟨_, rfl⟩
      · exact ⟨x.phase, rfl⟩
  | closing s t =>
    dsimp only
    split <;> exact ⟨_, rfl⟩
  | settling us s t => cases us <;> exact ⟨_, rfl⟩
  | refused why g => exact ⟨x.phase, rfl⟩
  | «over» s t => exact ⟨x.phase, rfl⟩
  | _ => exact ⟨_, rfl⟩

/-- The request, the settings and the launcher of an exchange never change. -/
theorem step_eq (x : Exchange) (m : Move) : ∃ p, (x.step m).1 = { x with phase := p } := by
  have hmap : ∀ f, ∃ p, x.mapTransfer f = { x with phase := p } := fun _ => ⟨_, rfl⟩
  have hsource : ∀ f, ∃ p, x.mapSource f = { x with phase := p } := by
    intro f
    unfold mapSource
    dsimp only
    split
    · exact ⟨_, rfl⟩
    · exact ⟨_, rfl⟩
    · exact ⟨_, rfl⟩
    · exact hmap _
  cases m with
  | proceed now => exact x.proceed_eq now
  | take => exact hmap _
  | leave => exact hmap _
  | _ => exact hsource _

theorem run_eq (x : Exchange) (ms : List Move) : ∃ p, (x.run ms).1 = { x with phase := p } := by
  induction ms generalizing x with
  | nil => exact ⟨x.phase, rfl⟩
  | cons m ms ih =>
    obtain ⟨p, hp⟩ := x.step_eq m
    obtain ⟨q, hq⟩ := ih (x.step m).1
    rw [run_cons, hq, hp]
    exact ⟨q, rfl⟩

theorem script_run (x : Exchange) (ms : List Move) : (x.run ms).1.script = x.script := by
  obtain ⟨p, hp⟩ := x.run_eq ms
  rw [hp]
  rfl

/-! ## Sessions -/

/-- The session of a request that has been admitted. -/
structure Prepared (s : Session) : Prop where
  state : s.state = .generating
  parameters : s.parameters.isSome
  diagnostic : s.diagnostic = none

/-- The session of a stream. -/
structure Streams (s : Session) : Prop where
  state : s.state = .streaming
  parameters : s.parameters.isSome
  diagnostic : s.diagnostic = none

/-- The session of a stream has made one more move, by the ending of the relay and the recorded
outcome of the generator. -/
def Concluded (s : Session) (t : Transfer) : Prop :=
  ∃ (e : Ending) (s₀ : Session) (now : Moment), t.pump.phase = .done e ∧ Streams s₀ ∧
    s₀.perform now (closingCall e t.source.handle.exitStatus) = (s, none)

theorem Concluded.congr {s : Session} {t u : Transfer} (h : Concluded s t) (hp : u.pump = t.pump)
    (hs : u.source.handle.outcome = t.source.handle.outcome) : Concluded s u := by
  unfold Concluded Generator.Handle.exitStatus at h ⊢
  rw [hp, hs]
  exact h

theorem target_closingCall (e : Ending) (exit : Except Fault Outcome) :
    (closingCall e exit).target ∈ Stream.State.next .streaming := by
  have hcompleted : .completed ∈ Stream.State.next .streaming := by decide
  have haborted : .aborted ∈ Stream.State.next .streaming := by decide
  have hfailed : .failed ∈ Stream.State.next .streaming := by decide
  cases e with
  | finished total =>
    rcases exit with fault | ⟨⟩ | ⟨code, diagnostics⟩
    · exact hfailed
    · exact hcompleted
    · exact hfailed
  | consumerGone total => exact haborted
  | sourceFailed total fault => exact hfailed

/-- The move that ends a stream is never refused. -/
theorem perform_closingCall {s : Session} (h : Streams s) (now : Moment) (e : Ending)
    (exit : Except Fault Outcome) :
    ∃ s', s.perform now (closingCall e exit) = (s', none) := by
  unfold Session.perform
  split
  · next s' _ => exact ⟨s', rfl⟩
  · next fault hanswer =>
    have htarget := (Session.answer_eq_error_iff.1 hanswer).1
    rw [h.state] at htarget
    exact absurd (target_closingCall e exit) htarget

/-- The state in which a stream ends. -/
def verdict (e : Ending) (exit : Except Fault Outcome) : Stream.State := (closingCall e exit).target

/-- The diagnostic of a stream that has failed. -/
def complaint (e : Ending) (exit : Except Fault Outcome) : Option String :=
  match closingCall e exit with
  | .fail _ diagnostic => some diagnostic
  | _ => none

/-- The last move stamps the session with the time and fills in what the relay has told. -/
theorem perform_closingCall_eq {s s' : Session} (h : Streams s) {now : Moment} {e : Ending}
    {exit : Except Fault Outcome} (hp : s.perform now (closingCall e exit) = (s', none)) :
    s' = { s with
      state := verdict e exit
      finishedAt := some now
      bytes := e.total
      diagnostic := complaint e exit } := by
  obtain ⟨id, startedAt, finishedAt, state, parameters, bytes, diagnostic⟩ := s
  obtain ⟨hstate, -, hdiagnostic⟩ := h
  obtain rfl : state = .streaming := hstate
  obtain rfl : diagnostic = none := hdiagnostic
  refine (congrArg Prod.fst hp).symm.trans ?_
  cases e with
  | finished total => rcases exit with fault | ⟨⟩ | ⟨code, diagnostics⟩ <;> rfl
  | consumerGone total => rfl
  | sourceFailed total fault => rfl

/-- The moves of an admitted request are legal. -/
theorem accept_cases (x : Exchange) (now : Moment) :
    (∃ fault, x.query.accept x.settings.maxMinutes = .error fault ∧
      x.accept now = x.enter (.refusing .rejected (.ofRequest fault) none)) ∨
    ∃ p s, x.query.accept x.settings.maxMinutes = .ok p ∧ Prepared s ∧
      x.accept now = x.enter (.launching s p) := by
  unfold accept
  split
  · next fault hq => exact .inl ⟨fault, hq, rfl⟩
  · next p hq => exact .inr ⟨p, _, hq, ⟨rfl, rfl, rfl⟩, rfl⟩

/-! ## Effects -/

/-- The effects of an exchange up to the start of its relay. -/
def opened : List Effect := [.count .request, .launch, .count .started, .count .enter]

/-- The effects of the end of a session, up to its report. -/
def settled (s : Session) : List Effect :=
  (Occurrence.updates (.finished s.state s.bytes)).map .count

/-! ## The invariant -/

/-- A transfer whose body has not been ended. -/
structure Flowing (script : List UInt8) (b : Books) (t : Transfer) : Prop
    extends t.Sound script b where
  unfinished : t.channel.finished = false

/-- What is known of an exchange in each phase. -/
def Kept (b : Books) (es : List Effect) (x : Exchange) : Prop :=
  match x.phase with
  | .arrived => b = {} ∧ es = []
  | .counted => b = {} ∧ es = [.count .request]
  | .refusing u _ _ => (u = .rejected ∧ es = [.count .request]) ∨
      (u = .spawnFailure ∧ es = [.count .request, .launch])
  | .refused _ _ => es = [.count .request, .count .rejected] ∨
      es = [.count .request, .launch, .count .spawnFailure]
  | .launching s p => b = {} ∧ es = [.count .request] ∧ Prepared s ∧
      x.query.accept x.settings.maxMinutes = .ok p
  | .awaiting s g => b.accepted = [] ∧ b.lost = [] ∧ es = [.count .request, .launch] ∧
      Prepared s ∧ g.Waits .await ∧ b.Open x.script g []
  | .clearing _ _ => es = [.count .request, .launch]
  | .opening us s t => es ++ us.map .count = opened ∧ Streams s ∧ Flowing x.script b t
  | .relaying s t => es = opened ∧ Streams s ∧ Flowing x.script b t
  | .closing _ _ => False
  | .settling us s t => es ++ us.map .count = opened ++ settled s ∧ Concluded s t ∧
      Flowing x.script b t
  | .recording s t => es = opened ++ settled s ∧ Concluded s t ∧ Flowing x.script b t
  | .ending s t => es = opened ++ settled s ++ [.record s.report] ∧ Concluded s t ∧
      Flowing x.script b t
  | .over s t => es = opened ++ settled s ++ [.record s.report] ∧ Concluded s t ∧
      t.Sound x.script b

variable {x : Exchange} {b : Books} {es : List Effect}

theorem kept_of_arrived (h : x.phase = .arrived) : x.Kept {} [] := by
  unfold Kept
  rw [h]
  exact ⟨rfl, rfl⟩

/-! ## Steps of the handler -/

/-- What an exchange is left with by a step, and its effect. -/
abbrev KeptBy (b : Books) (es : List Effect) (r : Exchange × Option Effect) : Prop :=
  r.1.Kept b (es ++ r.2.toList)

theorem kept_enter (p : Phase) (h : Kept b es { x with phase := p }) :
    KeptBy b es (x.enter p) := by
  show Kept b (es ++ []) _
  rwa [List.append_nil]

theorem kept_accept {now : Moment} (hb : b = {}) (hes : es = [.count .request]) :
    KeptBy b es (x.accept now) := by
  rcases x.accept_cases now with ⟨fault, -, haccept⟩ | ⟨p, s, hq, hs, haccept⟩
  · rw [haccept]
    exact kept_enter _ (.inl ⟨rfl, hes⟩)
  · rw [haccept]
    exact kept_enter _ ⟨hb, hes, hs, hq⟩

/-- The generator is launched, and its script is known from then on. -/
theorem kept_launch {s : Session} {p : Job.Parameters} (hb : b = {})
    (hes : es = [.count .request]) (hs : Prepared s)
    (hq : x.query.accept x.settings.maxMinutes = .ok p) : KeptBy b es (x.launch s p) := by
  unfold launch
  split
  · exact .inr ⟨rfl, by rw [hes]; rfl⟩
  · next g hg =>
    obtain ⟨hidle, hstock⟩ := Supervised.idle_launch hg
    have hopen : ({} : Books).Open x.script g [] := by
      refine ⟨by rw [hstock]; rfl, ?_⟩
      unfold script
      rw [hq]
      dsimp only
      rw [hg]
      rfl
    have hstart : ∀ max limit, g.start (.await max limit) =
        g.wait (.awaiting max limit (g.now + limit.nanos)) := by
      intro max limit
      obtain ⟨todo, rfl⟩ := Generator.launch_eq hg
      rfl
    have hled := Supervised.led_start_await hidle.toHeld x.settings.chunkSize.toNat
      x.settings.startupTimeout
    rw [hstart] at hled ⊢
    subst hb
    exact ⟨rfl, rfl, by rw [hes]; rfl, hs, hled.1, hopen.of_moved hled.2⟩

theorem kept_failed {now : Moment} {s : Session} {g : Supervised} (fault : Fault)
    (hes : es = [.count .request, .launch]) : KeptBy b es (x.started now s g (.failed fault)) := by
  unfold started
  dsimp only
  split
  · exact kept_enter _ (.inr ⟨rfl, hes⟩)
  · exact kept_enter _ hes

/-- The output has begun, and the relay takes the generator over. -/
theorem kept_ready {now : Moment} {s : Session} {g : Supervised} (ha : b.accepted = [])
    (hl : b.lost = []) (hes : es = [.count .request, .launch]) (hs : Prepared s) (hg : g.Idle)
    (ho : b.Open x.script g []) : KeptBy b es (x.started now s g .ready) := by
  have hadvance : s.advance .streaming now = .ok { s with state := .streaming } := by
    rw [Session.advance_eq_ok_iff, hs.state]
    exact ⟨by decide, rfl⟩
  unfold started
  dsimp only
  rw [hadvance]
  refine kept_enter _ ⟨by rw [hes]; rfl, ⟨rfl, hs.parameters, hs.diagnostic⟩, ?_⟩
  exact ⟨Transfer.sound_begin _ hg ho ha hl, rfl⟩

theorem kept_awaiting (now : Moment) {s : Session} {g : Supervised}
    (hphase : x.phase = .awaiting s g) (h : x.Kept b es) : KeptBy b es (x.proceed now) := by
  unfold Kept at h
  rw [hphase] at h
  obtain ⟨ha, hl, hes, hs, hwaits, ho⟩ := h
  have hled := Supervised.led_poll hwaits (.inl rfl)
  unfold proceed
  rw [hphase]
  dsimp only
  split
  · next g' r hpoll =>
    rw [hpoll] at hled
    cases r with
    | ready => exact kept_ready ha hl hes hs hled.2.1 (ho.of_moved hled.2.2)
    | failed fault => exact kept_failed fault hes
    | data chunk => exact absurd hled.1 nofun
    | eof => exact absurd hled.1 nofun
    | stopped => exact hled.elim
  · next g' hpoll =>
    rw [hpoll] at hled
    exact kept_enter _ ⟨ha, hl, hes, hs, hled.1, ho.of_moved hled.2⟩

/-! ## Steps of the relay task -/

/-- **The end of the relay.** The session ends, and the generator is let go of at once. -/
theorem kept_conclude {now : Moment} {s : Session} {t : Transfer} {e : Ending}
    (hphase : t.pump.phase = .done e) (hes : es = opened) (hs : Streams s)
    (ht : Flowing x.script b t) : KeptBy b es (x.conclude now s t e) := by
  obtain ⟨⟨hc, hf⟩, hopen⟩ := ht
  unfold Transfer.Flows at hf
  rw [hphase] at hf
  obtain ⟨hrest, houtcome, hsettled, hx⟩ := hf
  obtain ⟨g, hstart, hreleased, hg, hprocess⟩ := hrest.start_terminate
  obtain ⟨s', hperform⟩ := perform_closingCall hs now e t.source.handle.exitStatus
  unfold conclude
  rw [hperform, hstart]
  refine kept_enter _ ⟨by rw [hes]; rfl, ?_, ⟨hc.congr rfl rfl rfl, ?_⟩, hopen⟩
  · exact Concluded.congr ⟨e, s, now, hphase, hs, hperform⟩ rfl hg
  · unfold Transfer.Flows
    dsimp only
    rw [hphase, hg, hprocess]
    exact ⟨.inl hreleased, houtcome, hsettled, hx.congr rfl fun hgone => hgone⟩

theorem kept_relaying {now : Moment} {s : Session} {t : Transfer}
    (hphase : x.phase = .relaying s t) (h : x.Kept b es) :
    KeptBy (b.accept t.sends) es (x.proceed now) := by
  unfold Kept at h
  rw [hphase] at h
  obtain ⟨hes, hs, ht⟩ := h
  unfold proceed
  rw [hphase]
  dsimp only
  split
  · next e he =>
    have hdone := Stream.Pump.ending?_eq_some_iff.1 he
    rw [Transfer.sends_of_done hdone, Books.accept_nil]
    exact kept_conclude hdone hes hs ht
  · split
    · next u events hr =>
      have hopen := (Transfer.finished_relay hr).trans ht.unfinished
      exact kept_enter _ ⟨hes, hs, Transfer.sound_relay ht.toSound hr, hopen⟩
    · next hr =>
      rw [Transfer.sends_of_relay_eq_none hr, Books.accept_nil]
      show x.Kept b (es ++ [])
      rw [List.append_nil]
      unfold Kept
      rw [hphase]
      exact ⟨hes, hs, ht⟩

/-- One update of several is made. -/
theorem append_count (es : List Effect) (u : Update) (us : List Update) :
    es ++ [.count u] ++ us.map .count = es ++ (u :: us).map .count :=
  List.append_assoc _ _ _

theorem kept_emit (e : Effect) (p : Phase) (h : Kept b (es ++ [e]) { x with phase := p }) :
    KeptBy b es (x.emit e p) := h

theorem kept_wait (h : x.Kept b es) : KeptBy b es (x, none) := by
  show Kept b (es ++ []) _
  rwa [List.append_nil]

theorem booked_proceed (now : Moment) (h : ∀ s t, x.phase ≠ .relaying s t) :
    x.booked b (.proceed now) = b := by
  unfold booked
  dsimp only
  split
  · next s t hphase => exact absurd hphase (h s t)
  · rfl

/-- The steps in which the relay does not work. -/
theorem kept_between (h : x.Kept b es) (now : Moment) (hr : ∀ s t, x.phase ≠ .relaying s t) :
    KeptBy b es (x.proceed now) := by
  have hkept := h
  unfold Kept at h
  unfold proceed
  cases hphase : x.phase with
  | arrived =>
    rw [hphase] at h
    obtain ⟨hb, hes⟩ := h
    exact kept_emit _ _ ⟨hb, by rw [hes]; rfl⟩
  | counted =>
    rw [hphase] at h
    exact kept_accept h.1 h.2
  | refusing u why g =>
    rw [hphase] at h
    refine kept_emit _ _ ?_
    rcases h with ⟨hu, hes⟩ | ⟨hu, hes⟩
    · exact .inl (by rw [hu, hes]; rfl)
    · exact .inr (by rw [hu, hes]; rfl)
  | refused why g => exact kept_wait hkept
  | launching s p =>
    rw [hphase] at h
    obtain ⟨hb, hes, hs, hq⟩ := h
    exact kept_launch hb hes hs hq
  | awaiting s g =>
    have hawaiting := kept_awaiting now hphase hkept
    unfold proceed at hawaiting
    rwa [hphase] at hawaiting
  | clearing g why =>
    rw [hphase] at h
    dsimp only
    split
    · exact kept_enter _ (.inr ⟨rfl, h⟩)
    · exact kept_enter _ h
  | opening us s t =>
    rw [hphase] at h
    obtain ⟨hes, hs, ht⟩ := h
    cases us with
    | nil => exact kept_enter _ ⟨(List.append_nil es).symm.trans hes, hs, ht⟩
    | cons u us => exact kept_emit _ _ ⟨(append_count es u us).trans hes, hs, ht⟩
  | relaying s t => exact absurd hphase (hr s t)
  | closing s t =>
    rw [hphase] at h
    exact h.elim
  | settling us s t =>
    rw [hphase] at h
    obtain ⟨hes, hs, ht⟩ := h
    cases us with
    | nil => exact kept_enter _ ⟨(List.append_nil es).symm.trans hes, hs, ht⟩
    | cons u us => exact kept_emit _ _ ⟨(append_count es u us).trans hes, hs, ht⟩
  | recording s t =>
    rw [hphase] at h
    obtain ⟨hes, hs, ht⟩ := h
    exact kept_emit _ _ ⟨by rw [hes], hs, ht⟩
  | ending s t =>
    rw [hphase] at h
    obtain ⟨hes, hs, ht⟩ := h
    exact kept_enter _ ⟨hes, hs.congr rfl rfl, Transfer.sound_finish ht.toSound⟩
  | «over» s t => exact kept_wait hkept

/-- **One step of the handler or of the relay task.** -/
theorem kept_proceed (h : x.Kept b es) (now : Moment) :
    KeptBy (x.booked b (.proceed now)) es (x.proceed now) := by
  by_cases hr : ∃ s t, x.phase = .relaying s t
  · obtain ⟨s, t, hphase⟩ := hr
    have hbooked : x.booked b (.proceed now) = b.accept t.sends := by
      unfold booked
      dsimp only
      rw [hphase]
    rw [hbooked]
    exact kept_relaying hphase h
  · have hr : ∀ s t, x.phase ≠ .relaying s t := fun s t hphase => hr ⟨s, t, hphase⟩
    rw [booked_proceed now hr]
    exact kept_between h now hr

/-! ## Steps of the listener and of the generator -/

/-- A step that leaves the relay and the handle alone. -/
theorem kept_mapTransfer {f : Transfer → Transfer} {c : Books} (h : x.Kept b es)
    (hnone : x.transfer? = none → c = b)
    (hf : ∀ t, x.transfer? = some t → (f t).pump = t.pump ∧
      (f t).source.handle.outcome = t.source.handle.outcome ∧
      (f t).channel.finished = t.channel.finished ∧
        (t.Sound x.script b → (f t).Sound x.script c)) :
    (x.mapTransfer f).Kept c es := by
  have hflowing : ∀ t, x.transfer? = some t → Flowing x.script b t →
      Flowing x.script c (f t) := by
    intro t ht hflow
    obtain ⟨-, -, hfinished, hsound⟩ := hf t ht
    exact ⟨hsound hflow.toSound, hfinished.trans hflow.unfinished⟩
  have hconcluded : ∀ s t, x.transfer? = some t → Concluded s t → Concluded s (f t) := by
    intro s t ht hs
    obtain ⟨hpump, houtcome, -⟩ := hf t ht
    exact hs.congr hpump houtcome
  unfold Kept at h
  unfold transfer? at hnone hf hflowing hconcluded
  unfold mapTransfer Kept
  cases hphase : x.phase with
  | relaying s t =>
    rw [hphase] at h hflowing
    exact ⟨h.1, h.2.1, hflowing t rfl h.2.2⟩
  | closing s t =>
    rw [hphase] at h
    exact h
  | settling us s t =>
    rw [hphase] at h hflowing hconcluded
    exact ⟨h.1, hconcluded s t rfl h.2.1, hflowing t rfl h.2.2⟩
  | recording s t =>
    rw [hphase] at h hflowing hconcluded
    exact ⟨h.1, hconcluded s t rfl h.2.1, hflowing t rfl h.2.2⟩
  | ending s t =>
    rw [hphase] at h hflowing hconcluded
    exact ⟨h.1, hconcluded s t rfl h.2.1, hflowing t rfl h.2.2⟩
  | «over» s t =>
    rw [hphase] at h hf hconcluded
    exact ⟨h.1, hconcluded s t rfl h.2.1, (hf t rfl).2.2.2 h.2.2⟩
  | _ =>
    rw [hphase] at h hnone
    rw [hnone rfl]
    exact h

/-- A step in which the generator writes, or does something else, and its owner does nothing. -/
theorem kept_mapSource {f : Supervised → Supervised} {written : Supervised → List UInt8}
    (h : x.Kept b es) (hf : ∀ g, Supervised.Aside (written g) g (f g)) :
    (x.mapSource f).Kept (b.write ((x.source?.map written).getD [])) es := by
  have hmap : x.mapSource f = x.mapTransfer (fun t => { t with source := f t.source }) →
      x.source? = x.transfer?.map (·.source) →
        (x.mapSource f).Kept (b.write ((x.source?.map written).getD [])) es := by
    intro hmap hsource
    rw [hmap, hsource]
    refine kept_mapTransfer h (fun hnone => ?_) fun t ht => ⟨rfl, ?_, rfl, fun hs => ?_⟩
    · rw [hnone]
      exact b.write_nil
    · exact congrArg Generator.Handle.outcome (hf t.source).handle
    · rw [ht]
      exact Transfer.sound_aside hs (hf t.source)
  unfold Kept at h
  cases hphase : x.phase with
  | awaiting s g =>
    unfold mapSource source? Kept
    rw [hphase] at h ⊢
    obtain ⟨ha, hl, hes, hs, hwaits, ho⟩ := h
    exact ⟨ha, hl, hes, hs, (hf g).waits hwaits, ho.aside (hf g)⟩
  | clearing g why =>
    unfold mapSource source? Kept
    rw [hphase] at h ⊢
    exact h
  | opening us s t =>
    unfold mapSource source? Kept
    rw [hphase] at h ⊢
    obtain ⟨hes, hs, ht⟩ := h
    exact ⟨hes, hs, Transfer.sound_aside ht.toSound (hf t.source), ht.unfinished⟩
  | _ =>
    refine hmap ?_ ?_
    · unfold mapSource
      rw [hphase]
    · unfold source?
      rw [hphase]

/-- **One thing happens.** The invariant is preserved. -/
theorem kept_step (h : x.Kept b es) (m : Move) :
    (x.step m).1.Kept (x.booked b m) (es ++ (x.step m).2.toList) := by
  have hquiet : ∀ {f : Supervised → Supervised}, (∀ g, Supervised.Aside [] g (f g)) →
      (x.mapSource f).Kept b (es ++ []) := by
    intro f hf
    have hkept := kept_mapSource h hf
    have hnil : (x.source?.map fun _ => ([] : List UInt8)).getD [] = [] := by
      cases x.source? <;> rfl
    rwa [hnil, b.write_nil, ← List.append_nil es] at hkept
  cases m with
  | proceed now => exact kept_proceed h now
  | act =>
    show (x.mapSource Supervised.act).Kept _ (es ++ [])
    rw [List.append_nil]
    exact kept_mapSource h Supervised.aside_act
  | drain => exact hquiet Supervised.aside_drainOnce
  | pass nanos => exact hquiet fun g => g.aside_pass nanos
  | take =>
    show (x.mapTransfer Transfer.take).Kept b (es ++ [])
    rw [List.append_nil]
    refine kept_mapTransfer h (fun _ => rfl) fun t _ => ?_
    exact ⟨t.pump_take, by rw [t.source_take], t.finished_take, Transfer.sound_take⟩
  | leave =>
    show (x.mapTransfer Transfer.leave).Kept
      (b.lose ((x.transfer?.map (·.channel.queue)).getD [])) (es ++ [])
    rw [List.append_nil]
    refine kept_mapTransfer h (fun hnone => ?_) fun t ht => ⟨rfl, rfl, rfl, fun hs => ?_⟩
    · rw [hnone]
      exact b.lose_nil
    · rw [ht]
      exact Transfer.sound_leave hs

/-- **A run.** The invariant holds after everything that can happen. -/
theorem kept_run (h : x.Kept b es) (ms : List Move) :
    (x.run ms).1.Kept (x.books b ms) (es ++ (x.run ms).2) := by
  induction ms generalizing x b es with
  | nil =>
    rw [run_nil, List.append_nil]
    exact h
  | cons m ms ih =>
    have hrest := ih (kept_step h m)
    rwa [List.append_assoc] at hrest

/-! ## A short exchange -/

/-- A request for which the generator writes three bytes and exits. -/
def sample : Exchange where
  settings := {}
  launcher := {
    command := {}
    installed := .runs [.act (.out [1, 2, 3]), .act (.exit 0)]
    jobPath := [] }
  query := .empty
  id := .ofNat 0

/-- What happens up to the end of its body. The chunk is taken between two steps of the relay. -/
def sampleMoves : List Move :=
  let proceed : Move := .proceed ⟨"2024-01-01T00:00:00Z"⟩
  [proceed, proceed, proceed, .pass 1000000, .act] ++ List.replicate 6 proceed ++
    [.take, proceed, .act, .drain] ++ List.replicate 10 proceed

end Exchange

end ToneRelay.Service
