import ToneRelay.Proofs.Generator.Release
import ToneRelay.Proofs.Service.Uniformity
import ToneRelay.Proofs.Stream.Orders

/-!
# No generator is left

A stream request launches a generator, and from then on its handler and its relay task own that
generator. `generator_released`: before a request is refused for which a generator has been
launched, and before the session of a stream is recorded, the generator has been told to terminate
and has been released, in every order in which the steps of the handler, the relay, the generator
and the listener can come.

1. `orders` are the things that happen to the generator in a step. The generator of an exchange is
   always the one that was launched, after all of its orders (`Owned`).
2. An exchange lets go of its generator in one of two ways: a generator that has not started is
   stopped (`owned_awaiting`, `owned_clearing`), or the relay has ended and left it at rest
   (`owned_relaying`). Both end with a release, and no step undoes it (`owned_step`).
3. What a release means is known from the orders alone (`Supervised.Cleared`).
-/

namespace ToneRelay.Service

open Generator (Supervised)
open ToneRelay.Stream (Books Moment Report Transfer)

namespace Exchange

variable {x : Exchange} {b : Books} {es : List Effect} {g : Supervised}
  {os : List Supervised.Move}

/-! ## Orders -/

/-- What happens to the generator in a step of the handler or of the relay task. -/
def ordersNow (x : Exchange) : List Supervised.Move :=
  match x.phase with
  | .launching _ _ => [.call (.await x.settings.chunkSize.toNat x.settings.startupTimeout)]
  | .awaiting _ g => .poll :: Transfer.ordersAfter g.poll.2
  | .clearing _ _ | .closing _ _ => [.poll]
  | .relaying _ t =>
    match t.pump.ending? with
    | some _ => [.call .terminate]
    | none => if t.relay.isSome then t.orders else []
  | _ => []

/-- What happens to the generator in a step. -/
def orders (x : Exchange) : Move → List Supervised.Move
  | .proceed _ => x.ordersNow
  | .act => if x.source?.isSome then [.act] else []
  | .drain => if x.source?.isSome then [.drain] else []
  | .pass nanos => if x.source?.isSome then [.pass nanos] else []
  | .take | .leave => []

/-- What happens to the generator in order. -/
def ordersIn (x : Exchange) : List Move → List Supervised.Move
  | [] => []
  | m :: ms => x.orders m ++ (x.step m).1.ordersIn ms

/-- The generator that an exchange has, or had. -/
def generator? (x : Exchange) : Option Supervised :=
  match x.phase with
  | .refusing _ _ g | .refused _ g => g
  | _ => x.source?

/-- The request is admitted, and this generator is launched for it. -/
def Launches (x : Exchange) (g : Supervised) : Prop :=
  ∃ p, x.query.accept x.settings.maxMinutes = .ok p ∧ x.launcher.launch (Job.describe p) = .ok g

/-- The generator of an exchange, where `g` was launched and `os` has happened to it. -/
def Owned (g : Supervised) (os : List Supervised.Move) (x : Exchange) : Prop :=
  match x.phase with
  | .arrived | .counted | .launching _ _ => os = []
  | .refusing _ _ k | .refused _ k =>
    k = some (g.run os).1 ∧ (g.run os).1.handle.released = true
  | .awaiting _ k => k = (g.run os).1
  | .clearing k _ => k = (g.run os).1 ∧ k.Stopping
  | .opening _ _ t | .relaying _ t | .closing _ t => t.source = (g.run os).1
  | .settling _ _ t | .recording _ t | .ending _ t | .over _ t =>
    t.source = (g.run os).1 ∧ t.source.handle.released = true

/-- What the generator of an exchange is left with by some orders. -/
abbrev OwnedBy (g : Supervised) (os : List Supervised.Move) (r : Exchange × Option Effect) : Prop :=
  r.1.Owned g os

theorem owned_launching {s : Stream.Session} {p : Job.Parameters} (hl : x.Launches g)
    (hq : x.query.accept x.settings.maxMinutes = .ok p) :
    OwnedBy g [.call (.await x.settings.chunkSize.toNat x.settings.startupTimeout)]
      (x.launch s p) := by
  obtain ⟨p', hq', hlaunch⟩ := hl
  obtain rfl : p' = p := Except.ok.inj (hq'.symm.trans hq)
  unfold launch
  rw [hlaunch]
  rfl

theorem run_orders {k : Supervised} (hk : k = (g.run os).1) (more : List Supervised.Move) :
    (g.run (os ++ more)).1 = (k.run more).1 := by
  rw [Supervised.run_append, hk]

/-- A generator that fails to start is stopped, now or at a later stage. -/
theorem owned_failed {now : Moment} {s : Stream.Session} {k : Supervised} (fault : Generator.Fault)
    (hk : k = (g.run os).1) (hr : k.handle.released = false) :
    OwnedBy g (os ++ [.call .terminate]) (x.started now s k (.failed fault)) := by
  have hhalted := Supervised.halted_start hr
  have hrun : (g.run (os ++ [.call .terminate])).1 = (k.start .terminate).1 := run_orders hk _
  unfold started
  dsimp only
  split
  · next k' r hstart =>
    rw [hstart] at hhalted hrun
    refine ⟨congrArg some hrun.symm, ?_⟩
    rw [hrun]
    cases r with
    | stopped => exact hhalted.1.released
    | failed fault => exact hhalted.1.released
    | _ => exact hhalted.elim
  · next k' hstart =>
    rw [hstart] at hhalted hrun
    exact ⟨hrun.symm, hhalted.1⟩

/-- **The wait for output** ends, or a generator that fails to start is stopped. -/
theorem owned_awaiting (now : Moment) {s : Stream.Session} {k : Supervised}
    (hphase : x.phase = .awaiting s k) (hk : x.Kept b es) (h : x.Owned g os) :
    OwnedBy g (os ++ x.ordersNow) (x.proceed now) := by
  unfold Kept at hk
  unfold Owned at h
  rw [hphase] at hk h
  obtain ⟨-, -, -, hs, hwaits, -⟩ := hk
  have hled := Supervised.led_poll hwaits (.inl rfl)
  have hpolled : (g.run (os ++ [.poll])).1 = k.poll.1 := run_orders h _
  have horders : os ++ x.ordersNow = os ++ [.poll] ++ Transfer.ordersAfter k.poll.2 := by
    unfold ordersNow
    rw [hphase, List.append_assoc]
    rfl
  rw [horders]
  unfold proceed
  rw [hphase]
  dsimp only
  split
  · next k' r hpoll =>
    rw [hpoll] at hled hpolled
    rw [hpoll]
    cases r with
    | ready =>
      have hadvance : s.advance .streaming now = .ok { s with state := .streaming } := by
        rw [Stream.Session.advance_eq_ok_iff, hs.state]
        exact ⟨by decide, rfl⟩
      unfold started
      dsimp only
      rw [hadvance, Transfer.ordersAfter_ready, List.append_nil]
      exact hpolled.symm
    | failed fault => exact owned_failed fault hpolled.symm hled.1.released
    | data chunk => exact absurd hled.1 nofun
    | eof => exact absurd hled.1 nofun
    | stopped => exact hled.elim
  · next k' hpoll =>
    rw [hpoll] at hpolled
    rw [hpoll, Transfer.ordersAfter_none, List.append_nil]
    exact hpolled.symm

theorem owned_clearing {k : Supervised} (why : Refusal) (h : k = (g.run os).1)
    (hstopping : k.Stopping) : OwnedBy g (os ++ [.poll]) (match k.poll with
      | (k, some _) => x.enter (.refusing .spawnFailure why (some k))
      | (k, none) => x.enter (.clearing k why)) := by
  have hhalted := Supervised.halted_poll hstopping
  have hrun : (g.run (os ++ [.poll])).1 = k.poll.1 := run_orders h _
  split
  · next k' r hpoll =>
    rw [hpoll] at hhalted hrun
    refine ⟨congrArg some hrun.symm, ?_⟩
    rw [hrun]
    cases r with
    | stopped => exact hhalted.1.released
    | failed fault => exact hhalted.1.released
    | _ => exact hhalted.elim
  · next k' hpoll =>
    rw [hpoll] at hhalted hrun
    exact ⟨hrun.symm, hhalted.1⟩

/-- The relay has ended and left the generator at rest. -/
theorem owned_conclude {now : Moment} {s : Stream.Session} {t : Transfer} {e : Stream.Ending}
    (h : t.source = (g.run os).1) (hrest : t.source.AtRest) :
    OwnedBy g (os ++ [.call .terminate]) (x.conclude now s t e) := by
  obtain ⟨k, hstart, hreleased, -⟩ := hrest.start_terminate
  have hrun : (g.run (os ++ [.call .terminate])).1 = (t.source.start .terminate).1 :=
    run_orders h _
  rw [hstart] at hrun
  unfold conclude
  rw [hstart]
  exact ⟨hrun.symm, hreleased.released⟩

/-- **The relay** works on, or ends. -/
theorem owned_relaying (now : Moment) {s : Stream.Session} {t : Transfer}
    (hphase : x.phase = .relaying s t) (hk : x.Kept b es) (h : x.Owned g os) :
    OwnedBy g (os ++ x.ordersNow) (x.proceed now) := by
  have hwaiting := h
  unfold Kept at hk
  unfold Owned at h
  rw [hphase] at hk h
  have horders : x.ordersNow = match t.pump.ending? with
      | some _ => [.call .terminate]
      | none => if t.relay.isSome then t.orders else [] := by
    unfold ordersNow
    rw [hphase]
  rw [horders]
  unfold proceed
  rw [hphase]
  dsimp only
  cases hending : t.pump.ending? with
  | some e =>
    have hdone := Stream.Pump.ending?_eq_some_iff.1 hending
    have hflows := hk.2.2.flows
    unfold Transfer.Flows at hflows
    rw [hdone] at hflows
    exact owned_conclude h hflows.1
  | none =>
    cases hrelay : t.relay with
    | some r =>
      show r.1.source = _
      rw [Option.isSome_some, if_pos rfl, run_orders h]
      exact Transfer.source_relay hrelay
    | none =>
      rw [Option.isSome_none, if_neg Bool.false_ne_true, List.append_nil]
      exact hwaiting

/-- **One step of the handler or of the relay task.** -/
theorem owned_proceed (hl : x.Launches g) (hk : x.Kept b es) (h : x.Owned g os) (now : Moment) :
    OwnedBy g (os ++ x.ordersNow) (x.proceed now) := by
  have hkept := hk
  have howned := h
  -- in most phases nothing happens to the generator
  have hquiet : ∀ {r : Exchange × Option Effect}, OwnedBy g os r → OwnedBy g (os ++ []) r := by
    intro r hr
    rwa [List.append_nil]
  unfold Kept at hk
  unfold Owned at h
  unfold ordersNow proceed
  cases hphase : x.phase with
  | counted =>
    rw [hphase] at h
    dsimp only
    rcases x.accept_cases now with ⟨fault, hq, -⟩ | ⟨p, s, -, -, haccept⟩
    · obtain ⟨p, hp, -⟩ := hl
      exact absurd (hq.symm.trans hp) nofun
    · rw [haccept]
      exact hquiet h
  | launching s p =>
    rw [hphase] at hk h
    obtain rfl : os = [] := h
    exact owned_launching hl hk.2.2.2
  | awaiting s k =>
    have hawaiting := owned_awaiting now hphase hkept howned
    unfold ordersNow proceed at hawaiting
    rwa [hphase] at hawaiting
  | clearing k why =>
    rw [hphase] at h
    exact owned_clearing why h.1 h.2
  | opening us s t =>
    rw [hphase] at h
    cases us <;> exact hquiet h
  | relaying s t =>
    have hrelaying := owned_relaying now hphase hkept howned
    unfold ordersNow proceed at hrelaying
    rwa [hphase] at hrelaying
  | closing s t =>
    rw [hphase] at hk
    exact hk.elim
  | settling us s t =>
    rw [hphase] at h
    cases us <;> exact hquiet h
  | refused why k => exact hquiet howned
  | «over» s t => exact hquiet howned
  | _ =>
    rw [hphase] at h
    exact hquiet h

/-! ## Steps of the listener and of the generator -/

theorem owned_mapTransfer (h : x.Owned g os) {f : Transfer → Transfer}
    (hf : ∀ t, (f t).source = t.source) : (x.mapTransfer f).Owned g os := by
  unfold Owned at h
  unfold mapTransfer Owned
  cases hphase : x.phase with
  | relaying s t | closing s t =>
    rw [hphase] at h
    exact (hf t).trans h
  | settling us s t | recording s t | ending s t | «over» s t =>
    rw [hphase] at h
    dsimp only
    rwa [hf t]
  | _ =>
    rw [hphase] at h
    exact h

/-- The generator does something while its owner does nothing. -/
theorem owned_mapSource (h : x.Owned g os) {f : Supervised → Supervised} {m : Supervised.Move}
    {written : Supervised → List UInt8} (hm : ∀ k, (k.step m).1 = f k)
    (hf : ∀ k, Supervised.Aside (written k) k (f k)) :
    (x.mapSource f).Owned g (os ++ if x.source?.isSome then [m] else []) := by
  have hmoved : ∀ {k}, k = (g.run os).1 → f k = (g.run (os ++ [m])).1 := by
    intro k hk
    rw [run_orders hk, ← hm]
    rfl
  have hreleased : ∀ {k}, k = (g.run os).1 ∧ k.handle.released = true →
      f k = (g.run (os ++ [m])).1 ∧ (f k).handle.released = true := by
    rintro k ⟨hk, hr⟩
    exact ⟨hmoved hk, by rw [(hf k).handle, hr]⟩
  cases hsource : x.source? with
  | none =>
    rw [mapSource_of_none hsource, Option.isSome_none, if_neg Bool.false_ne_true, List.append_nil]
    exact h
  | some k =>
    rw [Option.isSome_some, if_pos rfl]
    unfold Owned at h
    unfold source? transfer? at hsource
    unfold mapSource mapTransfer Owned
    cases hphase : x.phase with
    | awaiting s k =>
      rw [hphase] at h
      exact hmoved h
    | clearing k why =>
      rw [hphase] at h
      exact ⟨hmoved h.1, (hf k).stopping h.2⟩
    | opening us s t | relaying s t | closing s t =>
      rw [hphase] at h
      exact hmoved h
    | settling us s t | recording s t | ending s t | «over» s t =>
      rw [hphase] at h
      exact hreleased h
    | _ =>
      rw [hphase] at hsource
      cases hsource

/-- **One thing happens.** -/
theorem owned_step (hl : x.Launches g) (hk : x.Kept b es) (h : x.Owned g os) (m : Move) :
    (x.step m).1.Owned g (os ++ x.orders m) := by
  cases m with
  | proceed now => exact owned_proceed hl hk h now
  | act => exact owned_mapSource h (fun _ => rfl) Supervised.aside_act
  | drain => exact owned_mapSource h (fun _ => rfl) Supervised.aside_drainOnce
  | pass nanos => exact owned_mapSource h (fun _ => rfl) fun k => k.aside_pass nanos
  | take =>
    show (x.mapTransfer Transfer.take).Owned g (os ++ [])
    rw [List.append_nil]
    exact owned_mapTransfer h Transfer.source_take
  | leave =>
    show (x.mapTransfer Transfer.leave).Owned g (os ++ [])
    rw [List.append_nil]
    exact owned_mapTransfer h fun _ => rfl

theorem Launches.step (h : x.Launches g) (m : Move) : (x.step m).1.Launches g := by
  obtain ⟨p, hp⟩ := x.step_eq m
  rw [hp]
  exact h

theorem Launches.run (h : x.Launches g) (ms : List Move) : (x.run ms).1.Launches g := by
  induction ms generalizing x with
  | nil => exact h
  | cons m ms ih => exact ih (h.step m)

/-- **A run.** -/
theorem owned_run (hl : x.Launches g) (hk : x.Kept b es) (h : x.Owned g os) (ms : List Move) :
    (x.run ms).1.Owned g (os ++ x.ordersIn ms) := by
  induction ms generalizing x b es os with
  | nil =>
    show x.Owned g (os ++ [])
    rwa [List.append_nil]
  | cons m ms ih =>
    have hrest := ih (hl.step m) (kept_step hk m) (owned_step hl hk h m)
    rwa [List.append_assoc] at hrest

/-! ## What is left -/

/-- The generator of an exchange is the one that was launched, told to terminate and released. -/
def Clear (g : Supervised) (os : List Supervised.Move) (x : Exchange) : Prop :=
  x.generator? = some (g.run os).1 ∧ Supervised.Cleared os (g.run os).2 (g.run os).1

/-- Nothing more is asked of the generator. -/
def letsGo (x : Exchange) : Bool :=
  match x.phase with
  | .refusing _ _ _ | .refused _ _ => true
  | .settling _ _ _ | .recording _ _ | .ending _ _ | .over _ _ => true
  | _ => false

/-- An exchange that lets its generator go has released it. -/
theorem Owned.clear (h : x.Owned g os) (hl : x.Launches g) (hx : x.letsGo = true) :
    x.Clear g os := by
  obtain ⟨p, -, hlaunch⟩ := hl
  have hclear : x.generator? = some (g.run os).1 → (g.run os).1.handle.released = true →
      x.Clear g os := fun hg hr => ⟨hg, Supervised.released_run hlaunch hr⟩
  have hsource : ∀ {t : Transfer}, x.generator? = some t.source →
      t.source = (g.run os).1 ∧ t.source.handle.released = true → x.Clear g os := by
    rintro t hg ⟨hsource, hr⟩
    rw [hsource] at hg hr
    exact hclear hg hr
  unfold Owned at h
  unfold letsGo at hx
  unfold generator? source? transfer? at hclear hsource
  cases hphase : x.phase with
  | refusing u why k | refused why k =>
    rw [hphase] at h hclear
    exact hclear h.1 h.2
  | settling us s t | recording s t | ending s t | «over» s t =>
    rw [hphase] at h hsource
    exact hsource rfl h
  | _ =>
    rw [hphase] at hx
    cases hx

/-- The generator of an exchange is never another one. -/
theorem Owned.same (h : x.Owned g os) {k : Supervised} (hk : x.generator? = some k) :
    k = (g.run os).1 := by
  unfold Owned at h
  unfold generator? source? transfer? at hk
  cases hphase : x.phase with
  | refusing u why g' | refused why g' =>
    rw [hphase] at h hk
    exact Option.some.inj (hk.symm.trans h.1)
  | awaiting s g' =>
    rw [hphase] at h hk
    exact (Option.some.inj hk).symm.trans h
  | clearing g' why =>
    rw [hphase] at h hk
    exact (Option.some.inj hk).symm.trans h.1
  | opening us s t | relaying s t | closing s t =>
    rw [hphase] at h hk
    exact (Option.some.inj hk).symm.trans h
  | settling us s t | recording s t | ending s t | «over» s t =>
    rw [hphase] at h hk
    exact (Option.some.inj hk).symm.trans h.1
  | _ =>
    rw [hphase] at hk
    cases hk

/-- A request is only refused after its generator has been let go. -/
theorem letsGo_of_refusal {r : Response} (hr : x.response? = some r) (hstatus : r.status ≠ 200) :
    x.letsGo = true := by
  unfold response? at hr
  split at hr
  · next why k hphase => simp [letsGo, hphase]
  · obtain ⟨t, -, rfl⟩ := Option.map_eq_some_iff.1 hr
    exact absurd rfl hstatus

/-- A session is only recorded after its generator has been let go. -/
theorem letsGo_of_record {now : Moment} {r : Report} (hr : (x.proceed now).2 = some (.record r)) :
    x.letsGo = true := by
  unfold proceed at hr
  unfold letsGo
  cases hphase : x.phase <;> rw [hphase] at hr <;> dsimp only at hr ⊢
  case arrived => cases hr
  case counted =>
    unfold accept at hr
    split at hr
    · cases hr
    · dsimp only at hr
      split at hr <;> cases hr
  case launching s p =>
    unfold launch at hr
    split at hr <;> cases hr
  case awaiting s k =>
    split at hr
    · unfold started at hr
      split at hr <;> split at hr <;> cases hr
    · cases hr
  case clearing k why => split at hr <;> cases hr
  case opening us s t => cases us <;> cases hr
  case relaying s t =>
    split at hr
    · unfold conclude at hr
      dsimp only at hr
      split at hr <;> cases hr
    · split at hr <;> cases hr
  case closing s t => split at hr <;> cases hr

theorem letsGo_of_recorded (hk : x.Kept b es) {r : Report} (hr : .record r ∈ es) :
    x.letsGo = true := by
  have hmem := mem_reports.2 hr
  rw [reports_of_kept hk, Option.mem_toList] at hmem
  unfold recorded? at hmem
  unfold letsGo
  split at hmem
  · next hphase => rw [hphase]
  · next hphase => rw [hphase]
  · cases hmem

/-- What becomes of a generator that has been launched. -/
structure Leaves (g : Supervised) (os : List Supervised.Move) (es : List Effect) (x : Exchange) :
    Prop where
  /-- It is the same one all the time. -/
  same : ∀ k, x.generator? = some k → k = (g.run os).1
  /-- Before a refusal is counted, and so before it is answered. -/
  refusing : ∀ u why k, x.phase = .refusing u why k → x.Clear g os
  refused : ∀ r, x.response? = some r → r.status ≠ 200 → x.Clear g os
  /-- Before a session is recorded, and afterwards. -/
  recording : ∀ now r, (x.proceed now).2 = some (.record r) → x.Clear g os
  recorded : ∀ r, .record r ∈ es → x.Clear g os

/-- **No generator is left.** A generator that has been launched is told to terminate and released,
its job file is removed, and its end is recorded unless the wait for it fails, before its request is
refused or its session recorded. No session is moved against its order, so that no request is
refused for that. -/
theorem generator_released (hx : x.phase = .arrived) (ms : List Move) :
    (∀ e k, (x.run ms).1.phase ≠ .refused (.ofIllegal e) k) ∧
      ∀ g, x.Launches g → Leaves g (x.ordersIn ms) (x.run ms).2 (x.run ms).1 := by
  have hkept := kept_run (kept_of_arrived hx) ms
  constructor
  · intro e k hphase
    have hmotivated := motivated_run (kept_of_arrived hx) (motivated_of_arrived hx) ms
    unfold Motivated at hmotivated
    rw [hphase] at hmotivated
    rcases hmotivated with ⟨-, text, htext⟩ | ⟨-, fault, hfault⟩
    · cases htext
    · cases hfault
  · intro g hl
    have harrived : x.Owned g [] := by
      unfold Owned
      rw [hx]
    have howned := owned_run hl (kept_of_arrived hx) harrived ms
    rw [List.nil_append] at hkept howned
    have hclear := howned.clear (hl.run ms)
    refine ⟨fun k => howned.same, ?_, fun r hr hstatus => hclear (letsGo_of_refusal hr hstatus),
      fun now r hr => hclear (letsGo_of_record hr),
      fun r hr => hclear (letsGo_of_recorded hkept hr)⟩
    intro u why k hphase
    apply hclear
    unfold letsGo
    rw [hphase]

/-- The generator of a short exchange says what it has to say, and is stopped. -/
theorem launches_sample : ∃ g, sample.Launches g ∧
    (g.run (sample.ordersIn sampleMoves)).2 = [.ready, .data [1, 2, 3], .eof, .stopped] := by
  have haccepted : (sample.query.accept sample.settings.maxMinutes).toOption.isSome := by decide
  cases hq : sample.query.accept sample.settings.maxMinutes with
  | error fault =>
    rw [hq] at haccepted
    cases haccepted
  | ok p =>
    refine ⟨{ process :=
        { todo := [.out [1, 2, 3], .exit 0], ready := Generator.startTime.nanos } },
      ⟨p, hq, rfl⟩, ?_⟩
    decide

theorem generator_released_sample : ∃ g, sample.Launches g ∧
    ∃ k, (sample.run sampleMoves).1.generator? = some k ∧ k.handle.jobFile = false ∧
      k.handle.outcome.isSome ∧ k.process.exit.isSome := by
  obtain ⟨g, hlaunches, hreplies⟩ := launches_sample
  have hwait : ∀ reason, .failed (.wait reason) ∉ (g.run (sample.ordersIn sampleMoves)).2 := by
    rw [hreplies]
    simp
  have hreports : (reports (sample.run sampleMoves).2).length = 1 := by decide
  obtain ⟨r, hr⟩ := List.length_eq_one_iff.1 hreports
  have hrecorded : .record r ∈ (sample.run sampleMoves).2 :=
    mem_reports.1 (hr ▸ List.mem_cons_self)
  obtain ⟨hk, hcleared⟩ :=
    ((generator_released rfl sampleMoves).2 g hlaunches).recorded r hrecorded
  have hend := hcleared.outcome hwait
  exact ⟨g, hlaunches, _, hk, hcleared.jobFile, hend.1, hend.2⟩

end Exchange

end ToneRelay.Service
