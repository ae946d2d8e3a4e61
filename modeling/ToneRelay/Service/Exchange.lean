import ToneRelay.Generator.Launch
import ToneRelay.Service.Refusal
import ToneRelay.Service.Settings
import ToneRelay.Stream.Counters
import ToneRelay.Stream.Transfer

/-!
# Exchanges

One stream request from the first count to the record of its session. The handler admits the
request, launches a generator and waits for its first output; the relay task then owns the generator
until the body ends. Each step of an exchange has at most one effect on what requests share, so that
the steps of several exchanges can interleave. Main statements: `mapSource_congr` and
`mapTransfer_congr`, a change of the generator or of the body is one of what there is.
-/

namespace ToneRelay.Service

open Generator (Supervised Launcher Reply Outcome)
open Job (Parameters)
open ToneRelay.Stream (Session Moment Report Transfer Update Occurrence Ending Channel)

/-- What a step does to what requests share. -/
inductive Effect
  | count (u : Update)
  | launch
  | record (r : Report)

/-- Where an exchange is. -/
inductive Phase
  | arrived
  | counted
  /-- The refusal is to be counted. What was launched before it is released. -/
  | refusing (u : Update) (why : Refusal) (released : Option Supervised)
  | refused (why : Refusal) (released : Option Supervised)
  | launching (s : Session) (p : Parameters)
  /-- For the first output. -/
  | awaiting (s : Session) (g : Supervised)
  /-- A generator that did not start is released. -/
  | clearing (g : Supervised) (why : Refusal)
  /-- The start is to be counted. -/
  | opening (us : List Update) (s : Session) (t : Transfer)
  | relaying (s : Session) (t : Transfer)
  /-- The session has ended, and its generator is released. -/
  | closing (s : Session) (t : Transfer)
  /-- The end is to be counted. -/
  | settling (us : List Update) (s : Session) (t : Transfer)
  /-- The report is to be recorded. -/
  | recording (s : Session) (t : Transfer)
  /-- The body is to be ended. -/
  | ending (s : Session) (t : Transfer)
  | over (s : Session) (t : Transfer)

/-- One stream request. -/
structure Exchange where
  settings : Settings
  launcher : Launcher
  query : Request.Query
  id : Text.Uuid
  phase : Phase := .arrived

namespace Exchange

/-- The options of the relay. -/
def relayOptions (s : Settings) : Stream.RelayOptions :=
  ⟨s.chunkSize.toNat, s.progressInterval.toNat⟩

/-- What is told when a generator ended with an error. -/
def exitReason : Option UInt8 → String → String
  | some code, diagnostics =>
    "generator exited with status " ++ code.toNat.repr ++ ": " ++ diagnostics
  | none, diagnostics => "generator killed by signal: " ++ diagnostics

/-- What is told when the output could not be read. -/
def readReason (fault : Generator.Fault) : Except Generator.Fault Outcome → String
  | .ok (.failure _ diagnostics) =>
    if diagnostics ≠ "" then fault.message ++ ": " ++ diagnostics else fault.message
  | _ => fault.message

/-- What becomes of the session when the relay has ended. -/
def closingCall (e : Ending) (exit : Except Generator.Fault Outcome) : Session.Call :=
  match e with
  | .finished total =>
    match exit with
    | .ok .success => .complete total
    | .ok (.failure code diagnostics) => .fail total (exitReason code diagnostics)
    | .error fault => .fail total fault.message
  | .consumerGone total => .abort total
  | .sourceFailed total fault => .fail total (readReason fault exit)

/-- Changes the phase. -/
def enter (x : Exchange) (p : Phase) : Exchange × Option Effect := ({ x with phase := p }, none)

/-- Changes the phase with an effect. -/
def emit (x : Exchange) (e : Effect) (p : Phase) : Exchange × Option Effect :=
  ({ x with phase := p }, some e)

/-- Admits the request. -/
def accept (x : Exchange) (now : Moment) : Exchange × Option Effect :=
  match x.query.accept x.settings.maxMinutes with
  | .error fault => x.enter (.refusing .rejected (.ofRequest fault) none)
  | .ok p =>
    let session := (Session.receive x.id now).validated p now
    match session.bind (·.advance .generating now) with
    | .ok s => x.enter (.launching s p)
    | .error e => x.enter (.refused (.ofIllegal e) none)

/-- Launches the generator and starts to wait for its output. -/
def launch (x : Exchange) (s : Session) (p : Parameters) : Exchange × Option Effect :=
  match x.launcher.launch (Job.describe p) with
  | .error fault => x.emit .launch (.refusing .spawnFailure (.generator fault) none)
  | .ok g =>
    let (g, _) := g.start (.await x.settings.chunkSize.toNat x.settings.startupTimeout)
    x.emit .launch (.awaiting s g)

/-- Goes on when the wait for output has an answer. -/
def started (x : Exchange) (now : Moment) (s : Session) (g : Supervised) :
    Reply → Exchange × Option Effect
  | .failed fault =>
    match g.start .terminate with
    | (g, some _) => x.enter (.refusing .spawnFailure (.generator fault) (some g))
    | (g, none) => x.enter (.clearing g (.generator fault))
  | _ =>
    match s.advance .streaming now with
    | .ok s =>
      x.enter (.opening Occurrence.started.updates s (.begin g (relayOptions x.settings)))
    | .error e => x.enter (.refused (.ofIllegal e) (some g.abandon))

/-- Ends the session and starts to release the generator. -/
def conclude (x : Exchange) (now : Moment) (s : Session) (t : Transfer) (e : Ending) :
    Exchange × Option Effect :=
  let (s, _) := s.perform now (closingCall e t.source.handle.exitStatus)
  let (g, r) := t.source.start .terminate
  let t := { t with source := g }
  let settled := Occurrence.updates (.finished s.state s.bytes)
  match r with
  | some _ => x.enter (.settling settled s t)
  | none => x.enter (.closing s t)

/-- The next step of the handler and of the relay task after it; without a change, it waits. -/
def proceed (x : Exchange) (now : Moment) : Exchange × Option Effect :=
  match x.phase with
  | .arrived => x.emit (.count .request) .counted
  | .counted => x.accept now
  | .refusing u why g => x.emit (.count u) (.refused why g)
  | .refused _ _ => (x, none)
  | .launching s p => x.launch s p
  | .awaiting s g =>
    match g.poll with
    | (g, some r) => x.started now s g r
    | (g, none) => x.enter (.awaiting s g)
  | .clearing g why =>
    match g.poll with
    | (g, some _) => x.enter (.refusing .spawnFailure why (some g))
    | (g, none) => x.enter (.clearing g why)
  | .opening (u :: us) s t => x.emit (.count u) (.opening us s t)
  | .opening [] s t => x.enter (.relaying s t)
  | .relaying s t =>
    match t.pump.ending? with
    | some e => x.conclude now s t e
    | none =>
      match t.relay with
      | some (t, _) => x.enter (.relaying s t)
      | none => (x, none)
  | .closing s t =>
    match t.source.poll with
    | (g, some _) =>
      x.enter (.settling (Occurrence.updates (.finished s.state s.bytes)) s { t with source := g })
    | (g, none) => x.enter (.closing s { t with source := g })
  | .settling (u :: us) s t => x.emit (.count u) (.settling us s t)
  | .settling [] s t => x.enter (.recording s t)
  | .recording s t => x.emit (.record s.report) (.ending s t)
  | .ending s t => x.enter (.over s { t with channel := t.channel.finish })
  | .over _ _ => (x, none)

/-! ## The body, the generator and time -/

/-- Changes the transfer whose body the listener has. -/
def mapTransfer (x : Exchange) (f : Transfer → Transfer) : Exchange :=
  let phase := match x.phase with
    | .relaying s t => .relaying s (f t)
    | .closing s t => .closing s (f t)
    | .settling us s t => .settling us s (f t)
    | .recording s t => .recording s (f t)
    | .ending s t => .ending s (f t)
    | .over s t => .over s (f t)
    | p => p
  { x with phase := phase }

/-- Changes the generator. -/
def mapSource (x : Exchange) (f : Supervised → Supervised) : Exchange :=
  let onTransfer (t : Transfer) : Transfer := { t with source := f t.source }
  match x.phase with
  | .awaiting s g => { x with phase := .awaiting s (f g) }
  | .clearing g why => { x with phase := .clearing (f g) why }
  | .opening us s t => { x with phase := .opening us s (onTransfer t) }
  | _ => x.mapTransfer onTransfer

/-- What can happen in an exchange. -/
inductive Move
  /-- The handler or the relay task takes its next step. -/
  | proceed (now : Moment)
  /-- The generator performs its next action. -/
  | act
  /-- The reader of diagnostics reads once. -/
  | drain
  | pass (nanos : Nat)
  /-- The listener takes a chunk. -/
  | take
  /-- The listener goes away. -/
  | leave

/-- One thing happens. -/
def step (x : Exchange) : Move → Exchange × Option Effect
  | .proceed now => x.proceed now
  | .act => (x.mapSource Supervised.act, none)
  | .drain => (x.mapSource Supervised.drainOnce, none)
  | .pass nanos => (x.mapSource fun g => { g with now := g.now + nanos }, none)
  | .take => (x.mapTransfer Transfer.take, none)
  | .leave => (x.mapTransfer Transfer.leave, none)

/-- What happens in order, and its effects. -/
def run (x : Exchange) : List Move → Exchange × List Effect
  | [] => (x, [])
  | m :: ms =>
    let (x, e) := x.step m
    let (x, es) := x.run ms
    (x, e.toList ++ es)

/-- The transfer whose body the listener has. -/
def transfer? (x : Exchange) : Option Transfer :=
  match x.phase with
  | .relaying _ t | .closing _ t | .settling _ _ t => some t
  | .recording _ t | .ending _ t | .over _ t => some t
  | _ => none

/-- The generator. -/
def source? (x : Exchange) : Option Supervised :=
  match x.phase with
  | .awaiting _ g | .clearing g _ => some g
  | .opening _ _ t => some t.source
  | _ => x.transfer?.map (·.source)

/-- Whether nothing is left to be done for the request. -/
def isOver (x : Exchange) : Bool :=
  match x.phase with
  | .refused _ _ | .over _ _ => true
  | _ => false

@[simp] theorem run_nil (x : Exchange) : x.run [] = (x, []) := rfl

@[simp] theorem run_cons (x : Exchange) (m : Move) (ms : List Move) :
    x.run (m :: ms) = (((x.step m).1.run ms).1, (x.step m).2.toList ++ ((x.step m).1.run ms).2) :=
  rfl

@[simp] theorem run_append (x : Exchange) (ms more : List Move) :
    (x.run (ms ++ more)).1 = ((x.run ms).1.run more).1 := by
  induction ms generalizing x with
  | nil => rfl
  | cons m ms ih => simp [ih]

theorem mapTransfer_congr {x : Exchange} {f k : Transfer → Transfer}
    (h : ∀ t, x.transfer? = some t → f t = k t) : x.mapTransfer f = x.mapTransfer k := by
  unfold transfer? at h
  unfold mapTransfer
  cases hphase : x.phase <;> rw [hphase] at h <;> simp_all

@[simp] theorem transfer?_mapTransfer (x : Exchange) (f : Transfer → Transfer) :
    (x.mapTransfer f).transfer? = x.transfer?.map f := by
  unfold transfer? mapTransfer
  cases x.phase <;> rfl

@[simp] theorem mapTransfer_mapTransfer (x : Exchange) (f k : Transfer → Transfer) :
    (x.mapTransfer f).mapTransfer k = x.mapTransfer fun t => k (f t) := by
  unfold mapTransfer
  cases x.phase <;> rfl

@[simp] theorem mapTransfer_same (x : Exchange) : (x.mapTransfer fun t => t) = x := by
  obtain ⟨settings, launcher, query, id, phase⟩ := x
  cases phase <;> rfl

theorem mapSource_congr {x : Exchange} {f k : Supervised → Supervised}
    (h : ∀ g, x.source? = some g → f g = k g) : x.mapSource f = x.mapSource k := by
  unfold source? transfer? at h
  unfold mapSource mapTransfer
  cases hphase : x.phase <;> rw [hphase] at h <;> simp_all

@[simp] theorem source?_mapSource (x : Exchange) (f : Supervised → Supervised) :
    (x.mapSource f).source? = x.source?.map f := by
  unfold source? transfer? mapSource mapTransfer
  cases x.phase <;> rfl

@[simp] theorem mapSource_mapSource (x : Exchange) (f k : Supervised → Supervised) :
    (x.mapSource f).mapSource k = x.mapSource fun g => k (f g) := by
  unfold mapSource mapTransfer
  cases x.phase <;> rfl

@[simp] theorem mapSource_same (x : Exchange) : (x.mapSource fun g => g) = x := by
  obtain ⟨settings, launcher, query, id, phase⟩ := x
  cases phase <;> rfl

end Exchange

end ToneRelay.Service
