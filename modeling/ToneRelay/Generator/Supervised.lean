import ToneRelay.Generator.Handle

/-!
# Supervised generators

A generator, the reader of its diagnostics, and its owner with at most one call under way. A call
waits at stages, and each step takes it from one to the next; between two steps the generator and
the reader may do anything they can, time may pass, and the call may be dropped. Main statements:
`conclude_await`, `start_of_released` and `read_of_released`.
-/

namespace ToneRelay.Generator

/-- What an owner asks for. -/
inductive Call
  /-- Waits for the first output, which is kept for the next read. -/
  | await (max : Nat) (limit : Duration)
  | read (max : Nat)
  | terminate
deriving DecidableEq, Repr

/-- How a call is answered. -/
inductive Reply
  | ready
  | data (chunk : List UInt8)
  | eof
  | stopped
  | failed (fault : Fault)
deriving DecidableEq, Repr

namespace Handle

/-- What is told of a generator by its outcome. -/
def verdict (h : Handle) : Reply :=
  match h.outcome with
  | some (.failure code text) => .failed (early code text)
  | _ => .ready

theorem verdict_cases (h : Handle) : h.verdict = .ready ∨
    ∃ code text, h.outcome = some (.failure code text) ∧ h.verdict = .failed (early code text) := by
  unfold verdict
  split
  · next code text ho => exact .inr ⟨code, text, ho, rfl⟩
  · exact .inl rfl

end Handle

/-- What an owner does once the diagnostics are there. -/
inductive Purpose
  | await
  | read
  | terminate (fault : Option Fault)
deriving DecidableEq, Repr

/-- Where a call waits. -/
inductive Stage
  /-- For output, until a deadline. -/
  | awaiting (max : Nat) (limit : Duration) (deadline : Nat)
  /-- For output. -/
  | reading (max : Nat)
  /-- For the end of the process. -/
  | reaping (p : Purpose)
  /-- For the reader of diagnostics, until a deadline. -/
  | joining (p : Purpose) (deadline : Nat)
  /-- For the end of a process that was asked to terminate, until a deadline. -/
  | stopping (deadline : Nat)
  /-- For the end of a process that was killed. -/
  | killing
deriving DecidableEq, Repr

/-- The time at which a stage is left at the latest. -/
def Stage.deadline? : Stage → Option Nat
  | .awaiting _ _ deadline => some deadline
  | .joining _ deadline => some deadline
  | .stopping deadline => some deadline
  | _ => none

/-- A generator and its owner. -/
structure Supervised where
  now : Nat := 0
  process : Process
  drain : Drain := {}
  handle : Handle := {}
  stage : Option Stage := none
deriving DecidableEq, Repr

namespace Supervised

/-- Answers the call under way. -/
def reply (s : Supervised) (r : Reply) : Supervised × Option Reply :=
  ({ s with stage := none }, some r)

/-- Lets the call under way wait. -/
def wait (s : Supervised) (stage : Stage) : Supervised × Option Reply :=
  ({ s with stage := some stage }, none)

/-- Changes what the owner holds. -/
def own (s : Supervised) (f : Handle → Handle) : Supervised := { s with handle := f s.handle }

@[simp] theorem handle_own (s : Supervised) (f : Handle → Handle) :
    (s.own f).handle = f s.handle := rfl

/-- What is done once the diagnostics are there. -/
def conclude (s : Supervised) (p : Purpose) : Supervised × Option Reply :=
  let s := s.own Handle.attach
  match p with
  | .await =>
    match s.handle.outcome with
    | some (.failure code diagnostics) => s.reply (.failed (Handle.early code diagnostics))
    | _ => s.reply .ready
  | .read => (s.own fun h => { h with eofSent := true }).reply .eof
  | .terminate fault =>
    (s.own Handle.release).reply (match fault with
      | none => .stopped
      | some fault => .failed fault)

theorem conclude_await (s : Supervised) :
    s.conclude .await = (s.own Handle.attach).reply s.handle.attach.verdict := by
  unfold conclude Handle.verdict
  dsimp only [own]
  split <;> rfl

/-- Asks the reader for the diagnostics, unless it has been asked before. -/
def join (s : Supervised) (p : Purpose) : Supervised × Option Reply :=
  if s.handle.reader then
    (s.own fun h => { h with reader := false }).wait (.joining p (s.now + joinLimit.nanos))
  else s.conclude p

/-- Waits for the end of the process, unless it is known. -/
def reap (s : Supervised) (p : Purpose) : Supervised × Option Reply :=
  if s.handle.outcome.isSome then s.join p else s.wait (.reaping p)

/-- Lets go of the output and goes on to the release. -/
def close (s : Supervised) (fault : Option Fault) : Supervised × Option Reply :=
  (s.own Handle.letGo).join (.terminate fault)

/-- Goes on when the wait for the end has an answer. -/
def ended (s : Supervised) (onEnd : Supervised → Supervised × Option Reply)
    (onFault : Fault → Supervised → Supervised × Option Reply)
    (onNothing : Supervised → Supervised × Option Reply) : Supervised × Option Reply :=
  match s.process.wait with
  | (.ended status, p) => onEnd ({ s with process := p }.own (·.record status))
  | (.failed reason, p) => onFault (.wait reason) { s with process := p }
  | (.nothing, _) => onNothing s

/-- Starts a call. One that was under way is dropped. -/
def start (s : Supervised) : Call → Supervised × Option Reply
  | .await max limit =>
    if s.handle.pending.isSome ∨ s.handle.drained then s.reply .ready
    else s.wait (.awaiting max limit (s.now + limit.nanos))
  | .read max =>
    if s.handle.released ∨ s.handle.eofSent then s.reply (.failed .closed)
    else match s.handle.pending with
      | some chunk => (s.own fun h => { h with pending := none }).reply (.data chunk)
      | none => if s.handle.drained then s.reap .read else s.wait (.reading max)
  | .terminate =>
    if s.handle.released then s.reply .stopped
    else if s.handle.outcome.isSome then s.close none
    else s.ended (·.close none) (fun fault s => s.close (some fault)) fun s =>
      { s with process := s.process.receive sigTerm }.wait
        (.stopping (s.now + s.handle.grace.nanos))

/-- Reads for the call under way. -/
def readFor (s : Supervised) (max : Nat) (p : Purpose)
    (onData : List UInt8 → Supervised → Supervised × Option Reply)
    (onNothing : Supervised → Supervised × Option Reply) : Supervised × Option Reply :=
  if s.handle.output then
    match s.process.read (Nat.max max 1) with
    | (.bytes chunk, p) => onData chunk { s with process := p }
    | (.closed, _) => (s.own Handle.drain).reap p
    | (.failed reason, p) => { s with process := p }.reply (.failed (.read reason))
    | (.nothing, _) => onNothing s
  else (s.own Handle.drain).reap p

/-- Takes the call under way to its next stage, if what it waits for is there. -/
def poll (s : Supervised) : Supervised × Option Reply :=
  match s.stage with
  | none => (s, none)
  | some (.awaiting max limit deadline) =>
    s.readFor max .await
      (fun chunk s => (s.own fun h => { h with pending := some chunk }).reply .ready)
      fun s => if deadline ≤ s.now then s.reply (.failed (.startupTimeout limit)) else (s, none)
  | some (.reading max) => s.readFor max .read (fun chunk s => s.reply (.data chunk)) (·, none)
  | some (.reaping p) => s.ended (·.join p) (fun fault s => s.reply (.failed fault)) (·, none)
  | some (.joining p deadline) =>
    if s.drain.ended then (s.own (·.collect s.drain.kept)).conclude p
    else if deadline ≤ s.now then (s.own (·.collect [])).conclude p
    else (s, none)
  | some (.stopping deadline) =>
    s.ended (·.close none) (fun fault s => s.close (some fault)) fun s =>
      if deadline ≤ s.now then { s with process := s.process.receive sigKill }.wait .killing
      else (s, none)
  | some .killing => s.ended (·.close none) (fun fault s => s.close (some fault)) (·, none)

/-- Drops the call under way. -/
def cancel (s : Supervised) : Supervised := { s with stage := none }

/-- The generator performs its next action. -/
def act (s : Supervised) : Supervised := { s with process := (s.process.act s.now).getD s.process }

/-- The reader of diagnostics reads once. -/
def drainOnce (s : Supervised) : Supervised :=
  let (d, p) := s.drain.step s.process
  { s with drain := d, process := p }

/-- The owner goes away without a word: the generator is killed and the job file removed. -/
def abandon (s : Supervised) : Supervised :=
  if s.handle.released then s.cancel
  else
    let process := if s.handle.outcome.isNone then s.process.receive sigKill else s.process
    { s with
      process := process
      handle := { s.handle with reader := false, jobFile := false }
      stage := none }

/-- What can happen to a supervised generator. -/
inductive Move
  | call (c : Call)
  | poll
  | cancel
  | act
  | drain
  | pass (nanos : Nat)
deriving DecidableEq, Repr

/-- One thing happens. -/
def step (s : Supervised) : Move → Supervised × Option Reply
  | .call c => s.start c
  | .poll => s.poll
  | .cancel => (s.cancel, none)
  | .act => (s.act, none)
  | .drain => (s.drainOnce, none)
  | .pass nanos => ({ s with now := s.now + nanos }, none)

/-- What happens in order, and the answers given. -/
def run (s : Supervised) : List Move → Supervised × List Reply
  | [] => (s, [])
  | m :: ms =>
    let (s, r) := s.step m
    let (s, rs) := s.run ms
    (s, r.toList ++ rs)

@[simp] theorem run_nil (s : Supervised) : s.run [] = (s, []) := rfl

@[simp] theorem run_cons (s : Supervised) (m : Move) (ms : List Move) :
    s.run (m :: ms) = (((s.step m).1.run ms).1, (s.step m).2.toList ++ ((s.step m).1.run ms).2) :=
  rfl

@[simp] theorem run_append (s : Supervised) (ms ns : List Move) :
    (s.run (ms ++ ns)).1 = ((s.run ms).1.run ns).1 := by
  induction ms generalizing s with
  | nil => rfl
  | cons m ms ih => simp [ih]

@[simp] theorem answers_append (s : Supervised) (ms ns : List Move) :
    (s.run (ms ++ ns)).2 = (s.run ms).2 ++ ((s.run ms).1.run ns).2 := by
  induction ms generalizing s with
  | nil => rfl
  | cons m ms ih => simp [ih]

theorem start_of_released {s : Supervised} (h : s.handle.released = true) :
    s.start .terminate = s.reply .stopped := by simp [start, h]

theorem read_of_released {s : Supervised} (h : s.handle.released = true) (max : Nat) :
    s.start (.read max) = s.reply (.failed .closed) := by simp [start, h]

end Supervised

end ToneRelay.Generator
