import ToneRelay.Stream.Session

/-!
# Counters

What the service counts about its streams, in words of sixty-four bits that wrap. A counter is
updated in one atomic step, and an event is a short list of such updates, so that the updates of
several events can interleave. The number of active streams never goes below zero. Main statements:
`record_other`, `update_leave_of_pos`.
-/

namespace ToneRelay.Stream

structure Counters where
  requests : UInt64 := 0
  rejected : UInt64 := 0
  spawnFailures : UInt64 := 0
  started : UInt64 := 0
  active : UInt64 := 0
  completed : UInt64 := 0
  aborted : UInt64 := 0
  failed : UInt64 := 0
  bytesRelayed : UInt64 := 0
deriving DecidableEq, Repr

/-- One atomic update. -/
inductive Update
  | request
  | rejected
  | spawnFailure
  | started
  /-- A stream becomes active. -/
  | enter
  /-- A stream is no longer active. -/
  | leave
  | relayed (bytes : Nat)
  /-- A stream is counted under the state in which it ended. -/
  | ended (state : State)
deriving DecidableEq, Repr

/-- What happens to a stream. -/
inductive Occurrence
  | request
  | rejected
  | spawnFailure
  | started
  | finished (state : State) (bytes : Nat)
deriving DecidableEq, Repr

/-- The updates of an event, in order. -/
def Occurrence.updates : Occurrence → List Update
  | .request => [.request]
  | .rejected => [.rejected]
  | .spawnFailure => [.spawnFailure]
  | .started => [.started, .enter]
  | .finished state bytes => [.leave, .relayed bytes, .ended state]

namespace Counters

/-- Makes one update. Every state other than completed and aborted counts as failed. -/
def update (c : Counters) : Update → Counters
  | .request => { c with requests := c.requests + 1 }
  | .rejected => { c with rejected := c.rejected + 1 }
  | .spawnFailure => { c with spawnFailures := c.spawnFailures + 1 }
  | .started => { c with started := c.started + 1 }
  | .enter => { c with active := c.active + 1 }
  | .leave => if c.active = 0 then c else { c with active := c.active - 1 }
  | .relayed bytes => { c with bytesRelayed := c.bytesRelayed + UInt64.ofNat bytes }
  | .ended .completed => { c with completed := c.completed + 1 }
  | .ended .aborted => { c with aborted := c.aborted + 1 }
  | .ended _ => { c with failed := c.failed + 1 }

/-- Makes updates in order. -/
def run (c : Counters) (us : List Update) : Counters := us.foldl update c

/-- Counts an event. -/
def record (c : Counters) (o : Occurrence) : Counters := c.run o.updates

@[simp] theorem run_nil (c : Counters) : c.run [] = c := rfl

@[simp] theorem run_cons (c : Counters) (u : Update) (us : List Update) :
    c.run (u :: us) = (c.update u).run us := rfl

@[simp] theorem run_append (c : Counters) (us vs : List Update) :
    c.run (us ++ vs) = (c.run us).run vs := by simp [run]

theorem update_leave_of_pos {c : Counters} (h : 0 < c.active.toNat) :
    (c.update .leave).active.toNat + 1 = c.active.toNat := by
  have hne : c.active ≠ 0 := by
    intro h0; simp [h0] at h
  have hle : (1 : UInt64) ≤ c.active := by
    rw [UInt64.le_iff_toNat_le]; exact h
  simp only [update, hne, if_false]
  rw [UInt64.toNat_sub_of_le _ _ hle]
  simp only [UInt64.toNat_one]
  omega

/-- The counters as a document. -/
def toJson (c : Counters) : Json.Value :=
  .record [
    ("requests", .whole c.requests.toNat),
    ("rejected", .whole c.rejected.toNat),
    ("spawn_failures", .whole c.spawnFailures.toNat),
    ("started", .whole c.started.toNat),
    ("active", .whole c.active.toNat),
    ("completed", .whole c.completed.toNat),
    ("aborted", .whole c.aborted.toNat),
    ("failed", .whole c.failed.toNat),
    ("bytes_relayed", .whole c.bytesRelayed.toNat)]

end Counters

/-! ## Independent counters -/

/-- Counters that are told apart by a number. -/
def Ledger := Nat → Counters

/-- Counters at which nothing has been counted. -/
def Ledger.fresh : Ledger := fun _ => {}

/-- Counts an event at one of the counters. -/
def Ledger.record (l : Ledger) (place : Nat) (o : Occurrence) : Ledger :=
  fun i => if i = place then (l i).record o else l i

@[simp] theorem Ledger.record_self (l : Ledger) (place : Nat) (o : Occurrence) :
    l.record place o place = (l place).record o := by simp [record]

theorem Ledger.record_other (l : Ledger) {place i : Nat} (o : Occurrence) (h : i ≠ place) :
    l.record place o i = l i := by simp [record, h]

end ToneRelay.Stream
