import ToneRelay.Decimal.Layout
import ToneRelay.Generator.Fault

/-!
# The relay

The loop that moves output from a source to a consumer, one chunk at a time, as a machine that asks
for one thing after another. In each round it looks whether the consumer is still there, reads, and
sends what it read; it stops the source when the consumer goes away and when a read fails, and not
when the output has ended. Main statement: `ending?_eq_some_iff`.
-/

namespace ToneRelay.Stream

/-- Pieces of output. -/
class Piece (α : Type) where
  size : α → Nat

instance : Piece (List UInt8) := ⟨List.length⟩

structure RelayOptions where
  /-- The greatest number of bytes asked for in one read. -/
  chunkSize : Nat := 8192
  /-- The number of bytes between two progress reports, which are not made at zero. -/
  progressInterval : Nat := 1048576
deriving DecidableEq, Repr

/-- The number of bytes that a read asks for. -/
def RelayOptions.request (o : RelayOptions) : Nat := max o.chunkSize 1

/-- How a relay ends, with the number of bytes that the consumer accepted. -/
inductive Ending
  | finished (total : Nat)
  | consumerGone (total : Nat)
  | sourceFailed (total : Nat) (fault : Generator.Fault)
deriving DecidableEq, Repr

/-- The bytes that the consumer accepted. -/
def Ending.total : Ending → Nat
  | .finished total => total
  | .consumerGone total => total
  | .sourceFailed total _ => total

/-- The text of an ending that is an error. -/
def Ending.message : Ending → String
  | .finished total => "relayed " ++ total.repr ++ " bytes"
  | .consumerGone total => "client went away after " ++ total.repr ++ " bytes"
  | .sourceFailed total fault =>
    "generator failed after " ++ total.repr ++ " bytes: " ++ fault.message

/-- What the relay waits for. -/
inductive Phase (α : Type)
  /-- A round starts. -/
  | checking
  /-- A read has been issued. -/
  | reading
  | sending (chunk : α)
  /-- The source has been told to stop. -/
  | stopping (ending : Ending)
  | done (ending : Ending)
deriving DecidableEq, Repr

/-- What a read gives. -/
inductive ReadResult (α : Type)
  | data (chunk : α)
  | eof
  | failed (fault : Generator.Fault)
deriving DecidableEq, Repr

/-- What the relay is answered. -/
inductive Answer (α : Type)
  | consumerPresent
  | consumerGone
  | read (result : ReadResult α)
  | accepted
  | refused
  | stopped (fault : Option Generator.Fault)
deriving DecidableEq, Repr

/-- What can be seen of the relay. -/
inductive Event (α : Type)
  | read (max : Nat)
  | send (chunk : α) (accepted : Bool)
  | terminate
  | progress (total : Nat)
  | stopFailed (ending : Ending) (fault : Generator.Fault)
deriving DecidableEq, Repr

/-- The relay. -/
structure Pump (α : Type) where
  options : RelayOptions
  phase : Phase α := .checking
  /-- The bytes that the consumer accepted. -/
  total : Nat := 0
  /-- The total at which progress is reported next. -/
  nextReport : Nat := options.progressInterval
deriving Repr

/-- The first of `next`, `next + interval`, … above `total`. -/
def catchUp (interval total next : Nat) : Nat :=
  if 0 < interval ∧ next ≤ total then catchUp interval total (next + interval) else next
termination_by total + 1 - next

namespace Pump

variable {α : Type} [Piece α]

/-- The relay before its first round. -/
def start (options : RelayOptions) : Pump α := { options := options }

omit [Piece α] in
@[simp] theorem total_start (options : RelayOptions) : (start options : Pump α).total = 0 := rfl

/-- Whether a report is due. -/
def due (p : Pump α) : Bool := 0 < p.options.progressInterval && p.nextReport ≤ p.total

/-- Counts an accepted chunk and starts the next round. -/
def advance (p : Pump α) (chunk : α) : Pump α × List (Event α) :=
  let p := { p with phase := .checking, total := p.total + Piece.size chunk }
  if p.due then
    ({ p with nextReport := catchUp p.options.progressInterval p.total p.nextReport },
      [.progress p.total])
  else (p, [])

/-- Tells the source to stop. -/
def stop (p : Pump α) (ending : Ending) : Pump α := { p with phase := .stopping ending }

/-- Takes an answer. An answer to something that was not asked is passed over. -/
def step (p : Pump α) (a : Answer α) : Pump α × List (Event α) :=
  match p.phase, a with
  | .checking, .consumerPresent =>
    ({ p with phase := .reading }, [.read p.options.request])
  | .checking, .consumerGone => (p.stop (.consumerGone p.total), [.terminate])
  | .reading, .consumerGone => (p.stop (.consumerGone p.total), [.terminate])
  | .reading, .read (.data chunk) => ({ p with phase := .sending chunk }, [])
  | .reading, .read .eof => ({ p with phase := .done (.finished p.total) }, [])
  | .reading, .read (.failed fault) => (p.stop (.sourceFailed p.total fault), [.terminate])
  | .sending chunk, .accepted =>
    let (p, reports) := p.advance chunk
    (p, .send chunk true :: reports)
  | .sending chunk, .refused =>
    (p.stop (.consumerGone p.total), [.send chunk false, .terminate])
  | .stopping ending, .stopped none => ({ p with phase := .done ending }, [])
  | .stopping ending, .stopped (some fault) =>
    ({ p with phase := .done ending }, [.stopFailed ending fault])
  | _, _ => (p, [])

/-- The relay after answers, and what can be seen of it. -/
def run (p : Pump α) : List (Answer α) → Pump α × List (Event α)
  | [] => (p, [])
  | a :: as =>
    let (p, events) := p.step a
    let (p, more) := p.run as
    (p, events ++ more)

/-- How the relay has ended. -/
def ending? (p : Pump α) : Option Ending :=
  match p.phase with
  | .done ending => some ending
  | _ => none

omit [Piece α] in
@[simp] theorem ending?_eq_some_iff {p : Pump α} {ending : Ending} :
    p.ending? = some ending ↔ p.phase = .done ending := by
  unfold ending?
  split <;> simp_all

@[simp] theorem run_nil (p : Pump α) : p.run [] = (p, []) := rfl

@[simp] theorem run_cons (p : Pump α) (a : Answer α) (as : List (Answer α)) :
    p.run (a :: as) = (((p.step a).1.run as).1, (p.step a).2 ++ ((p.step a).1.run as).2) := rfl

@[simp] theorem run_append (p : Pump α) (as bs : List (Answer α)) :
    (p.run (as ++ bs)).1 = ((p.run as).1.run bs).1 := by
  induction as generalizing p with
  | nil => rfl
  | cons a as ih => simp [ih]

end Pump

/-! ## Log lines -/

/-- A line of the log. -/
structure LogLine where
  level : String
  message : String
  bytes : Option Nat
deriving DecidableEq, Repr

/-- The line for progress, in units of `2 ^ 20` bytes. -/
def LogLine.progress (total : Nat) : LogLine where
  level := "INFO"
  message := "Streamed " ++ Decimal.fixed 1 (Float.ofNat total / 1048576.0) ++ " MB"
  bytes := some total

/-- The line for a source that could not be stopped. -/
def LogLine.stopFailed (ending : Ending) (fault : Generator.Fault) : LogLine where
  level := "WARN"
  message := match ending with
    | .sourceFailed _ _ =>
      "Failed to terminate generator after read error: " ++ fault.message
    | _ => "Failed to terminate generator after disconnect: " ++ fault.message
  bytes := none

end ToneRelay.Stream
