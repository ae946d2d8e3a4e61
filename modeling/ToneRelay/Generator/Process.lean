import ToneRelay.Duration
import ToneRelay.Generator.Pipe

/-!
# Generator processes

A running generator as its owner can observe it: bytes in two pipes, an exit status, and what
signals do to it. It performs a list of actions, each as soon as it can. Output that finds no room
in the pipe waits until some of it has been read. Main statements: `length_read_le`, a read gives no
more bytes than were asked for, and `read_append`, it gives the first ones.
-/

namespace ToneRelay.Generator

/-- What the request to terminate does. -/
inductive Disposition
  | dies
  | ignored
  | exits (code : UInt8)
deriving DecidableEq, Repr

/-- How a process has ended. -/
inductive Status
  | code (n : UInt8)
  | signal (n : Nat)
deriving DecidableEq, Repr

/-- The signal that requests termination. -/
def sigTerm : Nat := 15

/-- The signal that no process survives. -/
def sigKill : Nat := 9

/-- What a generator does next. -/
inductive Action
  | out (bytes : List UInt8)
  | err (bytes : List UInt8)
  | rest (d : Duration)
  /-- Does nothing for ever. -/
  | hang
  | closeOut
  | onTerm (d : Disposition)
  | exit (code : UInt8)
  /-- Sends a signal to itself. -/
  | signal (n : Nat)
  /-- A later read of the output fails. -/
  | failRead (reason : String)
  /-- A later wait for the end fails. -/
  | failWait (reason : String)
deriving DecidableEq, Repr

/-- A generator process. -/
structure Process where
  todo : List Action
  /-- The time from which the next action may be performed. -/
  ready : Nat := 0
  /-- Output that has not been read. -/
  output : Pipe := {}
  outputOpen : Bool := true
  /-- Diagnostics that have not been read. -/
  errors : List UInt8 := []
  term : Disposition := .dies
  exit : Option Status := none
  readFault : Option String := none
  waitFault : Option String := none
deriving DecidableEq, Repr

namespace Process

/-- The process ends, and with it its ends of the pipes. -/
def finish (p : Process) (s : Status) : Process :=
  { p with exit := some s, outputOpen := false, todo := [] }

/-- A signal arrives. -/
def receive (p : Process) (n : Nat) : Process :=
  if p.exit.isSome then p
  else if n = sigTerm then
    match p.term with
    | .dies => p.finish (.signal n)
    | .ignored => p
    | .exits code => p.finish (.code code)
  else p.finish (.signal n)

/-- Writes to the output what there is room for; `later` is what is done after the last byte.
Nothing can be written to an output that is closed. -/
def write (p : Process) (bytes : List UInt8) (later : List Action) : Option Process :=
  if bytes = [] ∨ !p.outputOpen then some { p with todo := later }
  else if p.output.accepted bytes = [] then none
  else
    let left := p.output.rejected bytes
    some { p with
      output := p.output.write bytes
      todo := if left = [] then later else .out left :: later }

/-- Performs the next action at a time, if it can be performed. After the last one the process
exits. -/
def act (p : Process) (now : Nat) : Option Process :=
  if p.exit.isSome ∨ now < p.ready then none
  else match p.todo with
    | [] => some (p.finish (.code 0))
    | .out bytes :: later => p.write bytes later
    | .err bytes :: later => some { p with errors := p.errors ++ bytes, todo := later }
    | .rest d :: later => some { p with ready := now + d.nanos, todo := later }
    | .hang :: _ => none
    | .closeOut :: later => some { p with outputOpen := false, todo := later }
    | .onTerm d :: later => some { p with term := d, todo := later }
    | .exit code :: _ => some (p.finish (.code code))
    | .signal n :: later => some ({ p with todo := later }.receive n)
    | .failRead reason :: later => some { p with readFault := some reason, todo := later }
    | .failWait reason :: later => some { p with waitFault := some reason, todo := later }

/-- The time of the next action, if it is only to be waited for. -/
def wake (p : Process) (now : Nat) : Option Nat :=
  if p.exit.isNone ∧ now < p.ready then some p.ready else none

/-! ## What the owner does -/

/-- What a read of the output gives. -/
inductive Taken
  | bytes (chunk : List UInt8)
  | closed
  | failed (reason : String)
  | nothing
deriving DecidableEq, Repr

/-- Reads at most `max` bytes of output. A fault shows when all output before it has been read. -/
def read (p : Process) (max : Nat) : Taken × Process :=
  if p.output.bytes ≠ [] then
    (.bytes (p.output.bytes.take max), { p with output := p.output.read max })
  else match p.readFault with
    | some reason => (.failed reason, { p with readFault := none })
    | none => (if p.outputOpen then .nothing else .closed, p)

/-- What waiting for the end gives. -/
inductive Waited
  | ended (s : Status)
  | failed (reason : String)
  | nothing
deriving DecidableEq, Repr

/-- Waits for the end. -/
def wait (p : Process) : Waited × Process :=
  match p.waitFault with
  | some reason => (.failed reason, { p with waitFault := none })
  | none =>
    match p.exit with
    | some s => (.ended s, p)
    | none => (.nothing, p)

theorem read_append {p : Process} {max : Nat} {chunk : List UInt8}
    (h : (p.read max).1 = .bytes chunk) :
    chunk ++ (p.read max).2.output.bytes = p.output.bytes := by
  unfold read at h ⊢
  split
  · next hne => rw [if_pos hne] at h; cases h; exact p.output.append_read max
  · next he =>
    rw [if_neg he] at h
    cases hf : p.readFault <;> simp [hf] at h
    split at h <;> cases h

theorem length_read_le {p : Process} {max : Nat} {chunk : List UInt8}
    (h : (p.read max).1 = .bytes chunk) : chunk.length ≤ max := by
  unfold read at h
  split at h
  · cases h; exact List.length_take_le _ _
  · cases hf : p.readFault <;> simp [hf] at h
    split at h <;> cases h

theorem receive_of_exit {p : Process} (h : p.exit.isSome) (n : Nat) : p.receive n = p := by
  simp [receive, h]

theorem exit_receive_sigKill (p : Process) : (p.receive sigKill).exit.isSome := by
  unfold receive
  split
  · assumption
  · simp [sigKill, sigTerm, finish]

theorem act_of_exit {p : Process} (h : p.exit.isSome) (now : Nat) : p.act now = none := by
  simp [act, h]

end Process

end ToneRelay.Generator
