import ToneRelay.Generator.Drain
import ToneRelay.Generator.Fault
import ToneRelay.Text.Blank
import ToneRelay.Text.Utf8

/-!
# Handles

What the owner of a generator holds and has found out: its end of the output, a chunk that was read
ahead, the reader of diagnostics, the job file, and how the generator ended. Main statements:
`attach_of_success` and `attach_eq`, diagnostics change nothing but an outcome.
-/

namespace ToneRelay.Generator

/-- How a generator ended, as its owner records it. -/
inductive Outcome
  | success
  | failure (code : Option UInt8) (diagnostics : String)
deriving DecidableEq, Repr

/-- The exit code of a process that ended by itself. -/
def Status.exitCode : Status → Option UInt8
  | .code n => some n
  | .signal _ => none

/-- How long the reader of diagnostics is waited for. -/
def joinLimit : Duration := .ofSecs 1

/-- How long a generator may take to end when asked to, unless another time is set. -/
def defaultGrace : Duration := .ofSecs 5

structure Handle where
  grace : Duration := defaultGrace
  /-- The end of the output is held. -/
  output : Bool := true
  /-- The reader of diagnostics has not been asked for them. -/
  reader : Bool := true
  diagnostics : Option String := none
  jobFile : Bool := true
  /-- A chunk that was read and not yet handed out. -/
  pending : Option (List UInt8) := none
  outcome : Option Outcome := none
  /-- The end of the output has been seen. -/
  drained : Bool := false
  /-- The end of the output has been handed out. -/
  eofSent : Bool := false
  released : Bool := false
deriving DecidableEq, Repr

namespace Handle

/-- Records how the process ended, with the diagnostics that are known. -/
def record (h : Handle) (s : Status) : Handle :=
  let outcome := if s = .code 0 then .success else .failure s.exitCode (h.diagnostics.getD "")
  { h with outcome := some outcome }

/-- Takes the bytes of the diagnostics. -/
def collect (h : Handle) (bytes : List UInt8) : Handle :=
  { h with diagnostics := some (Text.trim (Text.decodeLossy bytes)) }

/-- Gives a failure that was recorded without diagnostics those that are known now. -/
def attach (h : Handle) : Handle :=
  match h.outcome, h.diagnostics with
  | some (.failure code ""), some text => { h with outcome := some (.failure code text) }
  | _, _ => h

/-- Sees the end of the output. -/
def drain (h : Handle) : Handle := { h with output := false, drained := true }

/-- Lets go of the output, also of what was read ahead. -/
def letGo (h : Handle) : Handle := { h with output := false, pending := none }

/-- Removes the job file and holds nothing more. -/
def release (h : Handle) : Handle := { h with jobFile := false, released := true }

/-- How the generator ended, if it is known. -/
def exitStatus (h : Handle) : Except Fault Outcome :=
  match h.outcome with
  | some o => .ok o
  | none => .error .stillRunning

/-- What is told when a generator ended before its first output. -/
def early (code : Option UInt8) (diagnostics : String) : Fault :=
  if diagnostics ≠ "" then .exitedEarly diagnostics
  else match code with
    | some n => .exitedEarly ("exit code Some(" ++ n.toNat.repr ++ ")")
    | none => .exitedEarly "exit code None"

theorem attach_of_success {h : Handle} (hs : h.outcome = some .success) : h.attach = h := by
  simp [attach, hs]

theorem attach_eq (h : Handle) : h.attach = { h with outcome := h.attach.outcome } := by
  unfold attach
  split <;> rfl

@[simp] theorem output_attach (h : Handle) : h.attach.output = h.output := by rw [attach_eq]

@[simp] theorem reader_attach (h : Handle) : h.attach.reader = h.reader := by rw [attach_eq]

@[simp] theorem diagnostics_attach (h : Handle) : h.attach.diagnostics = h.diagnostics := by
  rw [attach_eq]

@[simp] theorem pending_attach (h : Handle) : h.attach.pending = h.pending := by rw [attach_eq]

@[simp] theorem drained_attach (h : Handle) : h.attach.drained = h.drained := by rw [attach_eq]

@[simp] theorem eofSent_attach (h : Handle) : h.attach.eofSent = h.eofSent := by rw [attach_eq]

@[simp] theorem released_attach (h : Handle) : h.attach.released = h.released := by rw [attach_eq]

end Handle

end ToneRelay.Generator
