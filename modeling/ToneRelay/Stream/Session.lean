import ToneRelay.Job.Parameters
import ToneRelay.Text.Uuid

/-!
# Sessions

One stream request from its receipt to its end. A session walks along the legal transitions of its
state; a call that asks for another one is refused and changes nothing. Main statements:
`advance_eq_ok_iff`, the moves that are made, and `perform_of_refused`.
-/

namespace ToneRelay.Stream

/-- An instant, as the clock writes it. -/
structure Moment where
  text : String
deriving DecidableEq, Repr

/-- How far a request has come. -/
inductive State
  | received
  | validated
  | generating
  | streaming
  | completed
  | aborted
  | failed
deriving DecidableEq, Repr

namespace State

/-- All states, in the order in which they can be reached. -/
def all : List State :=
  [.received, .validated, .generating, .streaming, .completed, .aborted, .failed]

def name : State → String
  | .received => "received"
  | .validated => "validated"
  | .generating => "generating"
  | .streaming => "streaming"
  | .completed => "completed"
  | .aborted => "aborted"
  | .failed => "failed"

/-- The states in which a request has ended. -/
def terminal : State → Bool
  | .completed | .aborted | .failed => true
  | _ => false

/-- The states that can follow. -/
def next : State → List State
  | .received => [.validated, .failed]
  | .validated => [.generating, .failed]
  | .generating => [.streaming, .failed]
  | .streaming => [.completed, .aborted, .failed]
  | .completed | .aborted | .failed => []

theorem next_eq_nil_iff (s : State) : s.next = [] ↔ s.terminal = true := by
  cases s <;> simp [next, terminal]

end State

/-- A transition that no session makes. -/
structure Illegal where
  source : State
  target : State
deriving DecidableEq, Repr

def Illegal.message (e : Illegal) : String :=
  "illegal session transition " ++ e.source.name ++ " -> " ++ e.target.name

/-- One request. -/
structure Session where
  id : Text.Uuid
  startedAt : Moment
  finishedAt : Option Moment
  state : State
  parameters : Option Job.Parameters
  bytes : Nat
  diagnostic : Option String

namespace Session

/-- A request that has just come in. -/
def receive (id : Text.Uuid) (now : Moment) : Session where
  id := id
  startedAt := now
  finishedAt := none
  state := .received
  parameters := none
  bytes := 0
  diagnostic := none

/-- Moves to a state that can follow; an end is stamped with the time. -/
def advance (s : Session) (target : State) (now : Moment) : Except Illegal Session :=
  if target ∈ s.state.next then
    .ok { s with
      state := target
      finishedAt := if target.terminal then some now else s.finishedAt }
  else .error ⟨s.state, target⟩

def validated (s : Session) (p : Job.Parameters) (now : Moment) : Except Illegal Session :=
  (s.advance .validated now).map fun s => { s with parameters := some p }

def complete (s : Session) (bytes : Nat) (now : Moment) : Except Illegal Session :=
  (s.advance .completed now).map fun s => { s with bytes := bytes }

def abort (s : Session) (bytes : Nat) (now : Moment) : Except Illegal Session :=
  (s.advance .aborted now).map fun s => { s with bytes := bytes }

def fail (s : Session) (bytes : Nat) (diagnostic : String) (now : Moment) :
    Except Illegal Session :=
  (s.advance .failed now).map fun s => { s with bytes := bytes, diagnostic := some diagnostic }

/-- What can be asked of a session. -/
inductive Call
  | advance (target : State)
  | validated (p : Job.Parameters)
  | complete (bytes : Nat)
  | abort (bytes : Nat)
  | fail (bytes : Nat) (diagnostic : String)

/-- The state that a call asks for. -/
def Call.target : Call → State
  | .advance target => target
  | .validated _ => .validated
  | .complete _ => .completed
  | .abort _ => .aborted
  | .fail _ _ => .failed

/-- The answer to a call. -/
def answer (s : Session) (now : Moment) : Call → Except Illegal Session
  | .advance target => s.advance target now
  | .validated p => s.validated p now
  | .complete bytes => s.complete bytes now
  | .abort bytes => s.abort bytes now
  | .fail bytes diagnostic => s.fail bytes diagnostic now

/-- The session after a call, and the refusal if the call was refused. -/
def perform (s : Session) (now : Moment) (c : Call) : Session × Option Illegal :=
  match s.answer now c with
  | .ok s => (s, none)
  | .error e => (s, some e)

/-- The session after calls made at the given times. -/
def run (s : Session) (calls : List (Moment × Call)) : Session :=
  calls.foldl (fun s c => (s.perform c.1 c.2).1) s

theorem advance_eq_error_iff {s : Session} {target : State} {now : Moment} {e : Illegal} :
    s.advance target now = .error e ↔ target ∉ s.state.next ∧ e = ⟨s.state, target⟩ := by
  unfold advance
  split
  · next h => simp [h]
  · next h => simp only [Except.error.injEq, h, not_false_eq_true, true_and]; exact eq_comm

theorem advance_eq_ok_iff {s t : Session} {target : State} {now : Moment} :
    s.advance target now = .ok t ↔ target ∈ s.state.next ∧
      t = { s with
        state := target
        finishedAt := if target.terminal then some now else s.finishedAt } := by
  unfold advance
  split
  · next h => simp only [Except.ok.injEq, h, true_and]; exact eq_comm
  · next h => simp [h]

theorem answer_eq_error_iff {s : Session} {now : Moment} {c : Call} {e : Illegal} :
    s.answer now c = .error e ↔ c.target ∉ s.state.next ∧ e = ⟨s.state, c.target⟩ := by
  have hmap : ∀ (f : Session → Session) (r : Except Illegal Session),
      r.map f = .error e ↔ r = .error e := by
    intro f r; cases r <;> simp [Except.map]
  cases c <;>
    simp only [answer, validated, complete, abort, fail, Call.target, hmap, advance_eq_error_iff]

theorem perform_of_refused {s : Session} {now : Moment} {c : Call}
    (h : c.target ∉ s.state.next) : s.perform now c = (s, some ⟨s.state, c.target⟩) := by
  simp [perform, answer_eq_error_iff.2 ⟨h, rfl⟩]

@[simp] theorem run_nil (s : Session) : s.run [] = s := rfl

@[simp] theorem run_cons (s : Session) (c : Moment × Call) (calls : List (Moment × Call)) :
    s.run (c :: calls) = (s.perform c.1 c.2).1.run calls := rfl

@[simp] theorem run_append (s : Session) (calls more : List (Moment × Call)) :
    s.run (calls ++ more) = (s.run calls).run more := by simp [run]

end Session

/-! ## Reports -/

/-- What is told about a session. -/
structure Report where
  id : Text.Uuid
  state : State
  bytes : Nat
  startedAt : Moment
  finishedAt : Option Moment
  parameters : Option Job.Parameters
  diagnostic : Option String

def Session.report (s : Session) : Report where
  id := s.id
  state := s.state
  bytes := s.bytes
  startedAt := s.startedAt
  finishedAt := s.finishedAt
  parameters := s.parameters
  diagnostic := s.diagnostic

/-- The document that shows a report; what there is not is left out. -/
def Report.toJson (r : Report) : Json.Value :=
  .record ([
    ("id", .text r.id.text),
    ("state", .text r.state.name),
    ("bytes", .whole r.bytes),
    ("started_at", .text r.startedAt.text)] ++
    Json.optional "finished_at" (r.finishedAt.map fun t => .text t.text) ++
    Json.optional "parameters" (r.parameters.map (·.toJson)) ++
    Json.optional "diagnostic" (r.diagnostic.map .text))

end ToneRelay.Stream
