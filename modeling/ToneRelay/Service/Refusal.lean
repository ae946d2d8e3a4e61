import ToneRelay.Generator.Fault
import ToneRelay.Request.Admission
import ToneRelay.Stream.Session

/-!
# Refusals

Why a request is not answered with what it asked for, the status that is sent, and the document that
tells it. Main statement: `status_eq_504_iff`.
-/

namespace ToneRelay.Service

/-- Why a request is refused. -/
inductive Refusal
  | invalid (text : String)
  | generator (fault : Generator.Fault)
  | internal (text : String)
  | missing (text : String)
deriving DecidableEq, Repr

namespace Refusal

/-- A request that was not admitted. -/
def ofRequest (e : Request.Fault) : Refusal := .invalid e.message

/-- Parameters that were not admitted. -/
def ofParameter (e : Job.ParameterError) : Refusal := .invalid e.message

/-- A session that was moved against its order. -/
def ofIllegal (e : Stream.Illegal) : Refusal := .internal e.message

/-- The status that is sent. -/
def status : Refusal → Nat
  | .invalid _ => 400
  | .generator (.startupTimeout _) => 504
  | .generator _ => 500
  | .internal _ => 500
  | .missing _ => 404

/-- The text of a refusal with its kind in front. -/
def message : Refusal → String
  | .invalid text => "Invalid input: " ++ text
  | .generator fault => "Generator error: " ++ fault.message
  | .internal text => "Internal server error: " ++ text
  | .missing text => "Not found: " ++ text

/-- What the one who asked is told: only what went wrong with a generator is announced as such. -/
def told : Refusal → String
  | .invalid text => text
  | .generator fault => "Generator error: " ++ fault.message
  | .internal text => text
  | .missing text => text

/-- The content type of a document. -/
def contentType : String := "application/json"

/-- The document that is sent. -/
def toJson (r : Refusal) : Json.Value :=
  .record [("error", .text r.told), ("code", .whole r.status)]

/-- The text of that document. -/
def body (r : Refusal) : String := r.toJson.compact

theorem status_eq_400_iff (r : Refusal) : r.status = 400 ↔ ∃ text, r = .invalid text := by
  cases r with
  | generator fault => cases fault <;> simp [status]
  | _ => simp [status]

theorem status_eq_504_iff (r : Refusal) :
    r.status = 504 ↔ ∃ limit, r = .generator (.startupTimeout limit) := by
  cases r with
  | generator fault => cases fault <;> simp [status]
  | _ => simp [status]

end Refusal

end ToneRelay.Service
