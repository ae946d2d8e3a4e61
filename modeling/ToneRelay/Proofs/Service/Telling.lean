import ToneRelay.Proofs.Json.Document
import ToneRelay.Proofs.Text.Utf8
import ToneRelay.Service.Response

/-!
# What a refusal tells

A refusal is written out as a document, and the one who asked reads the bytes of that document. This
module follows the text of a refusal from what went wrong to what is read: `faithful_ofRefusal`.
-/

namespace ToneRelay.Service

/-- What the one who asked makes of a body: the bytes as a text, and the text as a document. -/
def Response.document? (answer : Response) : Option (Except Json.ReadError Json.Value) :=
  answer.body.text?.bind fun s => (Text.decode? (Text.utf8 s)).map Json.Value.ofText

namespace Refusal

/-- Where a refusal comes from. -/
inductive Cause
  | direct (r : Refusal)
  | parameter (e : Job.ParameterError)
  | illegal (e : Stream.Illegal)
  | generator (e : Generator.Fault)

/-- The refusal that comes of it. -/
def Cause.refusal : Cause → Refusal
  | .direct r => r
  | .parameter e => .ofParameter e
  | .illegal e => .ofIllegal e
  | .generator e => .generator e

/-- The text that it carries. -/
def Cause.carried : Cause → String
  | .direct (.invalid text) => text
  | .direct (.internal text) => text
  | .direct (.missing text) => text
  | .direct (.generator e) => "Generator error: " ++ e.message
  | .parameter e => e.message
  | .illegal e => e.message
  | .generator e => "Generator error: " ++ e.message

/-- The answer tells the refusal and nothing else, and its status is that of the refusal. -/
structure Faithful (r : Refusal) (text : String) (answer : Response) : Prop where
  status : answer.status = r.status
  contentType : ("content-type", "application/json") ∈ answer.headers
  document : answer.document? =
    some (.ok (.record [("error", .text text), ("code", .whole answer.status)]))
  invalid : answer.status = 400 ↔ ∃ text, r = .invalid text
  missing : answer.status = 404 ↔ ∃ text, r = .missing text
  late : answer.status = 504 ↔ ∃ limit, r = .generator (.startupTimeout limit)
  other : answer.status = 500 ↔
    (∃ text, r = .internal text) ∨ ∃ e, r = .generator e ∧ ∀ limit, e ≠ .startupTimeout limit

theorem status_eq_404_iff (r : Refusal) : r.status = 404 ↔ ∃ text, r = .missing text := by
  cases r with
  | generator fault => cases fault <;> simp [status]
  | _ => simp [status]

theorem status_eq_500_iff (r : Refusal) : r.status = 500 ↔
    (∃ text, r = .internal text) ∨ ∃ e, r = .generator e ∧ ∀ limit, e ≠ .startupTimeout limit := by
  cases r with
  | generator fault => cases fault <;> simp [status]
  | _ => simp [status]

theorem status_le (r : Refusal) : r.status ≤ 504 := by
  cases r with
  | generator fault => cases fault <;> simp [status]
  | _ => simp [status]

theorem exact_toJson (r : Refusal) : r.toJson.Exact := by
  refine .record ?_
  intro m hm
  rcases List.mem_pair.1 hm with rfl | rfl
  · exact .text _
  · exact .whole (Nat.le_trans r.status_le (by decide))

/-- The document is read as it was written. -/
theorem document?_ofRefusal (r : Refusal) :
    (Response.ofRefusal r).document? = some (.ok r.toJson) := by
  have htext : (Response.ofRefusal r).body.text? = some r.body := rfl
  unfold Response.document?
  rw [htext, Option.bind_some, Text.decode?_utf8, Option.map_some, body,
    Json.Value.ofText_compact r.exact_toJson]

theorem told_refusal (c : Cause) : c.refusal.told = c.carried := by
  cases c with
  | direct r => cases r <;> rfl
  | _ => rfl

/-- **Refusals are told faithfully.** Whatever the refusal comes from and whatever its text holds,
the one who asked reads a record of that text and the status, and of nothing else. -/
theorem faithful_ofRefusal (c : Cause) :
    Faithful c.refusal c.carried (Response.ofRefusal c.refusal) where
  status := rfl
  contentType := List.mem_cons_self
  document := by
    rw [document?_ofRefusal, toJson, told_refusal]
    rfl
  invalid := status_eq_400_iff _
  missing := status_eq_404_iff _
  late := status_eq_504_iff _
  other := status_eq_500_iff _

end Refusal

end ToneRelay.Service
