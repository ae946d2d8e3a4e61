import ToneRelay.Stream.Session

/-!
# Recent sessions

A bounded history of reports. A report that is recorded or asked for becomes the most recent one;
when there is no room for another, the least recent one is forgotten. Main statements:
`reports_record`, `get_of_present`, `get_of_absent`.
-/

namespace ToneRelay.Stream

/-- Reports, the most recent one first, each identifier once. -/
structure History where
  capacity : Nat
  reports : List Report
  capacity_pos : 0 < capacity
  length_le : reports.length ≤ capacity
  nodup : (reports.map (·.id)).Nodup

namespace History

/-- A history without reports; it has room for one at least. -/
def empty (capacity : Nat) : History where
  capacity := max capacity 1
  reports := []
  capacity_pos := by omega
  length_le := by simp
  nodup := by simp

/-- The reports other than that of `id`. -/
def others (id : Text.Uuid) (reports : List Report) : List Report := reports.filter (·.id ≠ id)

/-- The reports with `r` in front, as many as there is room for. -/
def front (capacity : Nat) (r : Report) (reports : List Report) : List Report :=
  (r :: others r.id reports).take capacity

theorem length_front_le (capacity : Nat) (r : Report) (reports : List Report) :
    (front capacity r reports).length ≤ capacity := List.length_take_le _ _

theorem nodup_front (capacity : Nat) (r : Report) {reports : List Report}
    (h : (reports.map (·.id)).Nodup) : ((front capacity r reports).map (·.id)).Nodup := by
  have hothers : ((others r.id reports).map (·.id)).Nodup :=
    h.sublist (List.filter_sublist.map _)
  have hnot : r.id ∉ (others r.id reports).map (·.id) := by simp [others]
  have hall : ((r :: others r.id reports).map (·.id)).Nodup := by
    simpa using ⟨by simpa using hnot, hothers⟩
  exact hall.sublist ((List.take_sublist _ _).map _)

/-- Records a report, in place of an earlier one of the same session. -/
def record (h : History) (r : Report) : History where
  capacity := h.capacity
  reports := front h.capacity r h.reports
  capacity_pos := h.capacity_pos
  length_le := length_front_le _ _ _
  nodup := nodup_front _ _ h.nodup

/-- The report of a session, if it is still there. -/
def find (h : History) (id : Text.Uuid) : Option Report := h.reports.find? (·.id = id)

/-- Asks for the report of a session. -/
def get (h : History) (id : Text.Uuid) : Option Report × History :=
  match h.find id with
  | some r => (some r, h.record r)
  | none => (none, h)

/-- The number of reports. -/
def size (h : History) : Nat := h.reports.length

/-- What can be asked of a history. -/
inductive Call
  | record (r : Report)
  | get (id : Text.Uuid)

/-- The history after a call, and the report that was found. -/
def perform (h : History) : Call → Option Report × History
  | .record r => (none, h.record r)
  | .get id => h.get id

/-- The history after calls. -/
def run (h : History) (calls : List Call) : History := calls.foldl (fun h c => (h.perform c).2) h

/-! ## One call -/

theorem reports_record (h : History) (r : Report) :
    (h.record r).reports = (r :: others r.id h.reports).take h.capacity := rfl

@[simp] theorem capacity_record (h : History) (r : Report) :
    (h.record r).capacity = h.capacity := rfl

theorem get_of_present {h : History} {id : Text.Uuid} {r : Report} (hp : h.find id = some r) :
    h.get id = (some r, h.record r) := by simp [get, hp]

theorem get_of_absent {h : History} {id : Text.Uuid} (ha : h.find id = none) :
    h.get id = (none, h) := by simp [get, ha]

/-- A question is answered with what is found. -/
@[simp] theorem get_fst (h : History) (id : Text.Uuid) : (h.get id).1 = h.find id := by
  unfold get
  cases h.find id <;> rfl

@[simp] theorem capacity_get (h : History) (id : Text.Uuid) :
    (h.get id).2.capacity = h.capacity := by
  unfold get
  cases h.find id <;> rfl

@[simp] theorem perform_record (h : History) (r : Report) :
    h.perform (.record r) = (none, h.record r) := rfl

@[simp] theorem perform_get (h : History) (id : Text.Uuid) : h.perform (.get id) = h.get id := rfl

@[simp] theorem capacity_perform (h : History) (c : Call) :
    (h.perform c).2.capacity = h.capacity := by
  cases c <;> simp

/-! ## Calls in order -/

@[simp] theorem run_nil (h : History) : h.run [] = h := rfl

@[simp] theorem run_cons (h : History) (c : Call) (calls : List Call) :
    h.run (c :: calls) = (h.perform c).2.run calls := rfl

@[simp] theorem run_append (h : History) (calls more : List Call) :
    h.run (calls ++ more) = (h.run calls).run more := by simp [run]

@[simp] theorem capacity_run (h : History) (calls : List Call) :
    (h.run calls).capacity = h.capacity := by
  induction calls generalizing h with
  | nil => rfl
  | cons c calls ih => simp [ih]

end History

end ToneRelay.Stream
