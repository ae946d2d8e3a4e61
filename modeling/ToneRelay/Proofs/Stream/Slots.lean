import ToneRelay.Stream.History

/-!
# The slots of a history

A history holds reports that it was given and no others (`mem_record`, `mem_get`). A report of a new
session takes a slot as long as there is one (`size_record_new`); to ask for a report takes none
(`size_get`).
-/

namespace ToneRelay.Stream.History

variable {h : History} {r q : Report} {id : Text.Uuid}

theorem mem_others {reports : List Report} (hq : q ∈ others id reports) : q ∈ reports :=
  (List.mem_filter.1 hq).1

theorem others_of_absent {reports : List Report} (hid : ∀ q ∈ reports, q.id ≠ id) :
    others id reports = reports := by
  unfold others
  rw [List.filter_eq_self]
  intro q hq
  simpa using hid q hq

/-- A report that is recorded displaces others and brings no other one in. -/
theorem mem_record (hq : q ∈ (h.record r).reports) : q = r ∨ q ∈ h.reports := by
  have hfront : q ∈ r :: others r.id h.reports := List.mem_of_mem_take hq
  rcases List.mem_cons.1 hfront with rfl | hq
  · exact .inl rfl
  · exact .inr (mem_others hq)

theorem find_spec (hf : h.find id = some r) : r ∈ h.reports ∧ r.id = id :=
  ⟨List.mem_of_find?_eq_some hf, by simpa using List.find?_some hf⟩

theorem mem_get (hq : q ∈ (h.get id).2.reports) : q ∈ h.reports := by
  cases hf : h.find id with
  | none => rwa [get_of_absent hf] at hq
  | some r =>
    rw [get_of_present hf] at hq
    rcases mem_record hq with rfl | hq
    · exact (find_spec hf).1
    · exact hq

/-- The slots that are taken once a report is recorded. -/
theorem size_record (h : History) (r : Report) :
    (h.record r).size = min h.capacity ((others r.id h.reports).length + 1) := by
  unfold size
  rw [reports_record, List.length_take, List.length_cons]

/-- The report of a new session takes a slot, if need be that of an earlier one. -/
theorem size_record_new (hnew : ∀ q ∈ h.reports, q.id ≠ r.id) :
    (h.record r).size = min h.capacity (h.size + 1) := by
  rw [size_record, others_of_absent hnew]
  rfl

/-- Of the reports of one session there is one at most. -/
theorem length_others {reports : List Report} (hnodup : (reports.map (·.id)).Nodup)
    (hr : r ∈ reports) : (others r.id reports).length + 1 = reports.length := by
  induction reports with
  | nil => cases hr
  | cons q reports ih =>
    rw [List.map_cons, List.nodup_cons] at hnodup
    obtain ⟨hnot, hrest⟩ := hnodup
    unfold others at ih ⊢
    by_cases hq : q.id = r.id
    · have hkeep : reports.filter (·.id ≠ r.id) = reports := others_of_absent fun p hp heq =>
        hnot (List.mem_map.2 ⟨p, hp, heq.trans hq.symm⟩)
      rw [List.filter_cons_of_neg (by simpa using hq), hkeep, List.length_cons]
    · have hmem : r ∈ reports := by
        rcases List.mem_cons.1 hr with rfl | hmem
        · exact absurd rfl hq
        · exact hmem
      rw [List.filter_cons_of_pos (by simpa using hq), List.length_cons, ih hrest hmem,
        List.length_cons]

/-- A report that is asked for comes to the front and takes no other slot. -/
theorem size_get (h : History) (id : Text.Uuid) : (h.get id).2.size = h.size := by
  cases hf : h.find id with
  | none => rw [get_of_absent hf]
  | some r =>
    rw [get_of_present hf, size_record, length_others h.nodup (find_spec hf).1]
    exact Nat.min_eq_right h.length_le

end ToneRelay.Stream.History
