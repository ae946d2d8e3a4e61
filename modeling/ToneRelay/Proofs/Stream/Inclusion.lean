import Mathlib.Data.List.Nodup
import ToneRelay.Proofs.Stream.Slots

/-!
# More room, no fewer reports

Two histories that differ in the room they have take the same calls. `found_roomier`: what the
smaller one finds the roomier one finds too, although the two come to hold their reports in
different orders, since a report that only the roomier one still has is put in front there alone.

The reports of the smaller history are found among those of the roomier one in the same order, and
there are fewer only if the smaller history is full (`Within`). A record takes at least as many from
the end of the smaller list as from the end of the other (`take_sublist_take`), so it preserves this
(`within_record`), and so does a question, whichever of the two can answer it (`within_get`).
-/

namespace ToneRelay.Stream.History

open Text (Uuid)

variable {h k : History} {r : Report} {id : Uuid}

/-! ## Reports in place -/

/-- The report of a session is the only one that goes by its name. -/
theorem find_of_mem (hr : r ∈ h.reports) : h.find r.id = some r := by
  obtain ⟨q, hq⟩ : ∃ q, h.find r.id = some q := by
    rw [← Option.isSome_iff_exists]
    exact List.find?_isSome.2 ⟨r, hr, by simp⟩
  obtain ⟨hmem, hid⟩ := find_spec hq
  rw [hq, List.inj_on_of_nodup_map h.nodup hmem hr hid]

theorem ne_id_of_absent (ha : h.find id = none) : ∀ q ∈ h.reports, q.id ≠ id := by
  intro q hq
  simpa using List.find?_eq_none.1 ha q hq

/-- A report that is there already comes to the front, and none is forgotten. -/
theorem reports_record_again (hr : r ∈ h.reports) :
    (h.record r).reports = r :: others r.id h.reports := by
  have hlength : (r :: others r.id h.reports).length ≤ h.capacity := by
    rw [List.length_cons, length_others h.nodup hr]
    exact h.length_le
  exact List.take_of_length_le hlength

/-- To put a report in front of the others only changes their order. -/
theorem perm_others (hr : r ∈ h.reports) : (r :: others r.id h.reports).Perm h.reports := by
  have hnodup : (r :: others r.id h.reports).Nodup := by
    rw [← reports_record_again hr]
    exact (h.record r).nodup.of_map
  rw [List.perm_ext_iff_of_nodup hnodup h.nodup.of_map]
  intro q
  rw [List.mem_cons]
  constructor
  · rintro (rfl | hq)
    · exact hr
    · exact mem_others hq
  · intro hq
    by_cases hid : q.id = r.id
    · exact .inl (List.inj_on_of_nodup_map h.nodup hq hr hid)
    · exact .inr (List.mem_filter.2 ⟨hq, by simpa using hid⟩)

/-- Nothing but its own report gives way to a report, as long as there is room. -/
theorem size_le_length_others (h : History) (id : Uuid) :
    h.size ≤ (others id h.reports).length + 1 := by
  cases hfind : h.find id with
  | none =>
    rw [others_of_absent (ne_id_of_absent hfind)]
    exact Nat.le_succ _
  | some r =>
    obtain ⟨hr, rfl⟩ := find_spec hfind
    exact Nat.le_of_eq (length_others h.nodup hr).symm

/-- A list stays part of another one if it loses no fewer items at its end. -/
theorem take_sublist_take {α : Type} {as bs : List α} {m n : Nat} (hsub : as.Sublist bs)
    (hlost : bs.length - n ≤ as.length - m) : (as.take m).Sublist (bs.take n) := by
  have hdrop : (as.reverse.drop (as.length - m)).Sublist (bs.reverse.drop (bs.length - n)) :=
    (hsub.reverse.drop _).trans (List.drop_sublist_drop_left _ hlost)
  rw [← List.reverse_take, ← List.reverse_take] at hdrop
  exact List.reverse_sublist.1 hdrop

/-! ## Two histories -/

/-- A history, and a roomier one that has taken the same calls. -/
structure Within (h k : History) : Prop where
  capacity_le : h.capacity ≤ k.capacity
  sublist : h.reports.Sublist k.reports
  /-- Only a full history has forgotten a report that the other one has. -/
  same : h.size < h.capacity → h.reports = k.reports

theorem within_empty {small large : Nat} (hle : small ≤ large) :
    Within (empty small) (empty large) where
  capacity_le := by
    show max small 1 ≤ max large 1
    omega
  sublist := .slnil
  same _ := rfl

/-- What the smaller history finds, the roomier one finds. -/
theorem Within.find (hw : Within h k) (hfind : h.find id = some r) : k.find id = some r := by
  obtain ⟨hr, rfl⟩ := find_spec hfind
  exact find_of_mem (hw.sublist.subset hr)

/-- A record costs the smaller history no fewer reports than the roomier one. -/
theorem Within.lost (hw : Within h k) (id : Uuid) :
    (others id k.reports).length + 1 - k.capacity ≤
      (others id h.reports).length + 1 - h.capacity := by
  by_cases hfull : h.size < h.capacity
  · rw [hw.same hfull]
    exact Nat.sub_le_sub_left hw.capacity_le _
  · have hk : k.reports.length ≤ k.capacity := k.length_le
    cases hfind : h.find id with
    | none =>
      -- the full history loses its last report; the other one loses one at most
      rw [others_of_absent (ne_id_of_absent hfind)]
      have hothers : (others id k.reports).length ≤ k.reports.length := List.length_filter_le _ _
      unfold size at hfull
      omega
    | some r =>
      obtain ⟨hr, rfl⟩ := find_spec (hw.find hfind)
      have hothers := length_others k.nodup hr
      omega

theorem within_record (hw : Within h k) (r : Report) : Within (h.record r) (k.record r) where
  capacity_le := hw.capacity_le
  sublist := take_sublist_take ((hw.sublist.filter _).cons_cons r) (hw.lost r.id)
  same hroom := by
    have hsize : (h.record r).size = min h.capacity ((others r.id h.reports).length + 1) :=
      size_record h r
    have hbefore : h.size ≤ (others r.id h.reports).length + 1 := size_le_length_others h r.id
    have hle : h.capacity ≤ k.capacity := hw.capacity_le
    change (h.record r).size < h.capacity at hroom
    have hreports : h.reports = k.reports := hw.same (by omega)
    rw [reports_record, reports_record, ← hreports,
      List.take_of_length_le (by rw [List.length_cons]; omega),
      List.take_of_length_le (by rw [List.length_cons]; omega)]

/-- A report that only the roomier history has comes to the front there. -/
theorem within_ahead (hw : Within h k) (ha : h.find r.id = none) (hr : r ∈ k.reports) :
    Within h (k.record r) where
  capacity_le := hw.capacity_le
  sublist := by
    have hothers : (others r.id h.reports).Sublist (others r.id k.reports) := hw.sublist.filter _
    rw [others_of_absent (ne_id_of_absent ha)] at hothers
    rw [reports_record_again hr]
    exact hothers.cons r
  same hroom := by
    rw [← hw.same hroom] at hr
    exact absurd rfl (ne_id_of_absent ha r hr)

theorem within_get (hw : Within h k) (id : Uuid) : Within (h.get id).2 (k.get id).2 := by
  cases hfind : h.find id with
  | some r =>
    rw [get_of_present hfind, get_of_present (hw.find hfind)]
    exact within_record hw r
  | none =>
    rw [get_of_absent hfind]
    cases hahead : k.find id with
    | none => rwa [get_of_absent hahead]
    | some r =>
      obtain ⟨hr, rfl⟩ := find_spec hahead
      rw [get_of_present hahead]
      exact within_ahead hw hfind hr

/-- **One call.** -/
theorem within_perform (hw : Within h k) (c : Call) : Within (h.perform c).2 (k.perform c).2 := by
  cases c with
  | record r => exact within_record hw r
  | get id => exact within_get hw id

/-- **Calls.** -/
theorem within_run (hw : Within h k) (calls : List Call) : Within (h.run calls) (k.run calls) := by
  induction calls generalizing h k with
  | nil => exact hw
  | cons c calls ih => exact ih (within_perform hw c)

/-- **More room never forgets more.** After any calls, a question that the smaller history answers
is answered the same by the roomier one. One that only the roomier one answers leaves the smaller
one as it is and changes the order of the other's reports and nothing else. -/
theorem found_roomier {small large : Nat} (hle : small ≤ large) (calls : List Call) (id : Uuid) :
    let h := (empty small).run calls
    let k := (empty large).run calls
    (∀ r, (h.get id).1 = some r → (k.get id).1 = some r) ∧
      ∀ r, (h.get id).1 = none → (k.get id).1 = some r →
        (h.get id).2 = h ∧ (k.get id).2.reports = r :: others id k.reports ∧
          (k.get id).2.reports.Perm k.reports := by
  intro h k
  have hw : Within h k := within_run (within_empty hle) calls
  rw [get_fst, get_fst]
  refine ⟨fun r => hw.find, fun r hnone hfound => ?_⟩
  obtain ⟨hr, rfl⟩ := find_spec hfound
  rw [get_of_absent hnone, get_of_present hfound, reports_record_again hr]
  exact ⟨rfl, rfl, perm_others hr⟩

/-- A session that has failed. -/
def sampleReport (n : Nat) : Report :=
  ((Session.receive (.ofNat n) ⟨"2024-01-01T00:00:00Z"⟩).perform ⟨"2024-01-01T00:00:01Z"⟩
    (.fail n "late")).1.report

/-- The session 0 is asked for once only the roomier history still has it, which puts it in front of
the session 2 there; the session 2 is then found in both, and the session 0 in the roomier one. -/
theorem found_roomier_three :
    let calls : List Call := [.record (sampleReport 0), .record (sampleReport 1),
      .record (sampleReport 2), .get (.ofNat 0), .record (sampleReport 3)]
    let h := (empty 2).run calls
    let k := (empty 3).run calls
    2 ≤ 3 ∧ (h.get (.ofNat 2)).1 = some (sampleReport 2) ∧
      (k.get (.ofNat 2)).1 = some (sampleReport 2) ∧
      (h.get (.ofNat 0)).1 = none ∧ (k.get (.ofNat 0)).1 = some (sampleReport 0) ∧
      (h.get (.ofNat 0)).2 = h ∧
      (k.get (.ofNat 0)).2.reports = sampleReport 0 :: others (.ofNat 0) k.reports ∧
      (k.get (.ofNat 0)).2.reports.Perm k.reports := by
  intro calls h k
  have hsmall : (h.get (.ofNat 2)).1 = some (sampleReport 2) := rfl
  have habsent : (h.get (.ofNat 0)).1 = none := rfl
  have hfound : (k.get (.ofNat 0)).1 = some (sampleReport 0) := rfl
  exact ⟨by decide, hsmall, (found_roomier (by decide : 2 ≤ 3) calls (.ofNat 2)).1 _ hsmall,
    habsent, hfound, (found_roomier (by decide : 2 ≤ 3) calls (.ofNat 0)).2 _ habsent hfound⟩

end ToneRelay.Stream.History
