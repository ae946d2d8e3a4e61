import Mathlib.Data.List.Perm.Subperm
import Mathlib.Data.List.Dedup
import ToneRelay.Proofs.Stream.Slots

/-!
# How long a report stays

A report is only forgotten for the sake of others that have been used after it. `find_run_record`: a
report is found as long as fewer other sessions have been used since its last use than the history
has room for.

While that is so, the reports in front of it are of sessions that have been used since (`Behind`),
and no session has two. Once it may have been forgotten, all that is known is that no other report
goes by its name (`Follows`); one call preserves both (`follows_perform`).
-/

namespace ToneRelay.Stream.History

open Text (Uuid)

variable {h : History} {r q : Report} {id : Uuid} {us : List Uuid}

/-! ## Uses -/

/-- The identifiers that a call uses: one that is recorded, or that is asked for and found. -/
def used (h : History) : Call → List Uuid
  | .record r => [r.id]
  | .get id => if (h.find id).isSome then [id] else []

/-- The identifiers used since the last use of `id`, where `us` have been before. -/
def since (h : History) (id : Uuid) (us : List Uuid) (c : Call) : List Uuid :=
  if id ∈ h.used c then [] else us ++ h.used c

/-- The identifiers used since the last use of `id` after calls. -/
def sinceAll (h : History) (id : Uuid) (us : List Uuid) : List Call → List Uuid
  | [] => us
  | c :: calls => (h.perform c).2.sinceAll id (h.since id us c) calls

/-- The number of other sessions used since the last use of `id`. -/
def rivals (h : History) (id : Uuid) (calls : List Call) : Nat :=
  (h.sinceAll id [] calls).dedup.length

theorem sinceAll_append (h : History) (id : Uuid) (us : List Uuid) (cs ds : List Call) :
    h.sinceAll id us (cs ++ ds) = (h.run cs).sinceAll id (h.sinceAll id us cs) ds := by
  induction cs generalizing h us with
  | nil => rfl
  | cons c cs ih => exact ih _ _

/-- With the record of a report, its count of rivals begins anew. -/
theorem rivals_record (h : History) (r : Report) (cs ds : List Call) :
    h.rivals r.id (cs ++ .record r :: ds) = ((h.run cs).record r).rivals r.id ds := by
  have hsince : (h.run cs).since r.id (h.sinceAll r.id [] cs) (.record r) = [] :=
    if_pos List.mem_cons_self
  unfold rivals
  rw [sinceAll_append]
  show (((h.run cs).record r).sinceAll r.id ((h.run cs).since r.id _ _) ds).dedup.length = _
  rw [hsince]

/-! ## Reports in front -/

/-- A report is there, behind those of other sessions that have been used. -/
def Behind (us : List Uuid) (r : Report) (h : History) : Prop :=
  ∃ before after, h.reports = before ++ r :: after ∧ ∀ q ∈ before, q.id ∈ us ∧ q.id ≠ r.id

/-- A report that is recorded comes to the front. -/
theorem behind_record_self (h : History) (r : Report) : Behind [] r (h.record r) := by
  refine ⟨[], (others r.id h.reports).take (h.capacity - 1), ?_, by simp⟩
  rw [reports_record, List.take_cons h.capacity_pos, List.nil_append]

theorem others_append (id : Uuid) (before after : List Report) (hr : r.id ≠ id) :
    others id (before ++ r :: after) = others id before ++ r :: others id after := by
  unfold others
  rw [List.filter_append, List.filter_cons_of_pos (by simpa using hr)]

/-- A report of another session is put in front of it. -/
theorem behind_record_other (hb : Behind us r h) (hq : q.id ≠ r.id)
    (hfew : (us ++ [q.id]).dedup.length < h.capacity) :
    Behind (us ++ [q.id]) r (h.record q) := by
  obtain ⟨before, after, hreports, hbefore⟩ := hb
  have hothers : ∀ p ∈ others q.id before, p.id ∈ us ++ [q.id] ∧ p.id ≠ r.id := by
    intro p hp
    obtain ⟨hused, hne⟩ := hbefore p (mem_others hp)
    exact ⟨List.mem_append_left _ hused, hne⟩
  have hall : ∀ p ∈ q :: others q.id before, p.id ∈ us ++ [q.id] ∧ p.id ≠ r.id :=
    List.forall_mem_cons.2 ⟨⟨List.mem_append_right _ List.mem_cons_self, hq⟩, hothers⟩
  have hfront : (h.record q).reports =
      (q :: others q.id before ++ r :: others q.id after).take h.capacity := by
    rw [reports_record, hreports, others_append _ _ _ hq.symm, List.cons_append]
  have hnodup : ((q :: others q.id before).map (·.id)).Nodup := by
    have hids : ((others q.id before).map (·.id)).Sublist (h.reports.map (·.id)) := by
      rw [hreports, List.map_append]
      exact (List.filter_sublist.map _).trans (List.sublist_append_left _ _)
    rw [List.map_cons, List.nodup_cons]
    refine ⟨?_, h.nodup.sublist hids⟩
    intro hmem
    obtain ⟨p, hp, hpq⟩ := List.mem_map.1 hmem
    exact absurd hpq (by simpa using (List.mem_filter.1 hp).2)
  have hlength : (q :: others q.id before).length < h.capacity := by
    have hle : ((q :: others q.id before).map (·.id)).length ≤ (us ++ [q.id]).dedup.length := by
      refine (hnodup.subperm ?_).length_le
      intro v hv
      obtain ⟨p, hp, rfl⟩ := List.mem_map.1 hv
      exact List.mem_dedup.2 (hall p hp).1
    rw [List.length_map] at hle
    exact Nat.lt_of_le_of_lt hle hfew
  obtain ⟨n, hn⟩ := Nat.exists_eq_add_of_lt hlength
  refine ⟨q :: others q.id before, (others q.id after).take n, ?_, hall⟩
  rw [hfront, hn, Nat.add_assoc, List.take_length_add_append, List.take_succ_cons]

theorem Behind.find (hb : Behind us r h) : h.find r.id = some r := by
  obtain ⟨before, after, hreports, hbefore⟩ := hb
  have hnone : before.find? (·.id = r.id) = none := by
    rw [List.find?_eq_none]
    intro q hq
    simpa using (hbefore q hq).2
  unfold History.find
  rw [hreports, List.find?_append, hnone, Option.none_or, List.find?_cons_of_pos (by simp)]

/-! ## Calls -/

/-- What is known of a report once it has been recorded. -/
structure Follows (us : List Uuid) (r : Report) (h : History) : Prop where
  only : ∀ q ∈ h.reports, q.id = r.id → q = r
  behind : us.dedup.length < h.capacity → Behind us r h

theorem follows_record_self (h : History) (r : Report) : Follows [] r (h.record r) where
  only q hq hid := by
    have hmem : q ∈ r :: others r.id h.reports := List.mem_of_mem_take hq
    rcases List.mem_cons.1 hmem with rfl | hmem
    · rfl
    · exact absurd hid (by simpa using (List.mem_filter.1 hmem).2)
  behind _ := behind_record_self h r

theorem length_dedup_le_of_subset {vs : List Uuid} (hsub : us ⊆ vs) :
    us.dedup.length ≤ vs.dedup.length := by
  refine ((List.nodup_dedup _).subperm ?_).length_le
  intro v hv
  exact List.mem_dedup.2 (hsub (List.mem_dedup.1 hv))

theorem follows_record_other (hf : Follows us r h) (hq : q.id ≠ r.id) :
    Follows (us ++ [q.id]) r (h.record q) where
  only p hp hid := by
    rcases mem_record hp with rfl | hp
    · exact absurd hid hq
    · exact hf.only p hp hid
  behind hfew := by
    have hbefore : us.dedup.length < h.capacity :=
      Nat.lt_of_le_of_lt (length_dedup_le_of_subset (List.subset_append_left _ _)) hfew
    exact behind_record_other (hf.behind hbefore) hq hfew

/-- **One call.** No report is forgotten while there are few rivals. -/
theorem follows_perform {c : Call} (hf : Follows us r h)
    (hnot : ∀ q, c = .record q → q.id ≠ r.id) :
    Follows (h.since r.id us c) r (h.perform c).2 := by
  cases c with
  | record q =>
    have hne := hnot q rfl
    have hsince : h.since r.id us (.record q) = us ++ [q.id] :=
      if_neg (by simpa [used] using hne.symm)
    rw [hsince]
    exact follows_record_other hf hne
  | get id =>
    cases hfind : h.find id with
    | none => simpa [since, used, hfind, get_of_absent hfind] using hf
    | some q =>
      obtain ⟨hq, rfl⟩ := find_spec hfind
      have hused : h.used (.get q.id) = [q.id] := if_pos (by simp [hfind])
      rw [perform_get, get_of_present hfind, since, hused]
      by_cases hqr : r.id = q.id
      · rw [if_pos (List.mem_singleton.2 hqr), hf.only q hq hqr.symm]
        exact follows_record_self h r
      · rw [if_neg (mt List.mem_singleton.1 hqr)]
        exact follows_record_other hf fun hid => hqr hid.symm

/-- **Calls.** -/
theorem follows_run {calls : List Call} (hf : Follows us r h)
    (hnot : ∀ q, .record q ∈ calls → q.id ≠ r.id) :
    Follows (h.sinceAll r.id us calls) r (h.run calls) := by
  induction calls generalizing h us with
  | nil => exact hf
  | cons c calls ih =>
    exact ih (follows_perform hf fun q hc => hnot q (hc ▸ List.mem_cons_self)) fun q hq =>
      hnot q (List.mem_cons_of_mem _ hq)

/-- **How long a report stays.** It is found as long as there is room for it and for the reports of
all other sessions that have been used since its last use. -/
theorem find_run_record {cs ds : List Call} (hnot : ∀ q, .record q ∈ ds → q.id ≠ r.id)
    (hfew : h.rivals r.id (cs ++ .record r :: ds) < h.capacity) :
    (h.run (cs ++ .record r :: ds)).find r.id = some r := by
  have hrun : h.run (cs ++ .record r :: ds) = ((h.run cs).record r).run ds := by simp
  rw [rivals_record, ← h.capacity_run (cs ++ .record r :: ds)] at hfew
  rw [hrun] at hfew ⊢
  exact ((follows_run (follows_record_self (h.run cs) r) hnot).behind hfew).find

end ToneRelay.Stream.History
