import Mathlib.Data.List.TakeWhile
import ToneRelay.Proofs.Stream.Recency

/-!
# What a history forgets

What a history answers is known from the calls alone. `get_run`: a report is found just when its
session has been recorded and fewer other sessions have been used since its last use than there is
room for, and it is the last one recorded. There are as many reports as sessions have been recorded,
up to the room there is. All holders of a history call the same one, so that their calls come in one
order.

The identifiers of the reports are the first ones in the `order` of the last uses (`Exact`), because
a report that is put in front of others leaves their order as it is (`take_filter_take`).
-/

namespace ToneRelay.Stream.History

open Text (Uuid)

variable {h : History} {r : Report} {id : Uuid} {us : List Uuid} {rs : List Report}

/-! ## Uses -/

/-- The number of other sessions used since the last use of `id`, where the latest use comes
first. -/
def passed (id : Uuid) (us : List Uuid) : Nat := (us.takeWhile (· ≠ id)).dedup.length

/-- The uses after a call: to record a report is a use, and to ask for one that is still to be
found. -/
def note (room : Nat) (us : List Uuid) : Call → List Uuid
  | .record r => r.id :: us
  | .get id => if id ∈ us ∧ passed id us < room then id :: us else us

/-- The uses of sessions in calls, the latest first. -/
def uses (room : Nat) (calls : List Call) : List Uuid := calls.foldl (note room) []

/-- The reports that are recorded in calls. -/
def recordings (calls : List Call) : List Report :=
  calls.filterMap fun
    | .record r => some r
    | .get _ => none

/-! ## The order of the last uses -/

/-- Each identifier once, that of the latest use first. -/
def order (us : List Uuid) : List Uuid := us.foldr (fun id rest => id :: rest.filter (· ≠ id)) []

theorem order_cons (id : Uuid) (us : List Uuid) :
    order (id :: us) = id :: (order us).filter (· ≠ id) := rfl

theorem mem_order : id ∈ order us ↔ id ∈ us := by
  induction us with
  | nil => exact Iff.rfl
  | cons v us ih =>
    rw [order_cons, List.mem_cons, List.mem_cons, List.mem_filter, ih]
    by_cases hv : id = v <;> simp [hv]

theorem nodup_order (us : List Uuid) : (order us).Nodup := by
  induction us with
  | nil => exact List.nodup_nil
  | cons v us ih =>
    rw [order_cons, List.nodup_cons]
    exact ⟨by simp, ih.filter _⟩

theorem length_order (us : List Uuid) : (order us).length = us.dedup.length := by
  have hperm : (order us).Perm us.dedup := by
    rw [List.perm_ext_iff_of_nodup (nodup_order us) us.nodup_dedup]
    intro v
    rw [mem_order, List.mem_dedup]
  exact hperm.length_eq

/-- In front of an identifier are those that have been used since. -/
theorem order_split (hid : id ∈ us) :
    ∃ rest, order us = order (us.takeWhile (· ≠ id)) ++ id :: rest := by
  induction us with
  | nil => cases hid
  | cons v us ih =>
    rw [order_cons]
    by_cases hv : v = id
    · subst hv
      refine ⟨(order us).filter (· ≠ v), ?_⟩
      rw [List.takeWhile_cons_of_neg (by simp)]
      rfl
    · obtain ⟨rest, hrest⟩ := ih (List.mem_of_ne_of_mem (Ne.symm hv) hid)
      refine ⟨rest.filter (· ≠ v), ?_⟩
      rw [hrest, List.takeWhile_cons_of_pos (by simpa using hv), order_cons, List.filter_append,
        List.filter_cons_of_pos (by simpa using Ne.symm hv), List.cons_append]

/-- The identifiers that have their place among the first `room`. -/
theorem mem_take_order {room : Nat} :
    id ∈ (order us).take room ↔ id ∈ us ∧ passed id us < room := by
  have hlength : (order (us.takeWhile (· ≠ id))).length = passed id us := length_order _
  constructor
  · intro hmem
    have hid : id ∈ us := mem_order.1 (List.mem_of_mem_take hmem)
    obtain ⟨rest, hrest⟩ := order_split hid
    refine ⟨hid, Nat.lt_of_not_le fun hle => ?_⟩
    rw [hrest, List.take_append_of_le_length (hlength ▸ hle)] at hmem
    have hbefore := List.mem_takeWhile_imp (mem_order.1 (List.mem_of_mem_take hmem))
    simp at hbefore
  · rintro ⟨hid, hlt⟩
    obtain ⟨rest, hrest⟩ := order_split hid
    obtain ⟨n, hn⟩ := Nat.exists_eq_add_of_lt hlt
    rw [hrest, hn, ← hlength, Nat.add_assoc, List.take_length_add_append, List.take_succ_cons]
    exact List.mem_append_right _ List.mem_cons_self

/-- To take one away of the first `n + 1` leaves the first `n` of the others. -/
theorem take_filter_take {l : List Uuid} (hl : l.Nodup) (n : Nat) :
    ((l.take (n + 1)).filter (· ≠ id)).take n = (l.filter (· ≠ id)).take n := by
  induction l generalizing n with
  | nil => rfl
  | cons v l ih =>
    obtain ⟨hv, hl⟩ := List.nodup_cons.1 hl
    rw [List.take_succ_cons]
    by_cases hid : v = id
    · subst hid
      have hkeep : ∀ w ∈ l, decide (w ≠ v) = true := by
        intro w hw
        simpa using fun heq : w = v => hv (heq ▸ hw)
      rw [List.filter_cons_of_neg (by simp), List.filter_cons_of_neg (by simp),
        List.filter_eq_self.2 hkeep,
        List.filter_eq_self.2 fun w hw => hkeep w (List.mem_of_mem_take hw),
        List.take_take, Nat.min_self]
    · rw [List.filter_cons_of_pos (by simpa using hid),
        List.filter_cons_of_pos (by simpa using hid)]
      cases n with
      | zero => rfl
      | succ n => rw [List.take_succ_cons, List.take_succ_cons, ih hl]

/-! ## Calls -/

/-- A history holds the reports that have been used last, each as it was last recorded. -/
structure Exact (us : List Uuid) (rs : List Report) (h : History) : Prop where
  ids : h.reports.map (·.id) = (order us).take h.capacity
  latest : ∀ r ∈ h.reports, rs.reverse.find? (·.id = r.id) = some r
  recorded : ∀ id, id ∈ us ↔ id ∈ rs.map (·.id)

theorem exact_empty (capacity : Nat) : Exact [] [] (empty capacity) :=
  ⟨List.take_nil.symm, fun _ hr => absurd hr List.not_mem_nil, fun _ => Iff.rfl⟩

theorem ids_record (he : Exact us rs h) (r : Report) :
    (h.record r).reports.map (·.id) = (order (r.id :: us)).take h.capacity := by
  obtain ⟨n, hn⟩ : ∃ n, h.capacity = n + 1 := Nat.exists_eq_add_one.2 h.capacity_pos
  have hothers : (others r.id h.reports).map (·.id) =
      ((order us).take (n + 1)).filter (· ≠ r.id) := by
    rw [← hn, ← he.ids, List.filter_map]
    rfl
  rw [reports_record, hn, List.take_succ_cons, List.map_cons, List.map_take, hothers, order_cons,
    List.take_succ_cons, take_filter_take (nodup_order us)]

theorem exact_record (he : Exact us rs h) (r : Report) :
    Exact (r.id :: us) (rs ++ [r]) (h.record r) where
  ids := ids_record he r
  latest q hq := by
    rw [List.reverse_append, List.reverse_singleton, List.singleton_append]
    by_cases hid : r.id = q.id
    · have hmem : q ∈ r :: others r.id h.reports := List.mem_of_mem_take hq
      rcases List.mem_cons.1 hmem with rfl | hmem
      · exact List.find?_cons_of_pos (by simp)
      · exact absurd hid.symm (by simpa using (List.mem_filter.1 hmem).2)
    · rw [List.find?_cons_of_neg (by simpa using hid)]
      rcases mem_record hq with rfl | hq
      · exact absurd rfl hid
      · exact he.latest q hq
  recorded id := by
    rw [List.map_append, List.mem_append, List.mem_cons, he.recorded, List.map_singleton,
      List.mem_singleton]
    exact Or.comm

/-- A report that is asked for and found comes to the front. -/
theorem exact_again (he : Exact us rs h) (hr : r ∈ h.reports) :
    Exact (r.id :: us) rs (h.record r) where
  ids := ids_record he r
  latest q hq := by
    rcases mem_record hq with rfl | hq
    · exact he.latest q hr
    · exact he.latest q hq
  recorded id := by
    have hused : r.id ∈ us := mem_order.1 (List.mem_of_mem_take (he.ids ▸ List.mem_map_of_mem hr))
    rw [List.mem_cons, he.recorded]
    exact or_iff_right_of_imp fun heq => heq ▸ (he.recorded r.id).1 hused

/-- **What is found.** -/
theorem Exact.find_iff (he : Exact us rs h) :
    h.find id = some r ↔ rs.reverse.find? (·.id = id) = some r ∧ passed id us < h.capacity := by
  constructor
  · intro hfind
    obtain ⟨hr, rfl⟩ := find_spec hfind
    have hplace := mem_take_order.1 (he.ids ▸ List.mem_map_of_mem hr)
    exact ⟨he.latest r hr, hplace.2⟩
  · rintro ⟨hlatest, hplace⟩
    have hrecorded : id ∈ rs.map (·.id) := by
      refine List.mem_map.2 ⟨r, List.mem_reverse.1 (List.mem_of_find?_eq_some hlatest), ?_⟩
      simpa using List.find?_some hlatest
    have hheld := mem_take_order.2 ⟨(he.recorded id).2 hrecorded, hplace⟩
    rw [← he.ids] at hheld
    obtain ⟨q, hq, hqid⟩ := List.mem_map.1 hheld
    obtain ⟨p, hp⟩ : ∃ p, h.find id = some p := by
      rw [← Option.isSome_iff_exists]
      exact List.find?_isSome.2 ⟨q, hq, by simpa using hqid⟩
    obtain ⟨hmem, rfl⟩ := find_spec hp
    rw [hp, ← he.latest p hmem, hlatest]

/-- A session is found as long as its last use is recent enough. -/
theorem Exact.isSome_find (he : Exact us rs h) :
    (h.find id).isSome ↔ id ∈ us ∧ passed id us < h.capacity := by
  rw [← mem_take_order, ← he.ids]
  unfold find
  rw [List.find?_isSome, List.mem_map]
  simp

/-- What a call uses is what it is noted to use. -/
theorem Exact.note_eq (he : Exact us rs h) (c : Call) : note h.capacity us c = h.used c ++ us := by
  cases c with
  | record r => rfl
  | get id =>
    unfold note used
    simp only [he.isSome_find]
    split <;> rfl

/-- **One call.** -/
theorem exact_perform (he : Exact us rs h) (c : Call) :
    Exact (note h.capacity us c) (rs ++ recordings [c]) (h.perform c).2 := by
  rw [he.note_eq]
  cases c with
  | record r => exact exact_record he r
  | get id =>
    have hrecordings : recordings [.get id] = [] := rfl
    rw [hrecordings, List.append_nil, perform_get]
    cases hfind : h.find id with
    | none => simpa [used, hfind, get_of_absent hfind] using he
    | some r =>
      obtain ⟨hr, rfl⟩ := find_spec hfind
      simpa [used, hfind, get_of_present hfind] using exact_again he hr

/-- **Calls.** -/
theorem exact_run (he : Exact us rs h) (calls : List Call) :
    Exact (calls.foldl (note h.capacity) us) (rs ++ recordings calls) (h.run calls) := by
  induction calls generalizing h us rs with
  | nil => exact (List.append_nil rs).symm ▸ he
  | cons c calls ih =>
    have hrest := ih (exact_perform he c)
    rw [capacity_perform, List.append_assoc] at hrest
    have hrecordings : recordings [c] ++ recordings calls = recordings (c :: calls) := by
      unfold recordings
      rw [← List.filterMap_append, List.singleton_append]
    rw [hrecordings] at hrest
    exact hrest

theorem Exact.size_eq (he : Exact us rs h) :
    h.size = min h.capacity (rs.map (·.id)).dedup.length := by
  have hperm : (order us).Perm (rs.map (·.id)).dedup := by
    rw [List.perm_ext_iff_of_nodup (nodup_order us) (List.nodup_dedup _)]
    intro v
    rw [mem_order, he.recorded, List.mem_dedup]
  unfold size
  rw [← List.length_map (·.id), he.ids, List.length_take, hperm.length_eq]

/-- **What a history remembers**, whatever has been recorded and asked for. A use is a record, or a
question that is answered. -/
theorem get_run (capacity : Nat) (calls : List Call) :
    let h := (empty capacity).run calls
    let us := uses (max capacity 1) calls
    (∀ c, uses (max capacity 1) (calls ++ [c]) = h.used c ++ us) ∧
      (∀ id r, (h.get id).1 = some r ↔
        (recordings calls).reverse.find? (·.id = id) = some r ∧ passed id us < max capacity 1) ∧
      (∀ id, (h.get id).1 = none → (h.get id).2 = h) ∧
      h.size = min (max capacity 1) ((recordings calls).map (·.id)).dedup.length := by
  intro h us
  have he : Exact us (recordings calls) h := exact_run (exact_empty capacity) calls
  have hcapacity : h.capacity = max capacity 1 := capacity_run (empty capacity) calls
  refine ⟨fun c => ?_, fun id r => ?_, fun id hnone => ?_, ?_⟩
  · rw [← he.note_eq, hcapacity]
    exact List.foldl_append
  · rw [get_fst, he.find_iff, hcapacity]
  · rw [get_fst] at hnone
    rw [get_of_absent hnone]
  · rw [he.size_eq, hcapacity]

end ToneRelay.Stream.History
