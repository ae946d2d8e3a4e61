import Mathlib.Data.List.Induction
import Mathlib.Data.List.Infix
import Mathlib.Order.Bounds.Basic
import ToneRelay.Proofs.Stream.Tally

/-!
# What counters tell of a history

Events come in any order, ends without a start and ends in any state among them. Counters that grow
tell how many events of their kind there have been, modulo the size of a word. The number of active
streams is cut off at zero, so that it depends on the order: it tells the greatest surplus of starts
over ends in what came last, whatever of the history that is (`isGreatest_active`).

`totals_recordAll` says so for every history.
-/

namespace ToneRelay.Stream

namespace Occurrence

/-- A stream ends. -/
def isEnd : Occurrence → Bool
  | .finished _ _ => true
  | _ => false

/-- A stream ends in a given state. -/
def endsIn (state : State) : Occurrence → Bool
  | .finished s _ => s == state
  | _ => false

/-- A stream ends in a state that is neither completed nor aborted. -/
def isFailure : Occurrence → Bool
  | .finished s _ => s != .completed && s != .aborted
  | _ => false

/-- The bytes that an event adds. -/
def bytes : Occurrence → Nat
  | .finished _ bytes => bytes
  | _ => 0

/-- The surplus of starts over ends. -/
def surplus (os : List Occurrence) : ℤ := os.count .started - os.countP isEnd

/-- The surpluses in what came last, from nothing up to the whole history. -/
def surpluses (os : List Occurrence) : Set ℤ := {d | ∃ last, last <:+ os ∧ d = surplus last}

@[simp] theorem surplus_nil : surplus [] = 0 := rfl

theorem surplus_append (os ps : List Occurrence) :
    surplus (os ++ ps) = surplus os + surplus ps := by
  simp only [surplus, List.count_append, List.countP_append]
  omega

/-- One more event takes every surplus with it, but for that of nothing. -/
theorem isGreatest_append {os : List Occurrence} {m : ℤ} (h : IsGreatest (surpluses os) m)
    (o : Occurrence) :
    IsGreatest (surpluses (os ++ [o])) (max 0 (m + surplus [o])) := by
  obtain ⟨⟨last, hlast, rfl⟩, hmax⟩ := h
  constructor
  · rcases le_total (surplus last + surplus [o]) 0 with hle | hle
    · exact ⟨[], List.nil_suffix, by simp [hle]⟩
    · refine ⟨last ++ [o], List.suffix_concat_iff.2 (.inr ⟨last, rfl, hlast⟩), ?_⟩
      rw [max_eq_right hle, surplus_append]
  · rintro d ⟨last', hlast', rfl⟩
    rcases List.suffix_concat_iff.1 hlast' with rfl | ⟨before, rfl, hbefore⟩
    · simp
    · have hle := hmax ⟨before, hbefore, rfl⟩
      rw [surplus_append]
      omega

/-- What came last has no more starts than the whole. -/
theorem le_count_of_isGreatest {os : List Occurrence} {m : ℤ} (h : IsGreatest (surpluses os) m) :
    m ≤ os.count .started := by
  obtain ⟨last, hlast, rfl⟩ := h.1
  have hle := hlast.sublist.count_le .started
  unfold surplus
  omega

end Occurrence

namespace Counters

open Occurrence (surplus surpluses)

/-- Counts events in order. -/
def recordAll (c : Counters) (os : List Occurrence) : Counters := os.foldl record c

@[simp] theorem recordAll_append (c : Counters) (os ps : List Occurrence) :
    c.recordAll (os ++ ps) = (c.recordAll os).recordAll ps := by simp [recordAll]

theorem recordAll_eq_run (c : Counters) (os : List Occurrence) :
    c.recordAll os = c.run (os.flatMap Occurrence.updates) := by
  induction os generalizing c with
  | nil => rfl
  | cons o os ih =>
    rw [List.flatMap_cons, run_append, ← ih]
    rfl

/-! ## Counters that grow -/

/-- Events of one kind are counted by their updates. -/
theorem countP_updates {p : Update → Bool} {q : Occurrence → Bool}
    (h : ∀ o, o.updates.countP p = (q o).toNat) (os : List Occurrence) :
    (os.flatMap Occurrence.updates).countP p = os.countP q := by
  induction os with
  | nil => rfl
  | cons o os ih =>
    cases hq : q o <;> simp [ih, h, hq, Nat.add_comm]

/-- Events other than ends are updates of their own kind. -/
theorem count_updates {u : Update} {o : Occurrence} (h : ∀ p, p.updates.count u = (p == o).toNat)
    (os : List Occurrence) : (os.flatMap Occurrence.updates).count u = os.count o :=
  countP_updates h os

theorem count_ended (state : State) (os : List Occurrence) :
    (os.flatMap Occurrence.updates).count (.ended state) =
      os.countP (Occurrence.endsIn state) := by
  refine countP_updates (fun o => ?_) os
  cases o with
  | finished s bytes => cases s <;> cases state <;> rfl
  | _ => rfl

theorem countP_failure (os : List Occurrence) :
    (os.flatMap Occurrence.updates).countP Update.isFailure = os.countP Occurrence.isFailure := by
  refine countP_updates (fun o => ?_) os
  cases o with
  | finished state bytes => cases state <;> rfl
  | _ => rfl

theorem sum_bytes_updates (os : List Occurrence) :
    ((os.flatMap Occurrence.updates).map Update.bytes).sum = (os.map Occurrence.bytes).sum := by
  induction os with
  | nil => rfl
  | cons o os ih =>
    cases o <;> simp [ih, Occurrence.updates, Update.bytes, Occurrence.bytes]

/-- A stream that ends does so completed, aborted or as a failure. -/
theorem countP_isEnd (os : List Occurrence) :
    os.countP (Occurrence.endsIn .completed) + os.countP (Occurrence.endsIn .aborted) +
      os.countP Occurrence.isFailure = os.countP Occurrence.isEnd := by
  induction os with
  | nil => rfl
  | cons o os ih =>
    simp only [List.countP_cons]
    cases o with
    | finished state bytes =>
      cases state <;> simp [Occurrence.endsIn, Occurrence.isFailure, Occurrence.isEnd] <;> omega
    | _ => simpa [Occurrence.endsIn, Occurrence.isFailure, Occurrence.isEnd] using ih

/-- What a counter says that has counted from zero. -/
theorem toNat_grown {c : UInt64} {n : Nat} (h : c = 0 + UInt64.ofNat n) :
    c.toNat = n % UInt64.size := by
  rw [h, UInt64.zero_add, UInt64.toNat_ofNat']

/-! ## The number of active streams -/

theorem active_record_finished (c : Counters) (state : State) (bytes : Nat) :
    (c.record (.finished state bytes)).active.toNat = c.active.toNat - 1 := by
  have hleave : (c.record (.finished state bytes)).active = (c.update .leave).active := by
    cases state <;> rfl
  rw [hleave]
  by_cases h : c.active = 0
  · simp [update, h]
  · have hpos : 0 < c.active.toNat := Nat.pos_of_ne_zero fun h0 => h (UInt64.toNat_inj.1 h0)
    have := update_leave_of_pos hpos
    omega

/-- An event moves the number of active streams by its own surplus, but not below zero. -/
theorem active_record {c : Counters} {o : Occurrence}
    (hroom : c.active.toNat + [o].count .started < UInt64.size) :
    ((c.record o).active.toNat : ℤ) = max 0 (c.active.toNat + surplus [o]) := by
  cases o with
  | started =>
    have hsurplus : surplus [.started] = 1 := rfl
    have hlt : c.active.toNat + 1 < UInt64.size := hroom
    have hadd : (c.record .started).active.toNat = (c.active.toNat + 1) % UInt64.size :=
      UInt64.toNat_add c.active 1
    rw [hadd, Nat.mod_eq_of_lt hlt, hsurplus]
    omega
  | finished state bytes =>
    have hsurplus : surplus [.finished state bytes] = -1 := rfl
    rw [active_record_finished, hsurplus]
    omega
  | _ =>
    change (c.active.toNat : ℤ) = _
    simp [surplus, Occurrence.isEnd]

/-- **The number of active streams** is the greatest surplus of starts over ends in what came last,
as long as a word can count the starts. -/
theorem isGreatest_active (os : List Occurrence) (hfew : os.count .started < UInt64.size) :
    IsGreatest (surpluses os) ((recordAll {} os).active.toNat : ℤ) := by
  induction os using List.reverseRecOn with
  | nil =>
    refine ⟨⟨[], List.nil_suffix, rfl⟩, ?_⟩
    rintro d ⟨last, hlast, rfl⟩
    rw [List.suffix_nil.1 hlast]
    rfl
  | append_singleton os o ih =>
    rw [List.count_append] at hfew
    have hos := ih (by omega)
    -- no more streams are active than have started, so that the word does not wrap
    have hle := Occurrence.le_count_of_isGreatest hos
    have hstep := active_record (c := recordAll {} os) (o := o) (by omega)
    change IsGreatest _ (((recordAll {} (os ++ [o])).active.toNat : ℕ) : ℤ)
    rw [recordAll_append]
    exact hstep ▸ Occurrence.isGreatest_append hos o

/-! ## All of them -/

/-- What counters tell of a history. -/
structure Totals (os : List Occurrence) (c : Counters) : Prop where
  requests : c.requests.toNat = os.count .request % UInt64.size
  rejected : c.rejected.toNat = os.count .rejected % UInt64.size
  spawnFailures : c.spawnFailures.toNat = os.count .spawnFailure % UInt64.size
  started : c.started.toNat = os.count .started % UInt64.size
  completed : c.completed.toNat = os.countP (Occurrence.endsIn .completed) % UInt64.size
  aborted : c.aborted.toNat = os.countP (Occurrence.endsIn .aborted) % UInt64.size
  failed : c.failed.toNat = os.countP Occurrence.isFailure % UInt64.size
  ended : (c.completed + c.aborted + c.failed).toNat =
    os.countP Occurrence.isEnd % UInt64.size
  bytesRelayed : c.bytesRelayed.toNat = (os.map Occurrence.bytes).sum % UInt64.size
  active : os.count .started < UInt64.size →
    IsGreatest {d : ℤ | ∃ last, last <:+ os ∧
      d = last.count .started - last.countP Occurrence.isEnd} c.active.toNat

/-- **Every history** is told by the counters that have counted it. -/
theorem totals_recordAll (os : List Occurrence) : Totals os (recordAll {} os) := by
  have hgrown := grown_run {} (os.flatMap Occurrence.updates)
  rw [← recordAll_eq_run] at hgrown
  refine ⟨?_, ?_, ?_, ?_, ?_, ?_, ?_, ?_, ?_, isGreatest_active os⟩
  · rw [toNat_grown hgrown.requests, count_updates (o := .request) fun p => by cases p <;> rfl]
  · rw [toNat_grown hgrown.rejected, count_updates (o := .rejected) fun p => by cases p <;> rfl]
  · rw [toNat_grown hgrown.spawnFailures,
      count_updates (o := .spawnFailure) fun p => by cases p <;> rfl]
  · rw [toNat_grown hgrown.started, count_updates (o := .started) fun p => by cases p <;> rfl]
  · rw [toNat_grown hgrown.completed, count_ended]
  · rw [toNat_grown hgrown.aborted, count_ended]
  · rw [toNat_grown hgrown.failed, countP_failure]
  · rw [UInt64.toNat_add, UInt64.toNat_add, toNat_grown hgrown.completed,
      toNat_grown hgrown.aborted, toNat_grown hgrown.failed, count_ended, count_ended,
      countP_failure, ← countP_isEnd]
    simp only [UInt64.size]
    omega
  · rw [toNat_grown hgrown.bytesRelayed, sum_bytes_updates]

end Counters

end ToneRelay.Stream
