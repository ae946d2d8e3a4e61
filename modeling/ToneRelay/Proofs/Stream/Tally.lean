import Mathlib.Algebra.Ring.Nat
import ToneRelay.Stream.Counters

/-!
# What counters tell

Updates come in any order. Every counter but one tells how many updates of its kind there have been,
modulo the size of a word (`grown_run`). The number of active streams never goes below zero, so that
an update can be lost on it; it tells the difference as long as no more streams have left than have
entered (`active_update`).
-/

namespace ToneRelay.Stream

namespace Update

/-- A stream is counted as failed. -/
def isFailure : Update → Bool
  | .ended .completed | .ended .aborted => false
  | .ended _ => true
  | _ => false

/-- The bytes that an update adds. -/
def bytes : Update → Nat
  | .relayed bytes => bytes
  | _ => 0

end Update

namespace Counters

/-- Counters have grown by the numbers of updates. -/
structure Grown (us : List Update) (c d : Counters) : Prop where
  requests : d.requests = c.requests + UInt64.ofNat (us.count .request)
  rejected : d.rejected = c.rejected + UInt64.ofNat (us.count .rejected)
  spawnFailures : d.spawnFailures = c.spawnFailures + UInt64.ofNat (us.count .spawnFailure)
  started : d.started = c.started + UInt64.ofNat (us.count .started)
  completed : d.completed = c.completed + UInt64.ofNat (us.count (.ended .completed))
  aborted : d.aborted = c.aborted + UInt64.ofNat (us.count (.ended .aborted))
  failed : d.failed = c.failed + UInt64.ofNat (us.countP Update.isFailure)
  bytesRelayed : d.bytesRelayed = c.bytesRelayed + UInt64.ofNat (us.map Update.bytes).sum

theorem grown_nil (c : Counters) : Grown [] c c := by
  constructor <;> exact (UInt64.add_zero _).symm

/-- The order of the updates does not matter. -/
theorem Grown.perm {us vs : List Update} {c d : Counters} (h : Grown us c d) (hp : us.Perm vs) :
    Grown vs c d where
  requests := hp.count_eq _ ▸ h.requests
  rejected := hp.count_eq _ ▸ h.rejected
  spawnFailures := hp.count_eq _ ▸ h.spawnFailures
  started := hp.count_eq _ ▸ h.started
  completed := hp.count_eq _ ▸ h.completed
  aborted := hp.count_eq _ ▸ h.aborted
  failed := hp.countP_eq _ ▸ h.failed
  bytesRelayed := (hp.map Update.bytes).sum_nat ▸ h.bytesRelayed

/-- Counters that have grown by the same numbers differ in that of active streams at most. -/
theorem Grown.eq_of_active {us : List Update} {c d e : Counters} (hd : Grown us c d)
    (he : Grown us c e) (h : d.active = e.active) : d = e := by
  obtain ⟨hd₁, hd₂, hd₃, hd₄, hd₅, hd₆, hd₇, hd₈⟩ := hd
  obtain ⟨he₁, he₂, he₃, he₄, he₅, he₆, he₇, he₈⟩ := he
  cases d
  cases e
  simp only at *
  subst_vars
  rfl

/-- The counter of active streams tells nothing of the others. -/
theorem grown_leave {c d : Counters} {us : List Update} (h : Grown us c d) :
    Grown us c (d.update .leave) := by
  unfold update
  dsimp only
  split
  · exact h
  · exact ⟨h.1, h.2, h.3, h.4, h.5, h.6, h.7, h.8⟩

theorem grown_update {c d : Counters} {us : List Update} (h : Grown us c d) (u : Update) :
    Grown (us ++ [u]) c (d.update u) := by
  cases u with
  | leave =>
    obtain ⟨h₁, h₂, h₃, h₄, h₅, h₆, h₇, h₈⟩ := grown_leave h
    constructor <;> simp [Update.isFailure, Update.bytes, *]
  | ended state =>
    obtain ⟨h₁, h₂, h₃, h₄, h₅, h₆, h₇, h₈⟩ := h
    cases state <;> constructor <;>
      simp [update, Update.isFailure, Update.bytes, UInt64.add_assoc, *]
  | _ =>
    obtain ⟨h₁, h₂, h₃, h₄, h₅, h₆, h₇, h₈⟩ := h
    constructor <;> simp [update, Update.isFailure, Update.bytes, UInt64.add_assoc, *]

theorem grown_foldl {c d : Counters} {us : List Update} (h : Grown us c d) (vs : List Update) :
    Grown (us ++ vs) c (d.run vs) := by
  induction vs generalizing d us with
  | nil =>
    rw [List.append_nil]
    exact h
  | cons v vs ih =>
    rw [run_cons, List.append_cons]
    exact ih (grown_update h v)

theorem grown_run (c : Counters) (us : List Update) : Grown us c (c.run us) :=
  grown_foldl (grown_nil c) us

/-! ## Active streams -/

/-- The number of active streams is that of those that have entered and not left. -/
def TellsActive (c : Counters) (us : List Update) : Prop :=
  c.active.toNat + us.count .leave = us.count .enter

/-- Updates other than these two leave the number of active streams alone. -/
theorem active_update_other {c : Counters} {u : Update} (he : u ≠ .enter) (hl : u ≠ .leave) :
    (c.update u).active = c.active := by
  cases u with
  | enter => exact absurd rfl he
  | leave => exact absurd rfl hl
  | ended state => cases state <;> rfl
  | _ => rfl

/-- No update is lost, as long as streams enter before they leave and fewer of them have entered
than a word can count. -/
theorem active_update {c : Counters} {us : List Update} {u : Update} (h : c.TellsActive us)
    (hle : (us ++ [u]).count .leave ≤ (us ++ [u]).count .enter)
    (hlt : (us ++ [u]).count .enter < UInt64.size) : (c.update u).TellsActive (us ++ [u]) := by
  unfold TellsActive at h ⊢
  simp only [List.count_append, UInt64.size] at hle hlt ⊢
  by_cases he : u = .enter
  · subst he
    have henter : [Update.enter].count .enter = 1 := rfl
    have hleave : [Update.enter].count .leave = 0 := rfl
    have hadd : (c.update .enter).active.toNat = (c.active.toNat + 1) % 2 ^ 64 :=
      UInt64.toNat_add _ _
    omega
  · by_cases hl : u = .leave
    · subst hl
      have henter : [Update.leave].count .enter = 0 := rfl
      have hleave : [Update.leave].count .leave = 1 := rfl
      have hsub := update_leave_of_pos (c := c) (by omega)
      omega
    · have henter : [u].count .enter = 0 := List.count_eq_zero.2 (by simpa using Ne.symm he)
      have hleave : [u].count .leave = 0 := List.count_eq_zero.2 (by simpa using Ne.symm hl)
      rw [active_update_other he hl]
      omega

end Counters

end ToneRelay.Stream
