import ToneRelay.Proofs.Job.Timeline

/-!
# Sizes of audio

The size of a stretch of audio is computed in words of sixty-four bits, with a division between two
products, so that a stretch that does not end with a frame is cut.

`sizes_exact`: up to `maxMillis` no product overflows and the size is that of the whole frames. The
sizes of two stretches fall short of the size of both together by a frame at most, and by nothing if
one of the two ends with a frame. The length of every session that is admitted under any limit is
far below `maxMillis`, and its size is 15876000 bytes for each minute.

One direction is `bytesForMillis?_eq_some_iff`, which takes the words to numbers; the rest is about
quotients of sums.
-/

namespace ToneRelay.Pcm

/-! ## Words -/

/-- The greatest length whose samples are counted in a word. -/
def maxMillis : Nat := 418293516410647

theorem word?_eq_some_iff {n : Nat} {w : UInt64} :
    word? n = some w ↔ n < UInt64.size ∧ w.toNat = n := by
  unfold word?
  constructor
  · intro h
    split at h
    · next hlt =>
      cases h
      exact ⟨hlt, UInt64.toNat_ofNat_of_lt' hlt⟩
    · cases h
  · rintro ⟨hlt, rfl⟩
    rw [if_pos hlt, UInt64.ofNat_toNat]

/-- The samples of a stretch fit in a word just up to the greatest length. -/
theorem samples_lt_size_iff {ms : Nat} : ms * sampleRate < UInt64.size ↔ ms ≤ maxMillis := by
  unfold sampleRate UInt64.size maxMillis
  omega

/-- A size is smaller than the number of samples, so that only the first product can overflow. -/
theorem bytesForMillis_le (ms : Nat) : bytesForMillis ms ≤ ms * sampleRate := by
  rw [bytesForMillis_eq]
  unfold sampleRate
  omega

/-- **The words agree with the numbers**, up to the greatest length and no further. -/
theorem bytesForMillis?_eq_some_iff {ms w : UInt64} :
    bytesForMillis? ms = some w ↔ ms.toNat ≤ maxMillis ∧ w.toNat = bytesForMillis ms.toNat := by
  have hsamples (s : UInt64) : s.toNat = ms.toNat * sampleRate →
      (s / 1000).toNat * bytesPerFrame = bytesForMillis ms.toNat := by
    intro hs
    rw [UInt64.toNat_div, hs]
    rfl
  unfold bytesForMillis?
  rw [Option.bind_eq_bind, Option.bind_eq_some_iff, ← samples_lt_size_iff]
  constructor
  · rintro ⟨s, hs, hw⟩
    obtain ⟨hlt, hs⟩ := word?_eq_some_iff.1 hs
    exact ⟨hlt, (word?_eq_some_iff.1 hw).2.trans (hsamples s hs)⟩
  · rintro ⟨hlt, hw⟩
    have hs : (UInt64.ofNat (ms.toNat * sampleRate)).toNat = ms.toNat * sampleRate :=
      UInt64.toNat_ofNat_of_lt' hlt
    refine ⟨.ofNat (ms.toNat * sampleRate), word?_eq_some_iff.2 ⟨hlt, hs⟩, ?_⟩
    rw [hsamples _ hs, word?_eq_some_iff]
    exact ⟨Nat.lt_of_le_of_lt (bytesForMillis_le _) hlt, hw⟩

/-- A millisecond more, and the samples are not counted. -/
example : bytesForMillis? 418293516410648 = none := by decide

theorem exists_bytesForMillis? {ms : UInt64} (h : ms.toNat ≤ maxMillis) :
    ∃ w, bytesForMillis? ms = some w ∧ w.toNat = bytesForMillis ms.toNat := by
  have hlt : bytesForMillis ms.toNat < UInt64.size :=
    Nat.lt_of_le_of_lt (bytesForMillis_le _) (samples_lt_size_iff.2 h)
  have hw := UInt64.toNat_ofNat_of_lt' hlt
  exact ⟨_, bytesForMillis?_eq_some_iff.2 ⟨h, hw⟩, hw⟩

/-! ## Two stretches -/

section
variable (a b : Nat)

theorem bytesForMillis_add_le :
    bytesForMillis a + bytesForMillis b ≤ bytesForMillis (a + b) := by
  rw [bytesForMillis_eq, bytesForMillis_eq, bytesForMillis_eq]
  omega

theorem bytesForMillis_le_add :
    bytesForMillis (a + b) ≤ bytesForMillis a + bytesForMillis b + bytesPerFrame := by
  have hframe : bytesPerFrame = 6 := rfl
  rw [bytesForMillis_eq, bytesForMillis_eq, bytesForMillis_eq, hframe]
  omega

/-- Ten milliseconds are 441 frames, after which a stretch is cut as if it began there. -/
theorem bytesForMillis_add_of_dvd (h : 10 ∣ a ∨ 10 ∣ b) :
    bytesForMillis a + bytesForMillis b = bytesForMillis (a + b) := by
  rw [bytesForMillis_eq, bytesForMillis_eq, bytesForMillis_eq]
  omega

end

theorem toNat_add_of_le {a b : UInt64} (h : a.toNat + b.toNat ≤ maxMillis) :
    (a + b).toNat = a.toNat + b.toNat := by
  have hmax : maxMillis < UInt64.size := by decide
  rw [UInt64.toNat_add]
  exact Nat.mod_eq_of_lt (Nat.lt_of_le_of_lt h hmax)

end ToneRelay.Pcm

namespace ToneRelay.Job

open Pcm (bytesForMillis bytesForMillis? bytesForMinutes bytesForMinutes? maxMillis millis?
  bytesPerFrame)

/-! ## Sessions -/

/-- The length of the longest session there is. -/
theorem totalMillis_le (p : Parameters) : p.totalMillis ≤ maxMillis := by
  have := p.minutes.toNat_lt
  unfold Parameters.totalMillis maxMillis
  omega

theorem exists_totalMillis? (p : Parameters) :
    ∃ total, p.totalMillis? = some total ∧ total.toNat = p.totalMillis := by
  have htotal := UInt64.toNat_ofNat_of_lt' (totalMillis_lt_size p)
  exact ⟨_, Pcm.word?_eq_some_iff.2 ⟨totalMillis_lt_size p, htotal⟩, htotal⟩

/-- The size of a session, computed by its length and by its minutes. -/
theorem exists_expectedBytes? (p : Parameters) :
    ∃ size, p.expectedBytes? = some size ∧ bytesForMinutes? p.minutes = some size ∧
      size.toNat = p.expectedBytes := by
  obtain ⟨total, htotal, heq⟩ := exists_totalMillis? p
  obtain ⟨size, hsize, hbytes⟩ := Pcm.exists_bytesForMillis? (heq ▸ totalMillis_le p)
  have hexpected : p.expectedBytes? = some size := by
    unfold Parameters.expectedBytes?
    rw [htotal]
    exact hsize
  rw [heq] at hbytes
  exact ⟨size, hexpected, hexpected, hbytes⟩

/-! ## The whole statement -/

/-- What holds of the sizes of audio, as they are computed in words. -/
structure SizesExact : Prop where
  /-- A stretch of any length up to the greatest has a size, which is that of its whole frames. -/
  single : ∀ ms : UInt64, ms.toNat ≤ maxMillis → ∃ w, bytesForMillis? ms = some w ∧
    bytesPerFrame ∣ w.toNat ∧ w.toNat = 6 * (ms.toNat * 441 / 10)
  /-- Two stretches fall short of both together by a frame at most, and by nothing if one of them
  ends with a frame. -/
  double : ∀ a b : UInt64, a.toNat + b.toNat ≤ maxMillis → ∃ wa wb w,
    bytesForMillis? a = some wa ∧ bytesForMillis? b = some wb ∧ bytesForMillis? (a + b) = some w ∧
      wa.toNat + wb.toNat ≤ w.toNat ∧ w.toNat ≤ wa.toNat + wb.toNat + 6 ∧
      (10 ∣ a.toNat ∨ 10 ∣ b.toNat → wa.toNat + wb.toNat = w.toNat)
  /-- Whatever is admitted, under any limit, has a length up to the greatest and a size. -/
  session : ∀ (d : Draft) (p : Parameters), d.check = .ok p → ∃ total size,
    p.totalMillis? = some total ∧ total.toNat ≤ maxMillis ∧ p.expectedBytes? = some size ∧
      bytesForMinutes? d.minutes = some size ∧ size.toNat = 15876000 * d.minutes.toNat

/-- **Sizes are exact.** -/
theorem sizes_exact : SizesExact where
  single ms h := by
    obtain ⟨w, hw, hbytes⟩ := Pcm.exists_bytesForMillis? h
    refine ⟨w, hw, ?_, hbytes.trans (Pcm.bytesForMillis_eq _)⟩
    rw [hbytes]
    exact Nat.dvd_mul_left _ _
  double a b h := by
    obtain ⟨wa, hwa, ha⟩ := Pcm.exists_bytesForMillis? (Nat.le_trans (Nat.le_add_right _ _) h)
    obtain ⟨wb, hwb, hb⟩ := Pcm.exists_bytesForMillis? (Nat.le_trans (Nat.le_add_left _ _) h)
    have hsum := Pcm.toNat_add_of_le h
    have hboth : (a + b).toNat ≤ maxMillis := hsum ▸ h
    obtain ⟨w, hw, hab⟩ := Pcm.exists_bytesForMillis? hboth
    rw [hsum] at hab
    refine ⟨wa, wb, w, hwa, hwb, hw, ?_⟩
    rw [ha, hb, hab]
    exact ⟨Pcm.bytesForMillis_add_le _ _, Pcm.bytesForMillis_le_add _ _,
      Pcm.bytesForMillis_add_of_dvd _ _⟩
  session d p h := by
    obtain ⟨hs, rfl⟩ := Draft.check_eq_ok_iff.1 h
    obtain ⟨total, htotal, heq⟩ := exists_totalMillis? hs.parameters
    obtain ⟨size, hexpected, hminutes, hsize⟩ := exists_expectedBytes? hs.parameters
    rw [Parameters.expectedBytes_eq, Pcm.bytesForMinutes_eq] at hsize
    exact ⟨total, size, htotal, heq ▸ totalMillis_le _, hexpected, hminutes, hsize⟩

end ToneRelay.Job
