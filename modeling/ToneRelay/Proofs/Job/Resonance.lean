import ToneRelay.Proofs.Decimal.ReadBack
import ToneRelay.Proofs.Job.Document
import ToneRelay.Proofs.Job.Timeline

/-!
# Tones that can be played

`describe_usable_iff`: a generator can use a description just when the marks of its progression, in
hundredths and before they are rounded, are finite and at least a half. Without a progression it
always can.

1. `playable_iff_inReach`: these are the marks whose resonance is positive and finite.
2. `Description.Playable.usable`: positive and finite floats are written as positive numbers, and
   the whole text is read back.
-/

namespace ToneRelay.Job

open Decimal

/-- The resonance after `k` of `n` parts of the way in hundredths, before it is rounded. -/
def hundredthsAt (start stop : Float) (n k : Nat) : Float :=
  (start + (stop - start) / Float.ofNat n * Float.ofNat k) * 100.0

/-- Every mark of the progression is finite and at least half a hundredth. -/
def Draft.InReach (d : Draft) : Prop :=
  ∀ stop, d.endFrequency = some stop →
    ∀ k, 1 ≤ k → k ≤ steps (d.minutes.toNat * 60000) →
      (hundredthsAt d.frequency stop (steps (d.minutes.toNat * 60000)) k).isFinite = true ∧
        (0.5 : Float) ≤ hundredthsAt d.frequency stop (steps (d.minutes.toNat * 60000)) k

/-- All tones have frequencies that can be played. -/
def Description.Playable (d : Description) : Prop :=
  ∀ s ∈ d.sequence, ∀ l ∈ s.track.tones, isHz l.carrier = true ∧ isHz l.resonance = true

/-- What a generator needs: tones that can be played, whose frequencies are written as positive
numbers, in a text that is read as a description again. -/
structure Description.Usable (d : Description) : Prop where
  playable : d.Playable
  numbers : ∀ s ∈ d.sequence, ∀ l ∈ s.track.tones,
    IsPositiveNumber (Layout.json.chars l.carrier) ∧
      IsPositiveNumber (Layout.json.chars l.resonance)
  readable : Description.read d.toText = .ok (d.mapFloats readBack)

/-! ## Marks in reach -/

theorem resonanceAt_eq {start stop : Float} {n k : Nat} (hn : 0 < n) :
    resonanceAt start stop n k = roundAway (hundredthsAt start stop n k) / 100.0 := by
  unfold resonanceAt
  rw [if_pos hn]
  rfl

theorem isHz_resonanceAt_iff {start stop : Float} {n k : Nat} (hn : 0 < n) :
    isHz (resonanceAt start stop n k) = true ↔
      (hundredthsAt start stop n k).isFinite = true ∧
        (0.5 : Float) ≤ hundredthsAt start stop n k := by
  rw [resonanceAt_eq hn, isHz_roundAway_iff]

theorem playable_describe (p : Parameters) : (describe p).Playable ↔
    ∀ m ∈ timeline p.totalMillis p.frequency p.endFrequency, isHz m.resonance = true := by
  simp [Description.Playable, describe, Parameters.section, p.carrier_hz]

theorem isHz_endFrequency (p : Parameters) : isHz (p.endFrequency.getD p.frequency) = true := by
  cases h : p.endFrequency with
  | none => exact p.frequency_hz
  | some stop => exact p.endFrequency_hz stop h

/-- The marks at the ends keep the frequencies that were admitted. -/
theorem isHz_timeline_iff (p : Parameters) :
    (∀ m ∈ timeline p.totalMillis p.frequency p.endFrequency, isHz m.resonance = true) ↔
      ∀ stop, p.endFrequency = some stop →
        ∀ m ∈ progression p.totalMillis p.frequency stop, isHz m.resonance = true := by
  have hstart := p.frequency_hz
  have hend := isHz_endFrequency p
  cases h : p.endFrequency with
  | none =>
    simp only [timeline_steady, List.forall_mem_cons, List.not_mem_nil, hstart, reduceCtorEq,
      false_implies, implies_true, and_self]
  | some stop =>
    rw [h, Option.getD_some] at hend
    simp only [timeline_progression, List.forall_mem_append, List.forall_mem_cons,
      List.not_mem_nil, hstart, hend, Option.some.injEq, forall_eq', false_implies, implies_true,
      and_true, true_and]

theorem playable_iff_inReach {d : Draft} (hs : d.Sound) :
    (describe hs.parameters).Playable ↔ d.InReach := by
  rw [playable_describe, isHz_timeline_iff]
  unfold Draft.InReach
  apply forall_congr'
  intro stop
  apply forall_congr'
  intro _
  have hmillis : hs.parameters.totalMillis = d.minutes.toNat * 60000 := rfl
  simp only [progression_eq, List.forall_mem_map, List.mem_range'_1]
  rw [hmillis]
  constructor
  · intro hp k h1 hk
    exact (isHz_resonanceAt_iff (by omega)).1 (hp k (by omega))
  · intro hp k hk
    exact (isHz_resonanceAt_iff (by omega)).2 (hp k (by omega) (by omega))

/-- Every mark of the progression has its tone. -/
theorem tone_of_mark {d : Draft} (hs : d.Sound) {stop : Float} (hstop : d.endFrequency = some stop)
    {n k : Nat} (hn : steps (d.minutes.toNat * 60000) = n) (h1 : 1 ≤ k) (hk : k ≤ n) :
    ∃ s ∈ (describe hs.parameters).sequence, ∃ l ∈ s.track.tones,
      l.resonance = resonanceAt d.frequency stop n k := by
  have hend : hs.parameters.endFrequency = some stop := hstop
  have hsteps : steps hs.parameters.totalMillis = n := hn
  refine ⟨hs.parameters.section (progressionMark d.frequency stop n k), ?_, _,
    List.mem_singleton.2 rfl, rfl⟩
  apply List.mem_map_of_mem
  simp only [hend, timeline_progression, progression_eq, hsteps, List.mem_append, List.mem_map,
    List.mem_range'_1]
  exact .inl (.inr ⟨k, by omega, rfl⟩)

/-! ## Descriptions in use -/

theorem Description.Playable.usable {d : Description} (h : d.Playable) : d.Usable where
  playable := h
  numbers s hs l hl :=
    ⟨isPositiveNumber_chars (h s hs l hl).1, isPositiveNumber_chars (h s hs l hl).2⟩
  readable := read_toText fun s hs l hl =>
    ⟨isFinite_of_isHz (h s hs l hl).1, isFinite_of_isHz (h s hs l hl).2⟩

/-- **Descriptions in use.** A generator can use the description of what is admitted just when every
mark of the progression is in reach. -/
theorem describe_usable_iff {d : Draft} {p : Parameters} (h : d.check = .ok p) :
    (describe p).Usable ↔ d.InReach := by
  obtain ⟨hs, rfl⟩ := Draft.check_eq_ok_iff.1 h
  rw [← playable_iff_inReach hs]
  exact ⟨Description.Usable.playable, Description.Playable.usable⟩

/-- A session of five minutes from ten hertz to four. -/
theorem describe_usable_descent :
    ∃ p, ({ endFrequency := some 4.0 } : Draft).check = .ok p ∧ (describe p).Usable := by
  have hs : ({ endFrequency := some 4.0 } : Draft).Sound := by
    refine ⟨by decide, ?_, by decide, by decide, by decide⟩
    rintro _ ⟨⟩
    decide
  refine ⟨_, Draft.check_of_sound hs, (describe_usable_iff (Draft.check_of_sound hs)).2 ?_⟩
  rintro _ ⟨⟩ k h1 hk
  have hk2 : k ≤ 2 := hk
  obtain rfl | rfl : k = 1 ∨ k = 2 := by omega
  · decide +kernel
  · decide +kernel

/-- The highest frequencies are beyond reach even where the resonance stays the same: hundredths of
them are not finite, and no number is written. -/
theorem describe_usable_overflow :
    ∃ p, ({ frequency := 1e308, endFrequency := some 1e308 } : Draft).check = .ok p ∧
      ¬ (describe p).Usable ∧
      ∃ s ∈ (describe p).sequence, ∃ l ∈ s.track.tones,
        isHz l.resonance = false ∧ Layout.json.chars l.resonance = "null".toList := by
  have hz : isHz 1e308 = true := by decide +kernel
  have hs : ({ frequency := 1e308, endFrequency := some 1e308 } : Draft).Sound := by
    refine ⟨hz, ?_, by decide, by decide, by decide⟩
    intro hz' h
    exact Option.some.inj h ▸ hz
  have hlost : isHz (resonanceAt 1e308 1e308 2 1) = false := by decide +kernel
  have hnull : Layout.json.chars (resonanceAt 1e308 1e308 2 1) = "null".toList := by decide +kernel
  obtain ⟨s, hsec, l, hl, hres⟩ := tone_of_mark hs rfl (n := 2) (by decide) (Nat.le_refl 1)
    (by decide)
  rw [← hres] at hlost hnull
  refine ⟨_, Draft.check_of_sound hs, ?_, s, hsec, l, hl, hlost, hnull⟩
  intro hu
  exact absurd ((hu.playable s hsec l hl).2.symm.trans hlost) (by decide)

end ToneRelay.Job
