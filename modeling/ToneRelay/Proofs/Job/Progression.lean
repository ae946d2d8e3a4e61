import ToneRelay.Proofs.Job.Timeline

/-!
# The marks of a progression

`describe_progression`: a session that moves to another frequency has a mark every two minutes from
the end of the fade-in on, as many as there are whole parts of two minutes before the fade-out, and
the resonance is cut into just as many parts. No mark is lost to the fade-out, because the fade-out
never starts within fifteen seconds after one (`gap_eq`).
-/

namespace ToneRelay.Job

/-- The number of whole parts of two minutes between the fades of a session. -/
def wholeParts (minutes : Nat) : Nat := (60000 * minutes - 45000) / 120000

theorem steps_eq (minutes : Nat) : steps (minutes * 60000) = wholeParts minutes := by
  simp only [steps, wholeParts, preFadeOut, fadeInMillis, fadeOutMillis, progressionMillis]
  omega

/-- The fades take up less than the two minutes of an even and of an odd session, and what is left
of the last two minutes depends on that alone. -/
theorem gap_eq {minutes : Nat} (hm : 0 < minutes) :
    60000 * minutes - 30000 - (15000 + 120000 * wholeParts minutes) =
      if minutes % 2 = 0 then 75000 else 15000 := by
  unfold wholeParts
  split <;> omega

/-- The sections of a session that moves to `stop`. -/
structure Description.Progresses (s : Description) (d : Draft) (stop : Float) : Prop where
  offsets : s.timestamps.map (·.toNat) =
    [0, 15000] ++ (List.range' 1 (wholeParts d.minutes.toNat)).map (15000 + 120000 * ·) ++
      [60000 * d.minutes.toNat - 30000, 60000 * d.minutes.toNat]
  /-- As many parts are counted for the resonance as there are marks. -/
  resonances : s.sequence.map (fun t => t.track.tones.map (·.resonance)) =
    [[d.frequency], [d.frequency]] ++
      (List.range' 1 (wholeParts d.minutes.toNat)).map
        (fun k => [resonanceAt d.frequency stop (wholeParts d.minutes.toNat) k]) ++
      [[stop], [stop]]
  /-- No mark lies where the session already fades out. -/
  early : ∀ k ≤ wholeParts d.minutes.toNat,
    15000 + 120000 * k < 60000 * d.minutes.toNat - 30000
  /-- The last section before the fade-out is neither close to it nor two minutes away. -/
  gap : ∃ front last stopping ending, s.timestamps = front ++ [last, stopping, ending] ∧
    stopping.toNat = 60000 * d.minutes.toNat - 30000 ∧
      15000 ≤ stopping.toNat - last.toNat ∧ stopping.toNat - last.toNat < 120000

/-! ## Offsets -/

theorem toNat_timestamps (p : Parameters) :
    (describe p).timestamps.map (·.toNat) = grid p.totalMillis p.inner := by
  rw [timestamps_describe, List.map_map]
  refine (List.map_congr_left fun m hm => ?_).trans (List.map_id _)
  exact UInt64.toNat_ofNat_of_lt' (lt_size_of_mem_grid hm)

/-- The last offset before the fade-out is that of the last mark, or the end of the fade-in. -/
theorem grid_eq_append (total n : Nat) :
    ∃ front, grid total n =
      front ++ [fadeInMillis + n * progressionMillis, preFadeOut total, total] := by
  unfold grid
  cases n with
  | zero => exact ⟨[0], by simp⟩
  | succ n =>
    refine ⟨[0, fadeInMillis] ++ (List.range' 1 n).map (fadeInMillis + · * progressionMillis), ?_⟩
    simp [List.range'_concat, Nat.add_comm 1 n]

section
variable {d : Draft} {stop : Float} (hs : d.Sound) (hstop : d.endFrequency = some stop)
include hstop

theorem inner_parameters : hs.parameters.inner = wholeParts d.minutes.toNat := by
  have hsome : hs.parameters.endFrequency.isSome = true := by
    rw [show hs.parameters.endFrequency = some stop from hstop]
    rfl
  unfold Parameters.inner
  rw [if_pos hsome]
  exact steps_eq d.minutes.toNat

theorem offsets_progression :
    (describe hs.parameters).timestamps.map (·.toNat) =
      [0, 15000] ++ (List.range' 1 (wholeParts d.minutes.toNat)).map (15000 + 120000 * ·) ++
        [60000 * d.minutes.toNat - 30000, 60000 * d.minutes.toNat] := by
  have htotal : hs.parameters.totalMillis = 60000 * d.minutes.toNat := Nat.mul_comm _ _
  rw [toNat_timestamps, inner_parameters hs hstop, htotal]
  simp only [grid, preFadeOut, fadeInMillis, fadeOutMillis, progressionMillis,
    Nat.mul_comm _ 120000]

theorem resonances_progression :
    (describe hs.parameters).sequence.map (fun t => t.track.tones.map (·.resonance)) =
      [[d.frequency], [d.frequency]] ++
        (List.range' 1 (wholeParts d.minutes.toNat)).map
          (fun k => [resonanceAt d.frequency stop (wholeParts d.minutes.toNat) k]) ++
        [[stop], [stop]] := by
  have hend : hs.parameters.endFrequency = some stop := hstop
  have hn : steps hs.parameters.totalMillis = wholeParts d.minutes.toNat := steps_eq _
  simp only [describe, hend, timeline_progression, progression_eq, hn, List.map_append,
    List.map_map]
  rfl

theorem gap_progression :
    ∃ front last stopping ending,
      (describe hs.parameters).timestamps = front ++ [last, stopping, ending] ∧
        stopping.toNat = 60000 * d.minutes.toNat - 30000 ∧
          15000 ≤ stopping.toNat - last.toNat ∧ stopping.toNat - last.toNat < 120000 := by
  have hgap := gap_eq hs.minutes.1
  have hsize : ∀ m ∈ grid hs.parameters.totalMillis hs.parameters.inner, m < UInt64.size :=
    fun _ => lt_size_of_mem_grid
  have htotal : hs.parameters.totalMillis = 60000 * d.minutes.toNat := Nat.mul_comm _ _
  obtain ⟨front, hgrid⟩ := grid_eq_append hs.parameters.totalMillis hs.parameters.inner
  rw [hgrid, inner_parameters hs hstop] at hsize
  refine ⟨front.map .ofNat, _, _, _, by rw [timestamps_describe, hgrid, List.map_append]; rfl, ?_⟩
  rw [inner_parameters hs hstop, UInt64.toNat_ofNat_of_lt' (hsize _ (by simp)),
    UInt64.toNat_ofNat_of_lt' (hsize _ (by simp)), htotal]
  simp only [preFadeOut, fadeInMillis, fadeOutMillis, progressionMillis, Nat.mul_comm _ 120000,
    true_and, hgap]
  split <;> decide

end

/-- **Progressions.** A session with an end frequency has its marks on the grid of two minutes, and
one without has four sections. -/
theorem describe_progression {d : Draft} {p : Parameters} (h : d.check = .ok p) :
    (∀ stop, d.endFrequency = some stop → (describe p).Progresses d stop) ∧
      (d.endFrequency = none → (describe p).sequence.length = 4) := by
  obtain ⟨hs, rfl⟩ := Draft.check_eq_ok_iff.1 h
  constructor
  · intro stop hstop
    refine ⟨offsets_progression hs hstop, resonances_progression hs hstop, ?_,
      gap_progression hs hstop⟩
    intro k hk
    have hgap := gap_eq hs.minutes.1
    split at hgap <;> omega
  · intro hnone
    have hend : hs.parameters.endFrequency = none := hnone
    simp only [describe, hend, timeline_steady]
    rfl

/-- A session of ten minutes from ten hertz to six. -/
def descent : Draft := { minutes := 10, endFrequency := some 6.0 }

theorem sound_descent : descent.Sound := by
  refine ⟨by decide, ?_, by decide, by decide, by decide⟩
  rintro _ ⟨⟩
  decide

theorem describe_progression_descent :
    ∃ p, descent.check = .ok p ∧ (describe p).Progresses descent 6.0 :=
  ⟨_, Draft.check_of_sound sound_descent,
    (describe_progression (Draft.check_of_sound sound_descent)).1 6.0 rfl⟩

end ToneRelay.Job
