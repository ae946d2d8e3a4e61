import Mathlib.Data.List.TakeWhile
import ToneRelay.Job.Description

/-!
# Well-formed timelines

`describe_wellFormed`: the description of any draft that is admitted has strictly increasing
offsets from silence to silence, and its sections play what was asked for.

1. No mark of a progression is cut off, so the offsets are those of a plain grid
   (`millis_timeline`), which increases (`pairwise_grid`).
2. `offsets?` computes the offsets in words of sixty-four bits and gives up where one overflows or
   would go below zero. It never gives up (`offsets?_eq`).
3. The sections between the first and the last sound, and these two do not.
-/

namespace ToneRelay.Job

/-! ## The grid -/

/-- The offsets of a session of `total` milliseconds with `n` marks in between. -/
def grid (total n : Nat) : List Nat :=
  [0, fadeInMillis] ++ (List.range' 1 n).map (fadeInMillis + · * progressionMillis) ++
    [preFadeOut total, total]

/-- The number of marks between fade-in and fade-out. -/
def Parameters.inner (p : Parameters) : Nat :=
  if p.endFrequency.isSome then steps p.totalMillis else 0

theorem lt_preFadeOut_of_le {p : Parameters} {k : Nat} (hk : k ≤ steps p.totalMillis) :
    fadeInMillis + k * progressionMillis < preFadeOut p.totalMillis :=
  lt_preFadeOut p.minutes_pos hk

theorem fadeIn_lt_preFadeOut (p : Parameters) : fadeInMillis < preFadeOut p.totalMillis := by
  have h := lt_preFadeOut_of_le (p := p) (Nat.zero_le _)
  omega

/-- A session is at least a minute long. -/
theorem minute_le_totalMillis (p : Parameters) : 60000 ≤ p.totalMillis := by
  have := p.minutes_pos
  unfold Parameters.totalMillis
  omega

theorem preFadeOut_add (p : Parameters) :
    preFadeOut p.totalMillis + fadeOutMillis = p.totalMillis := by
  have := minute_le_totalMillis p
  unfold preFadeOut fadeOutMillis
  omega

theorem totalMillis_lt_size (p : Parameters) : p.totalMillis < UInt64.size := by
  have := p.minutes.toNat_lt
  unfold Parameters.totalMillis UInt64.size
  omega

section
variable {α : Type} [Tuning α]

/-- No mark of a progression is cut off by the fade-out. -/
theorem progression_eq (p : Parameters) (start stop : α) :
    progression p.totalMillis start stop =
      (List.range' 1 (steps p.totalMillis)).map
        (progressionMark start stop (steps p.totalMillis)) := by
  apply List.takeWhile_eq_self_iff.2
  intro m hm
  obtain ⟨k, hk, rfl⟩ := List.mem_map.1 hm
  rw [List.mem_range'_1] at hk
  exact decide_eq_true (lt_preFadeOut_of_le (by omega))

end

theorem millis_timeline (p : Parameters) :
    (timeline p.totalMillis p.frequency p.endFrequency).map (·.millis) =
      grid p.totalMillis p.inner := by
  unfold Parameters.inner
  cases p.endFrequency with
  | none => simp only [timeline_steady, grid, List.map_cons, List.map_nil, Option.isSome_none,
      Bool.false_eq_true, if_false, List.range'_zero, List.append_nil, List.cons_append,
      List.nil_append]
  | some stop =>
    simp only [timeline, grid, progression_eq, List.map_append, List.map_map, List.map_cons,
      List.map_nil, Option.isSome_some, if_true]
    rfl

theorem timestamps_describe (p : Parameters) :
    (describe p).timestamps = (grid p.totalMillis p.inner).map UInt64.ofNat := by
  rw [← millis_timeline]
  simp [Description.timestamps, describe, Parameters.section]

theorem inner_le_steps (p : Parameters) : p.inner ≤ steps p.totalMillis := by
  unfold Parameters.inner
  split <;> omega

/-- The marks lie on one line, each two minutes after the one before. -/
theorem pairwise_range' (n start : Nat) :
    ((List.range' start n).map (fadeInMillis + · * progressionMillis)).Pairwise (· < ·) := by
  rw [List.pairwise_map]
  apply (List.pairwise_lt_range' 1).imp
  intro a b hab
  unfold progressionMillis
  omega

/-- **The grid increases.** -/
theorem pairwise_grid (p : Parameters) : (grid p.totalMillis p.inner).Pairwise (· < ·) := by
  have hpre := fadeIn_lt_preFadeOut p
  have hadd := preFadeOut_add p
  have hmark : ∀ m ∈ (List.range' 1 p.inner).map (fadeInMillis + · * progressionMillis),
      fadeInMillis < m ∧ m < preFadeOut p.totalMillis := by
    intro m hm
    obtain ⟨k, hk, rfl⟩ := List.mem_map.1 hm
    rw [List.mem_range'_1] at hk
    have := inner_le_steps p
    refine ⟨?_, lt_preFadeOut_of_le (by omega)⟩
    unfold progressionMillis
    omega
  have hin : 0 < fadeInMillis := by decide
  have hout : 0 < fadeOutMillis := by decide
  unfold grid
  rw [List.pairwise_append, List.pairwise_append]
  refine ⟨⟨?_, pairwise_range' _ _, ?_⟩, ?_, ?_⟩
  · simpa using hin
  · intro a ha m hm
    have := hmark m hm
    simp only [List.mem_cons, List.not_mem_nil, or_false] at ha
    omega
  · simp only [List.pairwise_cons, List.mem_cons, List.not_mem_nil, or_false]
    refine ⟨?_, ?_, List.Pairwise.nil⟩
    · rintro _ rfl
      omega
    · rintro _ ⟨⟩
  · intro a ha b hb
    simp only [List.mem_append, List.mem_cons, List.not_mem_nil, or_false] at ha hb
    rcases ha with ha | ha
    · omega
    · have := hmark a ha
      omega

theorem lt_size_of_mem_grid {p : Parameters} {m : Nat} (hm : m ∈ grid p.totalMillis p.inner) :
    m < UInt64.size := by
  refine Nat.lt_of_le_of_lt ?_ (totalMillis_lt_size p)
  have h := pairwise_grid p
  have hg : grid p.totalMillis p.inner =
      ([0, fadeInMillis] ++ (List.range' 1 p.inner).map (fadeInMillis + · * progressionMillis) ++
        [preFadeOut p.totalMillis]) ++ [p.totalMillis] := by
    simp [grid]
  rw [hg] at h hm
  rcases List.mem_append.1 hm with hm | hm
  · exact Nat.le_of_lt ((List.pairwise_append.1 h).2.2 m hm _ (List.mem_singleton_self _))
  · exact Nat.le_of_eq (List.mem_singleton.1 hm)

/-! ## Offsets in words -/

/-- The sum of two words, unless it overflows. -/
def plus? (a b : UInt64) : Option UInt64 :=
  if a.toNat + b.toNat < UInt64.size then some (a + b) else none

/-- The difference of two words, unless it is below zero. -/
def minus? (a b : UInt64) : Option UInt64 := if b.toNat ≤ a.toNat then some (a - b) else none

/-- The product of two words, unless it overflows. -/
def times? (a b : UInt64) : Option UInt64 :=
  if a.toNat * b.toNat < UInt64.size then some (a * b) else none

theorem plus?_ofNat {a b : Nat} (h : a + b < UInt64.size) :
    plus? (.ofNat a) (.ofNat b) = some (.ofNat (a + b)) := by
  unfold plus?
  rw [UInt64.toNat_ofNat_of_lt' (by omega), UInt64.toNat_ofNat_of_lt' (by omega), if_pos h,
    UInt64.ofNat_add]

theorem minus?_ofNat {a b : Nat} (hb : b ≤ a) (ha : a < UInt64.size) :
    minus? (.ofNat a) (.ofNat b) = some (.ofNat (a - b)) := by
  unfold minus?
  rw [UInt64.toNat_ofNat_of_lt' ha, UInt64.toNat_ofNat_of_lt' (by omega), if_pos hb]
  refine congrArg some (UInt64.toNat.inj ?_)
  rw [UInt64.toNat_sub_of_le _ _ (UInt64.le_iff_toNat_le.2 ?_), UInt64.toNat_ofNat_of_lt' ha,
    UInt64.toNat_ofNat_of_lt' (by omega), UInt64.toNat_ofNat_of_lt' (by omega)]
  rw [UInt64.toNat_ofNat_of_lt' ha, UInt64.toNat_ofNat_of_lt' (by omega)]
  exact hb

theorem times?_ofNat {a b : Nat} (ha : a < UInt64.size) (hb : b < UInt64.size)
    (h : a * b < UInt64.size) : times? (.ofNat a) (.ofNat b) = some (.ofNat (a * b)) := by
  unfold times?
  rw [UInt64.toNat_ofNat_of_lt' ha, UInt64.toNat_ofNat_of_lt' hb, if_pos h, UInt64.ofNat_mul]

/-- The offsets of mark `k` and those after it, `n` at most and none from `stop` on. -/
def marks? (stop : UInt64) : Nat → UInt64 → Option (List UInt64)
  | 0, _ => some []
  | n + 1, k => do
    let part ← times? k (.ofNat progressionMillis)
    let time ← plus? (.ofNat fadeInMillis) part
    if stop ≤ time then some [] else return time :: (← marks? stop n (k + 1))

/-- The offsets of the marks of a progression to `stop`, if there is one. -/
def Parameters.progress? (p : Parameters) (stop : UInt64) : Option (List UInt64) :=
  if p.endFrequency.isSome then do
    let span ← minus? stop (.ofNat fadeInMillis)
    marks? stop (span / .ofNat progressionMillis).toNat 1
  else some []

/-- The offsets of a session, computed in words. -/
def Parameters.offsets? (p : Parameters) : Option (List UInt64) := do
  let total ← times? p.minutes.toUInt64 60000
  let stop ← minus? total (.ofNat fadeOutMillis)
  let marks ← p.progress? stop
  return [0, .ofNat fadeInMillis] ++ marks ++ [stop, total]

theorem marks?_succ {stop k part time : UInt64} (n : Nat)
    (hpart : times? k (.ofNat progressionMillis) = some part)
    (htime : plus? (.ofNat fadeInMillis) part = some time) (hstop : ¬ stop ≤ time) :
    marks? stop (n + 1) k = (marks? stop n (k + 1)).map (time :: ·) := by
  simp only [marks?, hpart, htime, Option.bind_eq_bind, Option.bind_some, if_neg hstop]
  cases marks? stop n (k + 1) <;> rfl

/-- The loop over the marks neither stops early nor overflows. -/
theorem marks?_eq (p : Parameters) : ∀ n k : Nat, k + n ≤ steps p.totalMillis + 1 →
    marks? (.ofNat (preFadeOut p.totalMillis)) n (.ofNat k) =
      some (((List.range' k n).map (fadeInMillis + · * progressionMillis)).map UInt64.ofNat) := by
  have hsize := totalMillis_lt_size p
  have hpre := preFadeOut_add p
  intro n
  induction n with
  | zero => intro k _; rfl
  | succ n ih =>
    intro k hk
    have hlt : fadeInMillis + k * progressionMillis < preFadeOut p.totalMillis :=
      lt_preFadeOut_of_le (by omega)
    have hle : k ≤ k * progressionMillis := Nat.le_mul_of_pos_right k (by decide)
    have hpart := times?_ofNat (a := k) (b := progressionMillis) (by omega) (by decide) (by omega)
    have htime := plus?_ofNat (a := fadeInMillis) (b := k * progressionMillis) (by omega)
    have hstop : ¬ UInt64.ofNat (preFadeOut p.totalMillis) ≤
        UInt64.ofNat (fadeInMillis + k * progressionMillis) := by
      rw [UInt64.le_iff_toNat_le, UInt64.toNat_ofNat_of_lt' (by omega),
        UInt64.toNat_ofNat_of_lt' (by omega)]
      omega
    have hnext : UInt64.ofNat k + 1 = UInt64.ofNat (k + 1) := (UInt64.ofNat_add k 1).symm
    rw [marks?_succ n hpart htime hstop, hnext, ih (k + 1) (by omega), List.range'_succ,
      List.map_cons, List.map_cons, Option.map_some]

theorem progress?_eq (p : Parameters) :
    p.progress? (.ofNat (preFadeOut p.totalMillis)) =
      some (((List.range' 1 p.inner).map (fadeInMillis + · * progressionMillis)).map
        UInt64.ofNat) := by
  have hsize := totalMillis_lt_size p
  have hpre := preFadeOut_add p
  have hin := fadeIn_lt_preFadeOut p
  have hspan : minus? (.ofNat (preFadeOut p.totalMillis)) (.ofNat fadeInMillis) =
      some (.ofNat (preFadeOut p.totalMillis - fadeInMillis)) := minus?_ofNat (by omega) (by omega)
  have hsteps : (UInt64.ofNat (preFadeOut p.totalMillis - fadeInMillis) /
      .ofNat progressionMillis).toNat = steps p.totalMillis := by
    rw [UInt64.toNat_div, UInt64.toNat_ofNat_of_lt' (by omega),
      UInt64.toNat_ofNat_of_lt' (by decide)]
    rfl
  unfold Parameters.progress? Parameters.inner
  by_cases hend : p.endFrequency.isSome
  · rw [if_pos hend, if_pos hend, hspan, Option.bind_eq_bind, Option.bind_some, hsteps]
    exact marks?_eq p _ 1 (by omega)
  · rw [if_neg hend, if_neg hend]
    rfl

/-- **No overflow.** The computation in words has a result, which is the offsets. -/
theorem offsets?_eq (p : Parameters) : p.offsets? = some (describe p).timestamps := by
  have hsize := totalMillis_lt_size p
  have hin := minute_le_totalMillis p
  have hmin := p.minutes.toNat_lt
  have htotal : times? p.minutes.toUInt64 60000 = some (.ofNat p.totalMillis) := by
    have h := times?_ofNat (a := p.minutes.toNat) (b := 60000) (by unfold UInt64.size; omega)
      (by decide) hsize
    rwa [UInt64.ofNat_uInt32ToNat] at h
  have hstop : minus? (.ofNat p.totalMillis) (.ofNat fadeOutMillis) =
      some (.ofNat (preFadeOut p.totalMillis)) :=
    minus?_ofNat (by unfold fadeOutMillis; omega) hsize
  unfold Parameters.offsets?
  rw [htotal, Option.bind_eq_bind, Option.bind_some, hstop, Option.bind_eq_bind, Option.bind_some,
    progress?_eq, Option.bind_some, timestamps_describe, grid, List.map_append,
    List.map_append]
  rfl

/-! ## The sections -/

/-- One noise and one tone layer as a draft asks for them, at the given amplitudes. -/
structure Section.Plays (s : Section) (d : Draft) (tone noise : UInt8) : Prop where
  transition : s.transition = if d.endFrequency.isSome then .smooth else .steady
  track : ∃ resonance, s.track =
    ⟨[⟨d.noise, noise⟩], [⟨d.mode, d.carrier, resonance, tone, .sine⟩]⟩

/-- What holds of the description of an admitted draft. -/
structure Description.WellFormed (s : Description) (d : Draft) : Prop where
  increasing : s.timestamps.Pairwise (· < ·)
  ends : ∃ middle, s.timestamps = [0, 15000] ++ middle ++ [s.endMillis - 30000, s.endMillis]
  length : s.endMillis.toNat = d.minutes.toNat * 60000
  /-- The first and the last section are silent, and those in between sound. -/
  sections : ∃ first inner last tone, s.sequence = first :: inner ++ [last] ∧
    (UInt8.toNat tone : Int) = d.amplitude ∧ first.Plays d 0 0 ∧ last.Plays d 0 0 ∧
      ∀ t ∈ inner, Section.Plays t d tone 30
  noises_le : ∀ t ∈ s.sequence, ∀ l ∈ t.track.noises, l.amplitude.toNat ≤ 100
  tones_le : ∀ t ∈ s.sequence, ∀ l ∈ t.track.tones, l.amplitude.toNat ≤ 100

theorem Draft.check_eq_ok_iff {d : Draft} {p : Parameters} :
    d.check = .ok p ↔ ∃ h : d.Sound, p = h.parameters := by
  constructor
  · intro h
    cases hf : d.fault with
    | some e => rw [check_of_fault hf] at h; cases h
    | none =>
      have hs := fault_eq_none.1 hf
      rw [check_of_sound hs] at h
      exact ⟨hs, (Except.ok.inj h).symm⟩
  · rintro ⟨h, rfl⟩
    exact check_of_sound h

theorem plays_section {d : Draft} (h : d.Sound) (m : Mark Float) :
    (h.parameters.section m).Plays d (if m.sounding then h.parameters.amplitude else 0)
      (if m.sounding then noiseBedAmplitude else 0) :=
  ⟨rfl, m.resonance, rfl⟩

/-- The marks after the start and before the end of a session. -/
def innerMarks {α : Type} [Tuning α] (total : Nat) (start : α) (stop : Option α) : List (Mark α) :=
  ⟨fadeInMillis, start, true⟩ :: ((stop.map (progression total start)).getD [] ++
    [⟨preFadeOut total, stop.getD start, true⟩])

theorem timeline_progression {α : Type} [Tuning α] (total : Nat) (start stop : α) :
    timeline total start (some stop) =
      [⟨0, start, false⟩, ⟨fadeInMillis, start, true⟩] ++ progression total start stop ++
        [⟨preFadeOut total, stop, true⟩, ⟨total, stop, false⟩] := rfl

theorem timeline_eq {α : Type} [Tuning α] (total : Nat) (start : α) (stop : Option α) :
    timeline total start stop =
      ⟨0, start, false⟩ :: innerMarks total start stop ++ [⟨total, stop.getD start, false⟩] := by
  unfold innerMarks
  cases stop with
  | none => rw [timeline_steady, Option.map_none, Option.getD_none, Option.getD_none,
      List.nil_append, List.cons_append, List.cons_append, List.singleton_append]
  | some stop =>
    rw [timeline_progression, Option.map_some, Option.getD_some, Option.getD_some,
      List.append_assoc, List.cons_append, List.cons_append, List.nil_append, List.cons_append,
      List.cons_append, List.append_assoc, List.singleton_append]

theorem sounding_of_mem_progression {α : Type} [Tuning α] {total : Nat} {start stop : α}
    {m : Mark α} (hm : m ∈ progression total start stop) : m.sounding = true := by
  unfold progression at hm
  obtain ⟨k, -, rfl⟩ := List.mem_map.1 ((List.takeWhile_sublist _).subset hm)
  rfl

theorem sounding_of_mem_innerMarks {α : Type} [Tuning α] {total : Nat} {start : α}
    {stop : Option α} {m : Mark α} (hm : m ∈ innerMarks total start stop) : m.sounding = true := by
  unfold innerMarks at hm
  rcases List.mem_cons.1 hm with rfl | hm
  · rfl
  rcases List.mem_append.1 hm with hm | hm
  · cases stop with
    | none => cases hm
    | some stop =>
      rw [Option.map_some, Option.getD_some] at hm
      exact sounding_of_mem_progression hm
  · rw [List.mem_singleton.1 hm]

/-- The first and the last section are silent, and those in between sound. -/
theorem sections_describe {d : Draft} (h : d.Sound) :
    ∃ first inner last, (describe h.parameters).sequence = first :: inner ++ [last] ∧
      first.Plays d 0 0 ∧ last.Plays d 0 0 ∧
        ∀ t ∈ inner, Section.Plays t d h.parameters.amplitude noiseBedAmplitude := by
  unfold describe
  rw [timeline_eq, List.map_append, List.map_cons, List.map_singleton]
  refine ⟨_, _, _, rfl, plays_section h _, plays_section h _, ?_⟩
  intro t ht
  obtain ⟨m, hm, rfl⟩ := List.mem_map.1 ht
  have hp := plays_section h m
  rwa [sounding_of_mem_innerMarks hm, if_pos rfl, if_pos rfl] at hp

theorem endMillis_describe (p : Parameters) :
    (describe p).endMillis = .ofNat p.totalMillis := by
  unfold Description.endMillis
  rw [timestamps_describe, grid, List.map_append, List.getLast?_append]
  rfl

theorem ends_describe (p : Parameters) :
    ∃ middle, (describe p).timestamps =
      [0, 15000] ++ middle ++ [(describe p).endMillis - 30000, (describe p).endMillis] := by
  have hin := minute_le_totalMillis p
  have hstop : UInt64.ofNat (preFadeOut p.totalMillis) = .ofNat p.totalMillis - 30000 := by
    unfold preFadeOut fadeOutMillis
    rw [UInt64.ofNat_sub (by omega)]
    rfl
  rw [timestamps_describe, endMillis_describe, ← hstop, grid, List.map_append, List.map_append]
  exact ⟨_, rfl⟩

theorem increasing_describe (p : Parameters) : (describe p).timestamps.Pairwise (· < ·) := by
  rw [timestamps_describe, List.pairwise_map]
  apply (pairwise_grid p).imp_of_mem
  intro a b ha hb hab
  rw [UInt64.lt_iff_toNat_lt, UInt64.toNat_ofNat_of_lt' (lt_size_of_mem_grid ha),
    UInt64.toNat_ofNat_of_lt' (lt_size_of_mem_grid hb)]
  exact hab

/-- **Well-formed timelines.** Whatever is admitted under any limit has a well-formed description,
whose offsets are computed in words without overflow. -/
theorem describe_wellFormed {d : Draft} {p : Parameters} (h : d.check = .ok p) :
    (describe p).WellFormed d ∧ p.offsets? = some (describe p).timestamps ∧
      (describe p).endMillis.toNat = p.totalMillis := by
  obtain ⟨hs, rfl⟩ := Draft.check_eq_ok_iff.1 h
  obtain ⟨first, inner, last, hseq, hfirst, hlast, hinner⟩ := sections_describe hs
  have hend : (describe hs.parameters).endMillis.toNat = hs.parameters.totalMillis := by
    rw [endMillis_describe, UInt64.toNat_ofNat_of_lt' (totalMillis_lt_size _)]
  have hle : ∀ t ∈ (describe hs.parameters).sequence,
      ∃ tone noise, Section.Plays t d tone noise ∧ tone.toNat ≤ 100 ∧ noise.toNat ≤ 100 := by
    intro t ht
    rw [hseq, List.mem_append, List.mem_cons, List.mem_singleton] at ht
    rcases ht with (rfl | ht) | rfl
    · exact ⟨0, 0, hfirst, by decide, by decide⟩
    · exact ⟨_, _, hinner t ht, hs.parameters.amplitude_le, by decide⟩
    · exact ⟨0, 0, hlast, by decide, by decide⟩
  have hamp : (hs.parameters.amplitude.toNat : Int) = d.amplitude := by
    have h0 := hs.amplitude.1
    have ht : hs.parameters.amplitude.toNat = d.amplitude.toNat := hs.toNat_amplitude
    omega
  refine ⟨⟨increasing_describe _, ends_describe _, hend,
    ⟨first, inner, last, _, hseq, hamp, hfirst, hlast, hinner⟩, ?_, ?_⟩, offsets?_eq _, hend⟩
  · intro t ht l hl
    obtain ⟨tone, noise, ⟨-, resonance, htrack⟩, -, hnoise⟩ := hle t ht
    rw [htrack, List.mem_singleton] at hl
    rw [hl]
    exact hnoise
  · intro t ht l hl
    obtain ⟨tone, noise, ⟨-, resonance, htrack⟩, htone, -⟩ := hle t ht
    rw [htrack, List.mem_singleton] at hl
    rw [hl]
    exact htone

/-- The longest session there is, with a progression. -/
theorem describe_wellFormed_longest :
    ∃ p, ({ minutes := 4294967295, maxMinutes := 4294967295, endFrequency := some 4.0 } :
        Draft).check = .ok p ∧
      (describe p).WellFormed
        { minutes := 4294967295, maxMinutes := 4294967295, endFrequency := some 4.0 } ∧
      p.offsets? = some (describe p).timestamps ∧
      (describe p).endMillis.toNat = p.totalMillis := by
  have hs : ({ minutes := 4294967295, maxMinutes := 4294967295, endFrequency := some 4.0 } :
      Draft).Sound := by
    refine ⟨by decide, ?_, by decide, by decide, by decide⟩
    rintro _ ⟨⟩
    decide
  exact ⟨_, Draft.check_of_sound hs, describe_wellFormed (Draft.check_of_sound hs)⟩

end ToneRelay.Job
