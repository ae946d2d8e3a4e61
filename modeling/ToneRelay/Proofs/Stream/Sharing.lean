import ToneRelay.Proofs.Stream.Totals
import ToneRelay.Stream.Handles

/-!
# Counters behind handles

Every handle goes back to one that was made with counters, its root. What a handle tells are the
totals of the events that were recorded through handles with the same root, and of no others
(`snapshot_run`), whichever counters were made and handles copied in between.

`Sound` keeps the place and the root of every handle side by side: two handles have the same place
exactly if they have the same root, and the counters at a place have counted what was recorded under
its root. Nothing is beyond the places that have been given out, so that new counters are empty.
-/

namespace ToneRelay.Stream

namespace Handles

/-! ## Roots -/

/-- The roots of all handles after one more call. A copy has the root of what it is a copy of. -/
def grow (roots : List Nat) : Call → List Nat
  | .make => roots ++ [roots.length]
  | .copy i => roots ++ roots[i]?.toList
  | .record _ _ => roots

/-- The roots of the handles that some calls have made, in order. -/
def roots (cs : List Call) : List Nat := cs.foldl grow []

/-- What a call records under a root. -/
def adds (roots : List Nat) (root : Nat) : Call → List Occurrence
  | .record i o => if roots[i]? = some root then [o] else []
  | _ => []

/-- What calls record under a root, beginning with handles whose roots are known. -/
def addsAll (roots : List Nat) (root : Nat) : List Call → List Occurrence
  | [] => []
  | c :: cs => adds roots root c ++ addsAll (grow roots c) root cs

/-- The events that are recorded through handles with a root. -/
def own (root : Nat) (cs : List Call) : List Occurrence := addsAll [] root cs

/-! ## Places and roots -/

/-- Places and roots of all handles, with what has been recorded under each root. -/
structure Sound (h : Handles) (pairs : List (Nat × Nat)) (heard : Nat → List Occurrence) :
    Prop where
  places : h.places = pairs.map Prod.fst
  /-- Handles share counters exactly if they share a root. -/
  kin : ∀ a ∈ pairs, ∀ b ∈ pairs, (a.1 = b.1 ↔ a.2 = b.2)
  told : ∀ a ∈ pairs, h.ledger a.1 = Counters.recordAll {} (heard a.2)
  placeMade : ∀ a ∈ pairs, a.1 < h.made
  rootMade : ∀ a ∈ pairs, a.2 < pairs.length
  /-- No counters are beyond those that have been made. -/
  beyond : ∀ place, h.made ≤ place → h.ledger place = {}
  unheard : ∀ root, pairs.length ≤ root → heard root = []

theorem sound_fresh : Sound {} [] fun _ => [] where
  places := rfl
  kin := by simp
  told := by simp
  placeMade := by simp
  rootMade := by simp
  beyond _ _ := rfl
  unheard _ _ := rfl

variable {h : Handles} {pairs : List (Nat × Nat)} {heard : Nat → List Occurrence}

/-- New counters have a place and a root that no handle has. -/
theorem Sound.make (hs : Sound h pairs heard) :
    Sound (h.perform .make) (pairs ++ [(h.made, pairs.length)]) heard := by
  have hnew : ∀ a ∈ pairs, a.1 ≠ h.made ∧ a.2 ≠ pairs.length :=
    fun a ha => ⟨Nat.ne_of_lt (hs.placeMade a ha), Nat.ne_of_lt (hs.rootMade a ha)⟩
  constructor
  · simp [perform, hs.places]
  · intro a ha b hb
    rw [List.mem_append, List.mem_singleton] at ha hb
    rcases ha with ha | rfl <;> rcases hb with hb | rfl
    · exact hs.kin a ha b hb
    · simp [hnew a ha]
    · simp [(hnew b hb).1.symm, (hnew b hb).2.symm]
    · simp
  · intro a ha
    rw [List.mem_append, List.mem_singleton] at ha
    rcases ha with ha | rfl
    · exact hs.told a ha
    · rw [hs.unheard _ le_rfl]
      exact hs.beyond _ le_rfl
  · intro a ha
    rw [List.mem_append, List.mem_singleton] at ha
    rcases ha with ha | rfl
    · exact Nat.lt_succ_of_lt (hs.placeMade a ha)
    · exact Nat.lt_succ_self _
  · intro a ha
    rw [List.mem_append, List.mem_singleton] at ha
    rw [List.length_append, List.length_singleton]
    rcases ha with ha | rfl
    · exact Nat.lt_succ_of_lt (hs.rootMade a ha)
    · exact Nat.lt_succ_self _
  · intro place hplace
    exact hs.beyond place (Nat.le_of_succ_le hplace)
  · intro root hroot
    rw [List.length_append, List.length_singleton] at hroot
    exact hs.unheard root (Nat.le_of_succ_le hroot)

/-- A copy adds no place and no root. -/
theorem Sound.copy (hs : Sound h pairs heard) (i : Nat) :
    Sound (h.perform (.copy i)) (pairs ++ pairs[i]?.toList) heard := by
  have hmem : ∀ a, a ∈ pairs ++ pairs[i]?.toList ↔ a ∈ pairs := by
    intro a
    rw [List.mem_append, Option.mem_toList]
    exact or_iff_left_of_imp List.mem_of_getElem?
  have hlength : pairs.length ≤ (pairs ++ pairs[i]?.toList).length := by simp
  constructor
  · simp [perform, hs.places, Option.toList_map]
  · intro a ha b hb
    exact hs.kin a ((hmem a).1 ha) b ((hmem b).1 hb)
  · exact fun a ha => hs.told a ((hmem a).1 ha)
  · exact fun a ha => hs.placeMade a ((hmem a).1 ha)
  · exact fun a ha => (hs.rootMade a ((hmem a).1 ha)).trans_le hlength
  · exact hs.beyond
  · exact fun root hroot => hs.unheard root (hlength.trans hroot)

/-- What is recorded through a handle is counted by the handles that share its root. -/
theorem Sound.record (hs : Sound h pairs heard) (i : Nat) (o : Occurrence) :
    Sound (h.perform (.record i o)) pairs fun root =>
      heard root ++ adds (pairs.map Prod.snd) root (.record i o) := by
  cases hi : pairs[i]? with
  | none =>
    have habsent : h.places[i]? = none := by rw [hs.places, List.getElem?_map, hi]; rfl
    have hnothing : ∀ root, adds (pairs.map Prod.snd) root (.record i o) = [] := by
      intro root
      simp [adds, hi]
    rw [perform_absent habsent]
    simpa only [hnothing, List.append_nil] using hs
  | some a =>
    have ha : a ∈ pairs := List.mem_of_getElem? hi
    have hplace : h.places[i]? = some a.1 := by rw [hs.places, List.getElem?_map, hi]; rfl
    have hadds : ∀ root,
        adds (pairs.map Prod.snd) root (.record i o) = if a.2 = root then [o] else [] := by
      intro root
      simp [adds, hi]
    rw [perform_record hplace]
    constructor
    · exact hs.places
    · exact hs.kin
    · intro b hb
      dsimp only
      rw [hadds]
      by_cases hroot : a.2 = b.2
      · rw [if_pos hroot, ← (hs.kin a ha b hb).2 hroot, Ledger.record_self, hs.told a ha, ← hroot,
          Counters.recordAll_append]
        rfl
      · have hother : b.1 ≠ a.1 := fun heq => hroot ((hs.kin a ha b hb).1 heq.symm)
        rw [if_neg hroot, List.append_nil, Ledger.record_other _ _ hother]
        exact hs.told b hb
    · exact hs.placeMade
    · exact hs.rootMade
    · intro place hfar
      have hother : place ≠ a.1 := Nat.ne_of_gt ((hs.placeMade a ha).trans_le hfar)
      exact (Ledger.record_other _ _ hother).trans (hs.beyond place hfar)
    · intro root hroot
      have hother : a.2 ≠ root := Nat.ne_of_lt ((hs.rootMade a ha).trans_le hroot)
      rw [hadds, if_neg hother, List.append_nil]
      exact hs.unheard root hroot

/-- **One call.** -/
theorem sound_perform (hs : Sound h pairs heard) (c : Call) :
    ∃ pairs', pairs'.map Prod.snd = grow (pairs.map Prod.snd) c ∧
      Sound (h.perform c) pairs' fun root => heard root ++ adds (pairs.map Prod.snd) root c := by
  cases c with
  | make =>
    refine ⟨pairs ++ [(h.made, pairs.length)], by simp [grow], ?_⟩
    simpa [adds] using hs.make
  | copy i =>
    refine ⟨pairs ++ pairs[i]?.toList, by simp [grow, Option.toList_map], ?_⟩
    simpa [adds] using hs.copy i
  | record i o => exact ⟨pairs, rfl, hs.record i o⟩

/-- **All calls.** -/
theorem sound_run (hs : Sound h pairs heard) (cs : List Call) :
    ∃ pairs', pairs'.map Prod.snd = cs.foldl grow (pairs.map Prod.snd) ∧
      Sound (h.run cs) pairs' fun root => heard root ++ addsAll (pairs.map Prod.snd) root cs := by
  induction cs generalizing h pairs heard with
  | nil =>
    refine ⟨pairs, rfl, ?_⟩
    simpa [addsAll] using hs
  | cons c cs ih =>
    obtain ⟨pairs₁, hroots₁, hs₁⟩ := sound_perform hs c
    obtain ⟨pairs₂, hroots₂, hs₂⟩ := ih hs₁
    rw [hroots₁] at hroots₂ hs₂
    refine ⟨pairs₂, hroots₂, ?_⟩
    simpa [addsAll] using hs₂

/-- What a handle tells has been recorded under its root, and all of it. -/
theorem snapshot_of_root {cs : List Call} {i root : Nat} (hi : (roots cs)[i]? = some root) :
    (run {} cs).snapshot i = some (Counters.recordAll {} (own root cs)) := by
  obtain ⟨pairs, hroots, hs⟩ := sound_run sound_fresh cs
  rw [roots, ← List.map_nil (f := Prod.snd), ← hroots, List.getElem?_map,
    Option.map_eq_some_iff] at hi
  obtain ⟨a, ha, rfl⟩ := hi
  have htold := hs.told a (List.mem_of_getElem? ha)
  rw [List.nil_append] at htold
  rw [snapshot, hs.places, List.getElem?_map, ha]
  exact congrArg some htold

/-- **Snapshots.** After any calls, on any number of counters and through any of their handles, a
handle tells the totals of what was recorded under its root. It depends on nothing else: a handle
under whose root the same has been recorded tells the same, whatever else has been done. -/
theorem snapshot_run {cs : List Call} {i root : Nat} (hi : (roots cs)[i]? = some root) :
    ∃ c, (run {} cs).snapshot i = some c ∧ Counters.Totals (own root cs) c ∧
      ∀ cs' i' root', (roots cs')[i']? = some root' → own root' cs' = own root cs →
        (run {} cs').snapshot i' = some c := by
  refine ⟨_, snapshot_of_root hi, Counters.totals_recordAll _, ?_⟩
  intro cs' i' root' hi' hown
  rw [snapshot_of_root hi', hown]

/-- Two counters, each with a copy of its handle. A stream ends twice at the first ones, so that the
next start is the only active one; nothing of it is told by the others. -/
theorem snapshot_run_two :
    let cs : List Call := [.make, .make, .copy 0, .copy 1, .record 2 .started,
      .record 0 (.finished .completed 7), .record 3 .request,
      .record 2 (.finished .streaming 18446744073709551615), .record 0 .started]
    (roots cs)[2]? = some 0 ∧
      ∃ c, (run {} cs).snapshot 2 = some c ∧ Counters.Totals (own 0 cs) c ∧
        c = { started := 2, active := 1, completed := 1, failed := 1, bytesRelayed := 6 } := by
  have hi : (roots [.make, .make, .copy 0, .copy 1, .record 2 .started,
      .record 0 (.finished .completed 7), .record 3 .request,
      .record 2 (.finished .streaming 18446744073709551615), .record 0 .started])[2]? =
        some 0 := by decide
  obtain ⟨c, hc, htotals, -⟩ := snapshot_run hi
  refine ⟨hi, c, hc, htotals, ?_⟩
  exact Option.some.inj (hc.symm.trans (by decide))

end Handles

end ToneRelay.Stream
