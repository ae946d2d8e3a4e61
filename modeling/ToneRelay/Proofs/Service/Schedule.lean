import Mathlib.Order.WellFounded
import ToneRelay.Proofs.Service.Course
import ToneRelay.Proofs.Stream.Progress

/-!
# Fair schedules

A schedule is `Fair` when the relay task is given steps, the listener takes chunks and time passes,
again and again. Under a fair schedule the relay of a stream that is `Doomed` ends
(`relay_ends`): no step makes what is left to be done more, and the step that helps makes it less
(`urgency_step`).
-/

namespace ToneRelay.Service

open Generator (Supervised)
open ToneRelay.Stream (Books Moment Session Transfer)

namespace Exchange

/-- Whether the handler or the relay task takes a step. -/
def Move.isOwn : Move → Bool
  | .proceed _ => true
  | _ => false

/-- Moves of some kind are made again and again. -/
def Recurs (f : Nat → Move) (P : Move → Prop) : Prop := ∀ n, ∃ m, n ≤ m ∧ P (f m)

/-- No one is held up for ever. -/
structure Fair (f : Nat → Move) : Prop where
  own : Recurs f fun m => m.isOwn
  take : Recurs f fun m => m = .take
  pass : Recurs f fun m => ∃ nanos, m = .pass (nanos + 1)

/-- One after the other, everyone has a turn. -/
def inTurn (now : Moment) (n : Nat) : Move :=
  if n % 3 = 0 then .proceed now else if n % 3 = 1 then .take else .pass 1

theorem fair_inTurn (now : Moment) : Fair (inTurn now) := by
  refine ⟨fun n => ⟨3 * n, by omega, ?_⟩, fun n => ⟨3 * n + 1, by omega, ?_⟩,
    fun n => ⟨3 * n + 2, by omega, 0, ?_⟩⟩
  · rw [inTurn, if_pos (Nat.mul_mod_right 3 n)]
    rfl
  · rw [inTurn, if_neg (by omega), if_pos (by omega)]
  · rw [inTurn, if_neg (by omega), if_neg (by omega)]

/-- What brings on a relay that has to wait for some time, or until some chunks are taken. -/
def Move.Helps (delay queued : Nat) : Move → Prop
  | .proceed _ => delay = 0 ∧ queued = 0
  | .take => delay = 0 ∧ 0 < queued
  | .pass nanos => 0 < delay ∧ 0 < nanos
  | _ => False

/-- What brings a relay on comes again and again. -/
theorem Fair.helps {f : Nat → Move} (hf : Fair f) (delay queued n : Nat) :
    ∃ m, n ≤ m ∧ (f m).Helps delay queued := by
  rcases Nat.eq_zero_or_pos delay with hdelay | hdelay
  · rcases Nat.eq_zero_or_pos queued with hqueued | hqueued
    · obtain ⟨m, hm, hown⟩ := hf.own n
      refine ⟨m, hm, ?_⟩
      cases hfm : f m with
      | proceed now => exact ⟨hdelay, hqueued⟩
      | _ =>
        rw [hfm] at hown
        cases hown
    · obtain ⟨m, hm, hfm⟩ := hf.take n
      exact ⟨m, hm, by rw [hfm]; exact ⟨hdelay, hqueued⟩⟩
  · obtain ⟨m, hm, nanos, hfm⟩ := hf.pass n
    exact ⟨m, hm, by rw [hfm]; exact ⟨hdelay, nanos.succ_pos⟩⟩

variable {x : Exchange} {b : Books} {es : List Effect}

/-! ## One step -/

/-- After a move no more is left to be done than before, and less if the move was one that helps. -/
structure Lessens (m : Move) (t u : Transfer) : Prop where
  doomed : u.Doomed
  le : u.urgency ≤ t.urgency
  lt : m.Helps t.source.delay t.channel.queue.length → u.urgency < t.urgency

variable {t : Transfer} {script written : List UInt8}

theorem lessens_aside {g : Supervised} {m : Move} (h : t.Sound script b) (hd : t.Doomed)
    (ha : Supervised.Aside written t.source g) (hnow : g.now = t.source.now)
    (hm : ¬ m.Helps t.source.delay t.channel.queue.length) :
    Lessens m t { t with source := g } := by
  have hdelay : g.delay = t.source.delay := by
    unfold Supervised.delay
    rw [ha.stage, hnow]
  refine ⟨Transfer.doomed_aside hd ha, ?_, ?_⟩
  · exact Transfer.urgency_le (Transfer.rank_aside h hd ha).le hdelay.le (Nat.le_refl _)
  · intro hhelps
    exact absurd hhelps hm

theorem lessens_pass (h : t.Sound script b) (hd : t.Doomed) (nanos : Nat) :
    Lessens (.pass nanos) t { t with source := { t.source with now := t.source.now + nanos } } := by
  have ha := t.source.aside_pass nanos
  have hrank := Transfer.rank_aside h hd ha
  have hdelay := t.source.delay_pass nanos
  refine ⟨Transfer.doomed_aside hd ha, Transfer.urgency_le hrank.le ?_ (Nat.le_refl _), ?_⟩
  · exact hdelay.le.trans (Nat.sub_le _ _)
  · rintro ⟨hpos, hnanos⟩
    exact Transfer.urgency_lt_of_delay hrank (hdelay.trans_lt (Nat.sub_lt hpos hnanos))

theorem lessens_take (h : t.Sound script b) (hd : t.Doomed) : Lessens .take t t.take := by
  have hrank := t.rank_take
  have hdelay : t.take.source.delay = t.source.delay := by rw [t.source_take]
  have hqueue := Transfer.length_queue_take h.carried
  refine ⟨Transfer.doomed_take hd, Transfer.urgency_le hrank.le hdelay.le ?_, ?_⟩
  · exact hqueue.le.trans (Nat.sub_le _ 1)
  · rintro ⟨-, hpos⟩
    exact Transfer.urgency_lt_of_queue hrank hdelay (hqueue.trans_lt (Nat.sub_lt hpos Nat.one_pos))

theorem lessens_leave (t : Transfer) : Lessens .leave t t.leave :=
  ⟨Transfer.doomed_of_gone rfl,
    Transfer.urgency_le t.rank_leave (Nat.le_refl _) (Nat.zero_le _), False.elim⟩

/-- **One step.** What is left to be done until the relay ends does not become more. -/
theorem urgency_step {s : Session} (hk : x.Kept b es) (hphase : x.phase = .relaying s t)
    (hd : t.Doomed) (hgoing : ∀ e, t.pump.phase ≠ .done e) (m : Move) :
    ∃ u, (x.step m).1.phase = .relaying s u ∧ Lessens m t u := by
  have hs : t.Sound x.script b := by
    unfold Kept at hk
    rw [hphase] at hk
    exact hk.2.2.toSound
  have hmap : ∀ f : Transfer → Transfer, (x.mapTransfer f).phase = .relaying s (f t) := by
    intro f
    unfold mapTransfer
    rw [hphase]
  have hsource : ∀ f : Supervised → Supervised,
      (x.mapSource f).phase = .relaying s { t with source := f t.source } := by
    intro f
    unfold mapSource
    rw [hphase]
    exact hmap _
  cases m with
  | proceed now =>
    have hending : t.pump.ending? = none := by
      rw [Option.eq_none_iff_forall_ne_some]
      exact fun e hdone => hgoing e (Stream.Pump.ending?_eq_some_iff.1 hdone)
    show ∃ u, (x.proceed now).1.phase = .relaying s u ∧ Lessens (.proceed now) t u
    unfold proceed
    rw [hphase]
    dsimp only
    rw [hending]
    cases hrelay : t.relay with
    | some r =>
      obtain ⟨hrank, hdoomed⟩ := Transfer.nears_relay hs hrelay
      have hlt := Transfer.urgency_lt_of_rank hrank
      exact ⟨r.1, rfl, hdoomed hd, hlt.le, fun _ => hlt⟩
    | none =>
      refine ⟨t, hphase, hd, le_refl _, ?_⟩
      rintro ⟨hdelay, hqueued⟩
      rcases Transfer.waits_for hs hd hrelay with ⟨e, hdone⟩ | hpos | hne
      · exact absurd hdone (hgoing e)
      · exact absurd hdelay hpos.ne'
      · exact absurd (List.eq_nil_of_length_eq_zero hqueued) hne
  | act => exact ⟨_, hsource _, lessens_aside hs hd t.source.aside_act rfl not_false⟩
  | drain => exact ⟨_, hsource _, lessens_aside hs hd t.source.aside_drainOnce rfl not_false⟩
  | pass nanos => exact ⟨_, hsource _, lessens_pass hs hd nanos⟩
  | take => exact ⟨_, hmap _, lessens_take hs hd⟩
  | leave => exact ⟨_, hmap _, lessens_leave t⟩

/-! ## Runs -/

/-- The first moves of a schedule. -/
def front (f : Nat → Move) (n : Nat) : List Move := (List.range n).map f

theorem front_add (f : Nat → Move) (n k : Nat) :
    front f (n + k) = front f n ++ front (fun i => f (n + i)) k := by
  unfold front
  rw [List.range_add, List.map_append, List.map_map]
  rfl

theorem run_front_succ (x : Exchange) (f : Nat → Move) (n : Nat) :
    (x.run (front f (n + 1))).1 = ((x.run (front f n)).1.step (f n)).1 := by
  unfold front
  rw [List.range_succ, List.map_append, run_append]
  rfl

/-- **A whole run.** A relay that will end does so under a fair schedule. -/
theorem relay_ends {f : Nat → Move} (hf : Fair f) {s : Session} (hk : x.Kept b es)
    (hphase : x.phase = .relaying s t) (hd : t.Doomed) :
    ∃ n u e, (x.run (front f n)).1.phase = .relaying s u ∧ u.pump.phase = .done e := by
  by_contra hnever
  have hgoing : ∀ n u, (x.run (front f n)).1.phase = .relaying s u →
      ∀ e, u.pump.phase ≠ .done e := by
    intro n u hu e he
    exact hnever ⟨n, u, e, hu, he⟩
  have hrun : ∀ n, ∃ u, (x.run (front f n)).1.phase = .relaying s u ∧ u.Doomed := by
    intro n
    induction n with
    | zero => exact ⟨t, hphase, hd⟩
    | succ n ih =>
      obtain ⟨u, hu, hdoomed⟩ := ih
      obtain ⟨u', hu', hless⟩ := urgency_step (kept_run hk _) hu hdoomed (hgoing n u hu) (f n)
      exact ⟨u', by rw [run_front_succ, hu'], hless.doomed⟩
  choose u hu hdoomed using hrun
  have hstep : ∀ n, Lessens (f n) (u n) (u (n + 1)) := by
    intro n
    obtain ⟨u', hu', hless⟩ :=
      urgency_step (kept_run hk _) (hu n) (hdoomed n) (hgoing n _ (hu n)) (f n)
    rw [← run_front_succ, hu (n + 1)] at hu'
    obtain ⟨-, rfl⟩ := Phase.relaying.inj hu'
    exact hless
  have hantitone : Antitone fun n => (u n).urgency := antitone_nat_of_succ_le fun n => (hstep n).le
  -- What is left to be done cannot become less for ever, so from some time on it stays the same.
  obtain ⟨_, ⟨n, rfl⟩, hleast⟩ :=
    WellFounded.has_min wellFounded_lt (Set.range fun n => (u n).urgency) ⟨_, 0, rfl⟩
  obtain ⟨m, hm, hhelps⟩ :=
    hf.helps (u n).source.delay (u n).channel.queue.length n
  have hsame : (u m).urgency = (u n).urgency :=
    eq_of_le_of_not_lt (hantitone hm) (hleast _ ⟨m, rfl⟩)
  have hwaits := Prod.mk.inj (congrArg (fun v => ofLex (ofLex v).2) hsame)
  rw [← hwaits.1, ← hwaits.2] at hhelps
  exact hleast _ ⟨m + 1, rfl⟩ (((hstep m).lt hhelps).trans_eq hsame)

theorem Recurs.shift {f : Nat → Move} {P : Move → Prop} (h : Recurs f P) (n : Nat) :
    Recurs (fun i => f (n + i)) P := by
  intro i
  obtain ⟨m, hm, hP⟩ := h (n + i)
  refine ⟨m - n, by omega, ?_⟩
  show P (f (n + (m - n)))
  rwa [Nat.add_sub_cancel' (by omega)]

/-- A fair schedule is fair from any time on. -/
theorem Fair.shift {f : Nat → Move} (hf : Fair f) (n : Nat) : Fair fun i => f (n + i) :=
  ⟨hf.own.shift n, hf.take.shift n, hf.pass.shift n⟩

/-- The relay task is given as many steps as it needs. -/
theorem Fair.countP_own {f : Nat → Move} (hf : Fair f) (c : Nat) :
    ∃ n, c ≤ (front f n).countP Move.isOwn := by
  induction c with
  | zero => exact ⟨0, Nat.zero_le _⟩
  | succ c ih =>
    obtain ⟨n, hn⟩ := ih
    obtain ⟨m, hm, hown⟩ := hf.own n
    have hmore : (front f n).countP Move.isOwn ≤ (front f m).countP Move.isOwn :=
      ((List.range_sublist.2 hm).map f).countP_le
    refine ⟨m + 1, ?_⟩
    unfold front at hmore ⊢
    rw [List.range_succ, List.map_append, List.countP_append]
    refine Nat.add_le_add (hn.trans hmore) ?_
    simp [hown]

end Exchange

end ToneRelay.Service
