import ToneRelay.Proofs.Service.Schedule

/-!
# The outcome of a stream

`relay_outcome`: when the relay task of a stream is done, it has moved the session once, to one of
the three final states, and the move was not refused; it has counted the end once and recorded one
report, with the same state and the same bytes. State and diagnostic follow from the ending of the
relay and the recorded exit of the generator (`Verdict`). Once the relay has ended, the task is done
within seven steps of its own, whatever else happens in between; and a relay that will end does so
under a fair schedule.
-/

namespace ToneRelay.Service

open Generator (Supervised Fault Outcome)
open ToneRelay.Stream (Books Ending Moment Piece Session Transfer Update)

namespace Exchange

/-! ## State and diagnostic -/

/-- The state and the diagnostic of a stream, by the ending of its relay and the recorded exit of
its generator. -/
inductive Verdict : Ending → Except Fault Outcome → Stream.State → Option String → Prop
  | completed (total : Nat) : Verdict (.finished total) (.ok .success) .completed none
  | exited (total : Nat) (code : UInt8) (diagnostics : String) :
    Verdict (.finished total) (.ok (.failure (some code) diagnostics)) .failed
      (some ("generator exited with status " ++ code.toNat.repr ++ ": " ++ diagnostics))
  | killed (total : Nat) (diagnostics : String) :
    Verdict (.finished total) (.ok (.failure none diagnostics)) .failed
      (some ("generator killed by signal: " ++ diagnostics))
  | aborted (total : Nat) (exit : Except Fault Outcome) :
    Verdict (.consumerGone total) exit .aborted none
  /-- A failed read is told with the diagnostics of a recorded failure that has any. -/
  | explained (total : Nat) (fault : Fault) (code : Option UInt8) (diagnostics : String)
    (h : diagnostics ≠ "") :
    Verdict (.sourceFailed total fault) (.ok (.failure code diagnostics)) .failed
      (some (fault.message ++ ": " ++ diagnostics))
  | unexplained (total : Nat) (fault : Fault) (exit : Except Fault Outcome)
    (h : ∀ code diagnostics, exit = .ok (.failure code diagnostics) → diagnostics = "") :
    Verdict (.sourceFailed total fault) exit .failed (some fault.message)

namespace Verdict

variable {e : Ending} {exit : Except Fault Outcome} {state : Stream.State}
  {diagnostic : Option String}

theorem completed_iff (h : Verdict e exit state diagnostic) :
    state = .completed ↔ (∃ total, e = .finished total) ∧ exit = .ok .success := by
  cases h <;> simp

theorem aborted_iff (h : Verdict e exit state diagnostic) :
    state = .aborted ↔ ∃ total, e = .consumerGone total := by
  cases h <;> simp

theorem failed_iff (h : Verdict e exit state diagnostic) : state = .failed ↔
    ((∃ total, e = .finished total) ∧ ∃ code diagnostics, exit = .ok (.failure code diagnostics)) ∨
      ∃ total fault, e = .sourceFailed total fault := by
  cases h <;> simp

theorem diagnostic_iff (h : Verdict e exit state diagnostic) :
    diagnostic.isSome ↔ state = .failed := by
  cases h <;> simp

theorem terminal (h : Verdict e exit state diagnostic) : state.terminal := by
  cases h <;> rfl

end Verdict

/-- The exit is known when the end of the output has been handed out. -/
def Exited (e : Ending) (exit : Except Fault Outcome) : Prop :=
  e.isFinished = true → ∃ o, exit = .ok o

theorem verdict_of_exited {e : Ending} {exit : Except Fault Outcome} (h : Exited e exit) :
    Verdict e exit (verdict e exit) (complaint e exit) := by
  cases e with
  | finished total =>
    obtain ⟨o, rfl⟩ := h rfl
    rcases o with _ | ⟨_ | code, diagnostics⟩
    · exact .completed total
    · exact .killed total diagnostics
    · exact .exited total code diagnostics
  | consumerGone total => exact .aborted total exit
  | sourceFailed total fault =>
    rcases exit with fault' | _ | ⟨code, diagnostics⟩
    · exact .unexplained total fault _ nofun
    · exact .unexplained total fault _ nofun
    · show Verdict _ _ .failed (some (readReason fault (.ok (.failure code diagnostics))))
      unfold readReason
      dsimp only
      by_cases hd : diagnostics = ""
      · rw [if_neg (not_not_intro hd)]
        apply Verdict.unexplained
        intro code' diagnostics' heq
        cases heq
        exact hd
      · rw [if_pos hd]
        exact .explained total fault code diagnostics hd

/-- How a stream has ended that is over. -/
structure Closes (b : Books) (es : List Effect) (s : Session) (t : Transfer) : Prop where
  /-- Each event was counted once, and one report was recorded, with the state and the bytes that
  were counted. -/
  effects : es = [.count .request, .launch, .count .started, .count .enter, .count .leave,
    .count (.relayed s.bytes), .count (.ended s.state), .record s.report]
  /-- One move, which was not refused, has taken the session to its end. -/
  moved : ∃ (e : Ending) (s₀ : Session) (now : Moment), t.pump.phase = .done e ∧
    s₀.state = .streaming ∧
      s₀.perform now (closingCall e t.source.handle.exitStatus) = (s, none)
  verdict : ∃ e, t.pump.phase = .done e ∧
    Verdict e t.source.handle.exitStatus s.state s.diagnostic
  terminal : s.state.terminal
  completed : s.state = .completed ↔ (∃ total, t.pump.phase = .done (.finished total)) ∧
    t.source.handle.exitStatus = .ok .success
  failed : s.state = .failed ↔
    ((∃ total, t.pump.phase = .done (.finished total)) ∧
      ∃ code diagnostics, t.source.handle.exitStatus = .ok (.failure code diagnostics)) ∨
    ∃ total fault, t.pump.phase = .done (.sourceFailed total fault)
  aborted : s.state = .aborted ↔ ∃ total, t.pump.phase = .done (.consumerGone total)
  diagnostic : s.diagnostic.isSome ↔ s.state = .failed
  /-- There is a recorded exit whenever the end of the output was handed out. -/
  exited : (∃ total, t.pump.phase = .done (.finished total)) →
    ∃ o, t.source.handle.exitStatus = .ok o
  /-- The relay stops for a listener only when it has gone. -/
  gone : (∃ total, t.pump.phase = .done (.consumerGone total)) → t.channel.receiver = .gone
  parameters : s.parameters.isSome
  finishedAt : s.finishedAt.isSome
  bytes : s.bytes = Piece.total b.accepted

variable {x : Exchange} {b : Books} {es : List Effect}

theorem closes_of_kept {s : Session} {t : Transfer} (h : x.Kept b es)
    (hphase : x.phase = .over s t) : Closes b es s t := by
  unfold Kept at h
  rw [hphase] at h
  obtain ⟨hes, ⟨e, s₀, now, hdone, hs₀, hperform⟩, ht⟩ := h
  have hf := ht.flows
  unfold Transfer.Flows at hf
  rw [hdone] at hf
  obtain ⟨-, houtcome, -, hexplained⟩ := hf
  have hexited : Exited e t.source.handle.exitStatus := by
    intro hfinished
    obtain ⟨o, ho⟩ := Option.isSome_iff_exists.1 (houtcome hfinished)
    refine ⟨o, ?_⟩
    unfold Generator.Handle.exitStatus
    rw [ho]
  have heq := perform_closingCall_eq hs₀ hperform
  have hverdict : Verdict e t.source.handle.exitStatus s.state s.diagnostic := by
    rw [heq]
    exact verdict_of_exited hexited
  have hphase_iff : ∀ e', t.pump.phase = .done e' ↔ e = e' := by
    intro e'
    rw [hdone, Stream.Phase.done.injEq]
  refine ⟨hes, ⟨e, s₀, now, hdone, hs₀.state, hperform⟩, ⟨e, hdone, hverdict⟩, hverdict.terminal,
    ?_, ?_, ?_, hverdict.diagnostic_iff, ?_, ?_, ?_, ?_, ?_⟩
  · simp only [hphase_iff]
    exact hverdict.completed_iff
  · simp only [hphase_iff]
    exact hverdict.failed_iff
  · simp only [hphase_iff]
    exact hverdict.aborted_iff
  · rintro ⟨total, hfinished⟩
    rw [hphase_iff] at hfinished
    exact hexited (by rw [hfinished]; rfl)
  · rintro ⟨total, hgone⟩
    rw [hphase_iff] at hgone
    rw [hgone] at hexplained
    exact hexplained.2
  · rw [heq]
    exact hs₀.parameters
  · rw [heq]
    rfl
  · rw [heq, ← ht.carried.total]
    exact hexplained.total_eq

/-! ## The last steps -/

/-- The number of steps that the relay task takes after the relay has ended. -/
def toGo? (x : Exchange) : Option Nat :=
  match x.phase with
  | .relaying _ _ => some 7
  | .settling us _ _ => some (us.length + 3)
  | .recording _ _ => some 2
  | .ending _ _ => some 1
  | .over _ _ => some 0
  | _ => none

/-- The relay has ended, and the relay task has a number of steps to go. -/
structure Ends (e : Ending) (n : Nat) (x : Exchange) : Prop where
  toGo : x.toGo? = some n
  done : ∃ t, x.transfer? = some t ∧ t.pump.phase = .done e

theorem ends_conclude {now : Moment} {s : Session} {t : Transfer} {e : Ending}
    (hphase : t.pump.phase = .done e) (ht : t.Sound x.script b) :
    (x.conclude now s t e).1.Ends e 6 := by
  have hf := ht.flows
  unfold Transfer.Flows at hf
  rw [hphase] at hf
  obtain ⟨g, hstart, -⟩ := hf.1.start_terminate
  unfold conclude
  rw [hstart]
  exact ⟨rfl, _, rfl, hphase⟩

/-- A step of the relay task brings it nearer to its end. -/
theorem ends_proceed {e : Ending} {n : Nat} (h : x.Ends e n) (hk : x.Kept b es) (now : Moment) :
    (x.proceed now).1.Ends e (n - 1) := by
  obtain ⟨htogo, t, ht, hdone⟩ := h
  have hover : x.toGo? = some 0 → x.Ends e 0 := by
    intro hzero
    exact ⟨hzero, t, ht, hdone⟩
  unfold toGo? at htogo hover
  unfold transfer? at ht
  unfold proceed
  cases hphase : x.phase with
  | relaying s u =>
    unfold Kept at hk
    rw [hphase] at htogo ht hk
    obtain rfl := Option.some.inj htogo
    obtain rfl := Option.some.inj ht
    dsimp only
    rw [Stream.Pump.ending?_eq_some_iff.2 hdone]
    exact ends_conclude hdone hk.2.2.toSound
  | settling us s u =>
    rw [hphase] at htogo ht
    obtain rfl := Option.some.inj htogo
    cases us <;> exact ⟨rfl, t, ht, hdone⟩
  | recording s u =>
    rw [hphase] at htogo ht
    obtain rfl := Option.some.inj htogo
    exact ⟨rfl, t, ht, hdone⟩
  | ending s u =>
    rw [hphase] at htogo ht
    obtain rfl := Option.some.inj htogo
    obtain rfl := Option.some.inj ht
    exact ⟨rfl, _, rfl, hdone⟩
  | «over» s u =>
    rw [hphase] at htogo hover
    obtain rfl := Option.some.inj htogo
    exact hover rfl
  | _ =>
    rw [hphase] at htogo
    cases htogo

/-- The steps of the others do not hold it up. -/
theorem ends_mapTransfer {e : Ending} {n : Nat} {f : Transfer → Transfer} (h : x.Ends e n)
    (hf : ∀ t, (f t).pump = t.pump) : (x.mapTransfer f).Ends e n := by
  obtain ⟨htogo, t, ht, hdone⟩ := h
  refine ⟨?_, f t, ?_, by rw [hf t, hdone]⟩
  · rw [← htogo]
    unfold mapTransfer toGo?
    cases x.phase <;> rfl
  · simp [ht]

theorem ends_mapSource {e : Ending} {n : Nat} (f : Supervised → Supervised) (h : x.Ends e n) :
    (x.mapSource f).Ends e n := by
  have hmap : x.mapSource f = x.mapTransfer (fun t => { t with source := f t.source }) := by
    have htogo := h.toGo
    unfold toGo? at htogo
    unfold mapSource
    split
    · next hphase => rw [hphase] at htogo; cases htogo
    · next hphase => rw [hphase] at htogo; cases htogo
    · next hphase => rw [hphase] at htogo; cases htogo
    · rfl
  rw [hmap]
  exact ends_mapTransfer h fun _ => rfl

theorem ends_step {e : Ending} {n : Nat} (h : x.Ends e n) (hk : x.Kept b es) (m : Move) :
    (x.step m).1.Ends e (if m.isOwn then n - 1 else n) := by
  cases m with
  | proceed now => exact ends_proceed h hk now
  | take => exact ends_mapTransfer h Transfer.pump_take
  | leave => exact ends_mapTransfer h fun _ => rfl
  | _ => exact ends_mapSource _ h

/-- After so many steps of its own the relay task is done. -/
theorem ends_run {e : Ending} {n : Nat} (h : x.Ends e n) (hk : x.Kept b es) (ms : List Move) :
    (x.run ms).1.Ends e (n - ms.countP Move.isOwn) := by
  induction ms generalizing x b es n with
  | nil => exact h
  | cons m ms ih =>
    have hrest := ih (ends_step h hk m) (kept_step hk m)
    have hcount : (if m.isOwn then n - 1 else n) - ms.countP Move.isOwn =
        n - (m :: ms).countP Move.isOwn := by
      rw [List.countP_cons]
      split <;> omega
    rwa [hcount] at hrest

theorem over_of_ends {e : Ending} (h : x.Ends e 0) :
    ∃ s t, x.phase = .over s t ∧ t.pump.phase = .done e := by
  obtain ⟨htogo, t, ht, hdone⟩ := h
  unfold toGo? at htogo
  unfold transfer? at ht
  cases hphase : x.phase with
  | «over» s u =>
    rw [hphase] at ht
    obtain rfl := Option.some.inj ht
    exact ⟨s, _, rfl, hdone⟩
  | settling us s u =>
    rw [hphase] at htogo
    exact absurd (Option.some.inj htogo) (by omega)
  | _ =>
    rw [hphase] at htogo
    cases htogo

/-- A relay that has ended leaves the relay task with seven steps to take. -/
theorem over_of_done {s : Session} {t : Transfer} {e : Ending} (hk : x.Kept b es)
    (hphase : x.phase = .relaying s t) (hdone : t.pump.phase = .done e) {ms : List Move}
    (hms : 7 ≤ ms.countP Move.isOwn) :
    ∃ s' t', (x.run ms).1.phase = .over s' t' ∧ t'.pump.phase = .done e := by
  have hends : x.Ends e 7 := by
    refine ⟨?_, t, ?_, hdone⟩
    · unfold toGo?
      rw [hphase]
    · unfold transfer?
      rw [hphase]
  have hover := ends_run hends hk ms
  rw [Nat.sub_eq_zero_of_le hms] at hover
  exact over_of_ends hover

/-- A stream that will end does so under a fair schedule. -/
theorem over_of_doomed {s : Session} {t : Transfer} (hk : x.Kept b es)
    (hphase : x.phase = .relaying s t) (hd : t.Doomed) {f : Nat → Move} (hf : Fair f) :
    ∃ n s' t', (x.run (front f n)).1.phase = .over s' t' := by
  obtain ⟨n, u, e, hrelaying, hdone⟩ := relay_ends hf hk hphase hd
  obtain ⟨k, hsteps⟩ := (hf.shift n).countP_own 7
  obtain ⟨s', t', hover, -⟩ := over_of_done (kept_run hk _) hrelaying hdone hsteps
  exact ⟨n + k, s', t', by rw [front_add, run_append, hover]⟩

/-- **The outcome of a stream.** A stream that is over has ended in one state by one move, and has
been counted and reported once. It is over as soon as the relay has ended and the relay task has
taken seven steps more; and the relay does end, under a fair schedule, once the listener has gone,
the generator has exited or the relay stops it. -/
theorem relay_outcome (hx : x.phase = .arrived) (ms : List Move) :
    (∀ s t, (x.run ms).1.phase = .over s t → Closes (x.books {} ms) (x.run ms).2 s t) ∧
    ∀ s t, (x.run ms).1.phase = .relaying s t →
      (∀ e, t.pump.phase = .done e → ∀ more : List Move, 7 ≤ more.countP Move.isOwn →
        ∃ s' t', (x.run (ms ++ more)).1.phase = .over s' t' ∧ t'.pump.phase = .done e) ∧
      (t.Doomed → ∀ f, Fair f → ∃ n s' t', (x.run (ms ++ front f n)).1.phase = .over s' t') := by
  have hkept := kept_run (kept_of_arrived hx) ms
  rw [List.nil_append] at hkept
  constructor
  · intro s t hphase
    exact closes_of_kept hkept hphase
  · intro s t hphase
    constructor
    · intro e hdone more hmore
      rw [run_append]
      exact over_of_done hkept hphase hdone hmore
    · intro hd f hf
      obtain ⟨n, s', t', hover⟩ := over_of_doomed hkept hphase hd hf
      exact ⟨n, s', t', by rw [run_append, hover]⟩

/-- A short exchange is over after its last step. One whose listener goes away is over when everyone
has had a turn often enough. -/
theorem relay_outcome_sample :
    (∃ s t, (sample.run sampleMoves).1.phase = .over s t ∧
      Closes (sample.books {} sampleMoves) (sample.run sampleMoves).2 s t) ∧
    ∃ s t, (sample.run (sampleMoves.take 10 ++ [.leave])).1.phase = .relaying s t ∧ t.Doomed ∧
      ∃ n s' t', (sample.run (sampleMoves.take 10 ++ [.leave] ++
        front (inTurn ⟨"2024-01-01T00:00:00Z"⟩) n)).1.phase = .over s' t' := by
  constructor
  · obtain ⟨s, t, hphase⟩ : ∃ s t, (sample.run sampleMoves).1.phase = .over s t := ⟨_, _, rfl⟩
    exact ⟨s, t, hphase, (relay_outcome rfl sampleMoves).1 s t hphase⟩
  · obtain ⟨s, t, hphase, hgone⟩ : ∃ s t,
        (sample.run (sampleMoves.take 10 ++ [.leave])).1.phase = .relaying s t ∧
          t.channel.receiver = .gone := ⟨_, _, rfl, rfl⟩
    have hd := Transfer.doomed_of_gone hgone
    refine ⟨s, t, hphase, hd, ?_⟩
    exact ((relay_outcome rfl _).2 s t hphase).2 hd _ (fair_inTurn _)

end Exchange

end ToneRelay.Service
