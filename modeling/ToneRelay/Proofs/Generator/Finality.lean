import ToneRelay.Proofs.Generator.Records

/-!
# What is final

`terminate_final`: an owner holds the job file until it terminates its generator, and from then on
it holds nothing at all, however the call was answered; to terminate again is answered at once and
changes nothing. And once it is known how the generator has ended, that is never told in another
way.

A call to terminate that is seen through leads to the release (`closing_run`). An outcome that is
recorded may still get its text, but only from the diagnostics that the same call waits for
(`settled_passage`).
-/

namespace ToneRelay.Generator.Supervised

variable {s t : Supervised} {p : Purpose} {r : Supervised × Option Reply} {o : Outcome}

/-! ## Outcomes -/

/-- It is recorded how the process has ended, and no diagnostics are waited for. -/
def Settled (o : Outcome) (s : Supervised) : Prop :=
  s.handle.outcome = some o ∧ ∀ p deadline, s.stage ≠ some (.joining p deadline)

theorem Ripe.settled (hr : s.Ripe p t) (h : s.Informed) (ho : s.handle.outcome = some o) :
    t.handle.Informed s.process.exit ∧ t.handle.outcome = some o := by
  cases hr with
  | drained hp ht hsome =>
    obtain ⟨hi, -, hsame⟩ := ht.informed h
    exact ⟨hi, hsame.trans ho⟩
  | letGo hsome => exact ⟨h.handle.letGo, ho⟩
  | reaped _ _ hnone | stopped hnone | untold hnone => exact nomatch hnone.symm.trans ho

theorem outcome_conclude (s : Supervised) (p : Purpose) :
    (s.conclude p).1.handle.outcome = s.handle.attach.outcome := by
  cases p with
  | await =>
    rw [conclude_await]
    rfl
  | read => rfl
  | terminate fault => rfl

/-- **A call goes on**, and what is settled stays so. -/
theorem settled_passage (hp : s.Passage p r) (h : s.Informed) (hs : s.Settled o) :
    r.1.Settled o := by
  obtain ⟨ho, hstage⟩ := hs
  cases hp with
  | still => exact ⟨ho, hstage⟩
  | reap _ _ hnone => exact nomatch hnone.symm.trans ho
  | signal _ _ hnone => exact nomatch hnone.symm.trans ho
  | @join t hripe =>
    obtain ⟨hi, hsame⟩ := hripe.settled h ho
    have hreader : t.handle.reader = false := hi.asked (hsame ▸ rfl)
    unfold join
    rw [if_neg (by rw [hreader]; decide)]
    refine ⟨?_, ?_⟩
    · rw [outcome_conclude, hi.attach_eq, hsame]
    · rw [stage_conclude]
      nofun
  | conclude hjoining => exact absurd hjoining (hstage _ _)
  | _ => exact ⟨ho, nofun⟩

theorem settled_opening (hp : s.Opening p r) (h : s.Informed) (hs : s.Settled o) :
    r.1.Settled o := by
  cases hp with
  | known hknown => exact ⟨hs.1, nofun⟩
  | hand hp hpending => exact ⟨hs.1, nofun⟩
  | @listen stage hlistens hd hpending =>
    refine ⟨hs.1, fun q deadline hstage => ?_⟩
    obtain rfl : stage = .joining q deadline := Option.some.inj hstage
    exact hlistens
  | on hp hpassage => exact settled_passage hpassage h hs

theorem Aside.settled {written : List UInt8} (ha : Aside written s t) (hs : s.Settled o) :
    t.Settled o :=
  ⟨by rw [ha.handle, hs.1], by rw [ha.stage]; exact hs.2⟩

theorem settled_step (h : s.Informed) (hs : s.Settled o) (m : Move) : (s.step m).1.Settled o := by
  cases m with
  | call c =>
    obtain ⟨p, -, hp⟩ := s.opening_start c
    exact settled_opening hp h hs
  | poll =>
    show s.poll.1.Settled o
    cases hstage : s.stage with
    | none =>
      rw [poll_of_stage hstage]
      exact hs
    | some stage =>
      obtain ⟨p, -, hp⟩ := h.passage_poll hstage
      exact settled_passage hp h hs
  | cancel => exact ⟨hs.1, nofun⟩
  | act => exact s.aside_act.settled hs
  | drain => exact s.aside_drainOnce.settled hs
  | pass nanos => exact (s.aside_pass nanos).settled hs

theorem settled_run (h : s.Informed) (hs : s.Settled o) (ms : List Move) :
    (s.run ms).1.Settled o := by
  induction ms generalizing s with
  | nil => exact hs
  | cons m ms ih => exact ih (informed_step h m) (settled_step h hs m)

/-! ## The release -/

/-- The generator is being stopped, or has been released. -/
def Closing (s : Supervised) : Prop := s.Stopping ∨ s.Lingering

theorem closing_of_halted {q : Process} (hr : Halted q r) : r.1.Closing := by
  obtain ⟨t, reply⟩ := r
  cases reply with
  | none => exact .inl hr.1
  | some reply =>
    cases reply with
    | stopped => exact .inr hr.1.lingering
    | failed fault => exact .inr hr.1.lingering
    | _ => exact hr.elim

theorem Aside.closing {written : List UInt8} (ha : Aside written s t) (hs : s.Closing) :
    t.Closing :=
  hs.imp ha.stopping ha.lingering

theorem closing_step {m : Move} (hs : s.Closing) (hok : (s.isStopping && m.interrupts) = false) :
    (s.step m).1.Closing := by
  have hbusy : s.Stopping → m.interrupts = false := by
    intro hstopping
    rwa [isStopping_of_stopping hstopping, Bool.true_and] at hok
  cases m with
  | call c =>
    rcases hs with hs | hs
    · exact nomatch hbusy hs
    · exact .inr (lingered_start hs c).1.lingering
  | poll =>
    rcases hs with hs | hs
    · exact closing_of_halted (halted_poll hs)
    · exact .inr (lingered_poll hs).lingering
  | cancel =>
    rcases hs with hs | hs
    · exact nomatch hbusy hs
    · exact .inr ⟨hs.released, nofun⟩
  | act => exact s.aside_act.closing hs
  | drain => exact s.aside_drainOnce.closing hs
  | pass nanos => exact (s.aside_pass nanos).closing hs

theorem closing_run {ms : List Move} (hs : s.Closing) (hok : s.orderly ms = true) :
    (s.run ms).1.Closing := by
  induction ms generalizing s with
  | nil => exact hs
  | cons m ms ih =>
    rw [orderly, Bool.and_eq_true, Bool.not_eq_true'] at hok
    exact ih (closing_step hs hok.1) hok.2

@[simp] theorem orderly_append (s : Supervised) (ms ns : List Move) :
    s.orderly (ms ++ ns) = (s.orderly ms && (s.run ms).1.orderly ns) := by
  induction ms generalizing s with
  | nil => rfl
  | cons m ms ih => simp [orderly, ih, Bool.and_assoc]

/-- **The release.** A generator that has been told to terminate, and is not being stopped any more,
is released. -/
theorem released_of_called {l : Launcher} {job : Job.Description} (h : l.launch job = .ok s)
    {ms : List Move} (hok : s.orderly ms = true) (hstage : (s.run ms).1.stage = none)
    (hcall : .call .terminate ∈ ms) : (s.run ms).1.handle.released = true := by
  obtain ⟨front, back, rfl, hfirst⟩ := List.eq_append_cons_of_mem hcall
  rw [orderly_append, Bool.and_eq_true, orderly, Bool.and_eq_true] at hok
  rw [run_append] at hstage ⊢
  have hunreleased : (s.run front).1.handle.released = false := by
    rw [Bool.eq_false_iff]
    intro hreleased
    exact hfirst (released_run h hreleased).called
  have hclosing := closing_run (closing_of_halted (halted_start hunreleased)) hok.2.2
  rcases hclosing with hstopping | hlingering
  · obtain ⟨stage, hsome, -⟩ := hstopping.stage
    cases hstage.symm.trans hsome
  · exact hlingering.released

/-! ## Histories -/

/-- Nothing is held of a generator, and to terminate it again changes nothing. -/
structure Emptied (s : Supervised) : Prop where
  released : s.handle.released = true
  jobFile : s.handle.jobFile = false
  output : s.handle.output = false
  pending : s.handle.pending = none
  reader : s.handle.reader = false
  again : s.start .terminate = (s, some .stopped)

theorem Informed.emptied (h : s.Informed) (hr : s.handle.released = true)
    (hstage : s.stage = none) : s.Emptied := by
  obtain ⟨hout, hpending, hreader⟩ := h.handle.released hr
  refine ⟨hr, ?_, hout, hpending, hreader, ?_⟩
  · rw [h.handle.jobFile, hr]
    rfl
  · rw [start_of_released hr]
    show ({ s with stage := none }, some Reply.stopped) = _
    rw [← hstage]

/-- **What is final**, whatever has been called before, as long as each call to terminate has been
seen through and no call is under way. -/
theorem terminate_final {l : Launcher} {job : Job.Description} (h : l.launch job = .ok s)
    {ms : List Move} (hok : s.orderly ms = true) (hstage : (s.run ms).1.stage = none) :
    let t := (s.run ms).1
    (t.handle.jobFile = true ↔ .call .terminate ∉ ms) ∧
      (.call .terminate ∈ ms → t.Emptied) ∧
      ∀ o, t.handle.exitStatus = .ok o → ∀ ns, (t.run ns).1.handle.exitStatus = .ok o := by
  intro t
  have hi : t.Informed := informed_run (informed_launch h) ms
  refine ⟨?_, fun hcall => hi.emptied (released_of_called h hok hstage hcall) hstage, ?_⟩
  · rw [hi.handle.jobFile, Bool.not_eq_true', Bool.eq_false_iff]
    constructor
    · intro hnot hcall
      exact hnot (released_of_called h hok hstage hcall)
    · intro hnot hreleased
      exact hnot (released_run h hreleased).called
  · intro o ho ns
    have hsettled : t.Settled o :=
      ⟨Handle.exitStatus_eq_ok_iff.1 ho, by rw [hstage]; nofun⟩
    exact Handle.exitStatus_eq_ok_iff.2 (settled_run hi hsettled ns).1

/-- A program that complains and fails, and for which a wait fails first. -/
def lost : Launcher where
  command := {}
  installed := .runs [.act (.err [111, 104]), .act (.failWait "no child"), .act (.exit 3)]
  jobPath := []

/-- The same program, once it has been launched. -/
def lostStart : Supervised where
  process := {
    todo := [.err [111, 104], .failWait "no child", .exit 3]
    ready := startTime.nanos
    output := ⟨[], pipeCapacity, Nat.zero_add _⟩ }

/-- It is stopped, which fails, and only a later wait for its output tells how it has ended. -/
def lostMoves : List Move :=
  [.pass startTime.nanos, .act, .act, .call .terminate, .act, .drain, .drain, .poll,
    .call (.await 1 (.ofSecs 1)), .poll, .poll]

theorem terminate_final_failed :
    lost.launch ⟨[], ⟨44100, 100⟩, []⟩ = .ok lostStart ∧ lostStart.orderly lostMoves = true ∧
      (lostStart.run lostMoves).2 = [.failed (.wait "no child"), .failed (.exitedEarly "oh")] ∧
      (lostStart.run lostMoves).1.Emptied ∧
      ∀ ns, ((lostStart.run lostMoves).1.run ns).1.handle.exitStatus =
        .ok (.failure (some 3) "oh") := by
  have hlaunch : lost.launch ⟨[], ⟨44100, 100⟩, []⟩ = .ok lostStart := rfl
  have hok : lostStart.orderly lostMoves = true := by decide
  obtain ⟨-, hemptied, hstable⟩ := terminate_final hlaunch hok (by decide)
  exact ⟨hlaunch, hok, by decide, hemptied (by decide), hstable _ rfl⟩

end ToneRelay.Generator.Supervised
