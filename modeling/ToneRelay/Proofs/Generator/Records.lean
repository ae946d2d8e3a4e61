import ToneRelay.Proofs.Generator.Passage
import ToneRelay.Proofs.Generator.Release

/-!
# What an owner has found out

Whatever its owner asks for and drops, what it has recorded of a generator is true of it
(`informed_run`): a recorded outcome tells how the process has ended, its text is that of the
diagnostics as far as they are known, and the reader of the diagnostics has then been asked for
them. Where nothing is held any more, that is so for good.

In the middle of a step an outcome may be recorded whose text is still missing (`Handle.Recorded`);
it is put in before the call is answered (`Handle.Recorded.attach`).
-/

namespace ToneRelay.Generator

/-- An outcome tells how a process has ended. -/
def Outcome.Tells (status : Status) : Outcome → Prop
  | .success => status = .code 0
  | .failure code _ => status ≠ .code 0 ∧ code = status.exitCode

namespace Handle

/-- What has been recorded of a process that has ended as `exit` tells, if it has; the text of a
failure may be missing. -/
structure Recorded (h : Handle) (exit : Option Status) : Prop where
  exit : ∀ o, h.outcome = some o → ∃ status, exit = some status ∧ o.Tells status
  text : ∀ code text, h.outcome = some (.failure code text) →
    text = "" ∨ text = h.diagnostics.getD ""
  /-- An owner that has seen the end of the output, or knows that of the process, reads no more. -/
  drained : h.drained = true → h.output = false
  outcome : h.outcome.isSome → h.output = false
  reader : h.reader = true → h.diagnostics = none
  jobFile : h.jobFile = !h.released
  released : h.released = true → h.output = false ∧ h.pending = none ∧ h.reader = false

/-- The same, with all texts, where the reader of the diagnostics has been asked. -/
structure Informed (h : Handle) (exit : Option Status) : Prop extends Recorded h exit where
  asked : h.outcome.isSome → h.reader = false
  told : ∀ code text, h.outcome = some (.failure code text) → text = h.diagnostics.getD ""

variable {h : Handle} {x y : Option Status}

theorem exitStatus_eq_ok_iff {o : Outcome} : h.exitStatus = .ok o ↔ h.outcome = some o := by
  unfold exitStatus
  split
  · next o' ho => rw [ho, Except.ok.injEq, Option.some.injEq]
  · next ho =>
    rw [ho]
    exact ⟨nofun, nofun⟩

theorem Recorded.mono (hr : h.Recorded x) (hx : ∀ status, x = some status → y = some status) :
    h.Recorded y :=
  ⟨fun o ho => (hr.exit o ho).imp fun status hs => ⟨hx status hs.1, hs.2⟩, hr.text, hr.drained,
    hr.outcome, hr.reader, hr.jobFile, hr.released⟩

theorem Informed.mono (hi : h.Informed x) (hx : ∀ status, x = some status → y = some status) :
    h.Informed y :=
  ⟨hi.toRecorded.mono hx, hi.asked, hi.told⟩

theorem Informed.pending (hi : h.Informed x) {chunk : Option (List UInt8)}
    (hc : h.output = true ∨ chunk = none) : { h with pending := chunk }.Informed x := by
  refine ⟨⟨hi.exit, hi.text, hi.drained, hi.outcome, hi.reader, hi.jobFile, fun hr => ?_⟩, hi.asked,
    hi.told⟩
  obtain ⟨hout, -, hreader⟩ := hi.released hr
  refine ⟨hout, hc.resolve_left ?_, hreader⟩
  rw [hout]
  decide

theorem Informed.drain (hi : h.Informed x) : h.drain.Informed x :=
  ⟨⟨hi.exit, hi.text, fun _ => rfl, fun _ => rfl, hi.reader, hi.jobFile,
    fun hr => ⟨rfl, (hi.released hr).2⟩⟩, hi.asked, hi.told⟩

theorem Informed.letGo (hi : h.Informed x) : h.letGo.Informed x :=
  ⟨⟨hi.exit, hi.text, fun _ => rfl, fun _ => rfl, hi.reader, hi.jobFile,
    fun hr => ⟨rfl, rfl, (hi.released hr).2.2⟩⟩, hi.asked, hi.told⟩

/-- **Recording.** What is recorded is how the process has ended. -/
theorem Informed.record (hi : h.Informed x) (hout : h.output = false) {status : Status}
    (hx : x = some status) : (h.record status).Recorded x := by
  refine ⟨?_, ?_, hi.drained, fun _ => hout, hi.reader, hi.jobFile, hi.released⟩
  · intro o ho
    refine ⟨status, hx, ?_⟩
    obtain rfl := Option.some.inj ho
    split
    · next hs => exact hs
    · next hs => exact ⟨hs, rfl⟩
  · intro code text ho
    have ho := Option.some.inj ho
    split at ho
    · cases ho
    · cases ho
      exact .inr rfl

/-- The text of a failure is that of the diagnostics once it has been put in. -/
theorem outcome_attach {code : Option UInt8} {text : String}
    (ho : h.outcome = some (.failure code text))
    (ht : text = "" ∨ text = h.diagnostics.getD "") :
    h.attach.outcome = some (.failure code (h.diagnostics.getD "")) := by
  cases hd : h.diagnostics with
  | none =>
    rw [hd, Option.getD_none, or_self] at ht
    subst ht
    simp [attach, ho, hd]
  | some told =>
    rw [hd, Option.getD_some] at ht
    rcases ht with rfl | rfl
    · simp [attach, ho, hd]
    · by_cases htext : text = ""
      · subst htext
        simp [attach, ho, hd]
      · simp [attach, ho, hd, htext]

/-- **Putting the text in.** -/
theorem Recorded.attach (hr : h.Recorded x) (hreader : h.reader = false) :
    h.attach.Informed x := by
  have hplain : h.attach = h → (∀ code text, h.outcome ≠ some (.failure code text)) →
      h.attach.Informed x := by
    intro heq hnot
    rw [heq]
    exact ⟨hr, fun _ => hreader, fun code text ho => absurd ho (hnot code text)⟩
  cases ho : h.outcome with
  | none => exact hplain (by simp [Handle.attach, ho]) (by simp [ho])
  | some o =>
    cases o with
    | success => exact hplain (attach_of_success ho) (by simp [ho])
    | failure code text =>
      obtain ⟨status, hx, htells⟩ := hr.exit _ ho
      rw [attach_eq, outcome_attach ho (hr.text code text ho)]
      refine ⟨⟨?_, ?_, hr.drained, fun _ => hr.outcome (ho ▸ rfl), hr.reader, hr.jobFile,
        hr.released⟩, fun _ => hreader, ?_⟩
      · intro o' ho'
        obtain rfl := Option.some.inj ho'
        exact ⟨status, hx, htells⟩
      · intro code' text' ho'
        cases Option.some.inj ho'
        exact .inr rfl
      · intro code' text' ho'
        cases Option.some.inj ho'
        rfl

/-- Where no text is missing there is none to put in. -/
theorem Informed.attach_eq (hi : h.Informed x) : h.attach = h := by
  cases ho : h.outcome with
  | none => simp [Handle.attach, ho]
  | some o =>
    cases o with
    | success => exact attach_of_success ho
    | failure code text =>
      have htext := hi.told code text ho
      have hsame : h.attach.outcome = h.outcome := by
        rw [outcome_attach ho (.inr htext), ho, ← htext]
      rw [Handle.attach_eq, hsame]

end Handle

namespace Supervised

/-- What an owner has found out is true, and it waits for nothing else. -/
structure Informed (s : Supervised) : Prop where
  handle : s.handle.Informed s.process.exit
  stage : ∀ stage, s.stage = some stage → stage.Suits s.handle

variable {s t : Supervised} {p : Purpose} {r : Supervised × Option Reply}

theorem informed_launch {l : Launcher} {job : Job.Description} (h : l.launch job = .ok s) :
    s.Informed := by
  obtain ⟨todo, rfl⟩ := launch_eq h
  exact ⟨⟨⟨nofun, nofun, nofun, nofun, fun _ => rfl, rfl, nofun⟩, nofun, nofun⟩, nofun⟩

theorem SeesEnd.informed (ht : s.SeesEnd t) (h : s.Informed) :
    t.handle.Informed s.process.exit ∧ t.handle.drained = true ∧
      t.handle.outcome = s.handle.outcome := by
  rcases ht with ⟨rfl, hd⟩ | rfl
  · exact ⟨h.handle, hd, rfl⟩
  · exact ⟨h.handle.drain, rfl, rfl⟩

/-- A process whose end is told has ended so. -/
theorem exit_of_ended {status : Status} {q : Process} (hw : s.process.wait = (.ended status, q)) :
    s.process.exit = some status := by
  unfold Process.wait at hw
  split at hw
  · cases hw
  · split at hw
    · next hexit =>
      cases hw
      exact hexit
    · cases hw

theorem Ripe.recorded (hr : s.Ripe p t) (h : s.Informed) :
    t.handle.Recorded s.process.exit ∧ p.Ready t.handle := by
  have hi := h.handle
  cases hr with
  | drained hp ht ho =>
    obtain ⟨ht', hd, hsame⟩ := ht.informed h
    exact ⟨ht'.toRecorded, Purpose.ready_of_drained hp hd (hsame ▸ ho)⟩
  | reaped hp hd ho hw =>
    exact ⟨hi.record (hi.drained hd) (exit_of_ended hw), Purpose.ready_of_drained hp hd rfl⟩
  | letGo ho => exact ⟨hi.letGo.toRecorded, rfl, rfl⟩
  | stopped ho hw => exact ⟨hi.letGo.record rfl (exit_of_ended hw), rfl, rfl⟩
  | untold ho hw => exact ⟨hi.letGo.toRecorded, rfl, rfl⟩

/-- **The end of a call.** -/
theorem informed_conclude {x : Option Status} (hr : s.handle.Recorded x)
    (hreader : s.handle.reader = false) (hp : p.Ready s.handle) :
    (s.conclude p).1.handle.Informed x := by
  have hi := hr.attach hreader
  cases p with
  | await =>
    rw [conclude_await]
    exact hi
  | read =>
    exact ⟨⟨hi.exit, hi.text, hi.drained, hi.outcome, hi.reader, hi.jobFile, hi.released⟩, hi.asked,
      hi.told⟩
  | terminate fault =>
    obtain ⟨hout, hpending⟩ := hp
    refine ⟨⟨hi.exit, hi.text, hi.drained, hi.outcome, hi.reader, rfl, fun _ => ?_⟩, hi.asked,
      hi.told⟩
    show s.handle.attach.output = false ∧ s.handle.attach.pending = none ∧
      s.handle.attach.reader = false
    simpa using ⟨hout, hpending, hreader⟩

theorem stage_conclude (s : Supervised) (p : Purpose) : (s.conclude p).1.stage = none := by
  obtain ⟨h, heq⟩ := s.conclude_eq p
  rw [heq]

/-- An owner that asks for the diagnostics knows none yet. -/
theorem informed_ask {x : Option Status} {deadline : Nat} (hr : s.handle.Recorded x)
    (hreader : s.handle.reader = true) (hp : p.Ready s.handle) :
    let t := ((s.own fun h => { h with reader := false }).wait (.joining p deadline)).1
    t.handle.Informed x ∧ ∀ stage, t.stage = some stage → stage.Suits t.handle := by
  have hnone := hr.reader hreader
  refine ⟨⟨⟨hr.exit, hr.text, hr.drained, hr.outcome, nofun, hr.jobFile, ?_⟩, fun _ => rfl, ?_⟩, ?_⟩
  · intro hreleased
    obtain ⟨hout, hpending, -⟩ := hr.released hreleased
    exact ⟨hout, hpending, rfl⟩
  · intro code text ho
    show text = s.handle.diagnostics.getD ""
    rcases hr.text code text ho with rfl | htext
    · rw [hnone, Option.getD_none]
    · exact htext
  · intro stage hstage
    obtain rfl := Option.some.inj hstage
    exact ⟨rfl, hnone, by cases p <;> exact hp⟩

/-- **A call goes on.** -/
theorem informed_passage (hp : s.Passage p r) (h : s.Informed) : r.1.Informed := by
  have hx := hp.untouched.exit
  have hi := h.handle
  suffices hsuff : r.1.handle.Informed s.process.exit ∧
      ∀ stage, r.1.stage = some stage → stage.Suits r.1.handle from ⟨hsuff.1.mono hx, hsuff.2⟩
  cases hp with
  | still => exact ⟨hi, h.stage⟩
  | late hp => exact ⟨hi, nofun⟩
  | ahead hp hout hr => exact ⟨hi.pending (.inl hout), nofun⟩
  | data hp hr => exact ⟨hi, nofun⟩
  | unread hp hr => exact ⟨hi, nofun⟩
  | untold hp hw => exact ⟨hi, nofun⟩
  | reap hp ht ho =>
    obtain ⟨ht', hd, hsame⟩ := ht.informed h
    refine ⟨ht', fun stage hstage => ?_⟩
    obtain rfl := Option.some.inj hstage
    exact ⟨hp, hd, hsame.trans ho⟩
  | signal hp hs ho =>
    refine ⟨hi, fun stage hstage => ?_⟩
    obtain rfl := Option.some.inj hstage
    rcases hs with rfl | ⟨deadline, rfl⟩ <;> exact ho
  | @join t hripe =>
    obtain ⟨hrecorded, hready⟩ := hripe.recorded h
    unfold join
    split
    · next hreader => exact informed_ask hrecorded hreader hready
    · next hreader =>
      have hstage := t.stage_conclude p
      refine ⟨informed_conclude hrecorded (Bool.eq_false_iff.2 hreader) hready, ?_⟩
      rw [hstage]
      nofun
  | @conclude deadline bytes hs hb =>
    obtain ⟨hreader, hnone, hready⟩ := h.stage _ hs
    have hstage := (s.own (·.collect bytes)).stage_conclude p
    refine ⟨informed_conclude ⟨hi.exit, ?_, hi.drained, hi.outcome, ?_, hi.jobFile, hi.released⟩
      hreader ?_, ?_⟩
    · intro code text ho
      have htext := hi.told code text ho
      rw [hnone] at htext
      exact .inl htext
    · intro hr
      exact absurd (hreader.symm.trans hr) (by decide)
    · cases p <;> exact hready
    · rw [hstage]
      nofun

/-- **A call begins.** -/
theorem informed_opening (hp : s.Opening p r) (h : s.Informed) : r.1.Informed := by
  cases hp with
  | known hknown => exact ⟨h.handle, nofun⟩
  | hand hp hpending => exact ⟨h.handle.pending (.inr rfl), nofun⟩
  | @listen stage hs hd hpending =>
    refine ⟨h.handle, fun stage' hstage => ?_⟩
    obtain rfl : stage = stage' := Option.some.inj hstage
    cases stage with
    | awaiting max limit deadline => trivial
    | reading max => trivial
    | _ => exact hs.elim
  | on hp hpassage => exact informed_passage hpassage h

/-- A process that has ended stays as it ended. -/
theorem exit_act {status : Status} (hx : s.process.exit = some status) :
    s.act.process.exit = some status := by
  have hsome : s.process.exit.isSome := by rw [hx]; rfl
  unfold act
  rw [Process.act_of_exit hsome, Option.getD_none, hx]

theorem exit_drainOnce (s : Supervised) : s.drainOnce.process.exit = s.process.exit := by
  obtain ⟨errors, he⟩ := step_drain s.drain s.process
  show (s.drain.step s.process).2.exit = _
  rw [he]

theorem Aside.informed {written : List UInt8} (ha : Aside written s t)
    (hx : ∀ status, s.process.exit = some status → t.process.exit = some status)
    (h : s.Informed) : t.Informed := by
  refine ⟨?_, ?_⟩
  · rw [ha.handle]
    exact h.handle.mono hx
  · rw [ha.stage, ha.handle]
    exact h.stage

theorem poll_of_stage (hstage : s.stage = none) : s.poll = (s, none) := by
  unfold poll
  rw [hstage]

/-- A call that goes on is on its passage. -/
theorem Informed.passage_poll (h : s.Informed) {stage : Stage} (hstage : s.stage = some stage) :
    ∃ p, stage.For p ∧ s.Passage p s.poll :=
  Supervised.passage_poll hstage (h.stage stage hstage)

/-- **One thing happens.** -/
theorem informed_step (h : s.Informed) (m : Move) : (s.step m).1.Informed := by
  cases m with
  | call c =>
    obtain ⟨p, -, hp⟩ := s.opening_start c
    exact informed_opening hp h
  | poll =>
    show s.poll.1.Informed
    cases hstage : s.stage with
    | none =>
      rw [poll_of_stage hstage]
      exact h
    | some stage =>
      obtain ⟨p, -, hp⟩ := h.passage_poll hstage
      exact informed_passage hp h
  | cancel => exact ⟨h.handle, nofun⟩
  | act => exact s.aside_act.informed (fun _ => exit_act) h
  | drain => exact s.aside_drainOnce.informed (fun _ => s.exit_drainOnce.trans) h
  | pass nanos => exact (s.aside_pass nanos).informed (fun _ => id) h

theorem untouched_start (s : Supervised) (c : Call) : s.Untouched (s.start c).1 := by
  obtain ⟨p, -, hp⟩ := s.opening_start c
  exact hp.untouched

theorem untouched_poll (h : s.Informed) : s.Untouched s.poll.1 := by
  cases hstage : s.stage with
  | none =>
    rw [poll_of_stage hstage]
    exact .refl s
  | some stage =>
    obtain ⟨p, -, hp⟩ := h.passage_poll hstage
    exact hp.untouched

theorem exit_step (h : s.Informed) (m : Move) {status : Status}
    (hx : s.process.exit = some status) : (s.step m).1.process.exit = some status := by
  cases m with
  | call c => exact (s.untouched_start c).exit status hx
  | poll => exact (untouched_poll h).exit status hx
  | cancel => exact hx
  | act => exact exit_act hx
  | drain => exact s.exit_drainOnce.trans hx
  | pass nanos => exact hx

/-- **What an owner has found out** is true, whatever has happened. -/
theorem informed_run (h : s.Informed) (ms : List Move) : (s.run ms).1.Informed := by
  induction ms generalizing s with
  | nil => exact h
  | cons m ms ih => exact ih (informed_step h m)

theorem exit_run (h : s.Informed) {status : Status} (hx : s.process.exit = some status)
    (ms : List Move) : (s.run ms).1.process.exit = some status := by
  induction ms generalizing s with
  | nil => exact hx
  | cons m ms ih => exact ih (informed_step h m) (exit_step h m hx)

end Supervised

end ToneRelay.Generator
