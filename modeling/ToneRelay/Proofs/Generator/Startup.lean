import ToneRelay.Proofs.Generator.Records

/-!
# What a wait for output tells

A wait for output is answered from what is held, if a chunk is or the end of the output has been
seen before. Otherwise it reads, and unless it fails its answer is a chunk or how the generator has
ended (`await_answer`).

So it tells whether the generator has failed by itself and without a word (`Truthful`) if the
generator has not been told to terminate, if nothing of its output has been returned, and if no call
has seen the end of it. Without any of the three it may not (`await_untruthful`): of a generator
that has been heard and fails later it is told that it never was, of one that has been stopped that
it failed, and to ask again after a failure gives another answer.
-/

namespace ToneRelay.Generator

/-- The generator is said to have ended before its first output. -/
def Reply.isEarly : Reply → Bool
  | .failed (.exitedEarly _) => true
  | _ => false

/-- The wait for output has failed for a reason of its own. -/
def Reply.isTrouble : Reply → Bool
  | .failed (.startupTimeout _) | .failed (.read _) | .failed (.wait _) => true
  | _ => false

namespace Handle

/-- What a wait for output goes by that is answered in some way. -/
inductive Warrants (h : Handle) : Reply → Prop
  | chunk {bytes : List UInt8} (hne : bytes ≠ []) (hp : h.pending = some bytes)
      (ho : h.outcome = none) : h.Warrants .ready
  | ended (hd : h.drained = true) (ho : h.outcome.isSome) : h.Warrants h.verdict

variable {h : Handle} {r : Reply}

theorem isEarly_early (code : Option UInt8) (text : String) :
    (Reply.failed (early code text)).isEarly = true := by
  unfold early
  split
  · rfl
  · cases code <;> rfl

theorem verdict_of_none (ho : h.outcome = none) : h.verdict = .ready := by
  unfold verdict
  rw [ho]

theorem verdict_of_failure {code : Option UInt8} {text : String}
    (ho : h.outcome = some (.failure code text)) : h.verdict = .failed (early code text) := by
  unfold verdict
  rw [ho]

theorem outcome_of_isEarly (hr : h.verdict.isEarly = true) :
    ∃ code text, h.outcome = some (.failure code text) := by
  rcases h.verdict_cases with hready | ⟨code, text, ho, -⟩
  · rw [hready] at hr
    cases hr
  · exact ⟨code, text, ho⟩

theorem Warrants.eq_verdict (hr : h.Warrants r) : r = h.verdict := by
  cases hr with
  | chunk hne hp ho => exact (verdict_of_none ho).symm
  | ended hd ho => rfl

/-- Who is told of an end has seen that of the output. -/
theorem Warrants.drained (hr : h.Warrants r) (hearly : r.isEarly = true) : h.drained = true := by
  cases hr with
  | chunk hne hp ho => cases hearly
  | ended hd ho => exact hd

end Handle

/-- A wait for output is at a stage of no other call. -/
theorem Stage.For.eq_await {stage : Stage} {p : Purpose} (hawait : stage.For .await)
    (hp : stage.For p) : p = .await := by
  cases stage with
  | awaiting max limit deadline => exact hp
  | reading max => cases hawait
  | reaping q => exact hp.symm.trans hawait
  | joining q deadline => exact hp.symm.trans hawait
  | stopping deadline => exact nomatch hawait.choose_spec
  | killing => exact nomatch hawait.choose_spec

/-- A stage at which an owner waits that has not told its generator to terminate. -/
theorem Stage.For.listens {os : List Supervised.Move} {h : Handle} {stage : Stage} {p : Purpose}
    (hp : stage.For p) (hb : stage.Backed os h) (hcall : .call .terminate ∉ os) :
    p = .await ∨ p = .read := by
  cases stage with
  | awaiting max limit deadline => exact .inl hp
  | reading max => exact .inr hp
  | reaping q =>
    obtain rfl : q = p := hp
    exact hb
  | joining q deadline =>
    obtain rfl : q = p := hp
    cases q with
    | await => exact .inl rfl
    | read => exact .inr rfl
    | terminate fault => cases fault <;> exact absurd hb.1 hcall
  | stopping deadline => exact absurd hb hcall
  | killing => exact absurd hb hcall

/-- Every call but the one to terminate is made for output. -/
theorem Call.For.listens {c : Call} {p : Purpose} (h : c.For p) (hc : c ≠ .terminate) :
    p = .await ∨ p = .read := by
  cases p with
  | await => exact .inl rfl
  | read => exact .inr rfl
  | terminate fault =>
    cases c with
    | terminate => exact absurd rfl hc
    | _ => exact h.elim

namespace Supervised

variable {s t : Supervised} {p : Purpose} {r : Supervised × Option Reply} {ms ns : List Move}

/-! ## The answer -/

/-- What a step of a wait for output leads to. -/
def Awaited : Supervised × Option Reply → Prop
  | (t, none) => ∃ stage, t.stage = some stage ∧ stage.For .await
  | (t, some reply) => t.stage = none ∧ (reply.isTrouble = true ∨ t.handle.Warrants reply)

theorem awaited_conclude (hp : Purpose.await.Ready s.handle) : Awaited (s.conclude .await) := by
  have hd : s.handle.attach.drained = true := by simpa using hp.1
  have ho : s.handle.attach.outcome.isSome := s.handle.isSome_outcome_attach.trans hp.2
  rw [conclude_await]
  exact ⟨rfl, .inr (.ended hd ho)⟩

/-- **A wait for output goes on.** -/
theorem awaited_passage (hp : s.Passage .await r) (h : s.Informed) {stage : Stage}
    (hstage : s.stage = some stage) (hfor : stage.For .await) : Awaited r := by
  cases hp with
  | still => exact ⟨stage, hstage, hfor⟩
  | late hp => exact ⟨rfl, .inl rfl⟩
  | @ahead n chunk q hp hout hr =>
    have hne := Process.read_ne_nil (Nat.le_max_right n 1) (congrArg Prod.fst hr)
    have hnone : s.handle.outcome = none := by
      cases ho : s.handle.outcome with
      | none => rfl
      | some o => exact nomatch (h.handle.outcome (by rw [ho]; rfl)).symm.trans hout
    exact ⟨rfl, .inr (.chunk hne rfl hnone)⟩
  | data hp hr => cases hp
  | unread hp hr => exact ⟨rfl, .inl rfl⟩
  | untold hp hw => exact ⟨rfl, .inl rfl⟩
  | reap hp ht ho => exact ⟨_, rfl, rfl⟩
  | signal hp hs ho => exact nomatch hp.choose_spec
  | @join t hripe =>
    unfold join
    split
    · exact ⟨_, rfl, rfl⟩
    · exact awaited_conclude (hripe.recorded h).2
  | conclude hs hb =>
    obtain ⟨-, -, hready⟩ := h.stage _ hs
    exact awaited_conclude hready

/-- What happens while a call waits, unless it goes on. -/
theorem aside_step {m : Move} (hm : m.interrupts = false) (hpoll : m ≠ .poll) :
    (s.step m).2 = none ∧ ∃ written, Aside written s (s.step m).1 := by
  cases m with
  | call c => cases hm
  | poll => exact absurd rfl hpoll
  | cancel => cases hm
  | act => exact ⟨rfl, _, s.aside_act⟩
  | drain => exact ⟨rfl, _, s.aside_drainOnce⟩
  | pass nanos => exact ⟨rfl, _, s.aside_pass nanos⟩

/-- Without a call there is no answer. -/
theorem run_of_stage (hstage : s.stage = none) (hquiet : ∀ m ∈ ns, m.interrupts = false) :
    (s.run ns).2 = [] ∧ (s.run ns).1.handle = s.handle := by
  induction ns generalizing s with
  | nil => exact ⟨rfl, rfl⟩
  | cons m ns ih =>
    obtain ⟨hm, hrest⟩ := List.forall_mem_cons.1 hquiet
    rw [run_cons]
    by_cases hpoll : m = .poll
    · subst hpoll
      show s.poll.2.toList ++ (s.poll.1.run ns).2 = [] ∧ (s.poll.1.run ns).1.handle = _
      rw [poll_of_stage hstage]
      exact ih hstage hrest
    · obtain ⟨hnone, written, ha⟩ := aside_step (s := s) hm hpoll
      obtain ⟨hanswers, hhandle⟩ := ih (ha.stage.trans hstage) hrest
      rw [hnone, hanswers]
      exact ⟨rfl, hhandle.trans ha.handle⟩

/-- **A wait for output**, from any of its stages on. -/
theorem awaited_run (h : s.Informed) {stage : Stage} (hstage : s.stage = some stage)
    (hfor : stage.For .await) (hquiet : ∀ m ∈ ns, m.interrupts = false) {reply : Reply}
    (hr : (s.run ns).2 = [reply]) :
    reply.isTrouble = true ∨ (s.run ns).1.handle.Warrants reply := by
  induction ns generalizing s stage with
  | nil => cases hr
  | cons m ns ih =>
    have hinformed := informed_step h m
    obtain ⟨hm, hrest⟩ := List.forall_mem_cons.1 hquiet
    rw [run_cons] at hr ⊢
    by_cases hpoll : m = .poll
    · subst hpoll
      obtain ⟨p, hp, hpassage⟩ := h.passage_poll hstage
      obtain rfl := hfor.eq_await hp
      have hawaited := awaited_passage hpassage h hstage hfor
      have hstep : s.step .poll = s.poll := rfl
      rw [hstep] at hr hinformed ⊢
      generalize s.poll = polled at hr hinformed hawaited ⊢
      obtain ⟨t, answer⟩ := polled
      cases answer with
      | none =>
        obtain ⟨stage, hstage, hfor⟩ := hawaited
        exact ih hinformed hstage hfor hrest hr
      | some answer =>
        obtain ⟨hnone, hanswer⟩ := hawaited
        obtain ⟨hsilent, hhandle⟩ := run_of_stage hnone hrest
        obtain rfl : answer = reply := List.head_eq_of_cons_eq hr
        dsimp only
        rw [hhandle]
        exact hanswer
    · obtain ⟨hnone, written, ha⟩ := aside_step (s := s) hm hpoll
      rw [hnone] at hr
      exact ih hinformed (ha.stage.trans hstage) hfor hrest hr

/-- **A call that waits for output** is answered from what is held or after a read. -/
theorem awaited_call (h : s.Informed) {max : Nat} {limit : Duration}
    (hquiet : ∀ m ∈ ns, m.interrupts = false) {reply : Reply}
    (hr : (s.run (.call (.await max limit) :: ns)).2 = [reply])
    (htrouble : reply.isTrouble = false) :
    let t := (s.run (.call (.await max limit) :: ns)).1
    if s.handle.pending.isSome ∨ s.handle.drained then reply = .ready ∧ t.handle = s.handle
    else t.handle.Warrants reply := by
  have hinformed := informed_step h (.call (.await max limit))
  have hstep : s.step (.call (.await max limit)) = s.start (.await max limit) := rfl
  rw [run_cons, hstep] at hr ⊢
  rw [hstep] at hinformed
  unfold start at hr hinformed ⊢
  dsimp only at hr hinformed ⊢
  split
  · next hknown =>
    rw [if_pos hknown] at hr
    exact ⟨(List.head_eq_of_cons_eq hr).symm, (run_of_stage rfl hquiet).2⟩
  · next hknown =>
    rw [if_neg hknown] at hr hinformed
    exact (awaited_run hinformed rfl rfl hquiet hr).resolve_left
      (by rw [htrouble]; nofun)

/-! ## A generator that is not stopped -/

/-- What is answered after a call does not depend on what was called before. -/
theorem turns_append_call (s : Supervised) (c : Option Call) (ms : List Move) (call : Call)
    (ns : List Move) :
    s.turns c (ms ++ .call call :: ns) =
      s.turns c ms ++ (s.run ms).1.turns none (.call call :: ns) := by
  induction ms generalizing s c with
  | nil => rfl
  | cons m ms ih =>
    rw [List.cons_append, turns, turns, ih, List.append_assoc]
    rfl

/-- Only a call that was made is answered. -/
theorem mem_turns {c : Option Call} {x : Call × Reply} (hx : x ∈ s.turns c ms) :
    c = some x.1 ∨ .call x.1 ∈ ms := by
  induction ms generalizing s c with
  | nil => cases hx
  | cons m ms ih =>
    have hasks : m.asks c = some x.1 ∨ .call x.1 ∈ ms := by
      rw [turns, List.mem_append] at hx
      rcases hx with hx | hx
      · left
        unfold turn at hx
        rw [Option.mem_toList, Option.bind_eq_some_iff] at hx
        obtain ⟨call, hcall, hmap⟩ := hx
        obtain ⟨reply, -, rfl⟩ := Option.map_eq_some_iff.1 hmap
        exact hcall
      · exact ih hx
    rcases hasks with hasks | hmem
    · cases m with
      | call call =>
        obtain rfl := Option.some.inj hasks
        exact .inr List.mem_cons_self
      | cancel => cases hasks
      | _ => exact .inl hasks
    · exact .inr (List.mem_cons_of_mem m hmem)

/-- Only one call is made. -/
theorem eq_of_call_mem {c call : Call} (hquiet : ∀ m ∈ ns, m.interrupts = false)
    (hmem : .call c ∈ Move.call call :: ns) : c = call := by
  rcases List.mem_cons.1 hmem with heq | hmem
  · exact Move.call.inj heq
  · cases hquiet _ hmem

theorem unstopped_turns (hcall : .call .terminate ∉ ms) : Unstopped (s.turns none ms) := by
  intro reply hmem
  rcases mem_turns hmem with hnone | hmem
  · cases hnone
  · exact hcall hmem

/-- The answer to a wait for output is no output. -/
theorem heard_await {max : Nat} {limit : Duration} (hquiet : ∀ m ∈ ns, m.interrupts = false) :
    heard (s.turns none (.call (.await max limit) :: ns)) = [] := by
  unfold heard
  rw [List.flatMap_eq_nil_iff]
  rintro ⟨call, reply⟩ hmem
  rcases mem_turns hmem with hnone | hmem
  · cases hnone
  · obtain rfl := eq_of_call_mem hquiet hmem
    rfl

section

variable {os : List Move} {rs : List Reply}

theorem isStopping_eq_false (h : Attended os rs s) (hcall : .call .terminate ∉ os) :
    s.isStopping = false := by
  have hbacked := h.stage
  unfold isStopping
  split
  · next deadline hstage => exact absurd (hbacked _ hstage) hcall
  · next hstage => exact absurd (hbacked _ hstage) hcall
  · next fault deadline hstage =>
    have hb := hbacked _ hstage
    cases fault <;> exact absurd hb.1 hcall
  · rfl

theorem orderly_of_uncalled (h : Attended os rs s) (hcall : .call .terminate ∉ os ++ ms) :
    s.orderly ms = true := by
  induction ms generalizing os rs s with
  | nil => rfl
  | cons m ms ih =>
    have hbusy := isStopping_eq_false h fun hmem => hcall (List.mem_append_left _ hmem)
    rw [orderly, hbusy, Bool.false_and, Bool.not_false, Bool.true_and]
    exact ih (attended_step h m) (by rwa [List.append_assoc])

/-- A generator that is not told to terminate ends by an action of its own. -/
theorem exit_step_eq (hi : s.Informed) (h : Attended os rs s) {m : Move}
    (hcall : .call .terminate ∉ os) (hterminate : m ≠ .call .terminate) (hact : m ≠ .act) :
    (s.step m).1.process.exit = s.process.exit := by
  cases m with
  | call c =>
    obtain ⟨p, hfor, hp⟩ := s.opening_start c
    refine hp.exit_eq (hfor.listens ?_)
    rintro rfl
    exact hterminate rfl
  | poll =>
    show s.poll.1.process.exit = _
    cases hstage : s.stage with
    | none => rw [poll_of_stage hstage]
    | some stage =>
      obtain ⟨p, hfor, hp⟩ := hi.passage_poll hstage
      exact hp.exit_eq (hfor.listens (h.stage stage hstage) hcall)
  | act => exact absurd rfl hact
  | drain => exact s.exit_drainOnce
  | _ => rfl

/-- A generator that is not told to terminate, and has ended, has done so in an action. -/
theorem exists_act (hi : s.Informed) (h : Attended os rs s) (hcall : .call .terminate ∉ os ++ ms)
    (hnone : s.process.exit = none) {status : Status}
    (hx : (s.run ms).1.process.exit = some status) :
    ∃ front back, ms = front ++ .act :: back ∧ (s.run front).1.process.exit = none ∧
      (s.run front).1.act.process.exit = some status := by
  induction ms generalizing os rs s with
  | nil => exact nomatch hnone.symm.trans hx
  | cons m ms ih =>
    have hinformed := informed_step hi m
    have hx : ((s.step m).1.run ms).1.process.exit = some status := hx
    have hmore : .call .terminate ∉ os ++ [m] ++ ms := by rwa [List.append_assoc]
    cases hstep : (s.step m).1.process.exit with
    | none =>
      obtain ⟨front, back, rfl, hfront⟩ := ih hinformed (attended_step h m) hmore hstep hx
      exact ⟨m :: front, back, rfl, hfront⟩
    | some status' =>
      have hact : m = .act := by
        refine Decidable.byContradiction fun hact => ?_
        have hsame := exit_step_eq hi h (fun hmem => hcall (List.mem_append_left _ hmem))
          (fun heq => hcall (List.mem_append_right _ (heq ▸ List.mem_cons_self))) hact
        exact nomatch hnone.symm.trans (hsame.symm.trans hstep)
      subst hact
      obtain rfl : status' = status :=
        Option.some.inj ((exit_run hinformed hstep ms).symm.trans hx)
      exact ⟨[], ms, rfl, hnone, hstep⟩

end

/-- The generator has ended by an action of its own, and not with success. -/
def FailsAlone (s : Supervised) (ms : List Move) : Prop :=
  ∃ front back status, ms = front ++ .act :: back ∧ (s.run front).1.process.exit = none ∧
    (s.run front).1.act.process.exit = some status ∧ status ≠ .code 0

theorem exit_launch {l : Launcher} {job : Job.Description} (h : l.launch job = .ok s) :
    s.process.exit = none := by
  obtain ⟨todo, rfl⟩ := launch_eq h
  rfl

/-- A generator that is not told to terminate fails by itself or not at all. -/
theorem failsAlone_iff {l : Launcher} {job : Job.Description} (h : l.launch job = .ok s)
    (hcall : .call .terminate ∉ ms) :
    s.FailsAlone ms ↔ ∃ status, (s.run ms).1.process.exit = some status ∧ status ≠ .code 0 := by
  have hi := informed_launch h
  constructor
  · rintro ⟨front, back, status, rfl, -, hx, hne⟩
    rw [run_append]
    exact ⟨status, exit_run (informed_step (informed_run hi front) .act) hx back, hne⟩
  · rintro ⟨status, hx, hne⟩
    obtain ⟨front, back, hms, hnone, hact⟩ :=
      exists_act hi (attended_launch h) hcall (exit_launch h) hx
    exact ⟨front, back, status, hms, hnone, hact, hne⟩

/-- An owner that has not stopped its generator can read, or has read all. -/
theorem Standing.held {script written : List UInt8} {ts : List (Call × Reply)} {c : Option Call}
    (h : Standing script written ts c s) (hunstopped : Unstopped ts) (hok : s.isStopping = false) :
    (s.Held ∨ s.Ended) ∧ heard ts ++ s.stock = written := by
  have hkept := h.faithful.kept hunstopped hok
  cases h with
  | idle hs hopen => exact ⟨.inl hs.toHeld, hkept⟩
  | waiting p call hp hs hc hcall hopen => exact ⟨.inl hs.toHeld, hkept⟩
  | stopping hs => exact nomatch (isStopping_of_stopping hs).symm.trans hok
  | spent hs hspent => exact ⟨.inr hs, hkept⟩
  | closed hs hc hin hstopped => exact absurd hstopped.choose_spec (hunstopped _)

/-- Of a generator that is not told to terminate all output is returned or still held. -/
theorem held_run {l : Launcher} {job : Job.Description} (h : l.launch job = .ok s)
    (hcall : .call .terminate ∉ ms) :
    ((s.run ms).1.Held ∨ (s.run ms).1.Ended) ∧
      heard (s.turns none ms) ++ (s.run ms).1.stock = s.emitted ms := by
  obtain ⟨hidle, hstock⟩ := idle_launch h
  have hopen : Open s.process.unwritten [] [] s := ⟨hstock, rfl, rfl, nofun⟩
  have hattended := attended_run (attended_launch h) ms
  obtain ⟨c, hstanding⟩ := standing_run (.idle (c := none) hidle hopen)
    (orderly_of_uncalled (attended_launch h) hcall)
  exact hstanding.held (unstopped_turns hcall) (isStopping_eq_false hattended hcall)

/-! ## Histories -/

/-- The answer tells whether the generator has failed by itself and without a word. -/
def Truthful (s : Supervised) (ms : List Move) (r : Reply) : Prop :=
  r.isEarly = true ↔ s.FailsAlone ms ∧ s.emitted ms = []

/-- **The truth.** -/
theorem truthful_of_warrants {l : Launcher} {job : Job.Description} (h : l.launch job = .ok s)
    (hcall : .call .terminate ∉ ms) {reply : Reply}
    (hr : (s.run ms).1.handle.Warrants reply) (hheard : heard (s.turns none ms) = []) :
    s.Truthful ms reply := by
  have hi : (s.run ms).1.Informed := informed_run (informed_launch h) ms
  obtain ⟨hheld, hstock⟩ := held_run h hcall
  rw [hheard, List.nil_append] at hstock
  unfold Truthful
  rw [failsAlone_iff h hcall, ← hstock]
  cases hr with
  | chunk hne hp ho =>
    refine ⟨nofun, fun hsilent => ?_⟩
    have hempty := (List.append_eq_nil_iff.1 hsilent.2).1
    rw [hp] at hempty
    exact absurd hempty hne
  | ended hd ho =>
    obtain ⟨o, ho⟩ := Option.isSome_iff_exists.1 ho
    obtain ⟨status, hx, htells⟩ := hi.handle.exit o ho
    have hnil : (s.run ms).1.stock = [] := hheld.elim (·.stock_eq_nil hd) (·.stock)
    constructor
    · intro hearly
      obtain ⟨code, text, hfailure⟩ := Handle.outcome_of_isEarly hearly
      obtain rfl := Option.some.inj (ho.symm.trans hfailure)
      exact ⟨⟨status, hx, htells.1⟩, hnil⟩
    · rintro ⟨⟨status', hx', hne⟩, -⟩
      obtain rfl := Option.some.inj (hx.symm.trans hx')
      cases o with
      | success => exact absurd htells hne
      | failure code text =>
        rw [Handle.verdict_of_failure ho]
        exact Handle.isEarly_early code text

/-- A wait for output does not stop a generator. -/
theorem uncalled_append {max : Nat} {limit : Duration} (hcall : .call .terminate ∉ ms)
    (hquiet : ∀ m ∈ ns, m.interrupts = false) :
    .call .terminate ∉ ms ++ .call (.await max limit) :: ns := by
  intro hmem
  rcases List.mem_append.1 hmem with hmem | hmem
  · exact hcall hmem
  · cases eq_of_call_mem hquiet hmem

/-- A chunk that is held where the end of the output has not been seen. -/
theorem warrants_ready {l : Launcher} {job : Job.Description} (h : l.launch job = .ok s)
    (hcall : .call .terminate ∉ ms) (hd : (s.run ms).1.handle.drained = false)
    (hpending : (s.run ms).1.handle.pending.isSome) : (s.run ms).1.handle.Warrants .ready := by
  have hi : (s.run ms).1.Informed := informed_run (informed_launch h) ms
  obtain ⟨hheld | hended, -⟩ := held_run h hcall
  · obtain ⟨bytes, hbytes⟩ := Option.isSome_iff_exists.1 hpending
    refine .chunk (fun hnil => hheld.ahead (hnil ▸ hbytes)) hbytes ?_
    refine Option.not_isSome_iff_eq_none.1 fun ho => ?_
    have hout := hheld.output
    rw [hi.handle.outcome ho, hd] at hout
    cases hout
  · exact nomatch hended.drained.symm.trans hd

/-- **What a wait for output tells**, whatever has been called before, unless it fails. After an
answer that the generator has ended early, to ask again is answered otherwise. -/
theorem await_answer {l : Launcher} {job : Job.Description} (h : l.launch job = .ok s)
    (hquiet : ∀ m ∈ ns, m.interrupts = false) {max : Nat} {limit : Duration} {reply : Reply}
    (hr : ((s.run ms).1.run (.call (.await max limit) :: ns)).2 = [reply])
    (htrouble : reply.isTrouble = false) :
    let all := ms ++ .call (.await max limit) :: ns
    let t := (s.run ms).1
    let u := (s.run all).1
    reply = (if t.handle.pending.isSome ∨ t.handle.drained then .ready else u.handle.verdict) ∧
      (reply.isEarly = true → ∀ max limit, u.start (.await max limit) = u.reply .ready) ∧
      (.call .terminate ∉ ms → heard (s.turns none ms) = [] → t.handle.drained = false →
        s.Truthful all reply) := by
  intro all t u
  have hi : t.Informed := informed_run (informed_launch h) ms
  have hanswer := awaited_call hi hquiet hr htrouble
  rw [← run_append] at hanswer
  have htruth : .call .terminate ∉ ms → heard (s.turns none ms) = [] →
      u.handle.Warrants reply → s.Truthful all reply := by
    intro hcall hheard hwarrants
    refine truthful_of_warrants h (uncalled_append hcall hquiet) hwarrants ?_
    rw [turns_append_call, heard_append, hheard, heard_await hquiet, List.append_nil]
  by_cases hknown : t.handle.pending.isSome ∨ t.handle.drained
  · rw [if_pos hknown] at hanswer ⊢
    obtain ⟨rfl, hsame⟩ := hanswer
    refine ⟨rfl, nofun, fun hcall hheard hd => htruth hcall hheard ?_⟩
    have hpending := hknown.resolve_right (by rw [hd]; nofun)
    exact hsame ▸ warrants_ready h hcall hd hpending
  · rw [if_neg hknown] at hanswer ⊢
    refine ⟨hanswer.eq_verdict, fun hearly max limit => ?_, fun hcall hheard _ => ?_⟩
    · exact if_pos (.inr (hanswer.drained hearly))
    · exact htruth hcall hheard hanswer

/-- A program that fails without a word. -/
def mute : Launcher where
  command := {}
  installed := .runs [.act (.exit 3)]
  jobPath := []

/-- The same program, once it has been launched. -/
def muteStart : Supervised where
  process := {
    todo := [.exit 3]
    ready := startTime.nanos
    output := ⟨[], pipeCapacity, Nat.zero_add _⟩ }

/-- A wait for the output of a program that has come to its end. -/
def endMoves : List Move := [.poll, .poll, .drain, .poll]

theorem await_answer_mute :
    mute.launch ⟨[], ⟨44100, 100⟩, []⟩ = .ok muteStart ∧
      ((muteStart.run [.pass startTime.nanos, .act]).1.run
        (.call (.await 1 (.ofSecs 1)) :: endMoves)).2 =
          [.failed (.exitedEarly "exit code Some(3)")] ∧
      muteStart.FailsAlone
        ([.pass startTime.nanos, .act] ++ .call (.await 1 (.ofSecs 1)) :: endMoves) := by
  have hlaunch : mute.launch ⟨[], ⟨44100, 100⟩, []⟩ = .ok muteStart := rfl
  have hr : ((muteStart.run [.pass startTime.nanos, .act]).1.run
      (.call (.await 1 (.ofSecs 1)) :: endMoves)).2 =
        [.failed (.exitedEarly "exit code Some(3)")] := by decide
  obtain ⟨-, -, htruthful⟩ := await_answer hlaunch (by decide) hr rfl
  exact ⟨hlaunch, hr, ((htruthful (by decide) rfl (by decide)).1 rfl).1⟩

/-- A program that writes three bytes before it fails. -/
def vocal : Launcher where
  command := {}
  installed := .runs [.act (.out [97, 98, 99]), .act (.exit 3)]
  jobPath := []

/-- The same program, once it has been launched. -/
def vocalStart : Supervised where
  process := {
    todo := [.out [97, 98, 99], .exit 3]
    ready := startTime.nanos
    output := ⟨[], pipeCapacity, Nat.zero_add _⟩ }

/-- It is read before it is waited for. -/
def heardMoves : List Move :=
  [.pass startTime.nanos, .act, .call (.read 8), .poll, .act, .call (.await 1 (.ofSecs 1))] ++
    endMoves

/-- It is waited for again. -/
def againMoves : List Move :=
  [.pass startTime.nanos, .act, .call (.await 1 (.ofSecs 1))] ++ endMoves ++
    [.call (.await 1 (.ofSecs 1))]

/-- It is stopped before it can do anything. -/
def stoppedMoves : List Move :=
  [.call .terminate, .poll, .drain, .poll, .call (.await 1 (.ofSecs 1)), .poll]

/-- A generator that was heard is said to have written nothing, one that has failed to be ready when
it is waited for again, and one that was stopped to have failed. -/
theorem await_untruthful :
    vocal.launch ⟨[], ⟨44100, 100⟩, []⟩ = .ok vocalStart ∧
      mute.launch ⟨[], ⟨44100, 100⟩, []⟩ = .ok muteStart ∧
      (vocalStart.run heardMoves).2 =
        [.data [97, 98, 99], .failed (.exitedEarly "exit code Some(3)")] ∧
      ¬ vocalStart.Truthful heardMoves (.failed (.exitedEarly "exit code Some(3)")) ∧
      (muteStart.run againMoves).2 = [.failed (.exitedEarly "exit code Some(3)"), .ready] ∧
      ¬ muteStart.Truthful againMoves .ready ∧
      (muteStart.run stoppedMoves).2 = [.stopped, .failed (.exitedEarly "exit code None")] ∧
      ¬ muteStart.Truthful stoppedMoves (.failed (.exitedEarly "exit code None")) := by
  refine ⟨rfl, rfl, by decide, fun htruthful => ?_, by decide, fun htruthful => ?_, by decide,
    fun htruthful => ?_⟩
  · have hsilent := (htruthful.1 rfl).2
    exact absurd hsilent (by decide)
  · have hfails : muteStart.FailsAlone againMoves :=
      ⟨[.pass startTime.nanos], _, .code 3, rfl, rfl, rfl, by decide⟩
    exact nomatch htruthful.2 ⟨hfails, by decide⟩
  · obtain ⟨front, back, status, hmoves, -⟩ := (htruthful.1 rfl).1
    have hact : Move.act ∈ stoppedMoves := hmoves ▸ List.mem_append_right _ List.mem_cons_self
    exact absurd hact (by decide)

end Supervised

end ToneRelay.Generator
