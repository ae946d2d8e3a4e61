import ToneRelay.Proofs.Generator.Diagnostics
import ToneRelay.Proofs.Generator.Startup

/-!
# Reads that are dropped

A read may be dropped wherever it waits, and the next call goes on from what it has left behind.
Main statement `dropped_read`: it leaves the generator, its reader of diagnostics and the output
that is held as they would be without it, so no byte is lost or handed out twice. The text of a
failure, though, is that of a run without the dropped read only if it was not for the diagnostics
that the read waited, or if there are none (`dropped_read_untold`).

1. A read that waits is `Beside` a generator without it (`beside_run`).
2. A call that is dropped while it waits for the diagnostics takes them with it: they are
   `Forsaken`, and stay so (`forsaken_step`). In any other run they are told (`notes_run`).
-/

namespace ToneRelay.Generator

theorem Stage.For.eq_read {stage : Stage} {p : Purpose} (hread : stage.For .read)
    (h : stage.For p) : p = .read := by
  cases stage with
  | awaiting max limit deadline => cases hread
  | reading max => exact h
  | reaping q => exact h.symm.trans hread
  | joining q deadline => exact h.symm.trans hread
  | _ => exact nomatch hread.choose_spec

namespace Supervised

variable {s t u : Supervised} {p : Purpose} {r : Supervised × Option Reply} {written : List UInt8}
  {ms : List Move}

/-! ## A read that waits -/

/-- Two owners of the same generator, of whom one may have a read under way. -/
def Beside (u t : Supervised) : Prop :=
  ∃ h stage, t = { u with handle := h, stage := stage } ∧ h.pending = u.handle.pending

/-- A read that has not been answered waits on. -/
def Pending (s : Supervised) : Prop := ∃ stage, s.stage = some stage ∧ stage.For .read

theorem wait_of_ended {q q' : Process} {status : Status} (h : q.wait = (.ended status, q')) :
    q' = q := by
  unfold Process.wait at h
  split at h
  · cases h
  · split at h
    · exact (Prod.mk.inj h).2.symm
    · cases h

theorem SeesEnd.beside (h : s.SeesEnd t) : s.Beside t := by
  rcases h with ⟨rfl, -⟩ | rfl
  · exact ⟨t.handle, t.stage, rfl, rfl⟩
  · exact ⟨_, _, rfl, rfl⟩

theorem Ripe.beside (h : s.Ripe .read t) : s.Beside t := by
  cases h with
  | drained hp ht ho => exact ht.beside
  | reaped hp hd ho hw =>
    obtain rfl := wait_of_ended hw
    exact ⟨_, _, rfl, rfl⟩

/-- A call that is answered is no longer under way. -/
theorem Passage.answered (h : s.Passage p r) (hr : r.2.isSome) : r.1.stage = none := by
  cases h with
  | still => cases hr
  | reap => cases hr
  | signal => cases hr
  | @join t hripe =>
    unfold Supervised.join at hr ⊢
    split at hr
    · cases hr
    · next hreader =>
      rw [if_neg hreader]
      exact t.stage_conclude p
  | conclude => exact stage_conclude _ p
  | _ => rfl

theorem Opening.answered (h : s.Opening p r) (hr : r.2.isSome) : r.1.stage = none := by
  cases h with
  | listen => cases hr
  | on hp hpassage => exact hpassage.answered hr
  | _ => rfl

theorem conclude_isSome (s : Supervised) (p : Purpose) : (s.conclude p).2.isSome := by
  cases p with
  | await =>
    rw [conclude_await]
    rfl
  | read => rfl
  | terminate fault => cases fault <;> rfl

theorem beside_join (h : s.Beside t) (hr : (t.join .read).2 = none) :
    s.Beside (t.join .read).1 ∧ (t.join .read).1.Pending := by
  obtain ⟨handle, stage, rfl, hpending⟩ := h
  unfold join at hr ⊢
  split
  · exact ⟨⟨_, _, rfl, hpending⟩, _, rfl, rfl⟩
  · next hreader =>
    rw [if_neg hreader] at hr
    have hsome := conclude_isSome { s with handle := handle, stage := stage } .read
    rw [hr] at hsome
    cases hsome

/-- **A read goes on**, and has still no answer. -/
theorem beside_passage (h : s.Passage .read r) (hr : r.2 = none) (hs : s.Pending) :
    s.Beside r.1 ∧ r.1.Pending := by
  cases h with
  | still => exact ⟨⟨s.handle, s.stage, rfl, rfl⟩, hs⟩
  | reap hp ht ho =>
    obtain ⟨handle, stage, rfl, hpending⟩ := ht.beside
    exact ⟨⟨handle, _, rfl, hpending⟩, _, rfl, rfl⟩
  | signal hp => exact nomatch hp.choose_spec
  | join hripe => exact beside_join hripe.beside hr
  | @conclude deadline bytes hstage hb =>
    have hsome := conclude_isSome (s.own (·.collect bytes)) .read
    rw [hr] at hsome
    cases hsome
  | late hp | ahead hp => cases hp
  | data | unread | untold => cases hr

/-- **A read begins**, and has no answer yet. -/
theorem beside_start {max : Nat} (hr : (s.start (.read max)).2 = none) :
    s.Beside (s.start (.read max)).1 ∧ (s.start (.read max)).1.Pending := by
  unfold start at hr ⊢
  dsimp only at hr ⊢
  split at hr
  · cases hr
  next hopen =>
  rw [if_neg hopen]
  split at hr
  · cases hr
  split at hr
  · next hdrained =>
    rw [if_pos hdrained]
    unfold reap at hr ⊢
    split at hr
    · next ho =>
      rw [if_pos ho]
      exact beside_join ⟨s.handle, s.stage, rfl, rfl⟩ hr
    · next ho =>
      rw [if_neg ho]
      exact ⟨⟨_, _, rfl, rfl⟩, _, rfl, rfl⟩
  · next hdrained =>
    rw [if_neg hdrained]
    exact ⟨⟨_, _, rfl, rfl⟩, _, rfl, rfl⟩

theorem beside_poll (h : s.Informed) (hs : s.Pending) (hr : s.poll.2 = none) :
    s.Beside s.poll.1 ∧ s.poll.1.Pending := by
  obtain ⟨stage, hstage, hread⟩ := hs
  obtain ⟨p, hp, hpassage⟩ := h.passage_poll hstage
  obtain rfl := hread.eq_read hp
  exact beside_passage hpassage hr ⟨stage, hstage, hread⟩

/-- Without a call there is none later. -/
theorem stage_run (hstage : s.stage = none) (hquiet : ∀ m ∈ ms, m.interrupts = false) :
    (s.run ms).1.stage = none := by
  induction ms generalizing s with
  | nil => exact hstage
  | cons m ms ih =>
    obtain ⟨hm, hrest⟩ := List.forall_mem_cons.1 hquiet
    refine ih ?_ hrest
    by_cases hpoll : m = .poll
    · subst hpoll
      show s.poll.1.stage = none
      rw [poll_of_stage hstage]
      exact hstage
    · obtain ⟨-, written, ha⟩ := aside_step (s := s) hm hpoll
      exact ha.stage.trans hstage

/-- Without a call, to go on is to do nothing. -/
theorem Beside.aside (h : u.Beside t) {m : Move} (hm : m.interrupts = false) (hpoll : m ≠ .poll) :
    (u.step m).1.Beside (t.step m).1 := by
  obtain ⟨handle, stage, rfl, hpending⟩ := h
  cases m with
  | call c => cases hm
  | poll => exact absurd rfl hpoll
  | cancel => cases hm
  | act => exact ⟨handle, stage, rfl, hpending⟩
  | drain => exact ⟨handle, stage, rfl, hpending⟩
  | pass nanos => exact ⟨handle, stage, rfl, hpending⟩

theorem Beside.trans {v : Supervised} (huv : u.Beside s) (hst : s.Beside v) : u.Beside v := by
  obtain ⟨handle, stage, rfl, hpending⟩ := huv
  obtain ⟨handle', stage', rfl, hpending'⟩ := hst
  exact ⟨handle', stage', rfl, hpending'.trans hpending⟩

/-- **A read that waits** does not touch the generator, nor what is held of its output. -/
theorem beside_run (h : u.Beside t) (hu : u.stage = none) (hi : t.Informed) (ht : t.Pending)
    (hquiet : ∀ m ∈ ms, m.interrupts = false) (hpending : (t.run ms).1.stage.isSome) :
    (u.run ms).1.Beside (t.run ms).1 ∧ (t.run ms).2 = [] := by
  induction ms generalizing u t with
  | nil => exact ⟨h, rfl⟩
  | cons m ms ih =>
    obtain ⟨hm, hrest⟩ := List.forall_mem_cons.1 hquiet
    have hinformed := informed_step hi m
    rw [run_cons] at hpending ⊢
    rw [run_cons]
    by_cases hpoll : m = .poll
    · subst hpoll
      have hstep : ∀ v : Supervised, v.step .poll = v.poll := fun _ => rfl
      rw [hstep] at hpending hinformed ⊢
      rw [hstep, poll_of_stage hu]
      obtain ⟨stage, hstage, hread⟩ := ht
      obtain ⟨p, hp, hpassage⟩ := hi.passage_poll hstage
      have hnone : t.poll.2 = none := by
        cases hr : t.poll.2 with
        | none => rfl
        | some reply =>
          rw [stage_run (hpassage.answered (by rw [hr]; rfl)) hrest] at hpending
          cases hpending
      obtain ⟨hbeside, hpend⟩ := beside_poll hi ⟨stage, hstage, hread⟩ hnone
      rw [hnone]
      exact ih (h.trans hbeside) hu hinformed hpend hrest hpending
    · obtain ⟨hnone, written, ha⟩ := aside_step (s := t) hm hpoll
      obtain ⟨-, written', ha'⟩ := aside_step (s := u) hm hpoll
      rw [hnone]
      have hpend : (t.step m).1.Pending := by
        obtain ⟨stage, hstage, hread⟩ := ht
        exact ⟨stage, ha.stage.trans hstage, hread⟩
      exact ih (h.aside hm hpoll) (ha'.stage.trans hu) hinformed hpend hrest hpending

/-- **A read that is dropped** has been answered nothing, and only what the owner has found out is
left of it. -/
theorem beside_dropped (hi : s.Informed) (hidle : s.stage = none) {max : Nat}
    (hquiet : ∀ m ∈ ms, m.interrupts = false)
    (hpending : (s.run (.call (.read max) :: ms)).1.stage.isSome) :
    (s.run ms).1.Beside (s.run (.call (.read max) :: ms)).1 ∧
      (s.run (.call (.read max) :: ms)).2 = [] := by
  have hinformed := informed_step hi (.call (.read max))
  have hstep : s.step (.call (.read max)) = s.start (.read max) := rfl
  rw [run_cons, hstep] at hpending ⊢
  rw [hstep] at hinformed
  have hnone : (s.start (.read max)).2 = none := by
    cases hr : (s.start (.read max)).2 with
    | none => rfl
    | some reply =>
      obtain ⟨p, -, hp⟩ := s.opening_start (.read max)
      rw [stage_run (hp.answered (by rw [hr]; rfl)) hquiet] at hpending
      cases hpending
  obtain ⟨hbeside, hpend⟩ := beside_start hnone
  rw [hnone]
  exact beside_run hbeside hidle hinformed hpend hquiet hpending

/-! ## Diagnostics that are asked for and not waited for -/

/-- A call that waits for the diagnostics is dropped. -/
def drops (s : Supervised) (m : Move) : Bool := s.joining?.isSome && m.interrupts

/-- Some call that waits for the diagnostics is dropped. -/
def forsakes (s : Supervised) : List Move → Bool
  | [] => false
  | m :: ms => s.drops m || (s.step m).1.forsakes ms

/-- A call that waits for the diagnostics has not to go on without them. -/
def inTime (s : Supervised) (m : Move) : Bool :=
  match s.joining?, m with
  | some deadline, .poll => s.drain.ended || s.now < deadline
  | _, _ => true

/-- The diagnostics always come to their end in time. -/
def punctual (s : Supervised) : List Move → Bool
  | [] => true
  | m :: ms => s.inTime m && (s.step m).1.punctual ms

theorem heeds_eq (s : Supervised) (m : Move) : s.heeds m = (s.inTime m && !s.drops m) := by
  unfold heeds inTime drops
  cases s.joining? with
  | none => rfl
  | some deadline => cases m <;> simp [Move.interrupts]

/-- The diagnostics have been asked for, and are neither told nor waited for. -/
structure Forsaken (s : Supervised) : Prop where
  notes : s.handle.notes = (none, false)
  joining : s.joining? = none

theorem joining_wait (s : Supervised) {stage : Stage}
    (h : ∀ q deadline, stage ≠ .joining q deadline) : (s.wait stage).1.joining? = none := by
  cases stage with
  | joining q deadline => exact absurd rfl (h q deadline)
  | _ => rfl

theorem joining_of_stage (h : s.stage = none) : s.joining? = none := by
  unfold joining?
  rw [h]

/-- **They are not asked for again.** -/
theorem forsaken_passage (hp : s.Passage p r) (h : s.Forsaken) : r.1.Forsaken := by
  have hnotes := h.notes
  cases hp with
  | still => exact h
  | reap hp ht ho => exact ⟨ht.notes.trans hnotes, rfl⟩
  | signal hp hs ho => exact ⟨hnotes, joining_wait _ (by rcases hs with rfl | ⟨_, rfl⟩ <;> nofun)⟩
  | @join t hripe =>
    have hnotes := hripe.notes.trans hnotes
    unfold join
    rw [if_neg (by rw [(Prod.mk.inj hnotes).2]; decide)]
    exact ⟨(t.notes_conclude p).trans hnotes, joining_of_stage (t.stage_conclude p)⟩
  | conclude hs hb =>
    have hjoining := h.joining
    unfold joining? at hjoining
    rw [hs] at hjoining
    cases hjoining
  | _ => exact ⟨hnotes, rfl⟩

theorem forsaken_opening (hp : s.Opening p r) (h : s.Forsaken) : r.1.Forsaken := by
  cases hp with
  | known hknown => exact ⟨h.notes, rfl⟩
  | hand hp hpending => exact ⟨h.notes, rfl⟩
  | @listen stage hs hd hpending =>
    refine ⟨h.notes, joining_wait s fun q deadline heq => ?_⟩
    subst heq
    exact hs
  | on hp hpassage => exact forsaken_passage hpassage h

theorem Aside.forsaken {bytes : List UInt8} (ha : Aside bytes s t) (h : s.Forsaken) :
    t.Forsaken := by
  refine ⟨by rw [ha.handle, h.notes], ?_⟩
  unfold joining?
  rw [ha.stage]
  exact h.joining

theorem forsaken_step (hi : s.Informed) (h : s.Forsaken) (m : Move) : (s.step m).1.Forsaken := by
  cases m with
  | call c =>
    obtain ⟨p, -, hp⟩ := s.opening_start c
    exact forsaken_opening hp h
  | poll =>
    show s.poll.1.Forsaken
    cases hstage : s.stage with
    | none =>
      rw [poll_of_stage hstage]
      exact h
    | some stage =>
      obtain ⟨p, -, hp⟩ := hi.passage_poll hstage
      exact forsaken_passage hp h
  | cancel => exact ⟨h.notes, rfl⟩
  | act => exact s.aside_act.forsaken h
  | drain => exact s.aside_drainOnce.forsaken h
  | pass nanos => exact (s.aside_pass nanos).forsaken h

theorem forsaken_run (hi : s.Informed) (h : s.Forsaken) (ms : List Move) :
    (s.run ms).1.Forsaken := by
  induction ms generalizing s with
  | nil => exact h
  | cons m ms ih => exact ih (informed_step hi m) (forsaken_step hi h m)

/-! ## Calls that are dropped -/

theorem conclude_cancel (s : Supervised) (p : Purpose) : s.cancel.conclude p = s.conclude p := by
  cases p <;> rfl

theorem join_cancel (s : Supervised) (p : Purpose) : s.cancel.join p = s.join p := by
  unfold join
  rw [conclude_cancel]
  rfl

theorem reap_cancel (s : Supervised) (p : Purpose) : s.cancel.reap p = s.reap p := by
  unfold reap
  rw [join_cancel]
  rfl

/-- A call that is made while another is under way drops that first. -/
theorem start_cancel (s : Supervised) (c : Call) : s.cancel.start c = s.start c := by
  cases c with
  | await max limit => rfl
  | read max =>
    unfold start
    rw [reap_cancel]
    rfl
  | terminate => rfl

/-- **A call that waits for the diagnostics takes them with it.** -/
theorem forsaken_of_drops (hi : s.Informed) {m : Move} (h : s.drops m = true) :
    (s.step m).1.Forsaken := by
  obtain ⟨hjoining, hm⟩ := Bool.and_eq_true_iff.1 h
  have hcancelled : s.cancel.Forsaken := by
    unfold joining? at hjoining
    split at hjoining
    · next q deadline hstage =>
      obtain ⟨hreader, hnone, -⟩ := hi.stage _ hstage
      exact ⟨Prod.ext hnone hreader, rfl⟩
    · cases hjoining
  cases m with
  | call c =>
    obtain ⟨p, -, hp⟩ := s.cancel.opening_start c
    rw [start_cancel] at hp
    exact forsaken_opening hp hcancelled
  | cancel => exact hcancelled
  | _ => cases hm

/-- **What is known of the diagnostics**, when they always come to their end in time. -/
theorem notes_run (hi : s.Informed) (hg : Gathered written s) (h : Digested written s)
    (hok : s.punctual ms = true) :
    if s.forsakes ms then (s.run ms).1.Forsaken
    else Digested (written ++ s.uttered ms) (s.run ms).1 := by
  induction ms generalizing written s with
  | nil =>
    show Digested (written ++ []) s
    rw [List.append_nil]
    exact h
  | cons m ms ih =>
    obtain ⟨htime, hrest⟩ := Bool.and_eq_true_iff.1 hok
    cases hdrops : s.drops m with
    | true =>
      rw [if_pos (by rw [forsakes, hdrops]; rfl)]
      exact forsaken_run (informed_step hi m) (forsaken_of_drops hi hdrops) ms
    | false =>
      have hheeds : s.heeds m = true := by rw [heeds_eq, htime, hdrops]; rfl
      have hlater := ih (informed_step hi m) (gathered_step hi hg m)
        (digested_step hi hg h hheeds) hrest
      rw [forsakes, hdrops, Bool.false_or, uttered, ← List.append_assoc]
      exact hlater

/-! ## The main statements -/

/-- The generator has failed, its diagnostics have always come to their end in time, and nobody
waits for them any more. -/
structure FailsWith (s : Supervised) (ms : List Move) (code : Option UInt8) (text : String) :
    Prop where
  punctual : s.punctual ms = true
  joined : (s.run ms).1.joining? = none
  outcome : (s.run ms).1.handle.exitStatus = .ok (.failure code text)

/-- The text of a failure depends on what the generator has written, and on whether a call was
dropped while it waited for that. -/
theorem FailsWith.text_eq {l : Launcher} {job : Job.Description} (h : l.launch job = .ok s)
    {code : Option UInt8} {text : String} (hf : s.FailsWith ms code text) :
    text = if s.forsakes ms then "" else digest (s.uttered ms) := by
  have hi : (s.run ms).1.Informed := informed_run (informed_launch h) ms
  obtain ⟨hg, hd⟩ := digested_launch h
  have hnotes := notes_run (informed_launch h) hg hd hf.punctual
  have ho := Handle.exitStatus_eq_ok_iff.1 hf.outcome
  rw [hi.handle.told code text ho]
  split at hnotes
  · next hforsakes =>
    rw [if_pos hforsakes, (Prod.mk.inj hnotes.notes).1, Option.getD_none]
  · next hforsakes =>
    have hreader : (s.run ms).1.handle.reader = false := hi.handle.asked (by rw [ho]; rfl)
    have htold : (s.run ms).1.handle.diagnostics.isSome :=
      (hnotes.asked hreader).resolve_left (by rw [hf.joined]; nofun)
    obtain ⟨told, htold⟩ := Option.isSome_iff_exists.1 htold
    rw [if_neg hforsakes, htold, Option.getD_some, (hnotes.text told htold).2, List.nil_append]

/-- What an owner is answered in a whole conversation. -/
theorem faithful_of_launch {l : Launcher} {job : Job.Description} (h : l.launch job = .ok s)
    (hok : s.orderly ms = true) :
    Faithful s.process.unwritten (s.emitted ms) (s.turns none ms) (s.run ms).1 := by
  obtain ⟨hidle, hstock⟩ := idle_launch h
  have hopen : Open s.process.unwritten [] [] s := ⟨hstock, rfl, rfl, nofun⟩
  obtain ⟨c, hstanding⟩ := standing_run (.idle (c := none) hidle hopen) hok
  exact hstanding.faithful

/-- A read that is dropped leaves the generator, the reader of its diagnostics and the output that
is held as they would be without it. -/
theorem left_by_dropped (hi : s.Informed) (hidle : s.stage = none) {max : Nat}
    (hquiet : ∀ m ∈ ms, m.interrupts = false)
    (hpending : (s.run (.call (.read max) :: ms)).1.stage.isSome) :
    let t := (s.run (.call (.read max) :: (ms ++ [.cancel]))).1
    let u := (s.run ms).1
    t = { u with handle := t.handle } ∧ t.stock = u.stock := by
  intro t u
  have ht : t = (s.run (.call (.read max) :: ms)).1.cancel := by
    show (s.run (.call (.read max) :: (ms ++ [.cancel]))).1 = _
    rw [← List.cons_append, run_append]
    rfl
  obtain ⟨⟨handle, stage, heq, hkept⟩, -⟩ := beside_dropped hi hidle hquiet hpending
  have hover : u.stage = none := stage_run hidle hquiet
  rw [heq] at ht
  refine ⟨?_, ?_⟩
  · rw [ht, hover]
    rfl
  · rw [ht]
    show handle.pending.getD [] ++ u.process.output.bytes = u.stock
    rw [hkept]
    rfl

/-- A read that is dropped has been answered nothing. -/
theorem turns_dropped (hi : s.Informed) (hidle : s.stage = none) {max : Nat}
    (hquiet : ∀ m ∈ ms, m.interrupts = false)
    (hpending : (s.run (.call (.read max) :: ms)).1.stage.isSome) :
    s.turns none (.call (.read max) :: (ms ++ [.cancel])) = [] := by
  obtain ⟨-, hsilent⟩ := beside_dropped hi hidle hquiet hpending
  have hanswers : (s.turns none (.call (.read max) :: (ms ++ [.cancel]))).map (·.2) = [] := by
    rw [map_turns (by rw [hidle]; nofun), ← List.cons_append, answers_append, hsilent]
    rfl
  exact List.map_eq_nil_iff.1 hanswers

/-- Two failures of a generator that writes the same diagnostics in both conversations, in one of
which no call is dropped while it waits for them. -/
theorem FailsWith.text_iff {l : Launcher} {job : Job.Description} (h : l.launch job = .ok s)
    {others : List Move} {code code' : Option UInt8} {text text' : String}
    (hf : s.FailsWith ms code text) (hf' : s.FailsWith others code' text')
    (hothers : s.forsakes others = false) (hsame : s.uttered others = s.uttered ms) :
    text = text' ↔ s.forsakes ms = false ∨ text' = "" := by
  have htext := hf.text_eq h
  have htext' := hf'.text_eq h
  rw [hothers, if_neg Bool.false_ne_true, hsame] at htext'
  cases hforsakes : s.forsakes ms with
  | true =>
    rw [hforsakes, if_pos rfl] at htext
    simp [htext, eq_comm]
  | false =>
    rw [hforsakes, if_neg Bool.false_ne_true] at htext
    exact iff_of_true (htext.trans htext'.symm) (.inl rfl)

/-- **A read that is dropped**, wherever it waits. The generator, the reader of its diagnostics and
the output that is held are as they would be without that read, which has been answered nothing; in
the whole conversation, whatever follows, no byte is lost or handed out twice. A failure that is
recorded in the end has the same text as in any conversation in which no such call is dropped and
the generator writes the same diagnostics, if no call was dropped while it waited for them, or if
there are none; and only then. -/
theorem dropped_read {l : Launcher} {job : Job.Description} (h : l.launch job = .ok s)
    (front mid : List Move) (max : Nat) (hidle : (s.run front).1.stage = none)
    (hquiet : ∀ m ∈ mid, m.interrupts = false)
    (hpending : (s.run (front ++ .call (.read max) :: mid)).1.stage.isSome) :
    let dropped := front ++ .call (.read max) :: (mid ++ [.cancel])
    let t := (s.run dropped).1
    let u := (s.run (front ++ mid)).1
    (t = { u with handle := t.handle } ∧ t.stock = u.stock ∧
      s.turns none dropped = s.turns none front) ∧
    (∀ back, s.orderly (dropped ++ back) = true →
      Faithful s.process.unwritten (s.emitted (dropped ++ back)) (s.turns none (dropped ++ back))
        (s.run (dropped ++ back)).1) ∧
    ∀ back others code text code' text', s.FailsWith (dropped ++ back) code text →
      s.FailsWith others code' text' → s.forsakes others = false →
      s.uttered others = s.uttered (dropped ++ back) →
        (text = text' ↔ s.forsakes (dropped ++ back) = false ∨ text' = "") := by
  intro dropped t u
  have hi := informed_run (informed_launch h) front
  rw [run_append] at hpending
  refine ⟨?_, fun back hok => faithful_of_launch h hok,
    fun back others code text code' text' hf hf' => hf.text_iff h hf'⟩
  have ht : t = ((s.run front).1.run (.call (.read max) :: (mid ++ [.cancel]))).1 :=
    s.run_append front _
  have hu : u = ((s.run front).1.run mid).1 := s.run_append front mid
  obtain ⟨hleft, hstock⟩ := left_by_dropped hi hidle hquiet hpending
  rw [ht, hu]
  refine ⟨hleft, hstock, ?_⟩
  show s.turns none (front ++ .call (.read max) :: (mid ++ [.cancel])) = _
  rw [turns_append_call, turns_dropped hi hidle hquiet hpending, List.append_nil]

/-- A program that complains and fails. -/
def candid : Launcher where
  command := {}
  installed := .runs [.act (.err [111, 111, 112, 115]), .act (.out [97]), .act (.exit 3)]
  jobPath := []

/-- The same program, once it has been launched. -/
def candidStart : Supervised where
  process := {
    todo := [.err [111, 111, 112, 115], .out [97], .exit 3]
    ready := startTime.nanos
    output := ⟨[], pipeCapacity, Nat.zero_add _⟩ }

/-- Its output is read once it has ended. -/
def frontMoves : List Move :=
  [.pass startTime.nanos, .act, .act, .act, .call (.read 8), .poll]

/-- It is stopped, and its diagnostics are waited for. -/
def stopMoves : List Move := [.call .terminate, .drain, .drain, .poll]

theorem dropped_read_reaping :
    candid.launch ⟨[], ⟨44100, 100⟩, []⟩ = .ok candidStart ∧
      candidStart.FailsWith
        (frontMoves ++ .call (.read 8) :: ([.poll] ++ [.cancel]) ++ stopMoves) (some 3) "oops" ∧
      candidStart.FailsWith (frontMoves ++ stopMoves) (some 3) "oops" ∧
      heard (candidStart.turns none
        (frontMoves ++ .call (.read 8) :: ([.poll] ++ [.cancel]) ++ stopMoves)) <+:
          candidStart.emitted
            (frontMoves ++ .call (.read 8) :: ([.poll] ++ [.cancel]) ++ stopMoves) ∧
      ("oops" = "oops" ↔ candidStart.forsakes
        (frontMoves ++ .call (.read 8) :: ([.poll] ++ [.cancel]) ++ stopMoves) = false ∨
          "oops" = "") := by
  have hlaunch : candid.launch ⟨[], ⟨44100, 100⟩, []⟩ = .ok candidStart := rfl
  have hf : candidStart.FailsWith
      (frontMoves ++ .call (.read 8) :: ([.poll] ++ [.cancel]) ++ stopMoves) (some 3) "oops" :=
    ⟨by decide, by decide, rfl⟩
  have hf' : candidStart.FailsWith (frontMoves ++ stopMoves) (some 3) "oops" :=
    ⟨by decide, by decide, rfl⟩
  obtain ⟨-, hfaithful, htext⟩ :=
    dropped_read hlaunch frontMoves [.poll] 8 (by decide) (by decide) (by decide)
  exact ⟨hlaunch, hf, hf', (hfaithful stopMoves (by decide)).returned,
    htext _ _ _ _ _ _ hf hf' (by decide) (by decide)⟩

/-- A read is dropped while it waits for the diagnostics, and the failure that is recorded then has
no text. Without that read it has. -/
theorem dropped_read_untold :
    candid.launch ⟨[], ⟨44100, 100⟩, []⟩ = .ok candidStart ∧
      (candidStart.run (frontMoves ++ .call (.read 8) :: [.poll, .poll])).1.stage.isSome ∧
      candidStart.FailsWith
        (frontMoves ++ .call (.read 8) :: ([.poll, .poll] ++ [.cancel]) ++ stopMoves) (some 3) "" ∧
      candidStart.FailsWith (frontMoves ++ stopMoves) (some 3) "oops" ∧
      candidStart.uttered (frontMoves ++ stopMoves) = candidStart.uttered
        (frontMoves ++ .call (.read 8) :: ([.poll, .poll] ++ [.cancel]) ++ stopMoves) ∧
      "" ≠ "oops" :=
  ⟨rfl, by decide, ⟨by decide, by decide, rfl⟩, ⟨by decide, by decide, rfl⟩, by decide, by decide⟩

end Supervised

end ToneRelay.Generator
