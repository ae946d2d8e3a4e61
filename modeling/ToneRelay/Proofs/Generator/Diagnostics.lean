import ToneRelay.Proofs.Generator.Records

/-!
# The diagnostics of a failure

`diagnostics_complete`: the text of a recorded failure is that of the first bytes of all diagnostics
that the generator has written, and it writes no more of them. It does not matter which call has
found out how the generator ended, in which order that call and the reader of the diagnostics have
gone on, or at which places the bytes were cut when they were read.

The reader keeps a front part of what it has read and sees the end when nothing is left to be read
(`Gathered`). What it has kept is asked for once, by the call that knows of the end first, and that
call waits for the end of the diagnostics. So there is nothing to be asked for later (`Digested`).
-/

namespace ToneRelay.Generator

/-- What is told of the diagnostics that a generator has written. -/
def digest (written : List UInt8) : String :=
  Text.trim (Text.decodeLossy (written.take maxDiagnosticBytes))

/-- What an owner knows of the diagnostics, and whether it can still ask for them. -/
def Handle.notes (h : Handle) : Option String × Bool := (h.diagnostics, h.reader)

/-! ## What is written and read -/

namespace Process

/-- The diagnostics that the next action of a process writes. -/
def utters (p : Process) (now : Nat) : List UInt8 :=
  if p.exit.isSome ∨ now < p.ready then []
  else match p.todo with
    | .err bytes :: _ => bytes
    | _ => []

theorem utters_of_exit {p : Process} (h : p.exit.isSome) (now : Nat) : p.utters now = [] :=
  if_pos (.inl h)

theorem errors_receive (p : Process) (n : Nat) : (p.receive n).errors = p.errors := by
  unfold receive
  split
  · rfl
  · split
    · cases p.term <;> rfl
    · rfl

theorem errors_write {p q : Process} {bytes : List UInt8} {later : List Action}
    (h : p.write bytes later = some q) : q.errors = p.errors := by
  unfold write at h
  split at h
  · obtain rfl := Option.some.inj h
    rfl
  · split at h
    · cases h
    · obtain rfl := Option.some.inj h
      rfl

theorem errors_act {p q : Process} {now : Nat} (h : p.act now = some q) :
    q.errors = p.errors ++ p.utters now := by
  unfold act at h
  split at h
  · cases h
  next hgo =>
  unfold utters
  rw [if_neg hgo]
  cases htodo : p.todo with
  | nil =>
    rw [htodo] at h
    obtain rfl := Option.some.inj h
    exact (List.append_nil _).symm
  | cons a later =>
    rw [htodo] at h
    cases a with
    | out bytes => exact (errors_write h).trans (List.append_nil _).symm
    | hang => cases h
    | signal n =>
      obtain rfl := Option.some.inj h
      exact (errors_receive _ n).trans (List.append_nil _).symm
    | err bytes =>
      obtain rfl := Option.some.inj h
      rfl
    | _ =>
      obtain rfl := Option.some.inj h
      exact (List.append_nil _).symm

/-- An action that cannot be performed writes nothing. -/
theorem utters_of_stuck {p : Process} {now : Nat} (h : p.act now = none) : p.utters now = [] := by
  unfold utters
  split
  · rfl
  next hgo =>
  unfold act at h
  rw [if_neg hgo] at h
  split
  · next bytes later htodo =>
    rw [htodo] at h
    cases h
  · rfl

end Process

/-- **Pieces.** Only what has been read matters, and not how it was cut. -/
theorem Drain.kept_foldl_keep (seen : List UInt8) (pieces : List (List UInt8)) {d : Drain}
    (h : d.kept = seen.take maxDiagnosticBytes) :
    (pieces.foldl Drain.keep d).kept = (seen ++ pieces.flatten).take maxDiagnosticBytes := by
  induction pieces generalizing d seen with
  | nil => rw [List.flatten_nil, List.append_nil, List.foldl_nil, h]
  | cons piece pieces ih =>
    rw [List.foldl_cons, List.flatten_cons, ← List.append_assoc]
    exact ih (seen ++ piece) (Drain.kept_keep seen piece h)

namespace Supervised

/-- The diagnostics that the generator writes in a move. -/
def utterance (s : Supervised) : Move → List UInt8
  | .act => s.process.utters s.now
  | _ => []

/-- The diagnostics that the generator has written. -/
def uttered (s : Supervised) : List Move → List UInt8
  | [] => []
  | m :: ms => s.utterance m ++ (s.step m).1.uttered ms

variable {written : List UInt8} {s t : Supervised} {p : Purpose} {r : Supervised × Option Reply}

/-- A generator that has ended writes no more. -/
theorem uttered_of_exit (h : s.Informed) (hx : s.process.exit.isSome) (ms : List Move) :
    s.uttered ms = [] := by
  induction ms generalizing s with
  | nil => rfl
  | cons m ms ih =>
    have hnone : s.utterance m = [] := by
      cases m with
      | act => exact Process.utters_of_exit hx s.now
      | _ => rfl
    rw [uttered, hnone, List.nil_append]
    refine ih (informed_step h m) ?_
    obtain ⟨status, hstatus⟩ := Option.isSome_iff_exists.1 hx
    rw [exit_step h m hstatus]
    rfl

/-! ## The reader -/

/-- The reader of the diagnostics keeps the first bytes of what it has read. -/
structure Gathered (written : List UInt8) (s : Supervised) : Prop where
  kept : ∃ seen, seen ++ s.process.errors = written ∧
    s.drain.kept = seen.take maxDiagnosticBytes
  ended : s.drain.ended = true → s.process.errors = [] ∧ s.process.exit.isSome

theorem Gathered.untouched (h : Gathered written s) (hu : s.Untouched t) : Gathered written t := by
  refine ⟨?_, ?_⟩
  · rw [hu.errors, hu.drain]
    exact h.kept
  · rw [hu.errors, hu.drain]
    intro hended
    exact (h.ended hended).imp_right hu.exited

theorem gathered_act (h : Gathered written s) :
    Gathered (written ++ s.process.utters s.now) s.act := by
  unfold act
  cases hact : s.process.act s.now with
  | none =>
    rw [Process.utters_of_stuck hact, List.append_nil]
    exact h
  | some q =>
    obtain ⟨seen, hseen, hkept⟩ := h.kept
    refine ⟨⟨seen, ?_, hkept⟩, ?_⟩
    · show seen ++ q.errors = _
      rw [Process.errors_act hact, ← List.append_assoc, hseen]
    · intro hended
      have hstuck := Process.act_of_exit (h.ended hended).2 s.now
      exact nomatch hstuck.symm.trans hact

/-- **Reading.** What is read is kept as far as there is room. -/
theorem gathered_drainOnce (h : Gathered written s) : Gathered written s.drainOnce := by
  have heq : s.drainOnce = { s with
      drain := (s.drain.step s.process).1, process := (s.drain.step s.process).2 } := rfl
  obtain ⟨seen, hseen, hkept⟩ := h.kept
  rw [heq]
  unfold Drain.step
  split
  · exact h
  · next hopen =>
    split
    · refine ⟨⟨seen ++ s.process.errors.take drainRead, ?_, Drain.kept_keep seen _ hkept⟩, ?_⟩
      · show _ ++ s.process.errors.drop drainRead = _
        rw [List.append_assoc, List.take_append_drop, hseen]
      · intro hended
        exact absurd hended hopen
    · next hempty =>
      split
      · next hexit => exact ⟨⟨seen, hseen, hkept⟩, fun _ => ⟨Decidable.not_not.1 hempty, hexit⟩⟩
      · exact h

/-- When the reader has seen the end, it has kept the first bytes of all that was written. -/
theorem Gathered.all (h : Gathered written s) (hended : s.drain.ended = true) :
    s.drain.kept = written.take maxDiagnosticBytes := by
  obtain ⟨seen, hseen, hkept⟩ := h.kept
  rw [(h.ended hended).1, List.append_nil] at hseen
  rw [hkept, hseen]

/-! ## The owner -/

/-- The time up to which a call waits for the diagnostics, if one does. -/
def joining? (s : Supervised) : Option Nat :=
  match s.stage with
  | some (.joining _ deadline) => some deadline
  | _ => none

/-- A call that waits for the diagnostics is not dropped, and has not to go on without them. -/
def heeds (s : Supervised) (m : Move) : Bool :=
  match s.joining?, m with
  | none, _ => true
  | some _, .call _ | some _, .cancel => false
  | some deadline, .poll => s.drain.ended || s.now < deadline
  | some _, _ => true

/-- Each call that waits for the diagnostics gets them. -/
def heedful (s : Supervised) : List Move → Bool
  | [] => true
  | m :: ms => s.heeds m && (s.step m).1.heedful ms

/-- What is told of the diagnostics is told of all of them, and they have been asked for only if
that is known or waited for. -/
structure Digested (written : List UInt8) (s : Supervised) : Prop where
  text : ∀ text, s.handle.diagnostics = some text →
    s.process.exit.isSome ∧ text = digest written
  asked : s.handle.reader = false → s.joining?.isSome ∨ s.handle.diagnostics.isSome

theorem notes_conclude (s : Supervised) (p : Purpose) :
    (s.conclude p).1.handle.notes = s.handle.notes := by
  have hattach : s.handle.attach.notes = s.handle.notes := by simp [Handle.notes]
  cases p with
  | await =>
    rw [conclude_await]
    exact hattach
  | read => exact hattach
  | terminate fault => exact hattach

theorem SeesEnd.notes (h : s.SeesEnd t) : t.handle.notes = s.handle.notes := by
  rcases h with ⟨rfl, -⟩ | rfl <;> rfl

theorem Ripe.notes (h : s.Ripe p t) : t.handle.notes = s.handle.notes := by
  cases h with
  | drained hp ht ho => exact ht.notes
  | _ => rfl

theorem Digested.of_notes (h : Digested written s) (hjoining : s.joining? = none)
    (hn : t.handle.notes = s.handle.notes) (hu : s.Untouched t) :
    Digested written t := by
  obtain ⟨hdiagnostics, hreader⟩ := Prod.mk.inj hn
  refine ⟨fun text htext => ?_, fun hasked => ?_⟩
  · rw [hdiagnostics] at htext
    exact (h.text text htext).imp_left hu.exited
  · rw [hreader] at hasked
    rw [hdiagnostics]
    refine .inr ((h.asked hasked).resolve_left ?_)
    rw [hjoining]
    nofun

/-- **Asking.** The call that asks for the diagnostics waits for them. -/
theorem digested_passage (hp : s.Passage p r) (h : Digested written s)
    (hjoining : s.joining? = none) : Digested written r.1 := by
  have hu := hp.untouched
  have hsame : r.1.handle.notes = s.handle.notes → Digested written r.1 :=
    fun hn => h.of_notes hjoining hn hu
  cases hp with
  | reap hp ht ho => exact hsame ht.notes
  | @join t hripe =>
    unfold join at hsame hu ⊢
    split at hu
    · next hreader =>
      rw [if_pos hreader] at hsame ⊢
      obtain ⟨hdiagnostics, -⟩ := Prod.mk.inj hripe.notes
      refine ⟨fun text htext => ?_, fun _ => .inl rfl⟩
      exact (h.text text (hdiagnostics.symm.trans htext)).imp_left hu.exited
    · next hreader =>
      rw [if_neg hreader] at hsame ⊢
      exact hsame ((t.notes_conclude p).trans hripe.notes)
  | conclude hs hb =>
    unfold joining? at hjoining
    rw [hs] at hjoining
    cases hjoining
  | _ => exact hsame rfl

theorem digested_opening (hp : s.Opening p r) (h : Digested written s)
    (hjoining : s.joining? = none) : Digested written r.1 := by
  cases hp with
  | on hp hpassage => exact digested_passage hpassage h hjoining
  | _ => exact h.of_notes hjoining rfl ⟨fun _ => id, rfl, rfl⟩

/-- **Being told.** A call that has waited for the diagnostics gets all of them. -/
theorem digested_joined (h : Digested written s) (hg : Gathered written s) {deadline : Nat}
    (hstage : s.stage = some (.joining p deadline))
    (hok : (s.drain.ended || s.now < deadline) = true) : Digested written s.poll.1 := by
  unfold poll
  rw [hstage]
  dsimp only
  split
  · next hended =>
    obtain ⟨handle, heq⟩ := (s.own (·.collect s.drain.kept)).conclude_eq p
    obtain ⟨hdiagnostics, -⟩ := Prod.mk.inj ((s.own (·.collect s.drain.kept)).notes_conclude p)
    have htold : ((s.own (·.collect s.drain.kept)).conclude p).1.handle.diagnostics =
        some (digest written) := by
      rw [hdiagnostics]
      show some (Text.trim (Text.decodeLossy s.drain.kept)) = _
      rw [hg.all hended]
      rfl
    refine ⟨fun text htext => ⟨?_, ?_⟩, fun _ => .inr (by rw [htold]; rfl)⟩
    · rw [heq]
      exact (hg.ended hended).2
    · exact Option.some.inj (htext.symm.trans htold)
  · next hended =>
    have htime : ¬ deadline ≤ s.now := by
      rw [Bool.eq_false_iff.2 hended, Bool.false_or, decide_eq_true_iff] at hok
      omega
    rw [if_neg htime]
    exact h

/-! ## Histories -/

theorem gathered_step (hi : s.Informed) (h : Gathered written s) (m : Move) :
    Gathered (written ++ s.utterance m) (s.step m).1 := by
  have hquiet : s.utterance m = [] → s.Untouched (s.step m).1 →
      Gathered (written ++ s.utterance m) (s.step m).1 := by
    intro hnone hu
    rw [hnone, List.append_nil]
    exact h.untouched hu
  cases m with
  | call c => exact hquiet rfl (untouched_start s c)
  | poll => exact hquiet rfl (untouched_poll hi)
  | cancel => exact hquiet rfl ⟨fun _ => id, rfl, rfl⟩
  | act => exact gathered_act h
  | drain =>
    show Gathered (written ++ []) s.drainOnce
    rw [List.append_nil]
    exact gathered_drainOnce h
  | pass nanos => exact hquiet rfl ⟨fun _ => id, rfl, rfl⟩

/-- Nothing is written after the end, and so nothing that is not told of. -/
theorem Digested.aside {bytes more : List UInt8} (h : Digested written s) (ha : Aside bytes s t)
    (hmore : s.process.exit.isSome → more = []) : Digested (written ++ more) t := by
  refine ⟨fun text htext => ?_, fun hasked => ?_⟩
  · rw [ha.handle] at htext
    obtain ⟨hexit, heq⟩ := h.text text htext
    rw [hmore hexit, List.append_nil]
    exact ⟨ha.exited hexit, heq⟩
  · rw [ha.handle] at hasked ⊢
    unfold joining?
    rw [ha.stage]
    exact h.asked hasked

theorem digested_poll (hi : s.Informed) (hg : Gathered written s) (h : Digested written s)
    (hok : s.heeds .poll = true) : Digested written s.poll.1 := by
  cases hstage : s.stage with
  | none =>
    rw [poll_of_stage hstage]
    exact h
  | some stage =>
    by_cases hjoining : ∃ p deadline, stage = .joining p deadline
    · obtain ⟨p, deadline, rfl⟩ := hjoining
      refine digested_joined h hg hstage ?_
      simpa [heeds, joining?, hstage] using hok
    · obtain ⟨p, -, hp⟩ := hi.passage_poll hstage
      refine digested_passage hp h ?_
      unfold joining?
      rw [hstage]
      split
      · next q deadline heq => exact absurd ⟨q, deadline, Option.some.inj heq⟩ hjoining
      · rfl

/-- **One thing happens**, and a call that waits for the diagnostics gets them. -/
theorem digested_step (hi : s.Informed) (hg : Gathered written s) (h : Digested written s)
    {m : Move} (hok : s.heeds m = true) :
    Digested (written ++ s.utterance m) (s.step m).1 := by
  have hnone : m.interrupts = true → s.joining? = none := by
    intro hm
    cases hjoining : s.joining? with
    | none => rfl
    | some deadline =>
      unfold heeds at hok
      rw [hjoining] at hok
      cases m with
      | call c => cases hok
      | cancel => cases hok
      | _ => cases hm
  have hquiet : s.process.exit.isSome → ([] : List UInt8) = [] := fun _ => rfl
  cases m with
  | call c =>
    obtain ⟨p, -, hp⟩ := s.opening_start c
    show Digested (written ++ []) (s.start c).1
    rw [List.append_nil]
    exact digested_opening hp h (hnone rfl)
  | poll =>
    show Digested (written ++ []) s.poll.1
    rw [List.append_nil]
    exact digested_poll hi hg h hok
  | cancel =>
    show Digested (written ++ []) s.cancel
    rw [List.append_nil]
    exact h.of_notes (hnone rfl) rfl ⟨fun _ => id, rfl, rfl⟩
  | act => exact h.aside s.aside_act fun hexit => Process.utters_of_exit hexit s.now
  | drain => exact h.aside s.aside_drainOnce hquiet
  | pass nanos => exact h.aside (s.aside_pass nanos) hquiet

theorem digested_run (hi : s.Informed) (hg : Gathered written s) (h : Digested written s)
    {ms : List Move} (hok : s.heedful ms = true) :
    Digested (written ++ s.uttered ms) (s.run ms).1 := by
  induction ms generalizing written s with
  | nil =>
    rw [uttered, List.append_nil]
    exact h
  | cons m ms ih =>
    rw [heedful, Bool.and_eq_true] at hok
    rw [uttered, ← List.append_assoc]
    exact ih (informed_step hi m) (gathered_step hi hg m) (digested_step hi hg h hok.1) hok.2

theorem digested_launch {l : Launcher} {job : Job.Description} (h : l.launch job = .ok s) :
    Gathered [] s ∧ Digested [] s := by
  obtain ⟨todo, rfl⟩ := launch_eq h
  exact ⟨⟨⟨[], rfl, rfl⟩, nofun⟩, nofun, nofun⟩

/-- **The diagnostics of a failure**, whatever has been called before, as long as each call that
waits for them gets them, and none still waits. Every way to cut the bytes into pieces gives the
same text. -/
theorem diagnostics_complete {l : Launcher} {job : Job.Description} (h : l.launch job = .ok s)
    {ms : List Move} (hok : s.heedful ms = true) (hjoining : (s.run ms).1.joining? = none)
    {code : Option UInt8} {text : String}
    (hfailed : (s.run ms).1.handle.exitStatus = .ok (.failure code text)) :
    text = digest (s.uttered ms) ∧ (∀ ns, (s.run ms).1.uttered ns = []) ∧
      ∀ pieces : List (List UInt8), pieces.flatten = s.uttered ms →
        text = Text.trim (Text.decodeLossy (pieces.foldl Drain.keep {}).kept) := by
  have hi : (s.run ms).1.Informed := informed_run (informed_launch h) ms
  obtain ⟨hg, hd⟩ := digested_launch h
  have hdigested := digested_run (informed_launch h) hg hd hok
  rw [List.nil_append] at hdigested
  have ho : (s.run ms).1.handle.outcome = some (.failure code text) :=
    Handle.exitStatus_eq_ok_iff.1 hfailed
  have hreader : (s.run ms).1.handle.reader = false := hi.handle.asked (by rw [ho]; rfl)
  have htold : (s.run ms).1.handle.diagnostics.isSome :=
    (hdigested.asked hreader).resolve_left (by rw [hjoining]; nofun)
  obtain ⟨told, htold⟩ := Option.isSome_iff_exists.1 htold
  obtain ⟨hexit, heq⟩ := hdigested.text told htold
  have htext : text = digest (s.uttered ms) := by
    rw [hi.handle.told code text ho, htold, Option.getD_some, heq]
  refine ⟨htext, uttered_of_exit hi hexit, fun pieces hpieces => ?_⟩
  have hkept := Drain.kept_foldl_keep [] pieces (d := {}) rfl
  rw [htext, hkept, List.nil_append, hpieces]
  rfl

/-- A program that complains in two parts, which tear a letter apart, and does not let itself be
stopped. -/
def stubborn : Launcher where
  command := {}
  installed := .runs [.act (.onTerm .ignored), .act (.err [32, 111, 195]),
    .act (.err [182, 255, 10]), .act .hang]
  jobPath := []

/-- The same program, once it has been launched. -/
def stubbornStart : Supervised where
  process := {
    todo := [.onTerm .ignored, .err [32, 111, 195], .err [182, 255, 10], .hang]
    ready := startTime.nanos
    output := ⟨[], pipeCapacity, Nat.zero_add _⟩ }

/-- It is killed after the grace, and each part of what it writes is read on its own. -/
def stubbornMoves : List Move :=
  [.pass startTime.nanos, .act, .act, .drain, .act, .call .terminate, .poll,
    .pass defaultGrace.nanos, .poll, .poll, .drain, .poll, .drain, .poll]

theorem diagnostics_complete_killed :
    stubborn.launch ⟨[], ⟨44100, 100⟩, []⟩ = .ok stubbornStart ∧
      stubbornStart.heedful stubbornMoves = true ∧
      (stubbornStart.run stubbornMoves).2 = [.stopped] ∧
      stubbornStart.uttered stubbornMoves = [32, 111, 195, 182, 255, 10] ∧
      (stubbornStart.run stubbornMoves).1.handle.exitStatus = .ok (.failure none "oö\uFFFD") ∧
      "oö\uFFFD" = digest [32, 111, 195, 182, 255, 10] := by
  have hlaunch : stubborn.launch ⟨[], ⟨44100, 100⟩, []⟩ = .ok stubbornStart := rfl
  have hok : stubbornStart.heedful stubbornMoves = true := by decide
  have hfailed : (stubbornStart.run stubbornMoves).1.handle.exitStatus =
      .ok (.failure none "oö\uFFFD") := rfl
  obtain ⟨htext, -⟩ := diagnostics_complete hlaunch hok (by decide) hfailed
  exact ⟨hlaunch, hok, by decide, by decide, hfailed, htext⟩

end Supervised

end ToneRelay.Generator
