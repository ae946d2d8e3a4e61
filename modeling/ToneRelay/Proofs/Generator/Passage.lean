import ToneRelay.Proofs.Generator.Conversation

/-!
# The ways of a call

What a call can do, said once. A call opens with an answer that is known already, waits for output,
or goes on at once (`opening_start`). To go on is one of a few things (`passage_poll`): the call is
answered from the process, waits for its end, or comes to the diagnostics. Whatever it does, a
process that has ended stays as it ended, and its diagnostics stay where they are (`Untouched`).
-/

namespace ToneRelay.Generator

/-- A stage of a call that is made for a purpose. -/
def Stage.For (p : Purpose) : Stage → Prop
  | .awaiting _ _ _ => p = .await
  | .reading _ => p = .read
  | .reaping q | .joining q _ => q = p
  | .stopping _ | .killing => ∃ fault, p = .terminate fault

/-- A stage at which a call of some purpose waits for output. -/
def Stage.Listens (p : Purpose) : Stage → Prop
  | .awaiting _ _ _ => p = .await
  | .reading _ => p = .read
  | _ => False

/-- What an owner holds that is about to ask for the diagnostics. -/
def Purpose.Ready (h : Handle) : Purpose → Prop
  | .await | .read => h.drained = true ∧ h.outcome.isSome
  | .terminate _ => h.output = false ∧ h.pending = none

/-- What an owner holds at a stage: it waits for the end of a process only as long as that is not
known, and for diagnostics only once. -/
def Stage.Suits (h : Handle) : Stage → Prop
  | .awaiting _ _ _ | .reading _ => True
  | .reaping p => (p = .await ∨ p = .read) ∧ h.drained = true ∧ h.outcome = none
  | .joining p _ => h.reader = false ∧ h.diagnostics = none ∧ p.Ready h
  | .stopping _ | .killing => h.outcome = none

theorem Purpose.ready_of_drained {h : Handle} {p : Purpose} (hp : p = .await ∨ p = .read)
    (hd : h.drained = true) (ho : h.outcome.isSome) : p.Ready h := by
  rcases hp with rfl | rfl <;> exact ⟨hd, ho⟩

/-- An answer that is known from what the owner holds. -/
def Handle.Knows (h : Handle) : Purpose → Reply → Prop
  | .await, .ready => h.pending.isSome ∨ h.drained = true
  | .read, .failed .closed => h.released = true ∨ h.eofSent = true
  | .terminate _, .stopped => h.released = true
  | _, _ => False

namespace Supervised

/-- The owner has seen the end of the output, now or before. -/
def SeesEnd (s t : Supervised) : Prop :=
  t = s ∧ s.handle.drained = true ∨ t = s.own Handle.drain

/-- The owner is about to ask for the diagnostics. -/
inductive Ripe (s : Supervised) : Purpose → Supervised → Prop
  /-- The end of the process was recorded before. -/
  | drained {p : Purpose} {t : Supervised} (hp : p = .await ∨ p = .read) (ht : s.SeesEnd t)
      (ho : s.handle.outcome.isSome) : Ripe s p t
  | reaped {p : Purpose} {status : Status} {q : Process} (hp : p = .await ∨ p = .read)
      (hd : s.handle.drained = true) (ho : s.handle.outcome = none)
      (hw : s.process.wait = (.ended status, q)) :
      Ripe s p ({ s with process := q }.own (·.record status))
  | letGo (ho : s.handle.outcome.isSome) : Ripe s (.terminate none) (s.own Handle.letGo)
  | stopped {status : Status} {q : Process} (ho : s.handle.outcome = none)
      (hw : s.process.wait = (.ended status, q)) :
      Ripe s (.terminate none) (({ s with process := q }.own (·.record status)).own Handle.letGo)
  | untold {reason : String} {q : Process} (ho : s.handle.outcome = none)
      (hw : s.process.wait = (.failed reason, q)) :
      Ripe s (.terminate (some (.wait reason))) ({ s with process := q }.own Handle.letGo)

/-- How a call of some purpose goes on. -/
inductive Passage (s : Supervised) (p : Purpose) : Supervised × Option Reply → Prop
  | still : Passage s p (s, none)
  | late {limit : Duration} (hp : p = .await) :
      Passage s p (s.reply (.failed (.startupTimeout limit)))
  /-- A chunk is read and kept for the next read. -/
  | ahead {n : Nat} {chunk : List UInt8} {q : Process} (hp : p = .await)
      (hout : s.handle.output = true) (hr : s.process.read (Nat.max n 1) = (.bytes chunk, q)) :
      Passage s p
        (({ s with process := q }.own fun h => { h with pending := some chunk }).reply .ready)
  | data {n : Nat} {chunk : List UInt8} {q : Process} (hp : p = .read)
      (hr : s.process.read (Nat.max n 1) = (.bytes chunk, q)) :
      Passage s p ({ s with process := q }.reply (.data chunk))
  | unread {n : Nat} {reason : String} {q : Process} (hp : p = .await ∨ p = .read)
      (hr : s.process.read (Nat.max n 1) = (.failed reason, q)) :
      Passage s p ({ s with process := q }.reply (.failed (.read reason)))
  | untold {reason : String} {q : Process} (hp : p = .await ∨ p = .read)
      (hw : s.process.wait = (.failed reason, q)) :
      Passage s p ({ s with process := q }.reply (.failed (.wait reason)))
  /-- The end of the process is waited for. -/
  | reap {t : Supervised} (hp : p = .await ∨ p = .read) (ht : s.SeesEnd t)
      (ho : s.handle.outcome = none) : Passage s p (t.wait (.reaping p))
  /-- The process is asked to terminate, or killed. -/
  | signal {n : Nat} {stage : Stage} (hp : ∃ fault, p = .terminate fault)
      (hs : stage = .killing ∨ ∃ deadline, stage = .stopping deadline)
      (ho : s.handle.outcome = none) :
      Passage s p ({ s with process := s.process.receive n }.wait stage)
  | join {t : Supervised} (h : s.Ripe p t) : Passage s p (t.join p)
  /-- The diagnostics are there, or are not waited for any longer. -/
  | conclude {deadline : Nat} {bytes : List UInt8} (hs : s.stage = some (.joining p deadline))
      (hb : s.drain.ended = true ∧ bytes = s.drain.kept ∨
        s.drain.ended = false ∧ deadline ≤ s.now ∧ bytes = []) :
      Passage s p ((s.own (·.collect bytes)).conclude p)

/-- How a call of some purpose begins. -/
inductive Opening (s : Supervised) (p : Purpose) : Supervised × Option Reply → Prop
  | known {r : Reply} (h : s.handle.Knows p r) : Opening s p (s.reply r)
  /-- The chunk that was read ahead is handed out. -/
  | hand {chunk : List UInt8} (hp : p = .read) (h : s.handle.pending = some chunk) :
      Opening s p ((s.own fun h => { h with pending := none }).reply (.data chunk))
  | listen {stage : Stage} (hs : stage.Listens p) (hd : s.handle.drained = false)
      (hpending : s.handle.pending = none) : Opening s p (s.wait stage)
  | on {r : Supervised × Option Reply} (hp : p ≠ .await) (h : s.Passage p r) : Opening s p r

variable {s t : Supervised} {p : Purpose} {r : Supervised × Option Reply}

/-! ## Calls -/

theorem passage_reap (hp : p = .await ∨ p = .read) (ht : s.SeesEnd t) : s.Passage p (t.reap p) := by
  have hsame : t.handle.outcome = s.handle.outcome := by
    rcases ht with ⟨rfl, -⟩ | rfl <;> rfl
  unfold reap
  rw [hsame]
  split
  · next ho => exact .join (.drained hp ht ho)
  · next ho => exact .reap hp ht (Option.not_isSome_iff_eq_none.1 ho)

theorem passage_readFor {max : Nat} {onData : List UInt8 → Supervised → Supervised × Option Reply}
    {onNothing : Supervised → Supervised × Option Reply} (hp : p = .await ∨ p = .read)
    (hdata : s.handle.output = true → ∀ chunk q,
      s.process.read (Nat.max max 1) = (.bytes chunk, q) →
        s.Passage p (onData chunk { s with process := q }))
    (hnothing : s.Passage p (onNothing s)) : s.Passage p (s.readFor max p onData onNothing) := by
  unfold readFor
  split
  · next hout =>
    split
    · next chunk q hr => exact hdata hout chunk q hr
    · exact passage_reap hp (.inr rfl)
    · next reason q hr => exact .unread hp hr
    · exact hnothing
  · exact passage_reap hp (.inr rfl)

/-- The end of a process that is being stopped. -/
theorem passage_stop (onNothing : Supervised → Supervised × Option Reply)
    (ho : s.handle.outcome = none) (hnothing : s.Passage (.terminate none) (onNothing s)) :
    ∃ fault, s.Passage (.terminate fault)
      (s.ended (·.close none) (fun fault s => s.close (some fault)) onNothing) := by
  unfold ended
  split
  · next status q hw => exact ⟨none, .join (.stopped ho hw)⟩
  · next reason q hw => exact ⟨some (.wait reason), .join (.untold ho hw)⟩
  · exact ⟨none, hnothing⟩

/-- **A call begins.** -/
theorem opening_start (s : Supervised) (c : Call) : ∃ p, c.For p ∧ s.Opening p (s.start c) := by
  cases c with
  | await max limit =>
    refine ⟨.await, trivial, ?_⟩
    unfold start
    dsimp only
    split
    · next h => exact .known h
    · next h =>
      obtain ⟨hpending, hd⟩ := not_or.1 h
      exact .listen rfl (Bool.eq_false_iff.2 hd) (Option.not_isSome_iff_eq_none.1 hpending)
  | read max =>
    refine ⟨.read, trivial, ?_⟩
    unfold start
    dsimp only
    split
    · next h => exact .known h
    · split
      · next chunk hpending => exact .hand rfl hpending
      · next hpending =>
        split
        · next hd => exact .on nofun (passage_reap (.inr rfl) (.inl ⟨rfl, hd⟩))
        · next hd => exact .listen rfl (Bool.eq_false_iff.2 hd) hpending
  | terminate =>
    unfold start
    dsimp only
    split
    · next h => exact ⟨.terminate none, trivial, .known h⟩
    · split
      · next ho => exact ⟨.terminate none, trivial, .on nofun (.join (.letGo ho))⟩
      · next ho =>
        have ho := Option.not_isSome_iff_eq_none.1 ho
        obtain ⟨fault, h⟩ := passage_stop (fun s =>
          { s with process := s.process.receive sigTerm }.wait
            (.stopping (s.now + s.handle.grace.nanos))) ho
          (.signal ⟨none, rfl⟩ (.inr ⟨_, rfl⟩) ho)
        exact ⟨.terminate fault, trivial, .on nofun h⟩

/-- **A call goes on.** -/
theorem passage_poll {stage : Stage} (hstage : s.stage = some stage) (hs : stage.Suits s.handle) :
    ∃ p, stage.For p ∧ s.Passage p s.poll := by
  unfold poll
  rw [hstage]
  cases stage with
  | awaiting max limit deadline =>
    refine ⟨.await, rfl, passage_readFor (.inl rfl) (fun ho chunk q hr => .ahead rfl ho hr) ?_⟩
    split
    · exact .late rfl
    · exact .still
  | reading max =>
    exact ⟨.read, rfl, passage_readFor (.inr rfl) (fun _ chunk q hr => .data rfl hr) .still⟩
  | reaping p =>
    obtain ⟨hp, hd, ho⟩ := hs
    refine ⟨p, rfl, ?_⟩
    unfold ended
    dsimp only
    split
    · next status q hw => exact .join (.reaped hp hd ho hw)
    · next reason q hw => exact .untold hp hw
    · exact .still
  | joining p deadline =>
    refine ⟨p, rfl, ?_⟩
    dsimp only
    split
    · next hended => exact .conclude hstage (.inl ⟨hended, rfl⟩)
    · next hended =>
      split
      · next hd => exact .conclude hstage (.inr ⟨Bool.eq_false_iff.2 hended, hd, rfl⟩)
      · exact .still
  | stopping deadline =>
    have hnothing : s.Passage (.terminate none)
        (if deadline ≤ s.now then { s with process := s.process.receive sigKill }.wait .killing
          else (s, none)) := by
      split
      · exact .signal ⟨none, rfl⟩ (.inl rfl) hs
      · exact .still
    obtain ⟨fault, h⟩ := passage_stop (fun s =>
      if deadline ≤ s.now then { s with process := s.process.receive sigKill }.wait .killing
      else (s, none)) hs hnothing
    exact ⟨.terminate fault, ⟨fault, rfl⟩, h⟩
  | killing =>
    obtain ⟨fault, h⟩ := passage_stop (·, none) hs .still
    exact ⟨.terminate fault, ⟨fault, rfl⟩, h⟩

/-! ## What a call leaves alone -/

/-- A process that had ended has ended in the same way, and the diagnostics and their reader are
where they were. -/
structure Untouched (s t : Supervised) : Prop where
  exit : ∀ status, s.process.exit = some status → t.process.exit = some status
  errors : t.process.errors = s.process.errors
  drain : t.drain = s.drain

theorem Untouched.refl (s : Supervised) : s.Untouched s := ⟨fun _ => id, rfl, rfl⟩

theorem Untouched.exited (h : s.Untouched t) (hx : s.process.exit.isSome) :
    t.process.exit.isSome := by
  obtain ⟨status, hstatus⟩ := Option.isSome_iff_exists.1 hx
  rw [h.exit status hstatus]
  rfl

theorem untouched_read (s : Supervised) (n : Nat) :
    s.Untouched { s with process := (s.process.read n).2 } := by
  refine ⟨?_, ?_, rfl⟩
  · intro status hx
    exact (s.process.read_spec n).2.1.trans hx
  · show (s.process.read n).2.errors = _
    unfold Process.read
    split
    · rfl
    · split <;> rfl

theorem untouched_wait (s : Supervised) : s.Untouched { s with process := s.process.wait.2 } := by
  refine ⟨?_, ?_, rfl⟩
  · intro status hx
    exact s.process.wait_spec.2.2.2.trans hx
  · show s.process.wait.2.errors = _
    unfold Process.wait
    split
    · rfl
    · split <;> rfl

theorem untouched_receive (s : Supervised) (n : Nat) :
    s.Untouched { s with process := s.process.receive n } := by
  refine ⟨?_, ?_, rfl⟩
  · intro status hx
    have hsome : s.process.exit.isSome := by rw [hx]; rfl
    show (s.process.receive n).exit = _
    rw [Process.receive_of_exit hsome, hx]
  · show (s.process.receive n).errors = _
    unfold Process.receive
    split
    · rfl
    · split
      · cases s.process.term <;> rfl
      · rfl

theorem conclude_eq (s : Supervised) (p : Purpose) :
    ∃ h, (s.conclude p).1 = { s with handle := h, stage := none } := by
  cases p with
  | await =>
    rw [conclude_await]
    exact ⟨_, rfl⟩
  | read => exact ⟨_, rfl⟩
  | terminate fault => exact ⟨_, rfl⟩

theorem join_eq (s : Supervised) (p : Purpose) :
    ∃ h stage, (s.join p).1 = { s with handle := h, stage := stage } := by
  unfold join
  split
  · exact ⟨_, _, rfl⟩
  · obtain ⟨h, heq⟩ := s.conclude_eq p
    exact ⟨h, none, heq⟩

theorem Ripe.untouched (h : s.Ripe p t) : s.Untouched t := by
  have hwait := s.untouched_wait
  cases h with
  | drained hp ht ho => rcases ht with ⟨rfl, -⟩ | rfl <;> exact ⟨fun _ => id, rfl, rfl⟩
  | letGo ho => exact ⟨fun _ => id, rfl, rfl⟩
  | reaped _ _ _ hw | stopped _ hw | untold _ hw =>
    rw [hw] at hwait
    exact ⟨hwait.exit, hwait.errors, rfl⟩

theorem Ripe.exit_eq (h : s.Ripe p t) : t.process.exit = s.process.exit := by
  obtain ⟨-, -, -, hwait⟩ := s.process.wait_spec
  cases h with
  | drained hp ht ho => rcases ht with ⟨rfl, -⟩ | rfl <;> rfl
  | letGo ho => rfl
  | reaped _ _ _ hw | stopped _ hw | untold _ hw =>
    rw [hw] at hwait
    exact hwait

/-- A call for output ends no process. -/
theorem Passage.exit_eq (h : s.Passage p r) (hp : p = .await ∨ p = .read) :
    r.1.process.exit = s.process.exit := by
  cases h with
  | still => rfl
  | late hp => rfl
  | @ahead n _ _ _ _ hr | @data n _ _ _ hr | @unread n _ _ _ hr =>
    obtain ⟨-, hread, -⟩ := s.process.read_spec (Nat.max n 1)
    rw [hr] at hread
    exact hread
  | untold hp hw =>
    obtain ⟨-, -, -, hwait⟩ := s.process.wait_spec
    rw [hw] at hwait
    exact hwait
  | reap hp ht ho => rcases ht with ⟨rfl, -⟩ | rfl <;> rfl
  | signal hterminate =>
    obtain ⟨fault, rfl⟩ := hterminate
    rcases hp with hp | hp <;> cases hp
  | @join t hripe =>
    obtain ⟨handle, stage, heq⟩ := t.join_eq p
    rw [heq]
    exact hripe.exit_eq
  | @conclude deadline bytes =>
    obtain ⟨handle, heq⟩ := (s.own (·.collect bytes)).conclude_eq p
    rw [heq]
    rfl

theorem Opening.exit_eq (h : s.Opening p r) (hp : p = .await ∨ p = .read) :
    r.1.process.exit = s.process.exit := by
  cases h with
  | on hne hpassage => exact hpassage.exit_eq hp
  | _ => rfl

theorem Passage.untouched (h : s.Passage p r) : s.Untouched r.1 := by
  cases h with
  | still => exact .refl s
  | late hp => exact ⟨fun _ => id, rfl, rfl⟩
  | @ahead n _ _ _ _ hr | @data n _ _ _ hr | @unread n _ _ _ hr =>
    have hread := s.untouched_read (Nat.max n 1)
    rw [hr] at hread
    exact ⟨hread.exit, hread.errors, rfl⟩
  | untold hp hw =>
    have hwait := s.untouched_wait
    rw [hw] at hwait
    exact ⟨hwait.exit, hwait.errors, rfl⟩
  | reap hp ht ho => rcases ht with ⟨rfl, -⟩ | rfl <;> exact ⟨fun _ => id, rfl, rfl⟩
  | @signal n =>
    have hreceive := s.untouched_receive n
    exact ⟨hreceive.exit, hreceive.errors, rfl⟩
  | @join t hripe =>
    obtain ⟨handle, stage, heq⟩ := t.join_eq p
    rw [heq]
    exact ⟨hripe.untouched.exit, hripe.untouched.errors, hripe.untouched.drain⟩
  | @conclude deadline bytes =>
    obtain ⟨handle, heq⟩ := (s.own (·.collect bytes)).conclude_eq p
    rw [heq]
    exact ⟨fun _ => id, rfl, rfl⟩

theorem Opening.untouched (h : s.Opening p r) : s.Untouched r.1 := by
  cases h with
  | on hp h => exact h.untouched
  | _ => exact ⟨fun _ => id, rfl, rfl⟩

end Supervised

end ToneRelay.Generator
