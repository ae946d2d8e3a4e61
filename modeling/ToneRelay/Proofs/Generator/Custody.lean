import ToneRelay.Generator.Launch
import ToneRelay.Proofs.Generator.Speech

/-!
# The custody of the output

What the owner of a generator knows between two of its steps, and that no step loses a byte.

1. An `Idle` owner that waits for output or reads goes on as `Led` tells: what it hands out, with
   what it still holds, is what it held before (`led_start_await`, `led_start_read`, `led_poll`).
2. When it hands out the end, the pipe is empty, nothing more can be written and the outcome is
   recorded (`Ended`).
3. An owner that stops its generator gets to `Released`, and on the way nothing is added to what the
   generator will write (`halted_start`, `halted_poll`).
4. What happens in between only adds what the generator writes (`Aside`).
-/

namespace ToneRelay.Generator

namespace Handle

/-- What a handle tells about the output, as opposed to the end of the process. -/
def custody (h : Handle) : Bool × Option (List UInt8) × Bool × Bool × Bool :=
  (h.output, h.pending, h.drained, h.eofSent, h.released)

@[simp] theorem custody_attach (h : Handle) : h.attach.custody = h.custody := by simp [custody]

theorem isSome_outcome_attach (h : Handle) : h.attach.outcome.isSome = h.outcome.isSome := by
  unfold attach
  split
  · next ho _ => rw [ho]; rfl
  · rfl

theorem outcome_attach_congr {h k : Handle} (ho : h.outcome = k.outcome)
    (hd : h.diagnostics = k.diagnostics) : h.attach.outcome = k.attach.outcome := by
  unfold attach
  rw [ho, hd]
  split
  · rfl
  · exact ho

/-- Diagnostics are given to an outcome once. -/
theorem attach_attach (h : Handle) : h.attach.attach = h.attach := by
  obtain ⟨grace, output, reader, diagnostics, jobFile, pending, outcome, drained, eofSent,
    released⟩ := h
  cases outcome with
  | none => rfl
  | some o =>
    cases o with
    | success => rfl
    | failure code text =>
      by_cases ht : text = ""
      · subst ht
        cases diagnostics with
        | none => rfl
        | some told =>
          by_cases htold : told = ""
          · subst htold
            rfl
          · simp [attach, htold]
      · simp [attach, ht]

end Handle

/-- Where a call of some purpose may wait, and what its owner knows there. -/
def Stage.Fits (p : Purpose) (h : Handle) : Stage → Prop
  | .awaiting _ _ _ => p = .await ∧ h.drained = false ∧ h.pending = none
  | .reading _ => p = .read ∧ h.drained = false ∧ h.pending = none
  | .reaping q => q = p ∧ h.drained = true
  | .joining q _ => q = p ∧ h.drained = true ∧ h.reader = false ∧ h.outcome.isSome
  | .stopping _ | .killing => False

namespace Supervised

/-! ## Between two calls -/

/-- The bytes that have been written and not been handed out. -/
def stock (s : Supervised) : List UInt8 := s.handle.pending.getD [] ++ s.process.output.bytes

/-- The owner can still read. It has let go of the output only when all of it had been read. -/
structure Held (s : Supervised) : Prop where
  released : s.handle.released = false
  eofSent : s.handle.eofSent = false
  output : s.handle.output = !s.handle.drained
  ahead : s.handle.pending ≠ some []
  dry : s.handle.drained = true →
    s.handle.pending = none ∧ s.process.output.bytes = [] ∧ s.process.outputOpen = false
  shut : s.process.Shut

/-- The owner can read, and no call is under way. -/
structure Idle (s : Supervised) : Prop extends Held s where
  stage : s.stage = none

/-- A generator that has just been launched has written nothing. -/
theorem idle_launch {l : Launcher} {job : Job.Description} {s : Supervised}
    (h : l.launch job = .ok s) : s.Idle ∧ s.stock = [] := by
  obtain ⟨todo, rfl⟩ := launch_eq h
  exact ⟨⟨⟨rfl, rfl, rfl, nofun, nofun, nofun⟩, rfl⟩, rfl⟩

/-- The end of the output has been handed out. -/
structure Ended (s : Supervised) : Prop where
  released : s.handle.released = false
  drained : s.handle.drained = true
  eofSent : s.handle.eofSent = true
  stage : s.stage = none
  reader : s.handle.reader = false
  outcome : s.handle.outcome.isSome
  attached : s.handle.attach.outcome = s.handle.outcome
  stock : s.stock = []
  closed : s.process.outputOpen = false

/-- The owner holds nothing more. -/
structure Released (s : Supervised) : Prop where
  released : s.handle.released = true
  stage : s.stage = none

/-- Nothing has moved from where it was in the output of a generator. -/
structure Undisturbed (s t : Supervised) : Prop where
  custody : t.handle.custody = s.handle.custody
  output : t.process.output = s.process.output
  unwritten : t.process.unwritten = s.process.unwritten
  outputOpen : t.process.outputOpen = s.process.outputOpen
  exit : t.process.exit = s.process.exit

theorem Undisturbed.stock {s t : Supervised} (h : s.Undisturbed t) : t.stock = s.stock := by
  have hpending := congrArg (·.2.1) h.custody
  simp only [Handle.custody] at hpending
  unfold Supervised.stock
  rw [hpending, h.output]

theorem Held.of_undisturbed {s t : Supervised} (hs : s.Held) (h : s.Undisturbed t) : t.Held := by
  have hc := h.custody
  simp only [Handle.custody, Prod.mk.injEq] at hc
  obtain ⟨houtput, hpending, hdrained, heof, hreleased⟩ := hc
  refine ⟨hreleased.trans hs.released, heof.trans hs.eofSent, ?_, ?_, ?_, ?_⟩
  · rw [houtput, hdrained, hs.output]
  · rw [hpending]
    exact hs.ahead
  · rw [hdrained, hpending, h.output, h.outputOpen]
    exact hs.dry
  · unfold Process.Shut
    rw [h.exit, h.outputOpen]
    exact hs.shut

/-- As long as the end has not been seen, only what was read ahead and the process matter. -/
theorem Held.of_undrained {s t : Supervised} (hs : s.Held) (hd : s.handle.drained = false)
    (hhandle : { t.handle with pending := none } = { s.handle with pending := none })
    (hahead : t.handle.pending ≠ some []) (hshut : t.process.Shut) : t.Held := by
  have houtput : t.handle.output = !s.handle.drained :=
    (congrArg Handle.output hhandle).trans hs.output
  have hdrained : t.handle.drained = false := (congrArg Handle.drained hhandle).trans hd
  refine ⟨(congrArg Handle.released hhandle).trans hs.released,
    (congrArg Handle.eofSent hhandle).trans hs.eofSent, ?_, hahead, ?_, hshut⟩
  · rw [houtput, hdrained, hd]
  · rw [hdrained]
    nofun

/-- All has been handed out when the end of the output has been seen. -/
theorem Held.stock_eq_nil {s : Supervised} (h : s.Held) (hd : s.handle.drained = true) :
    s.stock = [] := by
  obtain ⟨hpending, hbytes, -⟩ := h.dry hd
  unfold Supervised.stock
  rw [hpending, hbytes]
  rfl

/-! ## Waiting for output and reading -/

/-- A call of some purpose is under way. -/
structure Waits (p : Purpose) (s : Supervised) : Prop extends Held s where
  stage : ∃ stage, s.stage = some stage ∧ stage.Fits p s.handle

/-- A chunk has been handed out, and nothing else has been lost or added. -/
def Moved (chunk : List UInt8) (s t : Supervised) : Prop :=
  chunk ++ t.stock = s.stock ∧ t.process.unwritten = s.process.unwritten ∧
    t.process.exit = s.process.exit

theorem Undisturbed.moved {s t : Supervised} (h : s.Undisturbed t) : Moved [] s t :=
  ⟨h.stock, h.unwritten, h.exit⟩

theorem Moved.trans {chunk : List UInt8} {s t u : Supervised} (hst : Moved [] s t)
    (htu : Moved chunk t u) : Moved chunk s u :=
  ⟨htu.1.trans hst.1, htu.2.1.trans hst.2.1, htu.2.2.trans hst.2.2⟩

/-- What a step of a call leads to, by its answer. A read fails because the output cannot be read,
or because the process cannot be waited for, and then all of its output has been handed out. -/
def Led (p : Purpose) (s : Supervised) : Supervised × Option Reply → Prop
  | (t, none) => t.Waits p ∧ Moved [] s t
  | (t, some .ready) => p = .await ∧ t.Idle ∧ Moved [] s t
  | (t, some (.data chunk)) => p = .read ∧ t.Idle ∧ Moved chunk s t ∧ chunk ≠ []
  | (t, some .eof) => p = .read ∧ t.Ended ∧ Moved [] s t
  | (t, some (.failed fault)) => t.Idle ∧ Moved [] s t ∧ (p = .read →
      (∃ reason, fault = .read reason) ∨
        (∃ reason, fault = .wait reason) ∧ t.handle.drained = true)
  | (_, some .stopped) => False

theorem Led.of_moved {p : Purpose} {s t : Supervised} {r : Supervised × Option Reply}
    (h : Moved [] s t) (hr : t.Led p r) : s.Led p r := by
  obtain ⟨u, reply⟩ := r
  cases reply with
  | none => exact ⟨hr.1, h.trans hr.2⟩
  | some reply =>
    cases reply with
    | failed fault => exact ⟨hr.1, h.trans hr.2.1, hr.2.2⟩
    | stopped => exact hr.elim
    | data chunk => exact ⟨hr.1, hr.2.1, h.trans hr.2.2.1, hr.2.2.2⟩
    | _ => exact ⟨hr.1, hr.2.1, h.trans hr.2.2⟩

theorem led_conclude {s : Supervised} {p : Purpose} (h : s.Held) (hd : s.handle.drained = true)
    (hr : s.handle.reader = false) (ho : s.handle.outcome.isSome) (hp : p = .await ∨ p = .read) :
    s.Led p (s.conclude p) := by
  have hu : s.Undisturbed { s with handle := s.handle.attach, stage := none } :=
    ⟨s.handle.custody_attach, rfl, rfl, rfl, rfl⟩
  have hheld := h.of_undisturbed hu
  rcases hp with rfl | rfl
  · rw [conclude_await]
    rcases s.handle.attach.verdict_cases with hr | ⟨code, text, -, hr⟩
    · rw [hr]
      exact ⟨rfl, ⟨hheld, rfl⟩, hu.moved⟩
    · rw [hr]
      exact ⟨⟨hheld, rfl⟩, hu.moved, nofun⟩
  · have hstock := hu.stock.trans (h.stock_eq_nil hd)
    refine ⟨rfl, ⟨hheld.released, ?_, rfl, rfl, ?_, ?_, ?_, hstock, (h.dry hd).2.2⟩, hu.moved⟩
    · exact s.handle.drained_attach.trans hd
    · exact s.handle.reader_attach.trans hr
    · exact s.handle.isSome_outcome_attach.trans ho
    · have hagain := congrArg Handle.outcome s.handle.attach_attach
      refine (Handle.outcome_attach_congr ?_ ?_).trans hagain <;> rfl

theorem led_join {s : Supervised} {p : Purpose} (h : s.Held) (hd : s.handle.drained = true)
    (ho : s.handle.outcome.isSome) (hp : p = .await ∨ p = .read) : s.Led p (s.join p) := by
  unfold join
  split
  · exact ⟨⟨h.of_undisturbed ⟨rfl, rfl, rfl, rfl, rfl⟩, _, rfl, rfl, hd, rfl, ho⟩, rfl, rfl, rfl⟩
  · next hr => exact led_conclude h hd (Bool.eq_false_iff.2 hr) ho hp

theorem led_reap {s : Supervised} {p : Purpose} (h : s.Held) (hd : s.handle.drained = true)
    (hp : p = .await ∨ p = .read) : s.Led p (s.reap p) := by
  unfold reap
  split
  · next ho => exact led_join h hd ho hp
  · exact ⟨⟨h.of_undisturbed ⟨rfl, rfl, rfl, rfl, rfl⟩, _, rfl, rfl, hd⟩, rfl, rfl, rfl⟩

theorem undisturbed_wait (s : Supervised) : s.Undisturbed { s with process := s.process.wait.2 } :=
  have ⟨houtput, hun, hopen, hexit⟩ := s.process.wait_spec
  ⟨rfl, houtput, hun, hopen, hexit⟩

/-- The end of the process is recorded before the call goes on. -/
theorem led_ended {s : Supervised} {p : Purpose} (h : s.Waits p) (hd : s.handle.drained = true)
    (hp : p = .await ∨ p = .read) :
    s.Led p (s.ended (·.join p) (fun fault s => s.reply (.failed fault)) (·, none)) := by
  have hu := s.undisturbed_wait
  unfold ended
  split
  · next status q hw =>
    rw [hw] at hu
    have hrecord : s.Undisturbed ({ s with process := q }.own (·.record status)) :=
      ⟨rfl, hu.output, hu.unwritten, hu.outputOpen, hu.exit⟩
    exact .of_moved hrecord.moved (led_join (h.of_undisturbed hrecord) hd rfl hp)
  · next reason q hw =>
    rw [hw] at hu
    have hstage : s.Undisturbed { s with process := q, stage := none } :=
      ⟨rfl, hu.output, hu.unwritten, hu.outputOpen, hu.exit⟩
    exact ⟨⟨h.of_undisturbed hstage, rfl⟩, hstage.moved, fun _ => .inr ⟨⟨reason, rfl⟩, hd⟩⟩
  · exact ⟨h, rfl, rfl, rfl⟩

/-- A read for a call hands its bytes to `onData`; at the end of the output the owner lets go of
it. -/
theorem led_readFor {s : Supervised} {p : Purpose} {max : Nat}
    {onData : List UInt8 → Supervised → Supervised × Option Reply}
    {onNothing : Supervised → Supervised × Option Reply} (h : s.Held)
    (hd : s.handle.drained = false) (hpending : s.handle.pending = none)
    (hp : p = .await ∨ p = .read)
    (hdata : ∀ (chunk : List UInt8) (q : Process), chunk ≠ [] → q.Shut →
      chunk ++ q.output.bytes = s.process.output.bytes →
        q.unwritten = s.process.unwritten ∧ q.exit = s.process.exit →
          s.Led p (onData chunk { s with process := q }))
    (hnothing : s.Led p (onNothing s)) : s.Led p (s.readFor max p onData onNothing) := by
  unfold readFor
  rw [if_pos (by rw [h.output, hd]; rfl)]
  have hsame : (s.process.read (Nat.max max 1)).2.unwritten = s.process.unwritten ∧
      (s.process.read (Nat.max max 1)).2.exit = s.process.exit :=
    (s.process.read_spec (Nat.max max 1)).imp_right And.left
  have hshut := Process.shut_read h.shut (Nat.max max 1)
  split
  · next chunk q hr =>
    have hne := Process.read_ne_nil (Nat.le_max_right max 1) (congrArg Prod.fst hr)
    have happend := Process.read_append (congrArg Prod.fst hr)
    rw [hr] at hsame hshut happend
    exact hdata chunk q hne hshut happend hsame
  · next q hr =>
    obtain ⟨hbytes, hopen⟩ := Process.read_closed (congrArg Prod.fst hr)
    have hdrained : (s.own Handle.drain).Held :=
      ⟨h.released, h.eofSent, rfl, h.ahead, fun _ => ⟨hpending, hbytes, hopen⟩, h.shut⟩
    exact .of_moved ⟨rfl, rfl, rfl⟩ (led_reap hdrained rfl hp)
  · next reason q hr =>
    have hout := Process.output_read_failed (congrArg Prod.fst hr)
    rw [hr] at hsame hshut hout
    refine ⟨⟨h.of_undrained hd rfl h.ahead hshut, rfl⟩, ⟨?_, hsame⟩, fun _ => .inl ⟨_, rfl⟩⟩
    exact congrArg (s.handle.pending.getD [] ++ ·) (congrArg Pipe.bytes hout)
  · exact hnothing

/-- A chunk that was read for a call is what the stock begins with. -/
theorem stock_read {s : Supervised} {chunk : List UInt8} {q : Process}
    (hpending : s.handle.pending = none)
    (happend : chunk ++ q.output.bytes = s.process.output.bytes) :
    chunk ++ q.output.bytes = s.stock := by
  unfold stock
  rw [hpending, happend]
  rfl

/-- **Reading.** A call for output hands out what was read ahead, or waits. -/
theorem led_start_read {s : Supervised} (h : s.Held) (max : Nat) :
    s.Led .read (s.start (.read max)) := by
  unfold start
  dsimp only
  rw [if_neg (by simp [h.released, h.eofSent])]
  split
  · next chunk hpending =>
    have hd : s.handle.drained = false :=
      Bool.eq_false_iff.2 fun hd => nomatch (h.dry hd).1.symm.trans hpending
    refine ⟨rfl, ⟨h.of_undrained hd rfl nofun h.shut, rfl⟩, ⟨?_, rfl, rfl⟩, ?_⟩
    · unfold stock
      rw [hpending]
      rfl
    · intro he
      exact h.ahead (hpending.trans (congrArg some he))
  · next hpending =>
    split
    · next hd => exact led_reap h hd (.inr rfl)
    · next hd =>
      have hd := Bool.eq_false_iff.2 hd
      exact ⟨⟨h.of_undisturbed ⟨rfl, rfl, rfl, rfl, rfl⟩, _, rfl, rfl, hd, hpending⟩, rfl, rfl, rfl⟩

/-- **Waiting for output.** There is nothing to wait for when a chunk or the end has been read. -/
theorem led_start_await {s : Supervised} (h : s.Held) (max : Nat) (limit : Duration) :
    s.Led .await (s.start (.await max limit)) := by
  unfold start
  dsimp only
  split
  · exact ⟨rfl, ⟨h.of_undisturbed ⟨rfl, rfl, rfl, rfl, rfl⟩, rfl⟩, rfl, rfl, rfl⟩
  · next hnot =>
    obtain ⟨hpending, hd⟩ := not_or.1 hnot
    have hpending := Option.not_isSome_iff_eq_none.1 hpending
    have hd := Bool.eq_false_iff.2 hd
    exact ⟨⟨h.of_undisturbed ⟨rfl, rfl, rfl, rfl, rfl⟩, _, rfl, rfl, hd, hpending⟩, rfl, rfl, rfl⟩

/-- **Going on.** A call that waits is answered, goes to its next stage or waits on. -/
theorem led_poll {s : Supervised} {p : Purpose} (h : s.Waits p) (hp : p = .await ∨ p = .read) :
    s.Led p s.poll := by
  obtain ⟨stage, hstage, hfits⟩ := h.stage
  unfold poll
  rw [hstage]
  cases stage with
  | awaiting max limit deadline =>
    obtain ⟨rfl, hd, hpending⟩ := hfits
    refine led_readFor h.toHeld hd hpending hp (fun chunk q hne hshut happend hsame => ?_) ?_
    · refine ⟨rfl, ⟨h.of_undrained hd rfl ?_ hshut, rfl⟩, stock_read hpending happend, hsame⟩
      exact fun he => hne (Option.some.inj he)
    · split
      · exact ⟨⟨h.of_undisturbed ⟨rfl, rfl, rfl, rfl, rfl⟩, rfl⟩, ⟨rfl, rfl, rfl⟩, nofun⟩
      · exact ⟨h, rfl, rfl, rfl⟩
  | reading max =>
    obtain ⟨rfl, hd, hpending⟩ := hfits
    refine led_readFor h.toHeld hd hpending hp (fun chunk q hne hshut happend hsame => ?_)
      ⟨h, rfl, rfl, rfl⟩
    refine ⟨rfl, ⟨h.of_undrained hd rfl h.ahead hshut, rfl⟩, ⟨?_, hsame⟩, hne⟩
    have hstock := stock_read hpending happend
    unfold stock at hstock ⊢
    rw [← hstock, hpending]
    rfl
  | reaping q =>
    obtain ⟨rfl, hd⟩ := hfits
    exact led_ended h hd hp
  | joining q deadline =>
    obtain ⟨rfl, hd, hr, ho⟩ := hfits
    have hconclude : ∀ bytes, s.Led q ((s.own (·.collect bytes)).conclude q) := by
      intro bytes
      have hheld : (s.own (·.collect bytes)).Held :=
        h.of_undisturbed ⟨rfl, rfl, rfl, rfl, rfl⟩
      exact .of_moved ⟨rfl, rfl, rfl⟩ (led_conclude hheld hd hr ho hp)
    dsimp only
    split
    · exact hconclude _
    · split
      · exact hconclude _
      · exact ⟨h, rfl, rfl, rfl⟩
  | _ => exact hfits.elim

/-! ## Stopping -/

/-- A generator that is being stopped. -/
structure Stopping (s : Supervised) : Prop where
  released : s.handle.released = false
  stage : ∃ stage, s.stage = some stage ∧ match stage with
    | .stopping _ => True
    | .killing => s.process.exit.isSome
    | .joining (.terminate _) _ => True
    | _ => False

/-- What a step of a call that stops a generator leads to. -/
def Halted (p : Process) : Supervised × Option Reply → Prop
  | (t, none) => t.Stopping ∧ p.Curbed t.process
  | (t, some .stopped) => t.Released ∧ p.Curbed t.process
  | (t, some (.failed _)) => t.Released ∧ p.Curbed t.process
  | _ => False

theorem Halted.of_curbed {p q : Process} {r : Supervised × Option Reply} (h : p.Curbed q)
    (hr : Halted q r) : Halted p r := by
  obtain ⟨t, reply⟩ := r
  cases reply with
  | none => exact ⟨hr.1, h.trans hr.2⟩
  | some reply =>
    cases reply with
    | stopped => exact ⟨hr.1, h.trans hr.2⟩
    | failed fault => exact ⟨hr.1, h.trans hr.2⟩
    | _ => exact hr.elim

theorem halted_conclude (s : Supervised) (fault : Option Fault) :
    Halted s.process (s.conclude (.terminate fault)) := by
  cases fault <;> exact ⟨⟨rfl, rfl⟩, .refl _⟩

theorem halted_close {s : Supervised} (h : s.handle.released = false) (fault : Option Fault) :
    Halted s.process (s.close fault) := by
  unfold close join
  split
  · exact ⟨⟨h, _, rfl, trivial⟩, .refl _⟩
  · exact halted_conclude (s.own Handle.letGo) fault

theorem halted_ended {s : Supervised} {onNothing : Supervised → Supervised × Option Reply}
    (h : s.handle.released = false) (hnothing : Halted s.process (onNothing s)) :
    Halted s.process
      (s.ended (·.close none) (fun fault s => s.close (some fault)) onNothing) := by
  have hc := s.process.curbed_wait
  unfold ended
  split
  · next status q hw =>
    rw [hw] at hc
    exact .of_curbed hc (halted_close (s := { s with process := q }.own (·.record status)) h none)
  · next reason q hw =>
    rw [hw] at hc
    exact .of_curbed hc (halted_close (s := { s with process := q }) h _)
  · exact hnothing

/-- **Stopping.** The call lets go of everything, now or at a later stage. -/
theorem halted_start {s : Supervised} (h : s.handle.released = false) :
    Halted s.process (s.start .terminate) := by
  unfold start
  dsimp only
  rw [if_neg (by rw [h]; decide)]
  split
  · exact halted_close h none
  · exact halted_ended h ⟨⟨h, _, rfl, trivial⟩, s.process.curbed_receive sigTerm⟩

theorem halted_poll {s : Supervised} (h : s.Stopping) : Halted s.process s.poll := by
  have hwait : Halted s.process (s, none) := ⟨h, .refl _⟩
  obtain ⟨stage, hstage, hfits⟩ := h.stage
  unfold poll
  rw [hstage]
  cases stage with
  | stopping deadline =>
    refine halted_ended h.released ?_
    split
    · exact ⟨⟨h.released, _, rfl, s.process.exit_receive_sigKill⟩, s.process.curbed_receive sigKill⟩
    · exact hwait
  | killing => exact halted_ended h.released hwait
  | joining p deadline =>
    cases p with
    | terminate fault =>
      dsimp only
      split
      · exact halted_conclude (s.own (·.collect s.drain.kept)) fault
      · split
        · exact halted_conclude (s.own (·.collect [])) fault
        · exact hwait
    | _ => exact hfits.elim
  | _ => exact hfits.elim

/-- After the end, a generator is let go of at once, and its outcome stays. -/
theorem Ended.start_terminate {s : Supervised} (h : s.Ended) : ∃ t,
    s.start .terminate = (t, some .stopped) ∧ t.Released ∧ t.handle.outcome = s.handle.outcome ∧
      t.process = s.process := by
  have hclose : s.start .terminate = s.close none := by
    unfold start
    dsimp only
    rw [if_neg (by rw [h.released]; decide), if_pos h.outcome]
  have hjoin : s.close none = (s.own Handle.letGo).conclude (.terminate none) := by
    unfold close join
    exact if_neg (by rw [show (s.own Handle.letGo).handle.reader = false from h.reader]; decide)
  rw [hclose, hjoin]
  refine ⟨_, rfl, ⟨rfl, rfl⟩, ?_, rfl⟩
  refine (Handle.outcome_attach_congr ?_ ?_).trans h.attached <;> rfl

/-- Nothing is left to be waited for. -/
def AtRest (s : Supervised) : Prop := s.Released ∨ s.Ended

theorem AtRest.start_terminate {s : Supervised} (h : s.AtRest) : ∃ t,
    s.start .terminate = (t, some .stopped) ∧ t.Released ∧ t.handle.outcome = s.handle.outcome ∧
      t.process = s.process := by
  rcases h with h | h
  · exact ⟨_, start_of_released h.released, ⟨h.released, rfl⟩, rfl, rfl⟩
  · exact h.start_terminate

/-! ## In between -/

/-- The generator has written some bytes, or done something else, while the owner did nothing. -/
structure Aside (written : List UInt8) (s t : Supervised) : Prop where
  handle : t.handle = s.handle
  stage : t.stage = s.stage
  bytes : t.process.output.bytes = s.process.output.bytes ++ written
  unwritten : written ++ t.process.unwritten = s.process.unwritten
  closed : s.process.outputOpen = false → t.process.outputOpen = false
  shut : s.process.Shut → t.process.Shut
  exited : s.process.exit.isSome → t.process.exit.isSome

namespace Aside

variable {s t : Supervised} {written : List UInt8}

theorem stock (h : Aside written s t) : t.stock = s.stock ++ written := by
  unfold Supervised.stock
  rw [h.handle, h.bytes, List.append_assoc]

/-- Nothing is written to an output that is closed. -/
theorem written_eq_nil (h : Aside written s t) (ho : s.process.outputOpen = false) :
    written = [] := by
  have hun := h.unwritten
  rw [Process.unwritten_of_closed ho] at hun
  exact (List.append_eq_nil_iff.1 hun).1

theorem held (h : Aside written s t) (hs : s.Held) : t.Held := by
  refine ⟨?_, ?_, ?_, ?_, ?_, h.shut hs.shut⟩
  · rw [h.handle, hs.released]
  · rw [h.handle, hs.eofSent]
  · rw [h.handle, hs.output]
  · rw [h.handle]
    exact hs.ahead
  · intro hd
    rw [h.handle] at hd ⊢
    obtain ⟨hpending, hbytes, hopen⟩ := hs.dry hd
    exact ⟨hpending, by rw [h.bytes, hbytes, h.written_eq_nil hopen]; rfl, h.closed hopen⟩

theorem idle (h : Aside written s t) (hs : s.Idle) : t.Idle :=
  ⟨h.held hs.toHeld, h.stage.trans hs.stage⟩

theorem waits (h : Aside written s t) {p : Purpose} (hs : s.Waits p) : t.Waits p := by
  refine ⟨h.held hs.toHeld, ?_⟩
  rw [h.stage, h.handle]
  exact hs.stage

theorem ended (h : Aside written s t) (hs : s.Ended) : t.Ended := by
  refine ⟨?_, ?_, ?_, h.stage.trans hs.stage, ?_, ?_, ?_, ?_, h.closed hs.closed⟩
  · rw [h.handle, hs.released]
  · rw [h.handle, hs.drained]
  · rw [h.handle, hs.eofSent]
  · rw [h.handle, hs.reader]
  · rw [h.handle, hs.outcome]
  · rw [h.handle, hs.attached]
  · rw [h.stock, hs.stock, h.written_eq_nil hs.closed]
    rfl

theorem stopping (h : Aside written s t) (hs : s.Stopping) : t.Stopping := by
  obtain ⟨stage, hstage, hfits⟩ := hs.stage
  refine ⟨by rw [h.handle, hs.released], stage, h.stage.trans hstage, ?_⟩
  cases stage with
  | killing => exact h.exited hfits
  | joining p deadline => cases p <;> exact hfits
  | _ => exact hfits

theorem released (h : Aside written s t) (hs : s.Released) : t.Released :=
  ⟨by rw [h.handle, hs.released], h.stage.trans hs.stage⟩

theorem atRest (h : Aside written s t) (hs : s.AtRest) : t.AtRest :=
  hs.imp h.released h.ended

end Aside

/-- **In between.** The bytes written are those that the next action of the generator emits. -/
theorem aside_act (s : Supervised) : Aside (s.process.emits s.now) s s.act := by
  unfold act
  cases hact : s.process.act s.now with
  | none =>
    rw [Process.emits_of_stuck hact]
    exact ⟨rfl, rfl, (List.append_nil _).symm, rfl, id, id, id⟩
  | some q =>
    obtain ⟨hbytes, hun⟩ := Process.act_spec hact
    refine ⟨rfl, rfl, hbytes, hun, ?_, ?_, ?_⟩
    · intro ho
      exact (Process.act_of_closed ho hact).2
    · intro hshut
      exact Process.shut_act hshut hact
    · intro hexit
      exact absurd ((Process.act_of_exit hexit s.now).symm.trans hact) nofun

/-- The reader of diagnostics touches nothing else. -/
theorem step_drain (d : Drain) (p : Process) :
    ∃ errors, (d.step p).2 = { p with errors := errors } := by
  unfold Drain.step
  split
  · exact ⟨_, rfl⟩
  · split
    · exact ⟨_, rfl⟩
    · split <;> exact ⟨_, rfl⟩

theorem aside_drainOnce (s : Supervised) : Aside [] s s.drainOnce := by
  obtain ⟨errors, he⟩ := step_drain s.drain s.process
  have heq : s.drainOnce = { s with
      drain := (s.drain.step s.process).1
      process := { s.process with errors := errors } } := by
    rw [← he]
    rfl
  rw [heq]
  exact ⟨rfl, rfl, (List.append_nil _).symm, rfl, id, id, id⟩

theorem aside_pass (s : Supervised) (nanos : Nat) : Aside [] s { s with now := s.now + nanos } :=
  ⟨rfl, rfl, (List.append_nil _).symm, rfl, id, id, id⟩

end Supervised

end ToneRelay.Generator
