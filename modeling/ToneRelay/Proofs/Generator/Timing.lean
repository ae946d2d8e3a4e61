import ToneRelay.Proofs.Generator.Patience

/-!
# Generators without clocks

A generator and its owner go by the clock when an action has to be waited for and when a deadline
has passed. Once it is known which of their steps get anywhere, the clock does not matter any more:
a step that gets anywhere does to the `timeless` generator what it does to the generator, because a
poll that finds nothing gets somewhere at a deadline only (`timeless_poll`, `timeless_act`,
`timeless_drainOnce`). A step that gets nowhere changes nothing.
-/

namespace ToneRelay.Generator

/-- A stage whose deadline has passed. -/
def Stage.timeless : Stage → Stage
  | .awaiting max limit _ => .awaiting max limit 0
  | .joining p _ => .joining p 0
  | .stopping _ => .stopping 0
  | stage => stage

theorem Stage.timeless_joining (p : Purpose) (m n : Nat) :
    (Stage.joining p m).timeless = (Stage.joining p n).timeless := rfl

theorem Stage.timeless_stopping (m n : Nat) :
    (Stage.stopping m).timeless = (Stage.stopping n).timeless := rfl

@[simp] theorem Stage.height_timeless (stage : Stage) : stage.timeless.height = stage.height := by
  cases stage <;> rfl

/-- A process that need not wait for its next action. -/
def Process.timeless (p : Process) : Process := { p with ready := 0 }

namespace Process

@[simp] theorem todo_timeless (p : Process) : p.timeless.todo = p.todo := rfl

@[simp] theorem output_timeless (p : Process) : p.timeless.output = p.output := rfl

@[simp] theorem errors_timeless (p : Process) : p.timeless.errors = p.errors := rfl

@[simp] theorem term_timeless (p : Process) : p.timeless.term = p.term := rfl

@[simp] theorem exit_timeless (p : Process) : p.timeless.exit = p.exit := rfl

@[simp] theorem readFault_timeless (p : Process) : p.timeless.readFault = p.readFault := rfl

@[simp] theorem waitFault_timeless (p : Process) : p.timeless.waitFault = p.waitFault := rfl

end Process

namespace Supervised

/-- A generator whose clock stands still, at a time at which nothing has to be waited for. -/
def timeless (s : Supervised) : Supervised where
  now := 0
  process := s.process.timeless
  drain := s.drain
  handle := s.handle
  stage := s.stage.map Stage.timeless

@[simp] theorem now_timeless (s : Supervised) : s.timeless.now = 0 := rfl

@[simp] theorem process_timeless (s : Supervised) : s.timeless.process = s.process.timeless := rfl

@[simp] theorem drain_timeless (s : Supervised) : s.timeless.drain = s.drain := rfl

@[simp] theorem handle_timeless (s : Supervised) : s.timeless.handle = s.handle := rfl

@[simp] theorem stage_timeless (s : Supervised) :
    s.timeless.stage = s.stage.map Stage.timeless := rfl

/-- The same with an answer. -/
abbrev timelessly (q : Supervised × Option Reply) : Supervised × Option Reply := (q.1.timeless, q.2)

@[simp] theorem timeless_timeless (s : Supervised) : s.timeless.timeless = s.timeless := by
  unfold timeless
  cases s.stage with
  | none => rfl
  | some stage => cases stage <;> rfl

@[simp] theorem height_timeless (s : Supervised) : s.timeless.height = s.height := by
  unfold height timeless
  cases s.stage with
  | none => rfl
  | some stage => exact stage.height_timeless

end Supervised

/-! ## What the process does -/

namespace Process

@[simp] theorem read_timeless (p : Process) (max : Nat) :
    p.timeless.read max = ((p.read max).1, (p.read max).2.timeless) := by
  unfold read
  rw [output_timeless, readFault_timeless]
  split
  · rfl
  · cases p.readFault <;> rfl

@[simp] theorem wait_timeless (p : Process) :
    p.timeless.wait = (p.wait.1, p.wait.2.timeless) := by
  unfold wait
  rw [waitFault_timeless, exit_timeless]
  cases p.waitFault with
  | some reason => rfl
  | none => cases p.exit <;> rfl

@[simp] theorem receive_timeless (p : Process) (n : Nat) :
    p.timeless.receive n = (p.receive n).timeless := by
  unfold receive
  rw [exit_timeless, term_timeless]
  split
  · rfl
  · split
    · cases p.term <;> rfl
    · rfl

@[simp] theorem write_timeless (p : Process) (bytes : List UInt8) (later : List Action) :
    p.timeless.write bytes later = (p.write bytes later).map timeless := by
  have hshow : p.timeless.write bytes later =
      if bytes = [] ∨ !p.outputOpen then some { p.timeless with todo := later }
      else if p.output.accepted bytes = [] then none
      else some { p.timeless with
        output := p.output.write bytes
        todo := if p.output.rejected bytes = [] then later
          else .out (p.output.rejected bytes) :: later } := rfl
  rw [hshow, write]
  split
  · rfl
  · split
    · rfl
    · rfl

/-- **An action** that is performed is performed without a clock. -/
theorem act_timeless {p q : Process} {now : Nat} (h : p.act now = some q) :
    (p.timeless.act 0).map timeless = some q.timeless := by
  have hexit : p.exit.isSome = false := by
    cases hexit : p.exit.isSome with
    | false => rfl
    | true => exact nomatch (act_of_exit hexit now).symm.trans h
  unfold act at h
  split at h
  · cases h
  · unfold act
    rw [if_neg (by simp [timeless, hexit]), todo_timeless]
    cases htodo : p.todo with
    | nil =>
      rw [htodo] at h
      cases h
      rfl
    | cons a later =>
      rw [htodo] at h
      cases a with
      | out bytes =>
        dsimp only at h ⊢
        rw [write_timeless, h]
        rfl
      | hang => cases h
      | signal n =>
        cases h
        show some ({ p with todo := later }.timeless.receive n).timeless = _
        rw [receive_timeless]
        rfl
      | _ =>
        cases h
        rfl

end Process

/-- A reader that has nothing to read or to see does nothing. -/
theorem Drain.step_of_not_canStep {d : Drain} {p : Process} (h : d.canStep p = false) :
    d.step p = (d, p) := by
  unfold canStep at h
  unfold step
  cases hended : d.ended with
  | true => rfl
  | false =>
    have hnothing : p.errors = [] ∧ p.exit = none := by simpa [hended] using h
    simp [hnothing]

/-- The reader of diagnostics does not look at the clock. -/
@[simp] theorem Drain.step_timeless (d : Drain) (p : Process) :
    d.step p.timeless = ((d.step p).1, (d.step p).2.timeless) := by
  unfold step
  rw [Process.errors_timeless, Process.exit_timeless]
  split
  · rfl
  · split
    · rfl
    · split <;> rfl

/-! ## What the owner does -/

namespace Supervised

/-- Only the deadline of a stage is told from the clock. -/
theorem timelessly_wait {s t : Supervised} {a b : Stage}
    (h : s.cancel.timeless = t.cancel.timeless) (hs : a.timeless = b.timeless) :
    timelessly (s.wait a) = timelessly (t.wait b) := by
  show ({ s.cancel.timeless with stage := some a.timeless }, none) =
    ({ t.cancel.timeless with stage := some b.timeless }, none)
  rw [h, hs]

theorem timelessly_conclude (s : Supervised) (p : Purpose) :
    timelessly (s.timeless.conclude p) = timelessly (s.conclude p) := by
  cases p with
  | await =>
    rw [conclude_await, conclude_await, handle_timeless]
    rfl
  | read => rfl
  | terminate fault => rfl

theorem timelessly_join (s : Supervised) (p : Purpose) :
    timelessly (s.timeless.join p) = timelessly (s.join p) := by
  unfold join
  rw [handle_timeless]
  split
  · exact timelessly_wait rfl (Stage.timeless_joining _ _ _)
  · exact s.timelessly_conclude p

theorem timelessly_reap (s : Supervised) (p : Purpose) :
    timelessly (s.timeless.reap p) = timelessly (s.reap p) := by
  unfold reap
  rw [handle_timeless]
  split
  · exact s.timelessly_join p
  · rfl

theorem timelessly_close (s : Supervised) (fault : Option Fault) :
    timelessly (s.timeless.close fault) = timelessly (s.close fault) :=
  (s.own Handle.letGo).timelessly_join (.terminate fault)

/-- The wait for the end of the process. -/
theorem timelessly_ended {s : Supervised}
    {onEnd onNothing onNothing' : Supervised → Supervised × Option Reply}
    {onFault : Fault → Supervised → Supervised × Option Reply}
    (hend : ∀ t : Supervised, timelessly (onEnd t.timeless) = timelessly (onEnd t))
    (hfault : ∀ fault (t : Supervised),
      timelessly (onFault fault t.timeless) = timelessly (onFault fault t))
    (hnothing : s.ended onEnd onFault onNothing = onNothing s →
      timelessly (onNothing' s.timeless) = timelessly (onNothing s)) :
    timelessly (s.timeless.ended onEnd onFault onNothing') =
      timelessly (s.ended onEnd onFault onNothing) := by
  unfold ended at hnothing ⊢
  rw [process_timeless, Process.wait_timeless]
  rcases hw : s.process.wait with ⟨w, p⟩
  rw [hw] at hnothing
  cases w with
  | ended status => exact hend ({ s with process := p }.own (·.record status))
  | failed reason => exact hfault (.wait reason) { s with process := p }
  | nothing => exact hnothing rfl

/-- A read of the output. -/
theorem timelessly_readFor {s : Supervised} {max : Nat} {p : Purpose}
    {onData : List UInt8 → Supervised → Supervised × Option Reply}
    {onNothing onNothing' : Supervised → Supervised × Option Reply}
    (hdata : ∀ chunk (t : Supervised),
      timelessly (onData chunk t.timeless) = timelessly (onData chunk t))
    (hnothing : s.readFor max p onData onNothing = onNothing s →
      timelessly (onNothing' s.timeless) = timelessly (onNothing s)) :
    timelessly (s.timeless.readFor max p onData onNothing') =
      timelessly (s.readFor max p onData onNothing) := by
  unfold readFor at hnothing ⊢
  rw [handle_timeless, process_timeless, Process.read_timeless]
  split
  · next houtput =>
    rw [if_pos houtput] at hnothing
    rcases hr : s.process.read (Nat.max max 1) with ⟨taken, q⟩
    rw [hr] at hnothing
    cases taken with
    | bytes chunk => exact hdata chunk { s with process := q }
    | closed => exact (s.own Handle.drain).timelessly_reap p
    | failed reason => rfl
    | nothing => exact hnothing rfl
  · exact (s.own Handle.drain).timelessly_reap p

/-- A call is started without a clock. -/
theorem timelessly_start (s : Supervised) (c : Call) :
    timelessly (s.timeless.start c) = timelessly (s.start c) := by
  unfold start
  cases c with
  | await max limit =>
    dsimp only
    rw [handle_timeless]
    split <;> rfl
  | read max =>
    dsimp only
    rw [handle_timeless]
    split
    · rfl
    · cases s.handle.pending with
      | some chunk => rfl
      | none =>
        dsimp only
        split
        · exact s.timelessly_reap .read
        · rfl
  | terminate =>
    dsimp only
    rw [handle_timeless]
    split
    · rfl
    · split
      · exact s.timelessly_close none
      · refine timelessly_ended (fun t => t.timelessly_close none)
          (fun fault t => t.timelessly_close (some fault)) fun _ => ?_
        rw [process_timeless, Process.receive_timeless]
        exact timelessly_wait rfl (Stage.timeless_stopping _ _)

theorem timelessly_start_congr {s t : Supervised} (h : s.timeless = t.timeless) (c : Call) :
    timelessly (s.start c) = timelessly (t.start c) := by
  rw [← timelessly_start s, ← timelessly_start t, h]

/-- **A poll** that gets anywhere gets there without a clock. -/
theorem timelessly_poll {s : Supervised} (h : s.poll ≠ (s, none)) :
    timelessly s.timeless.poll = timelessly s.poll := by
  unfold poll at h ⊢
  rw [stage_timeless]
  cases hstage : s.stage with
  | none =>
    rw [hstage] at h
    exact absurd rfl h
  | some stage =>
    rw [hstage] at h
    dsimp only [Option.map_some] at h ⊢
    cases stage with
    | awaiting max limit deadline =>
      refine timelessly_readFor (fun chunk t => rfl) fun hnothing => ?_
      dsimp only at h hnothing ⊢
      rw [hnothing] at h
      split at h
      · next hd =>
        rw [if_pos hd, if_pos (Nat.zero_le _)]
        rfl
      · exact absurd rfl h
    | reading max =>
      refine timelessly_readFor (fun chunk t => rfl) fun hnothing => absurd hnothing h
    | reaping p =>
      exact timelessly_ended (fun t => t.timelessly_join p) (fun fault t => rfl)
        fun hnothing => absurd hnothing h
    | joining p deadline =>
      dsimp only [Stage.timeless] at h ⊢
      rw [drain_timeless]
      split
      · exact (s.own (·.collect s.drain.kept)).timelessly_conclude p
      · next hended =>
        rw [if_neg hended] at h
        rw [if_pos (Nat.zero_le _)]
        split at h
        · next hd =>
          rw [if_pos hd]
          exact (s.own (·.collect [])).timelessly_conclude p
        · exact absurd rfl h
    | stopping deadline =>
      refine timelessly_ended (fun t => t.timelessly_close none)
        (fun fault t => t.timelessly_close (some fault)) fun hnothing => ?_
      dsimp only at h hnothing ⊢
      rw [hnothing] at h
      split at h
      · next hd =>
        rw [if_pos hd, if_pos (Nat.zero_le _), process_timeless, Process.receive_timeless]
        exact timelessly_wait rfl rfl
      · exact absurd rfl h
    | killing =>
      exact timelessly_ended (fun t => t.timelessly_close none)
        (fun fault t => t.timelessly_close (some fault)) fun hnothing => absurd hnothing h

/-- A poll that gets anywhere answers the call or gets to a lower stage. -/
theorem height_poll_lt {s : Supervised} (h : s.poll ≠ (s, none)) (hnone : s.poll.2 = none) :
    s.poll.1.height < s.height := by
  cases hstage : s.stage with
  | none =>
    have hsame : s.poll = (s, none) := by
      unfold poll
      rw [hstage]
    exact absurd hsame h
  | some stage =>
    rcases height_poll hstage (Prod.ext rfl hnone) with hlt | ⟨hsame, -⟩
    · exact hlt
    · exact absurd (Prod.ext hsame hnone) h

/-- A poll that is idle changes nothing. -/
theorem poll_of_idle {s : Supervised} (hnone : s.poll.2 = none)
    (hstage : s.poll.1.stage = s.stage) : s.poll = (s, none) := by
  refine Decidable.byContradiction fun h => ?_
  have hlt := height_poll_lt h hnone
  unfold height at hlt
  rw [hstage] at hlt
  exact absurd hlt (Nat.lt_irrefl _)

/-- Without a clock a poll answers or gets to another stage, too. -/
theorem timeless_poll {s : Supervised} (h : s.poll ≠ (s, none)) :
    s.timeless.poll.1.timeless = s.poll.1.timeless ∧ s.timeless.poll.2 = s.poll.2 ∧
      (s.poll.2 = none → s.timeless.poll.1.stage ≠ s.timeless.stage) := by
  obtain ⟨hpoll, hr⟩ := Prod.mk.inj (timelessly_poll h)
  refine ⟨hpoll, hr, fun hnone hstage => ?_⟩
  have hlt := height_poll_lt h hnone
  rw [← s.poll.1.height_timeless, ← hpoll, height_timeless, ← s.height_timeless] at hlt
  unfold height at hlt
  rw [hstage] at hlt
  exact absurd hlt (Nat.lt_irrefl _)

theorem timeless_drainOnce (s : Supervised) :
    s.timeless.drainOnce.timeless = s.drainOnce.timeless := by
  unfold drainOnce
  rw [process_timeless, Drain.step_timeless]
  show { s.timeless.timeless with
    drain := (s.drain.step s.process).1
    process := (s.drain.step s.process).2.timeless } = _
  rw [timeless_timeless]
  rfl

/-- The generator performs its next action. -/
theorem timeless_act {s : Supervised} (h : (s.process.act s.now).isSome) :
    s.timeless.act.timeless = s.act.timeless := by
  obtain ⟨p, hp⟩ := Option.isSome_iff_exists.1 h
  have hact := Process.act_timeless hp
  obtain ⟨q, hq, hqp⟩ := Option.map_eq_some_iff.1 hact
  unfold act
  rw [hp, process_timeless, now_timeless, hq]
  show { s.timeless.timeless with process := q.timeless } = _
  rw [timeless_timeless, hqp]
  rfl

end Supervised

end ToneRelay.Generator
