import ToneRelay.Generator.Supervised
import ToneRelay.Proofs.Generator.Speech

/-!
# How long a call waits

`poll_cases`: a call that is taken further is answered or gets to a lower stage, unless something
holds it up (`Stage.Holds`): a deadline that is still to come, a generator that may write, or one
that has not ended. No stage is entered twice, so a call has only as many steps as `Stage.height`
tells, and what remains is the time up to a deadline (`delay`).
-/

namespace ToneRelay.Generator

/-- The number of stages that may follow. -/
def Stage.height : Stage → Nat
  | .joining _ _ => 0
  | .reaping _ | .killing => 1
  | .awaiting _ _ _ | .reading _ | .stopping _ => 2

theorem Stage.height_le (stage : Stage) : stage.height ≤ 2 := by
  cases stage <;> simp [height]

/-- What holds up a call at a stage. -/
def Stage.Holds (s : Supervised) : Stage → Prop
  | .awaiting _ _ deadline | .joining _ deadline | .stopping deadline => s.now < deadline
  | .reading _ => s.process.outputOpen = true
  | .reaping _ | .killing => s.process.exit = none

namespace Supervised

/-- The number of stages that may follow, if a call is under way. -/
def height (s : Supervised) : Nat := s.stage.elim 0 Stage.height

/-- The time up to the deadline of the call under way. -/
def delay (s : Supervised) : Nat := (s.stage.bind Stage.deadline?).elim 0 (· - s.now)

theorem height_le (s : Supervised) : s.height ≤ 2 := by
  unfold height
  cases s.stage with
  | none => exact Nat.zero_le 2
  | some stage => exact stage.height_le

/-- Time that passes shortens the wait for a deadline. -/
theorem delay_pass (s : Supervised) (nanos : Nat) :
    { s with now := s.now + nanos }.delay = s.delay - nanos := by
  unfold delay
  dsimp only
  cases s.stage.bind Stage.deadline? with
  | none => exact (Nat.zero_sub nanos).symm
  | some deadline => exact Nat.sub_add_eq deadline s.now nanos

/-- The call has been answered or is at a stage that is low enough. -/
def Reaches (n : Nat) (r : Supervised × Option Reply) : Prop :=
  r.2.isSome ∨ ∃ stage, r.1.stage = some stage ∧ stage.height < n

/-- Most calls end here. -/
theorem reaches_reply (s : Supervised) (r : Reply) (n : Nat) : Reaches n (s.reply r) := .inl rfl

theorem reaches_conclude (s : Supervised) (p : Purpose) (n : Nat) : Reaches n (s.conclude p) := by
  cases p with
  | await =>
    rw [conclude_await]
    exact reaches_reply _ _ n
  | read => exact reaches_reply _ _ n
  | terminate fault => exact reaches_reply _ _ n

theorem reaches_join (s : Supervised) (p : Purpose) {n : Nat} (hn : 0 < n) :
    Reaches n (s.join p) := by
  unfold join
  split
  · exact .inr ⟨_, rfl, hn⟩
  · exact s.reaches_conclude p n

theorem reaches_reap (s : Supervised) (p : Purpose) {n : Nat} (hn : 1 < n) :
    Reaches n (s.reap p) := by
  unfold reap
  split
  · exact s.reaches_join p (Nat.zero_lt_of_lt hn)
  · exact .inr ⟨_, rfl, hn⟩

theorem reaches_close (s : Supervised) (fault : Option Fault) {n : Nat} (hn : 0 < n) :
    Reaches n (s.close fault) :=
  reaches_join _ _ hn

/-- The wait for the end of a process goes on only if the process has not ended. -/
theorem reaches_ended {s : Supervised} {n : Nat} {P : Prop}
    {onEnd onNothing : Supervised → Supervised × Option Reply}
    {onFault : Fault → Supervised → Supervised × Option Reply}
    (hend : ∀ t, Reaches n (onEnd t)) (hfault : ∀ fault t, Reaches n (onFault fault t))
    (hnothing : s.process.exit = none → Reaches n (onNothing s) ∨ onNothing s = (s, none) ∧ P) :
    Reaches n (s.ended onEnd onFault onNothing) ∨
      s.ended onEnd onFault onNothing = (s, none) ∧ P := by
  unfold ended
  split
  · exact .inl (hend _)
  · exact .inl (hfault _ _)
  · next q hw =>
    apply hnothing
    rw [← Option.not_isSome_iff_eq_none]
    intro hexit
    exact Process.wait_of_exit hexit (congrArg Prod.fst hw)

/-- A read that finds nothing finds an output that is open. -/
theorem reaches_readFor {s : Supervised} {max n : Nat} {p : Purpose} {P : Prop}
    {onData : List UInt8 → Supervised → Supervised × Option Reply}
    {onNothing : Supervised → Supervised × Option Reply} (hn : 1 < n)
    (hdata : ∀ chunk t, Reaches n (onData chunk t))
    (hnothing : s.process.outputOpen = true →
      Reaches n (onNothing s) ∨ onNothing s = (s, none) ∧ P) :
    Reaches n (s.readFor max p onData onNothing) ∨
      s.readFor max p onData onNothing = (s, none) ∧ P := by
  unfold readFor
  split
  · split
    · exact .inl (hdata _ _)
    · exact .inl (reaches_reap _ p hn)
    · exact .inl (reaches_reply _ _ n)
    · next q hr => exact hnothing (Process.outputOpen_of_read (congrArg Prod.fst hr))
  · exact .inl (reaches_reap _ p hn)

/-- **Going on.** A call that is not answered and stays at its stage is held up. -/
theorem poll_cases {s : Supervised} {stage : Stage} (hstage : s.stage = some stage) :
    Reaches stage.height s.poll ∨ s.poll = (s, none) ∧ stage.Holds s := by
  unfold poll
  rw [hstage]
  cases stage with
  | awaiting max limit deadline =>
    refine reaches_readFor Nat.one_lt_two (fun chunk t => reaches_reply _ _ 2) fun _ => ?_
    split
    · exact .inl (reaches_reply _ _ 2)
    · next hd => exact .inr ⟨rfl, Nat.lt_of_not_le hd⟩
  | reading max =>
    refine reaches_readFor Nat.one_lt_two (fun chunk t => reaches_reply _ _ 2) fun ho => ?_
    exact .inr ⟨rfl, ho⟩
  | reaping p =>
    refine reaches_ended (fun t => t.reaches_join p Nat.one_pos) (fun fault t => ?_) fun hexit => ?_
    · exact reaches_reply _ _ 1
    · exact .inr ⟨rfl, hexit⟩
  | joining p deadline =>
    dsimp only
    split
    · exact .inl (reaches_conclude _ p 0)
    · split
      · exact .inl (reaches_conclude _ p 0)
      · next hd => exact .inr ⟨rfl, Nat.lt_of_not_le hd⟩
  | stopping deadline =>
    refine reaches_ended (fun t => t.reaches_close none Nat.two_pos)
      (fun fault t => t.reaches_close _ Nat.two_pos) fun _ => ?_
    split
    · exact .inl (.inr ⟨_, rfl, Nat.one_lt_two⟩)
    · next hd => exact .inr ⟨rfl, Nat.lt_of_not_le hd⟩
  | killing =>
    refine reaches_ended (fun t => t.reaches_close none Nat.one_pos)
      (fun fault t => t.reaches_close _ Nat.one_pos) fun hexit => ?_
    exact .inr ⟨rfl, hexit⟩

/-- A call that is not answered gets to a lower stage or is held up. -/
theorem height_poll {s t : Supervised} {stage : Stage} (hstage : s.stage = some stage)
    (hpoll : s.poll = (t, none)) : t.height < s.height ∨ t = s ∧ stage.Holds s := by
  have hcases := poll_cases hstage
  rw [hpoll] at hcases
  rcases hcases with (hr | ⟨stage', hstage', hlower⟩) | ⟨heq, hholds⟩
  · cases hr
  · left
    unfold height
    rw [hstage, show t.stage = some stage' from hstage']
    exact hlower
  · exact .inr ⟨congrArg Prod.fst heq, hholds⟩

/-- A call that leaves its stage gets to a lower one. -/
theorem height_lt_of_poll {s t : Supervised} {stage : Stage} (hstage : s.stage = some stage)
    (hpoll : s.poll = (t, none)) (hother : t.stage ≠ s.stage) : t.height < s.height := by
  rcases height_poll hstage hpoll with hlower | ⟨hsame, -⟩
  · exact hlower
  · exact absurd (congrArg Supervised.stage hsame) hother

/-- A call that stays at its stage is held up there. -/
theorem holds_of_poll {s t : Supervised} {stage : Stage} (hstage : s.stage = some stage)
    (hpoll : s.poll = (t, none)) (hsame : t.stage = s.stage) : stage.Holds s := by
  rcases height_poll hstage hpoll with hlower | ⟨-, hholds⟩
  · unfold height at hlower
    rw [hsame] at hlower
    exact absurd hlower (Nat.lt_irrefl _)
  · exact hholds

/-- A deadline that is still to come can be waited for. -/
theorem delay_pos {s : Supervised} {stage : Stage} {deadline : Nat} (hstage : s.stage = some stage)
    (hdeadline : stage.deadline? = some deadline) (h : s.now < deadline) : 0 < s.delay := by
  unfold delay
  rw [hstage, Option.bind_some, hdeadline]
  exact Nat.sub_pos_of_lt h

end Supervised

end ToneRelay.Generator
