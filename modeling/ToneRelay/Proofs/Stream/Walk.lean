import ToneRelay.Stream.Session

/-!
# The walk of a session

A session leaves one state after another, one for each call that is accepted. `run_orderly`:
whatever is asked of a session in whatever order, it keeps its name, only a session that is over has
an end, bytes or a diagnostic, and it has been accepted four times at most, never after its end. A
session that was completed or aborted has been received, validated, generating and streaming before.

1. A call either changes nothing or does what `accept` tells (`perform_of_accepted`).
2. `Way` are the walks along the transitions; none is longer than four (`Way.length_le`), and there
   is one to a stream (`Way.of_streaming`).
3. `Sound` ties what a session shows to its walk. One call preserves it (`sound_perform`), hence a
   run (`sound_run`).
-/

namespace ToneRelay.Stream

open Text (Uuid)

/-! ## Walks -/

namespace State

/-- The states that are left on the way to another one, in order. -/
inductive Way : List State → State → Prop
  | start : Way [] .received
  | move {walked : List State} {s t : State} (h : Way walked s) (ht : t ∈ s.next) :
      Way (walked ++ [s]) t

/-- The greatest number of states that can be left before this one. -/
def depth : State → Nat
  | .received => 0
  | .validated => 1
  | .generating => 2
  | .streaming => 3
  | .completed | .aborted | .failed => 4

theorem depth_le (s : State) : s.depth ≤ 4 := by
  cases s <;> decide

theorem depth_lt_of_next {s t : State} (h : t ∈ s.next) : s.depth < t.depth := by
  cases s <;> cases t <;> simp_all [next, depth]

variable {walked : List State} {s : State}

theorem Way.length_le_depth (h : Way walked s) : walked.length ≤ s.depth := by
  induction h with
  | start => exact Nat.le_refl 0
  | move h ht ih =>
    rw [List.length_append]
    exact Nat.le_trans (Nat.succ_le_succ ih) (depth_lt_of_next ht)

theorem Way.length_le (h : Way walked s) : walked.length ≤ 4 :=
  Nat.le_trans h.length_le_depth s.depth_le

theorem Way.of_received (h : Way walked .received) : walked = [] := by
  have hlength := h.length_le_depth
  exact List.eq_nil_of_length_eq_zero (Nat.le_zero.1 hlength)

/-- A state that can only be reached from one other is reached through it. -/
theorem Way.through {t u : State} (h : Way walked t) (hstart : t ≠ .received)
    (honly : ∀ s, t ∈ s.next → s = u) : ∃ before, Way before u ∧ walked = before ++ [u] := by
  cases h with
  | start => exact absurd rfl hstart
  | move h ht =>
    obtain rfl := honly _ ht
    exact ⟨_, h, rfl⟩

/-- There is one way to a stream. -/
theorem Way.of_streaming (h : Way walked .streaming) :
    walked = [.received, .validated, .generating] := by
  obtain ⟨_, hgenerating, rfl⟩ := h.through (u := .generating) (by decide)
    fun s => by cases s <;> simp [next]
  obtain ⟨_, hvalidated, rfl⟩ := hgenerating.through (u := .validated) (by decide)
    fun s => by cases s <;> simp [next]
  obtain ⟨_, hreceived, rfl⟩ := hvalidated.through (u := .received) (by decide)
    fun s => by cases s <;> simp [next]
  rw [hreceived.of_received]
  rfl

/-- Only a stream is completed or aborted. -/
theorem Way.of_streamed (h : Way walked s) (hs : s = .completed ∨ s = .aborted) :
    walked = [.received, .validated, .generating, .streaming] := by
  obtain ⟨_, hstreaming, rfl⟩ := h.through (u := .streaming)
    (by rcases hs with rfl | rfl <;> decide)
    fun t => by rcases hs with rfl | rfl <;> cases t <;> simp [next]
  rw [hstreaming.of_streaming]
  rfl

end State

namespace Session

open State (Way)

/-! ## Calls -/

/-- The parameters that a call brings. -/
def Call.parameters? : Call → Option Job.Parameters
  | .validated p => some p
  | _ => none

/-- The bytes that a call brings. -/
def Call.bytes? : Call → Option Nat
  | .complete bytes | .abort bytes | .fail bytes _ => some bytes
  | _ => none

/-- The diagnostic that a call brings. -/
def Call.diagnostic? : Call → Option String
  | .fail _ diagnostic => some diagnostic
  | _ => none

/-- The session after a call that is accepted. -/
def accept (s : Session) (now : Moment) (c : Call) : Session where
  id := s.id
  startedAt := s.startedAt
  finishedAt := if c.target.terminal then some now else s.finishedAt
  state := c.target
  parameters := c.parameters?.or s.parameters
  bytes := c.bytes?.getD s.bytes
  diagnostic := c.diagnostic?.or s.diagnostic

theorem perform_of_accepted {s : Session} {now : Moment} {c : Call}
    (h : c.target ∈ s.state.next) : s.perform now c = (s.accept now c, none) := by
  have hadvance : s.advance c.target now = .ok { s with
      state := c.target
      finishedAt := if c.target.terminal then some now else s.finishedAt } :=
    advance_eq_ok_iff.2 ⟨h, rfl⟩
  cases c <;>
    simp only [perform, answer, validated, complete, abort, fail, Call.target] at hadvance ⊢ <;>
    rw [hadvance] <;> rfl

/-- The calls that are accepted, each with the state that it leaves. -/
def moves (s : Session) : List (Moment × Call) → List (State × Moment × Call)
  | [] => []
  | c :: calls =>
    (if (s.perform c.1 c.2).2.isNone then [(s.state, c)] else []) ++
      (s.perform c.1 c.2).1.moves calls

/-- The states that are left, in order. -/
def left (s : Session) (calls : List (Moment × Call)) : List State := (s.moves calls).map (·.1)

theorem left_cons (s : Session) (c : Moment × Call) (calls : List (Moment × Call)) :
    s.left (c :: calls) = (if (s.perform c.1 c.2).2.isNone then [s.state] else []) ++
      (s.perform c.1 c.2).1.left calls := by
  show List.map _ (_ ++ (s.perform c.1 c.2).1.moves calls) = _
  rw [List.map_append]
  split <;> rfl

/-! ## What a session shows -/

/-- What a session shows of its walk. -/
structure Sound (id : Uuid) (walked : List State) (s : Session) : Prop where
  id_eq : s.id = id
  way : Way walked s.state
  finishedAt : s.finishedAt.isSome = s.state.terminal
  bytes : 0 < s.bytes → s.state.terminal = true
  diagnostic : s.diagnostic.isSome → s.state = .failed
  parameters : s.parameters.isSome → s.state ≠ .received

variable {id : Uuid} {walked : List State} {s : Session}

theorem sound_receive (id : Uuid) (now : Moment) : Sound id [] (receive id now) :=
  ⟨rfl, .start, rfl, nofun, nofun, nofun⟩

/-- A session that is over accepts no call. -/
theorem refused_of_terminal (h : s.state.terminal = true) (now : Moment) (c : Call) :
    s.perform now c = (s, some ⟨s.state, c.target⟩) := by
  refine perform_of_refused ?_
  rw [s.state.next_eq_nil_iff.2 h]
  exact List.not_mem_nil

theorem not_terminal_of_next {t : State} (h : t ∈ s.state.next) : s.state.terminal = false := by
  rw [← Bool.not_eq_true, ← State.next_eq_nil_iff]
  exact List.ne_nil_of_mem h

/-- **A call that is accepted** leaves the state, and brings what belongs to the next one. -/
theorem sound_accept (h : Sound id walked s) {c : Call} (hc : c.target ∈ s.state.next)
    (now : Moment) : Sound id (walked ++ [s.state]) (s.accept now c) := by
  have hlive := not_terminal_of_next hc
  have hbytes : ¬ 0 < s.bytes := fun hpos => Bool.false_ne_true (hlive.symm.trans (h.bytes hpos))
  have hdiagnostic : s.diagnostic = none := by
    cases hd : s.diagnostic with
    | none => rfl
    | some text =>
      have hfailed := h.diagnostic (by rw [hd]; rfl)
      rw [hfailed] at hlive
      cases hlive
  refine ⟨h.id_eq, .move h.way hc, ?_, ?_, ?_, ?_⟩
  · show (if c.target.terminal then some now else s.finishedAt).isSome = c.target.terminal
    split
    · next hend => exact hend.symm
    · next hend => rw [h.finishedAt, hlive, Bool.eq_false_iff.2 hend]
  · show 0 < c.bytes?.getD s.bytes → c.target.terminal = true
    cases c with
    | advance target => exact fun hpos => absurd hpos hbytes
    | validated p => exact fun hpos => absurd hpos hbytes
    | _ => exact fun _ => rfl
  · show (c.diagnostic?.or s.diagnostic).isSome → c.target = .failed
    rw [hdiagnostic, Option.or_none]
    cases c with
    | fail bytes diagnostic => exact fun _ => rfl
    | _ => nofun
  · show _ → c.target ≠ .received
    intro _ htarget
    rw [htarget] at hc
    cases hs : s.state <;> rw [hs] at hc <;> simp [State.next] at hc

/-- **One call**, accepted or refused. -/
theorem sound_perform (h : Sound id walked s) (now : Moment) (c : Call) :
    Sound id (walked ++ if (s.perform now c).2.isNone then [s.state] else [])
      (s.perform now c).1 := by
  by_cases hc : c.target ∈ s.state.next
  · rw [perform_of_accepted hc]
    exact sound_accept h hc now
  · rw [perform_of_refused hc]
    show Sound id (walked ++ []) s
    rw [List.append_nil]
    exact h

theorem sound_run (h : Sound id walked s) (calls : List (Moment × Call)) :
    Sound id (walked ++ s.left calls) (s.run calls) := by
  induction calls generalizing s walked with
  | nil =>
    show Sound id (walked ++ []) s
    rw [List.append_nil]
    exact h
  | cons c calls ih =>
    rw [run_cons, left_cons, ← List.append_assoc]
    exact ih (sound_perform h c.1 c.2)

/-! ## Sessions in order -/

/-- What is known of a session after any calls. -/
structure Orderly (id : Uuid) (now : Moment) (calls : List (Moment × Call)) (s : Session) :
    Prop where
  id_eq : s.id = id
  finishedAt : s.finishedAt.isSome ↔ s.state = .completed ∨ s.state = .aborted ∨ s.state = .failed
  bytes : 0 < s.bytes → s.state = .completed ∨ s.state = .aborted ∨ s.state = .failed
  diagnostic : s.diagnostic.isSome → s.state = .failed
  parameters : s.parameters.isSome → s.state ≠ .received
  /-- The states that a session has left when it is completed or aborted. -/
  walked : s.state = .completed ∨ s.state = .aborted →
    (receive id now).left calls = [.received, .validated, .generating, .streaming]
  /-- Four calls have been accepted at most. -/
  accepted : ((receive id now).moves calls).length ≤ 4
  /-- A call after the end has been refused and has changed nothing. -/
  closed : ∀ before c after, calls = before ++ c :: after →
    let earlier := (receive id now).run before
    (earlier.state = .completed ∨ earlier.state = .aborted ∨ earlier.state = .failed) →
      earlier.perform c.1 c.2 = (earlier, some ⟨earlier.state, c.2.target⟩)

theorem terminal_iff (s : State) :
    s.terminal = true ↔ s = .completed ∨ s = .aborted ∨ s = .failed := by
  cases s <;> simp [State.terminal]

/-- **The walk of a session.** It is in order after any calls, accepted or refused. -/
theorem run_orderly (id : Uuid) (now : Moment) (calls : List (Moment × Call)) :
    Orderly id now calls ((receive id now).run calls) := by
  have hsound := sound_run (sound_receive id now) calls
  rw [List.nil_append] at hsound
  refine ⟨hsound.id_eq, ?_, fun hpos => (terminal_iff _).1 (hsound.bytes hpos), hsound.diagnostic,
    hsound.parameters, hsound.way.of_streamed, ?_, ?_⟩
  · rw [hsound.finishedAt, terminal_iff]
  · have hlength := hsound.way.length_le
    unfold left at hlength
    rwa [List.length_map] at hlength
  · intro before c after _ earlier hend
    exact refused_of_terminal ((terminal_iff _).2 hend) c.1 c.2

/-- A stream is completed, and asked for other things in between and after its end. -/
def sampleCalls : List (Moment × Call) :=
  let call (c : Call) : Moment × Call := (⟨"2024-01-01T00:00:00Z"⟩, c)
  [call (.complete 1), call (.advance .validated), call (.advance .generating),
    call (.advance .generating), call (.advance .streaming), call (.complete 3),
    call (.fail 9 "late")]

theorem run_orderly_sample :
    let s := (receive (.ofNat 0) ⟨"2024-01-01T00:00:00Z"⟩).run sampleCalls
    s.state = .completed ∧ s.bytes = 3 ∧ s.diagnostic = none ∧ s.finishedAt.isSome ∧
      (receive (.ofNat 0) ⟨"2024-01-01T00:00:00Z"⟩).left sampleCalls =
        [.received, .validated, .generating, .streaming] := by
  have horderly := run_orderly (.ofNat 0) ⟨"2024-01-01T00:00:00Z"⟩ sampleCalls
  have hcompleted : ((receive (.ofNat 0) ⟨"2024-01-01T00:00:00Z"⟩).run sampleCalls).state =
      .completed := by decide
  refine ⟨hcompleted, by decide, by decide, ?_, horderly.walked (.inl hcompleted)⟩
  exact horderly.finishedAt.2 (.inl hcompleted)

end Session

end ToneRelay.Stream
