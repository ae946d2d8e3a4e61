import ToneRelay.Proofs.Stream.Anonymity

/-!
# Calls that are refused

`run_traceless`: a session shows after any calls what it shows after those of them that are
accepted, made at whatever times on whatever new session; a refusal names the state before the call
and the one that was asked for; and the report of a session that is over does not change.

A refused call leaves the session as it is (`perform_of_refused`), so it can be left out of a run
(`run_accepted`). Which calls are accepted depends on the state alone and not on the name and the
times, so the accepted ones can be made again elsewhere (`anonymous_replay`).
-/

namespace ToneRelay.Stream

open Text (Uuid)

/-- Two reports that tell the same, but for the names of the sessions and the times. -/
structure Report.Alike (r q : Report) : Prop where
  state : r.state = q.state
  bytes : r.bytes = q.bytes
  diagnostic : r.diagnostic = q.diagnostic
  parameters : r.parameters = q.parameters
  finishedAt : r.finishedAt.isSome = q.finishedAt.isSome

namespace Session

variable {s t : Session} {now : Moment} {c : Call}

theorem state_of_anonymous (h : s.anonymous = t.anonymous) : s.state = t.state :=
  (Session.mk.inj h).2.2.2.1

theorem alike_of_anonymous (h : s.anonymous = t.anonymous) : s.report.Alike t.report := by
  obtain ⟨_, _, hfinished, _, hparameters, hbytes, hdiagnostic⟩ := Session.mk.inj h
  refine ⟨state_of_anonymous h, hbytes, hdiagnostic, hparameters, ?_⟩
  have hsome := congrArg Option.isSome hfinished
  rwa [Option.isSome_map, Option.isSome_map] at hsome

theorem anonymous_receive (id id' : Uuid) (now now' : Moment) :
    (receive id now).anonymous = (receive id' now').anonymous := rfl

/-! ## The calls that are accepted -/

theorem accepts_iff : (s.perform now c).2.isNone = true ↔ c.target ∈ s.state.next := by
  by_cases h : c.target ∈ s.state.next
  · rw [perform_of_accepted h]
    exact iff_of_true rfl h
  · rw [perform_of_refused h]
    exact iff_of_false Bool.false_ne_true h

/-- The calls that are accepted, in order. -/
def accepted (s : Session) (calls : List (Moment × Call)) : List (Moment × Call) :=
  (s.moves calls).map (·.2)

theorem accepted_cons (s : Session) (c : Moment × Call) (calls : List (Moment × Call)) :
    s.accepted (c :: calls) = (if (s.perform c.1 c.2).2.isNone then [c] else []) ++
      (s.perform c.1 c.2).1.accepted calls := by
  show List.map _ (_ ++ (s.perform c.1 c.2).1.moves calls) = _
  rw [List.map_append]
  split <;> rfl

theorem accepted_cons_of_accepted {c : Moment × Call} (h : c.2.target ∈ s.state.next)
    (calls : List (Moment × Call)) :
    s.accepted (c :: calls) = c :: (s.perform c.1 c.2).1.accepted calls := by
  rw [accepted_cons, if_pos (accepts_iff.2 h), List.singleton_append]

theorem accepted_cons_of_refused {c : Moment × Call} (h : c.2.target ∉ s.state.next)
    (calls : List (Moment × Call)) : s.accepted (c :: calls) = s.accepted calls := by
  rw [accepted_cons, if_neg (mt accepts_iff.1 h), perform_of_refused h, List.nil_append]

/-- **A run without the calls that are refused** ends in the same session. -/
theorem run_accepted (s : Session) (calls : List (Moment × Call)) :
    s.run (s.accepted calls) = s.run calls := by
  induction calls generalizing s with
  | nil => rfl
  | cons c calls ih =>
    by_cases h : c.2.target ∈ s.state.next
    · simp [accepted_cons_of_accepted h, ih]
    · simp [accepted_cons_of_refused h, perform_of_refused h, ih]

/-! ## The same calls elsewhere -/

/-- The accepted calls are all accepted again on a session that differs in its name and times only,
and make it the same session but for those. -/
theorem anonymous_replay (h : s.anonymous = t.anonymous) {calls replay : List (Moment × Call)}
    (hreplay : replay.map (·.2) = (s.accepted calls).map (·.2)) :
    t.accepted replay = replay ∧ (s.run calls).anonymous = (t.run replay).anonymous := by
  induction calls generalizing s t replay with
  | nil =>
    obtain rfl : replay = [] := List.map_eq_nil_iff.1 hreplay
    exact ⟨rfl, h⟩
  | cons c calls ih =>
    by_cases hc : c.2.target ∈ s.state.next
    · rw [accepted_cons_of_accepted hc, List.map_cons] at hreplay
      obtain ⟨d, replay, rfl, hd, hrest⟩ := List.map_eq_cons_iff.1 hreplay
      have hsame : (s.perform c.1 c.2).1.anonymous = (t.perform d.1 d.2).1.anonymous := by
        rw [hd]
        exact perform_congr h c.1 d.1 c.2
      obtain ⟨hall, hrun⟩ := ih hsame hrest
      refine ⟨?_, hrun⟩
      have htarget : d.2.target ∈ t.state.next := by
        rwa [hd, ← state_of_anonymous h]
      rw [accepted_cons_of_accepted htarget, hall]
    · rw [accepted_cons_of_refused hc] at hreplay
      rw [run_cons, perform_of_refused hc]
      exact ih h hreplay

/-- A session that is over stays as it is. -/
theorem run_of_terminal (h : s.state.terminal = true) (calls : List (Moment × Call)) :
    s.run calls = s := by
  induction calls with
  | nil => rfl
  | cons c calls ih => simp [refused_of_terminal h, ih]

/-! ## No trace -/

/-- What the refused ones among some calls on a new session have done to it. -/
structure Traceless (id : Uuid) (now : Moment) (calls : List (Moment × Call)) : Prop where
  /-- Without them, the session is reported the same. -/
  same : ((receive id now).run ((receive id now).accepted calls)).report =
    ((receive id now).run calls).report
  /-- So it is if the others are made at other times, on another new session, which accepts them. -/
  alike : ∀ (id' : Uuid) (now' : Moment) (replay : List (Moment × Call)),
    replay.map (·.2) = ((receive id now).accepted calls).map (·.2) →
      (receive id' now').accepted replay = replay ∧
        ((receive id now).run calls).report.Alike ((receive id' now').run replay).report
  /-- A refusal names the state before the call and the state that it asked for. -/
  named : ∀ before c after e, calls = before ++ c :: after →
    (((receive id now).run before).perform c.1 c.2).2 = some e →
      e.source = ((receive id now).run before).report.state ∧ e.target = c.2.target
  /-- Once the session is over, its report stays. -/
  final : ∀ before after, calls = before ++ after →
    ((receive id now).run before).report.state.terminal = true →
      ((receive id now).run calls).report = ((receive id now).run before).report

/-- **Refused calls leave no trace**, whatever is asked of a session in whatever order. -/
theorem run_traceless (id : Uuid) (now : Moment) (calls : List (Moment × Call)) :
    Traceless id now calls where
  same := congrArg report (run_accepted _ calls)
  alike id' now' replay hreplay := by
    obtain ⟨hall, hrun⟩ := anonymous_replay (anonymous_receive id id' now now') hreplay
    exact ⟨hall, alike_of_anonymous hrun⟩
  named before c after e _ hrefused := by
    by_cases h : c.2.target ∈ ((receive id now).run before).state.next
    · rw [perform_of_accepted h] at hrefused
      cases hrefused
    · rw [perform_of_refused h] at hrefused
      cases hrefused
      exact ⟨rfl, rfl⟩
  final before after hcalls hend := by
    rw [hcalls, run_append, run_of_terminal hend]

/-- The stream that is asked for other things in between and after its end shows what another one
shows of which only the four moves were asked, a day later. -/
theorem run_traceless_sample :
    let s := receive (.ofNat 0) ⟨"2024-01-01T00:00:00Z"⟩
    let t := receive (.ofNat 1) ⟨"2024-01-02T00:00:00Z"⟩
    let replay : List (Moment × Call) := [.advance .validated, .advance .generating,
      .advance .streaming, .complete 3].map fun c => (⟨"2024-01-02T00:00:00Z"⟩, c)
    t.accepted replay = replay ∧ (s.run sampleCalls).report.Alike (t.run replay).report ∧
      (s.run sampleCalls).report = (s.run (sampleCalls.take 6)).report := by
  intro s t replay
  have htraceless := run_traceless (.ofNat 0) ⟨"2024-01-01T00:00:00Z"⟩ sampleCalls
  obtain ⟨hall, halike⟩ := htraceless.alike (.ofNat 1) ⟨"2024-01-02T00:00:00Z"⟩ replay rfl
  exact ⟨hall, halike, htraceless.final (sampleCalls.take 6) (sampleCalls.drop 6) rfl (by decide)⟩

end Session

end ToneRelay.Stream
