import ToneRelay.Proofs.Generator.Timing
import ToneRelay.Proofs.Stream.Steps
import ToneRelay.Proofs.Stream.Walk

/-!
# Sessions and transfers without names and clocks

What becomes of a session does not depend on its name and on the times at which it is called, and a
step of the relay that gets anywhere does to a transfer without a clock what it does to the transfer
(`relay_timeless`).
-/

namespace ToneRelay.Stream

open Generator (Reply Supervised)

/-! ## Sessions -/

/-- Some time, where it does not matter which. -/
def Moment.unknown : Moment := ⟨""⟩

/-- A session without its name and times, but for whether it has ended. -/
def Session.anonymous (s : Session) : Session :=
  { s with
    id := .ofNat 0
    startedAt := .unknown
    finishedAt := s.finishedAt.map fun _ => .unknown }

/-- A report without its name and times, but for whether the session has ended. -/
def Report.anonymous (r : Report) : Report :=
  { r with
    id := .ofNat 0
    startedAt := .unknown
    finishedAt := r.finishedAt.map fun _ => .unknown }

namespace Session

@[simp] theorem state_anonymous (s : Session) : s.anonymous.state = s.state := rfl

@[simp] theorem anonymous_anonymous (s : Session) : s.anonymous.anonymous = s.anonymous := by
  unfold anonymous
  cases s.finishedAt <;> rfl

/-- The name and the time do not decide which moves are made. -/
theorem advance_anonymous (s : Session) (target : State) (now now' : Moment) :
    (s.anonymous.advance target now').map anonymous = (s.advance target now).map anonymous := by
  unfold advance
  rw [state_anonymous]
  split
  · unfold anonymous
    cases target.terminal <;> cases s.finishedAt <;> rfl
  · rfl

theorem advance_congr {s t : Session} (h : s.anonymous = t.anonymous) (target : State)
    (now now' : Moment) :
    (s.advance target now).map anonymous = (t.advance target now').map anonymous := by
  rw [← s.advance_anonymous target now .unknown, ← t.advance_anonymous target now' .unknown, h]

theorem perform_anonymous (s : Session) (now now' : Moment) (c : Call) :
    (s.anonymous.perform now' c).1.anonymous = (s.perform now c).1.anonymous := by
  by_cases h : c.target ∈ s.state.next
  · rw [perform_of_accepted h, perform_of_accepted (by simpa using h)]
    unfold anonymous accept
    dsimp only
    cases c.target.terminal <;> cases s.finishedAt <;> rfl
  · rw [perform_of_refused h, perform_of_refused (by simpa using h)]
    exact s.anonymous_anonymous

theorem perform_congr {s t : Session} (h : s.anonymous = t.anonymous) (now now' : Moment)
    (c : Call) : (s.perform now c).1.anonymous = (t.perform now' c).1.anonymous := by
  rw [← s.perform_anonymous now .unknown, ← t.perform_anonymous now' .unknown, h]

end Session

/-! ## Transfers -/

namespace Transfer

/-- A transfer whose generator has no clock. -/
def timeless (t : Transfer) : Transfer := { t with source := t.source.timeless }

@[simp] theorem pump_timeless (t : Transfer) : t.timeless.pump = t.pump := rfl

@[simp] theorem channel_timeless (t : Transfer) : t.timeless.channel = t.channel := rfl

@[simp] theorem source_timeless (t : Transfer) : t.timeless.source = t.source.timeless := rfl

@[simp] theorem timeless_timeless (t : Transfer) : t.timeless.timeless = t.timeless := by
  unfold timeless
  rw [Supervised.timeless_timeless]

theorem timeless_take (t : Transfer) : t.timeless.take = t.take.timeless := by
  unfold take
  rw [channel_timeless]
  obtain ⟨r, channel⟩ := t.channel.receive
  cases r <;> rfl

/-- The same with what can be seen of the relay. -/
abbrev timelessly (q : Transfer × List (Event Chunk)) : Transfer × List (Event Chunk) :=
  (q.1.timeless, q.2)

variable {t u : Transfer}

theorem pump_of_timeless (h : t.timeless = u.timeless) : t.pump = u.pump := by
  rw [← pump_timeless t, h, pump_timeless]

theorem source_of_timeless (h : t.timeless = u.timeless) :
    t.source.timeless = u.source.timeless := by
  rw [← source_timeless t, h, source_timeless]

theorem timelessly_tell (h : t.timeless = u.timeless) (a : Answer Chunk) :
    timelessly (t.tell a) = timelessly (u.tell a) := by
  have hpump : t.pump = u.pump := pump_of_timeless h
  show ({ t.timeless with pump := (t.pump.step a).1 }, (t.pump.step a).2) =
    ({ u.timeless with pump := (u.pump.step a).1 }, (u.pump.step a).2)
  rw [h, hpump]

theorem timelessly_tellStopped (h : t.timeless = u.timeless) (r : Option Reply) :
    timelessly (t.tellStopped r) = timelessly (u.tellStopped r) := by
  cases r with
  | none => exact congrArg (·, []) h
  | some r =>
    cases r with
    | failed fault => exact timelessly_tell h (.stopped (some fault))
    | _ => exact timelessly_tell h (.stopped none)

/-- Transfers are the same without a clock if their generators are. -/
theorem timeless_source (h : t.timeless = u.timeless) {g k : Supervised}
    (hg : g.timeless = k.timeless) : { t with source := g }.timeless =
      { u with source := k }.timeless := by
  show { t.timeless with source := g.timeless } = { u.timeless with source := k.timeless }
  rw [h, hg]

/-- How a call on the generator is answered is told to the relay. -/
theorem timelessly_start {k : Transfer → Option Reply → Transfer × List (Event Chunk)}
    (hk : ∀ {t u : Transfer} (r), t.timeless = u.timeless → timelessly (k t r) = timelessly (k u r))
    (h : t.timeless = u.timeless) (c : Generator.Call) :
    timelessly (k { t with source := (t.source.start c).1 } (t.source.start c).2) =
      timelessly (k { u with source := (u.source.start c).1 } (u.source.start c).2) := by
  obtain ⟨hg, hr⟩ := Prod.mk.inj (Supervised.timelessly_start_congr (source_of_timeless h) c)
  rw [hr]
  exact hk _ (timeless_source h hg)

theorem timelessly_halt (h : t.timeless = u.timeless) (a : Answer Chunk) :
    timelessly (t.halt a) = timelessly (u.halt a) := by
  obtain ⟨htell, hevents⟩ := Prod.mk.inj (timelessly_tell h a)
  obtain ⟨hstop, hmore⟩ := Prod.mk.inj
    (timelessly_start (k := tellStopped) (fun r h => timelessly_tellStopped h r) htell .terminate)
  refine Prod.ext hstop ?_
  show (t.tell a).2 ++ _ = (u.tell a).2 ++ _
  rw [hevents]
  exact congrArg ((u.tell a).2 ++ ·) hmore

theorem timelessly_tellRead (h : t.timeless = u.timeless) (r : Option Reply) :
    timelessly (t.tellRead r) = timelessly (u.tellRead r) := by
  cases r with
  | none => exact congrArg (·, []) h
  | some r =>
    cases r with
    | data chunk => exact timelessly_tell h (.read (.data chunk))
    | eof => exact timelessly_tell h (.read .eof)
    | failed fault => exact timelessly_halt h (.read (.failed fault))
    | _ => exact congrArg (·, []) h

/-- A call that gets anywhere gets there without a clock. -/
theorem poll_timeless {g : Supervised} {r : Option Reply} (hpoll : t.source.poll = (g, r))
    (hgoes : (g, r) ≠ (t.source, none)) : ∃ g', t.source.timeless.poll = (g', r) ∧
      g'.timeless = g.timeless ∧ (r = none → g'.stage ≠ t.source.timeless.stage) := by
  obtain ⟨hg, hr, hstage⟩ := Supervised.timeless_poll (hpoll ▸ hgoes)
  rw [hpoll] at hg hr hstage
  exact ⟨_, Prod.ext rfl hr, hg, hstage⟩

/-- **A step of the relay** that gets anywhere gets there without a clock. -/
theorem relay_timeless {q : Transfer × List (Event Chunk)} (h : t.relay = some q) :
    t.timeless.relay.map timelessly = some (timelessly q) := by
  have hsame := t.timeless_timeless
  suffices hgoes : ∃ q', t.timeless.Goes q' ∧ timelessly q' = timelessly q by
    obtain ⟨q', hgoes, hq⟩ := hgoes
    rw [hgoes.relay_eq, Option.map_some, hq]
  cases relay_eq_some_iff.1 h with
  | gone hphase hl => exact ⟨_, .gone hphase hl, timelessly_halt hsame .consumerGone⟩
  | ask hphase hl =>
    have hbegun : { t.timeless with pump := { t.pump with phase := .reading } }.timeless =
        { t with pump := { t.pump with phase := .reading } }.timeless :=
      congrArg (fun u : Transfer => { u with pump := { t.pump with phase := .reading } }) hsame
    obtain ⟨hread, hevents⟩ := Prod.mk.inj (timelessly_start (k := tellRead)
      (fun r h => timelessly_tellRead h r) hbegun (.read t.pump.options.request))
    exact ⟨_, .ask hphase hl, Prod.ext hread (congrArg (_ :: ·) hevents)⟩
  | dropped hphase hl =>
    have hcancel := timeless_source hsame (g := t.source.timeless.cancel)
      (k := t.source.cancel) rfl
    exact ⟨_, .dropped hphase hl, timelessly_halt hcancel .consumerGone⟩
  | read hphase hl hpoll =>
    obtain ⟨g', hpoll', hg, -⟩ := poll_timeless hpoll nofun
    exact ⟨_, .read hphase hl hpoll', timelessly_tellRead (timeless_source hsame hg) _⟩
  | reading hphase hl hpoll hstage =>
    obtain ⟨g', hpoll', hg, hstage'⟩ := poll_timeless hpoll fun hq => hstage (by cases hq; rfl)
    exact ⟨_, .reading hphase hl hpoll' (hstage' rfl), congrArg (·, []) (timeless_source hsame hg)⟩
  | @sent chunk hphase hroom =>
    have hchannel := congrArg (fun u : Transfer =>
      { u with channel := { t.channel with queue := t.channel.queue ++ [chunk] } }) hsame
    exact ⟨_, .sent hphase hroom, timelessly_tell hchannel .accepted⟩
  | refused hphase hl => exact ⟨_, .refused hphase hl, timelessly_halt hsame .refused⟩
  | stopped hphase hpoll =>
    obtain ⟨g', hpoll', hg, -⟩ := poll_timeless hpoll nofun
    exact ⟨_, .stopped hphase hpoll', timelessly_tellStopped (timeless_source hsame hg) _⟩
  | stopping hphase hpoll hstage =>
    obtain ⟨g', hpoll', hg, hstage'⟩ := poll_timeless hpoll fun hq => hstage (by cases hq; rfl)
    exact ⟨_, .stopping hphase hpoll' (hstage' rfl), congrArg (·, []) (timeless_source hsame hg)⟩

end Transfer

end ToneRelay.Stream
