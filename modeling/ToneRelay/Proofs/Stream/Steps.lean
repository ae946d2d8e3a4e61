import ToneRelay.Stream.Transfer

/-!
# The steps of a relay

`relay_eq_some_iff`: what a relay does in a step, by its phase and by what it finds. When it does
nothing, it has ended, or it waits for the generator or for room (`stuck_of_relay`). The relay
changes the channel only by what it sends (`channel_relay`), and its listener only takes what was
queued (`take_cases`).
-/

namespace ToneRelay.Stream.Transfer

open Generator (Supervised Reply)

variable {t : Transfer}

/-! ## What the relay is told -/

theorem tellStopped_some {e : Ending} (h : t.pump.phase = .stopping e) (r : Reply) :
    (t.tellStopped (some r)).1 = { t with pump := { t.pump with phase := .done e } } := by
  cases r <;> simp [tellStopped, tell, Pump.step, h]

theorem tell_present (h : t.pump.phase = .checking) : t.tell .consumerPresent =
    ({ t with pump := { t.pump with phase := .reading } }, [.read t.pump.options.request]) := by
  simp [tell, Pump.step, h]

theorem tellRead_data (h : t.pump.phase = .reading) (chunk : Chunk) :
    (t.tellRead (some (.data chunk))).1 =
      { t with pump := { t.pump with phase := .sending chunk } } := by
  simp [tellRead, tell, Pump.step, h]

theorem tellRead_eof (h : t.pump.phase = .reading) : (t.tellRead (some .eof)).1 =
    { t with pump := { t.pump with phase := .done (.finished t.pump.total) } } := by
  simp [tellRead, tell, Pump.step, h]

theorem tell_accepted {chunk : Chunk} (h : t.pump.phase = .sending chunk) (c : Channel Chunk) :
    ({ t with channel := c }.tell .accepted).1 =
      { t with channel := c, pump := (t.pump.advance chunk).1 } := by
  simp [tell, Pump.step, h]

theorem halt_eq {e : Ending} {a : Answer Chunk} (hstep : (t.pump.step a).1 = t.pump.stop e) :
    (t.halt a).1 = ({ t with
      pump := t.pump.stop e
      source := (t.source.start .terminate).1 }.tellStopped (t.source.start .terminate).2).1 := by
  simp only [halt, tell, hstep]

/-! ## One step -/

/-- A round begins with a read, since the consumer is there. -/
def ask (t : Transfer) : Transfer × List (Event Chunk) :=
  let call := Generator.Call.read t.pump.options.request
  let q := { t with
    pump := { t.pump with phase := .reading }
    source := (t.source.start call).1 }.tellRead (t.source.start call).2
  (q.1, .read t.pump.options.request :: q.2)

/-- What the relay does in a step. -/
inductive Goes (t : Transfer) : Transfer × List (Event Chunk) → Prop
  /-- There is no consumer when a round would begin. -/
  | gone (hphase : t.pump.phase = .checking) (hl : t.channel.receiver ≠ .listening) :
    t.Goes (t.halt .consumerGone)
  | ask (hphase : t.pump.phase = .checking) (hl : t.channel.receiver = .listening) : t.Goes t.ask
  /-- The consumer goes away during a read, which is dropped. -/
  | dropped (hphase : t.pump.phase = .reading) (hl : t.channel.receiver ≠ .listening) :
    t.Goes ({ t with source := t.source.cancel }.halt .consumerGone)
  | read {g : Supervised} {r : Reply} (hphase : t.pump.phase = .reading)
    (hl : t.channel.receiver = .listening) (hpoll : t.source.poll = (g, some r)) :
    t.Goes ({ t with source := g }.tellRead (some r))
  /-- The read gets to its next stage. -/
  | reading {g : Supervised} (hphase : t.pump.phase = .reading)
    (hl : t.channel.receiver = .listening) (hpoll : t.source.poll = (g, none))
    (hstage : g.stage ≠ t.source.stage) : t.Goes ({ t with source := g }, [])
  | sent {chunk : Chunk} (hphase : t.pump.phase = .sending chunk)
    (hroom : t.channel.room = .accepted) :
    t.Goes ({ t with
      channel := { t.channel with queue := t.channel.queue ++ [chunk] } }.tell .accepted)
  | refused {chunk : Chunk} (hphase : t.pump.phase = .sending chunk)
    (hl : t.channel.receiver ≠ .listening) : t.Goes (t.halt .refused)
  | stopped {e : Ending} {g : Supervised} {r : Reply} (hphase : t.pump.phase = .stopping e)
    (hpoll : t.source.poll = (g, some r)) : t.Goes ({ t with source := g }.tellStopped (some r))
  /-- The stop gets to its next stage. -/
  | stopping {e : Ending} {g : Supervised} (hphase : t.pump.phase = .stopping e)
    (hpoll : t.source.poll = (g, none)) (hstage : g.stage ≠ t.source.stage) :
    t.Goes ({ t with source := g }, [])

/-- Why the relay does nothing. -/
inductive Stuck (t : Transfer) : Prop
  | reading {g : Supervised} (hphase : t.pump.phase = .reading)
    (hl : t.channel.receiver = .listening) (hpoll : t.source.poll = (g, none))
    (hstage : g.stage = t.source.stage)
  | sending {chunk : Chunk} (hphase : t.pump.phase = .sending chunk)
    (hroom : t.channel.room = .full)
  | stopping {e : Ending} {g : Supervised} (hphase : t.pump.phase = .stopping e)
    (hpoll : t.source.poll = (g, none)) (hstage : g.stage = t.source.stage)
  | done {e : Ending} (hphase : t.pump.phase = .done e)

theorem Goes.relay_eq {q : Transfer × List (Event Chunk)} (h : t.Goes q) : t.relay = some q := by
  unfold relay
  cases h with
  | gone hphase hl => simp [hphase, hl]
  | ask hphase hl => simp [Transfer.ask, tell_present hphase, hphase, hl]
  | dropped hphase hl => simp [hphase, hl]
  | read hphase hl hpoll => simp [hphase, hl, hpoll]
  | reading hphase hl hpoll hstage => simp [hphase, hl, hpoll, hstage]
  | sent hphase hroom => simp [hphase, Channel.send_of_room hroom]
  | refused hphase hl => simp [hphase, Channel.send_of_refused hl]
  | stopped hphase hpoll => simp [hphase, hpoll]
  | stopping hphase hpoll hstage => simp [hphase, hpoll, hstage]

theorem Stuck.relay_eq (h : t.Stuck) : t.relay = none := by
  unfold relay
  cases h with
  | reading hphase hl hpoll hstage => simp [hphase, hl, hpoll, hstage]
  | sending hphase hroom => simp [hphase, Channel.send_of_full hroom]
  | stopping hphase hpoll hstage => simp [hphase, hpoll, hstage]
  | done hphase => exact relay_of_done hphase

theorem goes_or_stuck (t : Transfer) : (∃ q, t.Goes q) ∨ t.Stuck := by
  cases hphase : t.pump.phase with
  | checking =>
    by_cases hl : t.channel.receiver = .listening
    · exact .inl ⟨_, .ask hphase hl⟩
    · exact .inl ⟨_, .gone hphase hl⟩
  | reading =>
    by_cases hl : t.channel.receiver = .listening
    · rcases hpoll : t.source.poll with ⟨g, _ | r⟩
      · by_cases hstage : g.stage = t.source.stage
        · exact .inr (.reading hphase hl hpoll hstage)
        · exact .inl ⟨_, .reading hphase hl hpoll hstage⟩
      · exact .inl ⟨_, .read hphase hl hpoll⟩
    · exact .inl ⟨_, .dropped hphase hl⟩
  | sending chunk =>
    cases hroom : t.channel.room with
    | accepted => exact .inl ⟨_, .sent hphase hroom⟩
    | full => exact .inr (.sending hphase hroom)
    | refused => exact .inl ⟨_, .refused hphase (Channel.room_eq_refused_iff.1 hroom)⟩
  | stopping e =>
    rcases hpoll : t.source.poll with ⟨g, _ | r⟩
    · by_cases hstage : g.stage = t.source.stage
      · exact .inr (.stopping hphase hpoll hstage)
      · exact .inl ⟨_, .stopping hphase hpoll hstage⟩
    · exact .inl ⟨_, .stopped hphase hpoll⟩
  | done e => exact .inr (.done hphase)

/-- **One step of the relay.** -/
theorem relay_eq_some_iff {q : Transfer × List (Event Chunk)} : t.relay = some q ↔ t.Goes q := by
  refine ⟨fun h => ?_, Goes.relay_eq⟩
  rcases t.goes_or_stuck with ⟨q', hgoes⟩ | hstuck
  · obtain rfl := Option.some.inj (h.symm.trans hgoes.relay_eq)
    exact hgoes
  · exact nomatch h.symm.trans hstuck.relay_eq

theorem stuck_of_relay (h : t.relay = none) : t.Stuck := by
  rcases t.goes_or_stuck with ⟨q, hgoes⟩ | hstuck
  · exact nomatch h.symm.trans hgoes.relay_eq
  · exact hstuck

/-! ## What a step leaves alone -/

@[simp] theorem channel_tellStopped (t : Transfer) (r : Option Reply) :
    (t.tellStopped r).1.channel = t.channel := by
  cases r with
  | none => rfl
  | some reply => cases reply <;> rfl

@[simp] theorem channel_halt (t : Transfer) (a : Answer Chunk) :
    (t.halt a).1.channel = t.channel := channel_tellStopped _ _

@[simp] theorem channel_tellRead (t : Transfer) (r : Option Reply) :
    (t.tellRead r).1.channel = t.channel := by
  cases r with
  | none => rfl
  | some reply =>
    cases reply with
    | failed fault => exact channel_halt _ _
    | _ => rfl

@[simp] theorem channel_ask (t : Transfer) : t.ask.1.channel = t.channel := channel_tellRead _ _

@[simp] theorem source_tellStopped (t : Transfer) (r : Option Reply) :
    (t.tellStopped r).1.source = t.source := by
  cases r with
  | none => rfl
  | some reply => cases reply <;> rfl

@[simp] theorem source_halt (t : Transfer) (a : Answer Chunk) :
    (t.halt a).1.source = (t.source.start .terminate).1 := source_tellStopped _ _

/-- The relay does nothing to the channel but send. -/
theorem channel_relay {q : Transfer × List (Event Chunk)} (hr : t.relay = some q) :
    q.1.channel = t.channel ∨
      ∃ chunk, q.1.channel = { t.channel with queue := t.channel.queue ++ [chunk] } := by
  cases relay_eq_some_iff.1 hr with
  | sent hphase hroom => exact .inr ⟨_, rfl⟩
  | _ => left; simp

/-- The relay does not end the body. -/
theorem finished_relay {q : Transfer × List (Event Chunk)} (hr : t.relay = some q) :
    q.1.channel.finished = t.channel.finished := by
  rcases channel_relay hr with hchannel | ⟨chunk, hchannel⟩ <;> rw [hchannel]

/-! ## Steps of the listener -/

/-- The listener takes the chunk that was queued first, or there is none for it. -/
theorem take_cases (t : Transfer) :
    (t.take = t ∧ (t.channel.receiver = .gone ∨ t.channel.queue = [])) ∨ ∃ chunk rest,
      t.channel.receiver ≠ .gone ∧ t.channel.queue = chunk :: rest ∧
        t.take = { t with
          channel := { t.channel with queue := rest }
          taken := chunk :: t.taken } := by
  unfold take
  obtain ⟨r, hreceive, hitem, hnone, -⟩ | ⟨chunk, rest, hg, hqueue, hreceive⟩ :=
    t.channel.receive_cases
  · refine .inl ⟨?_, hnone⟩
    rw [hreceive]
    cases r with
    | item chunk => exact absurd rfl (hitem chunk)
    | _ => rfl
  · exact .inr ⟨chunk, rest, hg, hqueue, by rw [hreceive]⟩

/-- What the listener takes is no concern of the relay. -/
@[simp] theorem pump_take (t : Transfer) : t.take.pump = t.pump := by
  rcases t.take_cases with ⟨htake, -⟩ | ⟨chunk, rest, -, -, htake⟩ <;> rw [htake]

@[simp] theorem source_take (t : Transfer) : t.take.source = t.source := by
  rcases t.take_cases with ⟨htake, -⟩ | ⟨chunk, rest, -, -, htake⟩ <;> rw [htake]

@[simp] theorem finished_take (t : Transfer) :
    t.take.channel.finished = t.channel.finished := by
  rcases t.take_cases with ⟨htake, -⟩ | ⟨chunk, rest, -, -, htake⟩ <;> rw [htake]

end ToneRelay.Stream.Transfer
