import ToneRelay.Generator.Prompt
import ToneRelay.Stream.Channel
import ToneRelay.Stream.Relay

/-!
# Transfers

A relay at work: it moves the output of a supervised generator into a channel of one chunk, from
which a listener takes it. The relay's steps, the listener's, and those of the generator interleave
freely. Main statement: `relay_of_done`.
-/

namespace ToneRelay.Stream

open Generator (Supervised Reply)

/-- What passes between the parts of a transfer. -/
abbrev Chunk := List UInt8

/-- A relay between a generator and a listener. -/
structure Transfer where
  source : Supervised
  pump : Pump Chunk
  channel : Channel Chunk := { capacity := 1 }
  /-- What the listener has taken, last chunk first. -/
  taken : List Chunk := []

namespace Transfer

/-- A transfer that has not begun. -/
def begin (source : Supervised) (options : RelayOptions) : Transfer where
  source := source
  pump := .start options

/-- Tells the relay an answer. -/
def tell (t : Transfer) (a : Answer Chunk) : Transfer × List (Event Chunk) :=
  let (pump, events) := t.pump.step a
  ({ t with pump := pump }, events)

/-- Tells the relay how the stop of the source was answered. -/
def tellStopped (t : Transfer) : Option Reply → Transfer × List (Event Chunk)
  | some (.failed fault) => t.tell (.stopped (some fault))
  | some _ => t.tell (.stopped none)
  | none => (t, [])

/-- Tells the relay an answer upon which it stops the source. -/
def halt (t : Transfer) (a : Answer Chunk) : Transfer × List (Event Chunk) :=
  let (t, events) := t.tell a
  let (source, r) := t.source.start .terminate
  let (t, more) := { t with source := source }.tellStopped r
  (t, events ++ more)

/-- Tells the relay how a read was answered. -/
def tellRead (t : Transfer) : Option Reply → Transfer × List (Event Chunk)
  | some (.data chunk) => t.tell (.read (.data chunk))
  | some .eof => t.tell (.read .eof)
  | some (.failed fault) => t.halt (.read (.failed fault))
  | _ => (t, [])

/-- The next step of the relay. A disconnect is noticed before what was read; `none` is a relay that
waits. -/
def relay (t : Transfer) : Option (Transfer × List (Event Chunk)) :=
  match t.pump.phase with
  | .checking =>
    if t.channel.isClosed then some (t.halt .consumerGone)
    else
      let (t, events) := t.tell .consumerPresent
      let (source, r) := t.source.start (.read t.pump.options.request)
      let (t, more) := { t with source := source }.tellRead r
      some (t, events ++ more)
  | .reading =>
    if t.channel.isClosed then some ({ t with source := t.source.cancel }.halt .consumerGone)
    else
      match t.source.poll with
      | (source, some r) => some ({ t with source := source }.tellRead (some r))
      | (source, none) =>
        if source.stage = t.source.stage then none else some ({ t with source := source }, [])
  | .sending chunk =>
    match t.channel.send chunk with
    | (.accepted, channel) => some ({ t with channel := channel }.tell .accepted)
    | (.refused, _) => some (t.halt .refused)
    | (.full, _) => none
  | .stopping _ =>
    match t.source.poll with
    | (source, some r) => some ({ t with source := source }.tellStopped (some r))
    | (source, none) =>
      if source.stage = t.source.stage then none else some ({ t with source := source }, [])
  | .done _ => none

/-- The listener takes a chunk, if there is one. -/
def take (t : Transfer) : Transfer :=
  match t.channel.receive with
  | (.item chunk, channel) => { t with channel := channel, taken := chunk :: t.taken }
  | _ => t

/-- The listener goes away. -/
def leave (t : Transfer) : Transfer := { t with channel := t.channel.drop }

@[simp] theorem pump_leave (t : Transfer) : t.leave.pump = t.pump := rfl

/-- What the listener has taken. -/
def received (t : Transfer) : List UInt8 := t.taken.reverse.flatten

/-- The number of bytes that the listener has taken. -/
def receivedSize (t : Transfer) : Nat := t.taken.foldr (·.length + ·) 0

theorem relay_of_done {t : Transfer} {ending : Ending} (h : t.pump.phase = .done ending) :
    t.relay = none := by simp [relay, h]

/-! ## Prompt transfers -/

/-- What a listener still wants. -/
inductive Listener
  /-- All up to the end. -/
  | toEnd
  /-- A number of bytes. -/
  | enough (bytes : Nat)
deriving DecidableEq, Repr

namespace Listener

/-- A listener who wants nothing. -/
def absent : Listener := .enough 0

/-- What a listener wants after a chunk. -/
def after (l : Listener) (chunk : Chunk) : Listener :=
  match l with
  | .toEnd => .toEnd
  | .enough bytes => .enough (bytes - chunk.length)

end Listener

/-- The listener takes a chunk that is there, and goes away once there is enough. -/
def listen (t : Transfer) (l : Listener) : Transfer × Listener :=
  if l = .absent then (t.leave, l)
  else
    match t.channel.receive with
    | (.item chunk, _) =>
      let l := l.after chunk
      (if l = .absent then t.take.leave else t.take, l)
    | _ => (t, l)

/-- The listener comes when a chunk is there. -/
def listenToQueue (t : Transfer) (l : Listener) : Transfer × Listener :=
  if t.channel.queue.isEmpty then (t, l) else t.listen l

/-- At most `fuel` steps of a transfer in which everyone does at once what it can. The listener also
comes when the relay waits, so that one who wants nothing goes away then, and so does the reader of
the diagnostics. -/
def carryFor (fuel : Nat) (t : Transfer) (l : Listener) : Transfer :=
  match fuel with
  | 0 => t
  | fuel + 1 =>
    match t.pump.phase with
    | .done _ => t
    | _ =>
      let t := { t with source := t.source.actAll }
      match t.relay with
      | some (t, _) =>
        let (t, l) := t.listenToQueue l
        carryFor fuel t l
      | none =>
        let (heard, left) := t.listen l
        let worked := t.source.work
        if heard.channel.isClosed && !t.channel.isClosed then
          carryFor fuel { heard with source := worked } left
        else if t.source.drain.canStep t.source.process then
          carryFor fuel { t with source := worked } l
        else
          match t.source.nextTime with
          | some time => carryFor fuel { t with source := { t.source with now := time } } l
          | none => t

/-- A number of steps in which a transfer ends, if it ever does. -/
def patience (t : Transfer) : Nat :=
  4 * t.source.outstanding + 6 * t.source.process.todo.length + 64

/-- The transfer up to its end, with a listener. -/
def carry (t : Transfer) (l : Listener) : Transfer := t.carryFor t.patience l

end Transfer

end ToneRelay.Stream
