import ToneRelay.Proofs.Stream.Steps

/-!
# Orders of the relay

What a relay has its source do in a step: it reads, takes a read further or drops it, and stops the
source when the listener has gone or a read has failed. Main statement: `source_relay`.
-/

namespace ToneRelay.Stream.Transfer

open Generator (Supervised Reply)

variable {t : Transfer}

/-- What an owner does once it has been answered: it stops a generator that fails. -/
def ordersAfter : Option Reply → List Supervised.Move
  | some (.failed _) => [.call .terminate]
  | _ => []

@[simp] theorem ordersAfter_none : ordersAfter none = [] := rfl

@[simp] theorem ordersAfter_ready : ordersAfter (some .ready) = [] := rfl

/-- What happens to the source in a step of the relay. -/
def orders (t : Transfer) : List Supervised.Move :=
  match t.pump.phase with
  | .checking =>
    if t.channel.isClosed then [.call .terminate]
    else
      let read : Supervised.Move := .call (.read t.pump.options.request)
      read :: ordersAfter (t.source.step read).2
  | .reading =>
    if t.channel.isClosed then [.cancel, .call .terminate]
    else .poll :: ordersAfter t.source.poll.2
  | .sending chunk => if (t.channel.send chunk).1 = .refused then [.call .terminate] else []
  | .stopping _ => [.poll]
  | .done _ => []

theorem source_tellRead (t : Transfer) (r : Option Reply) :
    (t.tellRead r).1.source = (t.source.run (ordersAfter r)).1 := by
  cases r with
  | none => rfl
  | some reply =>
    cases reply with
    | failed fault => exact source_halt _ _
    | _ => rfl

/-- **One step of the relay** does with the source what its orders tell. -/
theorem source_relay {q : Transfer × List (Event Chunk)} (hr : t.relay = some q) :
    q.1.source = (t.source.run t.orders).1 := by
  cases relay_eq_some_iff.1 hr with
  | gone hphase hl => simp [orders, hphase, hl, Supervised.step]
  | ask hphase hl =>
    simp only [orders, hphase, Channel.isClosed_iff, hl, ne_eq, not_true_eq_false, if_false]
    exact source_tellRead _ _
  | dropped hphase hl => simp [orders, hphase, hl, Supervised.step]
  | read hphase hl hpoll => simp [orders, hphase, hl, hpoll, Supervised.step, source_tellRead]
  | reading hphase hl hpoll => simp [orders, hphase, hl, hpoll, Supervised.step, ordersAfter]
  | sent hphase hroom => simp [orders, hphase, Channel.send_of_room hroom, tell]
  | refused hphase hl => simp [orders, hphase, Channel.send_of_refused hl, Supervised.step]
  | stopped hphase hpoll => simp [orders, hphase, hpoll, Supervised.step]
  | stopping hphase hpoll => simp [orders, hphase, hpoll, Supervised.step]

end ToneRelay.Stream.Transfer
