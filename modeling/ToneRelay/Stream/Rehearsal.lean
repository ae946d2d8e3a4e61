import ToneRelay.Stream.Relay

/-!
# Rehearsing a relay

A relay between a source and a consumer that follow a script: what each read gives, how many chunks
are accepted, and after how many of them the consumer goes away.
-/

namespace ToneRelay.Stream

/-- What a read of a scripted source gives. -/
inductive Line (α : Type)
  | piece (chunk : α)
  /-- As many bytes as are asked for. -/
  | full
  | eof
  | fail (fault : Generator.Fault)
  /-- Nothing, and the consumer goes away meanwhile. -/
  | block
deriving Repr

/-- A scripted source and a scripted consumer. -/
structure Rehearsal (α : Type) where
  lines : List (Line α)
  /-- After the last line, whether every read gives as many bytes as are asked for, or none. -/
  endless : Bool := false
  /-- The number of chunks that are accepted. -/
  accept : Option Nat := none
  /-- The number of chunks after which the consumer has gone away. -/
  closeAfter : Option Nat := none
  /-- What goes wrong when the source is stopped. -/
  stopFault : Option Generator.Fault := none
  /-- The chunk of a given size. -/
  filler : Nat → α
  accepted : Nat := 0

namespace Rehearsal

variable {α : Type} [Piece α]

/-- Whether the consumer has gone away. -/
def gone (r : Rehearsal α) : Bool := r.closeAfter.any (· ≤ r.accepted)

/-- The next line. -/
def next (r : Rehearsal α) : Line α × Rehearsal α :=
  match r.lines with
  | line :: rest => (line, { r with lines := rest })
  | [] => (if r.endless then .full else .eof, r)

/-- The answer to what the relay waits for. -/
def answer (r : Rehearsal α) (p : Pump α) : Answer α × Rehearsal α :=
  match p.phase with
  | .checking => (if r.gone then .consumerGone else .consumerPresent, r)
  | .reading =>
    let (line, r) := r.next
    let given : Answer α := match line with
      | .piece chunk => .read (.data chunk)
      | .full => .read (.data (r.filler p.options.request))
      | .eof => .read .eof
      | .fail fault => .read (.failed fault)
      | .block => .consumerGone
    (given, r)
  | .sending _ =>
    if r.accept.all (r.accepted < ·) then (.accepted, { r with accepted := r.accepted + 1 })
    else (.refused, r)
  | .stopping _ => (.stopped r.stopFault, r)
  | .done _ => (.consumerPresent, r)

/-- The relay after at most `fuel` answers, and what can be seen of it. -/
def perform (fuel : Nat) (r : Rehearsal α) (p : Pump α) : Pump α × List (Event α) :=
  match fuel with
  | 0 => (p, [])
  | fuel + 1 =>
    match p.phase with
    | .done _ => (p, [])
    | _ =>
      let (a, r) := r.answer p
      let (p, events) := p.step a
      let (p, more) := r.perform fuel p
      (p, events ++ more)

/-- A number of rounds that is not exceeded, unless the source is endless and no one stops it. -/
def rounds (r : Rehearsal α) : Nat :=
  r.lines.length + r.accept.getD 0 + r.closeAfter.getD 0 + 2

/-- The whole rehearsal: three answers a round and one to the end. -/
def run (r : Rehearsal α) (options : RelayOptions) : Pump α × List (Event α) :=
  r.perform (3 * r.rounds + 3) (.start options)

end Rehearsal

end ToneRelay.Stream
