import ToneRelay.Generator.Supervised

/-!
# Prompt schedules

Calls that are answered as soon as they can be: whenever the generator can do something, it is done
at once, the reader of its diagnostics works while the owner waits, and time passes only when nobody
can do anything.
-/

namespace ToneRelay.Generator

/-- A number of steps in which an action is done. -/
def Action.effort : Action → Nat
  | .err bytes => bytes.length + 2
  | _ => 2

namespace Supervised

/-- A number of steps after which the generator and the reader have nothing left to do now. -/
def effort (s : Supervised) : Nat :=
  s.process.todo.foldr (·.effort + ·) 0 + s.process.errors.length + 4

/-- At most `fuel` steps of the generator and of the reader. -/
def workFor (fuel : Nat) (s : Supervised) : Supervised :=
  match fuel with
  | 0 => s
  | fuel + 1 =>
    match s.process.act s.now with
    | some p => workFor fuel { s with process := p }
    | none => if s.drain.canStep s.process then workFor fuel s.drainOnce else s

/-- All that the generator and the reader can do now. -/
def work (s : Supervised) : Supervised := s.workFor s.effort

/-- At most `fuel` actions of the generator. -/
def actFor (fuel : Nat) (s : Supervised) : Supervised :=
  match fuel with
  | 0 => s
  | fuel + 1 =>
    match s.process.act s.now with
    | some p => actFor fuel { s with process := p }
    | none => s

/-- All that the generator can do now, while the reader does nothing. -/
def actAll (s : Supervised) : Supervised := s.actFor s.effort

/-- The next time at which something happens by itself. -/
def nextTime (s : Supervised) : Option Nat :=
  let deadline := (s.stage.bind Stage.deadline?).filter (s.now < ·)
  match s.process.wake s.now, deadline with
  | some a, some b => some (min a b)
  | some a, none => some a
  | none, b => b

/-- Carries the call under way on for at most `fuel` steps. Without an answer it waits for ever. The
reader of diagnostics has its turn when the call waits, so that it is behind when it is asked. -/
def carryFor (fuel : Nat) (s : Supervised) : Supervised × Option Reply :=
  match fuel with
  | 0 => (s, none)
  | fuel + 1 =>
    let s := s.actAll
    match s.poll with
    | (s, some r) => (s, some r)
    | (s', none) =>
      if s'.stage ≠ s.stage then carryFor fuel s'
      else if s.drain.canStep s.process then carryFor fuel s.work
      else match s.nextTime with
        | some t => carryFor fuel { s with now := t }
        | none => (s, none)

/-- A number of steps in which a call is answered, if it ever is. -/
def patience (s : Supervised) : Nat := 3 * s.process.todo.length + 24

/-- Makes a call and carries it on. -/
def call (s : Supervised) (c : Call) : Supervised × Option Reply :=
  let s := s.actAll
  match s.start c with
  | (s, some r) => (s, some r)
  | (s, none) => s.carryFor s.patience

/-- Reads at most `fuel` chunks, up to the end of the output. -/
def readAllFor (fuel : Nat) (s : Supervised) (max : Nat) :
    Supervised × Except Reply (List UInt8) :=
  match fuel with
  | 0 => (s, .error .ready)
  | fuel + 1 =>
    match s.call (.read max) with
    | (s, some (.data chunk)) =>
      let (s, rest) := s.readAllFor fuel max
      (s, rest.map (chunk ++ ·))
    | (s, some .eof) => (s, .ok [])
    | (s, some r) => (s, .error r)
    | (s, none) => (s, .error .ready)

/-- The bytes of output that are written and not read, and those that are yet to be written. -/
def outstanding (s : Supervised) : Nat :=
  let size : Action → Nat
    | .out bytes => bytes.length
    | _ => 0
  s.process.output.bytes.length + (s.handle.pending.getD []).length +
    s.process.todo.foldr (size · + ·) 0

/-- Reads up to the end of the output. The error is an answer that is not output. -/
def readAll (s : Supervised) (max : Nat) : Supervised × Except Reply (List UInt8) :=
  s.readAllFor (s.outstanding + 2) max

end Supervised

end ToneRelay.Generator
