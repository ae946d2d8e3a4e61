import ToneRelay.Service.Exchange
import ToneRelay.Stream.History

/-!
# What requests share

The counters, the history of sessions and the number of launches, and any number of exchanges at
once that have their effects on them. Main statements: `step_exchange` and `step_missing`.
-/

namespace ToneRelay.Service

open ToneRelay.Stream (Counters History Report)

/-- What requests share. -/
structure Shared where
  counters : Counters := {}
  history : History
  launches : Nat := 0

namespace Shared

/-- An effect of an exchange. -/
def apply (s : Shared) : Effect → Shared
  | .count u => { s with counters := s.counters.update u }
  | .launch => { s with launches := s.launches + 1 }
  | .record r => { s with history := s.history.record r }

/-- Effects in order. -/
def applyAll (s : Shared) (es : List Effect) : Shared := es.foldl apply s

@[simp] theorem applyAll_nil (s : Shared) : s.applyAll [] = s := rfl

@[simp] theorem applyAll_cons (s : Shared) (e : Effect) (es : List Effect) :
    s.applyAll (e :: es) = (s.apply e).applyAll es := rfl

/-- Asks for the report of a session. -/
def lookup (s : Shared) (id : Text.Uuid) : Option Report × Shared :=
  let (r, history) := s.history.get id
  (r, { s with history := history })

@[simp] theorem lookup_fst (s : Shared) (id : Text.Uuid) : (s.lookup id).1 = s.history.find id :=
  s.history.get_fst id

end Shared

/-! ## Many exchanges -/

/-- Exchanges, in the order of their arrival, and what they share. -/
structure Traffic where
  shared : Shared
  exchanges : List Exchange := []

namespace Traffic

/-- What can happen. -/
inductive Move
  | arrive (x : Exchange)
  | exchange (i : Nat) (m : Exchange.Move)
  | lookup (id : Text.Uuid)

/-- One thing happens; a question for a session is answered. -/
def step (t : Traffic) : Move → Traffic × Option Report
  | .arrive x => ({ t with exchanges := t.exchanges ++ [{ x with phase := .arrived }] }, none)
  | .exchange i m =>
    match t.exchanges[i]? with
    | none => (t, none)
    | some x =>
      let (x, e) := x.step m
      ({ shared := t.shared.applyAll e.toList, exchanges := t.exchanges.set i x }, none)
  | .lookup id =>
    let (r, shared) := t.shared.lookup id
    ({ t with shared := shared }, r)

/-- What happens in order. -/
def run (t : Traffic) (ms : List Move) : Traffic := ms.foldl (fun t m => (t.step m).1) t

@[simp] theorem step_arrive (t : Traffic) (x : Exchange) : t.step (.arrive x) =
    ({ t with exchanges := t.exchanges ++ [{ x with phase := .arrived }] }, none) := rfl

@[simp] theorem step_lookup (t : Traffic) (id : Text.Uuid) : t.step (.lookup id) =
    ({ t with shared := (t.shared.lookup id).2 }, (t.shared.lookup id).1) := rfl

theorem step_exchange {t : Traffic} {i : Nat} {x : Exchange} (h : t.exchanges[i]? = some x)
    (m : Exchange.Move) : t.step (.exchange i m) =
      ({ shared := t.shared.applyAll (x.step m).2.toList
         exchanges := t.exchanges.set i (x.step m).1 }, none) := by
  simp [step, h]

/-- A move of an exchange that is not there changes nothing. -/
theorem step_missing {t : Traffic} {i : Nat} (h : t.exchanges[i]? = none) (m : Exchange.Move) :
    t.step (.exchange i m) = (t, none) := by
  simp [step, h]

@[simp] theorem run_nil (t : Traffic) : t.run [] = t := rfl

@[simp] theorem run_cons (t : Traffic) (m : Move) (ms : List Move) :
    t.run (m :: ms) = (t.step m).1.run ms := rfl

end Traffic

end ToneRelay.Service
