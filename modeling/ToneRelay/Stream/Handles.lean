import ToneRelay.Stream.Counters

/-!
# Handles on counters

Counters are reached through handles. A handle is made together with new counters, or as a copy of
another handle, and a copy stands for the same counters. Main statement: `perform_absent`, nothing
is counted through a handle that there is not.
-/

namespace ToneRelay.Stream

/-- Counters and the handles on them. -/
structure Handles where
  ledger : Ledger := .fresh
  /-- How many counters have been made. Their places are the numbers below. -/
  made : Nat := 0
  /-- The place of the counters that each handle stands for. -/
  places : List Nat := []

namespace Handles

/-- What is done with handles, which are told apart by their number. -/
inductive Call
  /-- Makes counters and a handle on them. -/
  | make
  | copy (handle : Nat)
  | record (handle : Nat) (o : Occurrence)
deriving DecidableEq, Repr

/-- Makes a call. -/
def perform (h : Handles) : Call → Handles
  | .make => { h with made := h.made + 1, places := h.places ++ [h.made] }
  | .copy i => { h with places := h.places ++ h.places[i]?.toList }
  | .record i o =>
    match h.places[i]? with
    | some place => { h with ledger := h.ledger.record place o }
    | none => h

/-- Makes calls in order. -/
def run (h : Handles) (cs : List Call) : Handles := cs.foldl perform h

/-- The counters that a handle stands for. -/
def snapshot (h : Handles) (i : Nat) : Option Counters := h.places[i]?.map h.ledger

@[simp] theorem run_nil (h : Handles) : h.run [] = h := rfl

@[simp] theorem run_cons (h : Handles) (c : Call) (cs : List Call) :
    h.run (c :: cs) = (h.perform c).run cs := rfl

theorem perform_record {h : Handles} {i place : Nat} (hi : h.places[i]? = some place)
    (o : Occurrence) :
    h.perform (.record i o) = { h with ledger := h.ledger.record place o } := by
  simp [perform, hi]

theorem perform_absent {h : Handles} {i : Nat} (hi : h.places[i]? = none) (o : Occurrence) :
    h.perform (.record i o) = h := by
  simp [perform, hi]

end Handles

end ToneRelay.Stream
