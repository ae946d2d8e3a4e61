import Mathlib.Logic.Function.Iterate
import ToneRelay.Proofs.Stream.Tally

/-!
# Streams counted one update at a time

Any number of streams are counted at the same counters. Each of them is counted once as it starts
and once as it ends, and each of these two calls is several atomic updates, between which the
updates of other streams fall.

1. The updates made so far are, up to their order, the first ones of every stream
   (`Party.log_step`), and the counters tell their numbers (`Census.told_step`, `Census.told_run`).
2. The order of the updates within a stream bounds what the numbers can be, stream by stream
   (`Party.done_balance`) and so for all of them (`Party.log_balance`).

Hence no update of the number of active streams is lost, no stream is counted twice among the active
ones and the ended ones, and the counters tell of the streams whose calls have all returned
(`Census.run_balanced`).
-/

namespace ToneRelay.Stream

/-- What the order of the updates within each stream entails for the numbers of updates. -/
structure Balance (us : List Update) : Prop where
  leave_le : us.count .leave ≤ us.count .enter
  enter_le : us.count .enter ≤ us.count .started
  ended_le : us.count .enter + us.count (.ended .completed) + us.count (.ended .aborted) +
    us.countP Update.isFailure ≤ us.count .started + us.count .leave

theorem Balance.nil : Balance [] := ⟨le_rfl, le_rfl, le_rfl⟩

theorem Balance.append {us vs : List Update} (hu : Balance us) (hv : Balance vs) :
    Balance (us ++ vs) := by
  obtain ⟨hu₁, hu₂, hu₃⟩ := hu
  obtain ⟨hv₁, hv₂, hv₃⟩ := hv
  constructor <;> simp only [List.count_append, List.countP_append] <;> omega

theorem Balance.perm {us vs : List Update} (h : Balance us) (hp : us.Perm vs) : Balance vs := by
  obtain ⟨h₁, h₂, h₃⟩ := h
  simp only [hp.count_eq, hp.countP_eq] at h₁ h₂ h₃
  exact ⟨h₁, h₂, h₃⟩

/-- A stream that is counted as it starts and later as it ends. -/
structure Party where
  state : State
  bytes : Nat
  /-- The number of its updates that have been made. -/
  made : Nat := 0
deriving DecidableEq, Repr

namespace Party

/-- All its updates, in order. -/
def updates (p : Party) : List Update :=
  Occurrence.started.updates ++ (Occurrence.finished p.state p.bytes).updates

/-- The updates that have been made. -/
def done (p : Party) : List Update := p.updates.take p.made

def next? (p : Party) : Option Update := p.updates[p.made]?

def advance (p : Party) : Party := { p with made := p.made + 1 }

/-- Makes the next update, if there is one. -/
def step (p : Party) : Party := if p.next?.isSome then p.advance else p

/-- It is counted as started, and the call has returned. -/
def hasStarted (p : Party) : Bool := Occurrence.started.updates.length ≤ p.made

/-- It is counted as ended, and the call has returned. -/
def hasEnded (p : Party) : Bool := p.updates.length ≤ p.made

def isActive (p : Party) : Bool := p.hasStarted && !p.hasEnded

def hasEndedAs (state : State) (p : Party) : Bool := p.hasEnded && p.state == state

/-- It has ended in a state that is counted as a failure. -/
def hasFailed (p : Party) : Bool :=
  p.hasEnded && p.state != .completed && p.state != .aborted

/-- None of its two calls is half done. -/
def Quiet (p : Party) : Prop :=
  p.made = 0 ∨ p.made = Occurrence.started.updates.length ∨ p.made = p.updates.length

theorem updates_eq (p : Party) :
    p.updates = [.started, .enter, .leave, .relayed p.bytes, .ended p.state] := rfl

theorem done_advance {p : Party} {u : Update} (h : p.next? = some u) :
    p.advance.done = p.done ++ [u] := by
  show p.updates.take (p.made + 1) = p.updates.take p.made ++ [u]
  rw [List.take_add_one]
  exact congrArg (p.updates.take p.made ++ ·.toList) h

/-- The updates of a stream that have been made are the first ones of five. -/
theorem done_cases (p : Party) :
    p.done = [] ∨ p.done = [.started] ∨ p.done = [.started, .enter] ∨
      p.done = [.started, .enter, .leave] ∨
      p.done = [.started, .enter, .leave, .relayed p.bytes] ∨
      p.done = [.started, .enter, .leave, .relayed p.bytes, .ended p.state] := by
  unfold done
  rw [updates_eq]
  rcases p.made with _ | _ | _ | _ | _ | n
  iterate 5 simp
  rw [List.take_of_length_le (by simp)]
  simp

/-- A stream enters after it has started, leaves after it has entered, and is counted as ended
after it has left. -/
theorem done_balance (p : Party) : Balance p.done := by
  rcases p.done_cases with h | h | h | h | h | h
  all_goals rw [h]
  iterate 5 constructor <;> simp [Update.isFailure]
  cases p.state <;> constructor <;> simp [Update.isFailure]

theorem started_done (p : Party) : p.done.count .started ≤ 1 := by
  rcases p.done_cases with h | h | h | h | h | h
  all_goals rw [h]; simp

instance (p : Party) : Decidable p.Quiet := inferInstanceAs (Decidable (_ ∨ _ ∨ _))

/-- Between its calls a stream is not started yet, or running, or ended. -/
theorem Quiet.cases {p : Party} (h : p.Quiet) :
    (p.done = [] ∧ p.hasStarted = false ∧ p.hasEnded = false) ∨
      (p.done = [.started, .enter] ∧ p.hasStarted = true ∧ p.hasEnded = false) ∨
      (p.done = p.updates ∧ p.hasStarted = true ∧ p.hasEnded = true) := by
  unfold done hasStarted hasEnded
  obtain h | h | h := h
  all_goals rw [h]
  · exact .inl ⟨rfl, rfl, rfl⟩
  · exact .inr (.inl ⟨rfl, rfl, rfl⟩)
  · exact .inr (.inr ⟨List.take_length, rfl, decide_eq_true le_rfl⟩)

theorem Quiet.enter {p : Party} (h : p.Quiet) : p.done.count .enter = p.hasStarted.toNat := by
  obtain ⟨hd, hs, -⟩ | ⟨hd, hs, -⟩ | ⟨hd, hs, -⟩ := h.cases
  all_goals rw [hd, hs]; rfl

theorem Quiet.leave {p : Party} (h : p.Quiet) : p.done.count .leave = p.hasEnded.toNat := by
  obtain ⟨hd, -, he⟩ | ⟨hd, -, he⟩ | ⟨hd, -, he⟩ := h.cases
  all_goals rw [hd, he]; rfl

theorem Quiet.endedAs {p : Party} (h : p.Quiet) (state : State) :
    p.done.count (.ended state) = (p.hasEndedAs state).toNat := by
  unfold hasEndedAs
  obtain ⟨hd, -, he⟩ | ⟨hd, -, he⟩ | ⟨hd, -, he⟩ := h.cases
  all_goals rw [hd, he]
  · rfl
  · rfl
  · cases hstate : p.state == state <;> simp_all [updates_eq]

theorem Quiet.failed {p : Party} (h : p.Quiet) :
    p.done.countP Update.isFailure = p.hasFailed.toNat := by
  unfold hasFailed
  obtain ⟨hd, -, he⟩ | ⟨hd, -, he⟩ | ⟨hd, -, he⟩ := h.cases
  all_goals rw [hd, he]
  · rfl
  · rfl
  · rw [updates_eq]
    cases p.state <;> rfl

theorem Quiet.relayed {p : Party} (h : p.Quiet) :
    (p.done.map Update.bytes).sum = if p.hasEnded then p.bytes else 0 := by
  obtain ⟨hd, -, he⟩ | ⟨hd, -, he⟩ | ⟨hd, -, he⟩ := h.cases
  all_goals rw [hd, he]
  · rfl
  · rfl
  · simp [updates_eq, Update.bytes]

theorem Quiet.started_of_ended {p : Party} (h : p.Quiet) (he : p.hasEnded = true) :
    p.hasStarted = true := by
  obtain ⟨-, -, hf⟩ | ⟨-, hs, -⟩ | ⟨-, hs, -⟩ := h.cases
  · rw [hf] at he
    cases he
  · exact hs
  · exact hs

/-! ## All streams -/

/-- The updates that any streams have made, up to their order. -/
def log (ps : List Party) : List Update := ps.flatMap Party.done

@[simp] theorem log_cons (p : Party) (ps : List Party) : log (p :: ps) = p.done ++ log ps := rfl

/-- What bounds each stream bounds all of them. -/
theorem log_balance (ps : List Party) : Balance (log ps) := by
  induction ps with
  | nil => exact .nil
  | cons p ps ih => exact p.done_balance.append ih

/-- Every stream starts once. -/
theorem started_log (ps : List Party) : (log ps).count .started ≤ ps.length := by
  induction ps with
  | nil => exact le_rfl
  | cons p ps ih =>
    rw [log_cons, List.count_append, List.length_cons, Nat.add_comm]
    exact Nat.add_le_add ih p.started_done

/-- One kind of update is counted by counting the streams that have made it. -/
theorem countP_log {ps : List Party} {q : Update → Bool} {r : Party → Bool}
    (h : ∀ p ∈ ps, p.done.countP q = (r p).toNat) : (log ps).countP q = ps.countP r := by
  induction ps with
  | nil => rfl
  | cons p ps ih =>
    have hp := h p List.mem_cons_self
    have hps := ih fun x hx => h x (List.mem_cons_of_mem _ hx)
    rw [log_cons, List.countP_append, List.countP_cons, hp, hps, Nat.add_comm]
    cases r p <;> rfl

/-- Streams that have entered and not left are active. -/
theorem active_log {ps : List Party} (h : ∀ p ∈ ps, p.Quiet) :
    (log ps).count .enter = (log ps).count .leave + ps.countP isActive := by
  have henter : (log ps).count .enter = ps.countP hasStarted :=
    countP_log fun p hp => (h p hp).enter
  have hleave : (log ps).count .leave = ps.countP hasEnded :=
    countP_log fun p hp => (h p hp).leave
  have hended : ps.countP (fun p => p.hasStarted && p.hasEnded) = ps.countP hasEnded := by
    refine List.countP_congr fun p hp => ?_
    rw [Bool.and_eq_true]
    exact ⟨And.right, fun he => ⟨(h p hp).started_of_ended he, he⟩⟩
  rw [henter, hleave, List.countP_eq_countP_filter_add ps hasStarted hasEnded, List.countP_filter,
    List.countP_filter, hended]
  rfl

theorem relayed_log {ps : List Party} (h : ∀ p ∈ ps, p.Quiet) :
    ((log ps).map Update.bytes).sum = ((ps.filter hasEnded).map Party.bytes).sum := by
  induction ps with
  | nil => rfl
  | cons p ps ih =>
    have hp := (h p List.mem_cons_self).relayed
    have hps := ih fun x hx => h x (List.mem_cons_of_mem _ hx)
    rw [log_cons, List.map_append, List.sum_append, hp, hps, List.filter_cons]
    cases p.hasEnded with
    | false => exact Nat.zero_add _
    | true => rfl

/-- The update that one stream makes comes after those that have been made, up to their order. -/
theorem log_step {ps : List Party} {i : Nat} {p : Party} {u : Update} (hi : ps[i]? = some p)
    (hu : p.next? = some u) : (log (ps.set i p.advance)).Perm (log ps ++ [u]) := by
  induction ps generalizing i with
  | nil => cases hi
  | cons q ps ih =>
    cases i with
    | zero =>
      cases hi
      rw [List.set_cons_zero, log_cons, log_cons, Party.done_advance hu, List.append_assoc,
        List.append_assoc]
      exact List.perm_append_comm.append_left _
    | succ i =>
      rw [List.set_cons_succ, log_cons, log_cons, List.append_assoc]
      exact (ih hi).append_left _

end Party

/-- Counters and the streams that are counted at them. -/
structure Census where
  counters : Counters := {}
  parties : List Party
deriving DecidableEq, Repr

namespace Census

/-- No stream is counted yet. Each of them will end in the state and with the bytes given. -/
def fresh (ends : List (State × Nat)) : Census :=
  { parties := ends.map fun e => { state := e.1, bytes := e.2 } }

/-- One stream makes its next update, if there is one. -/
def step (m : Census) (i : Nat) : Census :=
  match m.parties[i]? with
  | none => m
  | some p =>
    match p.next? with
    | none => m
    | some u => { counters := m.counters.update u, parties := m.parties.set i p.advance }

/-- Streams make their updates in any order. -/
def run (m : Census) (schedule : List Nat) : Census := schedule.foldl step m

@[simp] theorem run_nil (m : Census) : m.run [] = m := rfl

@[simp] theorem run_cons (m : Census) (i : Nat) (schedule : List Nat) :
    m.run (i :: schedule) = (m.step i).run schedule := rfl

/-- A stream makes its next update, or there is none and nothing changes. -/
theorem step_cases (m : Census) (i : Nat) :
    (m.step i = m ∧ ∀ p, m.parties[i]? = some p → p.next? = none) ∨
      ∃ p u, m.parties[i]? = some p ∧ p.next? = some u ∧
        m.step i = { counters := m.counters.update u, parties := m.parties.set i p.advance } := by
  unfold step
  cases hi : m.parties[i]? with
  | none => exact .inl ⟨rfl, fun _ h => nomatch h⟩
  | some p =>
    dsimp only
    cases hu : p.next? with
    | none => exact .inl ⟨rfl, fun q hq => Option.some.inj hq ▸ hu⟩
    | some u => exact .inr ⟨p, u, rfl, hu, rfl⟩

/-! ## Counters and updates -/

/-- The counters tell of the updates that have been made. -/
structure Told (m : Census) : Prop where
  grown : Counters.Grown (Party.log m.parties) {} m.counters
  active : m.counters.TellsActive (Party.log m.parties)
  few : m.parties.length < UInt64.size

/-- Before a stream leaves, more of them have entered than have left. -/
theorem Told.leave {m : Census} (h : m.Told) {i : Nat} {p : Party} (hi : m.parties[i]? = some p)
    (hu : p.next? = some .leave) : m.counters.active ≠ 0 := by
  have hafter := (Party.log_balance (m.parties.set i p.advance)).perm (Party.log_step hi hu)
  have hle := hafter.leave_le
  have hactive := h.active
  intro h0
  rw [Counters.TellsActive, h0] at hactive
  simp at hle hactive
  omega

theorem told_fresh {ends : List (State × Nat)} (h : ends.length < UInt64.size) :
    (fresh ends).Told := by
  have hlog : Party.log (fresh ends).parties = [] := by
    rw [Party.log, List.flatMap_eq_nil_iff]
    rintro p hp
    obtain ⟨e, -, rfl⟩ := List.mem_map.1 hp
    rfl
  refine ⟨?_, ?_, ?_⟩
  · rw [hlog]
    exact Counters.grown_nil {}
  · rw [hlog]
    rfl
  · rwa [fresh, List.length_map]

theorem told_step {m : Census} (h : m.Told) (i : Nat) : (m.step i).Told := by
  obtain ⟨hm, -⟩ | ⟨p, u, hi, hu, hm⟩ := m.step_cases i
  · rwa [hm]
  · have hlog := Party.log_step hi hu
    have hafter := (Party.log_balance (m.parties.set i p.advance)).perm hlog
    have hstarted := Party.started_log (m.parties.set i p.advance)
    rw [List.length_set, hlog.count_eq] at hstarted
    rw [hm]
    refine ⟨(Counters.grown_update h.grown u).perm hlog.symm, ?_, ?_⟩
    · rw [Counters.TellsActive, hlog.count_eq, hlog.count_eq]
      refine Counters.active_update h.active hafter.leave_le ?_
      exact Nat.lt_of_le_of_lt (Nat.le_trans hafter.enter_le hstarted) h.few
    · rw [List.length_set]
      exact h.few

theorem told_run {m : Census} (h : m.Told) (schedule : List Nat) : (m.run schedule).Told := by
  induction schedule generalizing m with
  | nil => exact h
  | cons i schedule ih => exact ih (told_step h i)

/-- A number of updates that a word can count is what its counter says. -/
theorem toNat_counter {c : UInt64} {n : Nat} (h : c = 0 + UInt64.ofNat n)
    (hn : n < UInt64.size) : c.toNat = n := by
  rw [h, UInt64.zero_add, UInt64.toNat_ofNat_of_lt' hn]

/-- The counters that only grow, as numbers. -/
theorem Told.numbers {m : Census} (h : m.Told) :
    m.counters.started.toNat = (Party.log m.parties).count .started ∧
      m.counters.completed.toNat = (Party.log m.parties).count (.ended .completed) ∧
      m.counters.aborted.toNat = (Party.log m.parties).count (.ended .aborted) ∧
      m.counters.failed.toNat = (Party.log m.parties).countP Update.isFailure := by
  obtain ⟨hleave, henter, hended⟩ := Party.log_balance m.parties
  have hstarted := Party.started_log m.parties
  have hfew := h.few
  exact ⟨toNat_counter h.grown.started (by omega), toNat_counter h.grown.completed (by omega),
    toNat_counter h.grown.aborted (by omega), toNat_counter h.grown.failed (by omega)⟩

/-- A stream is active, or it has ended in one of three ways. -/
theorem Told.bounded {m : Census} (h : m.Told) :
    m.counters.active.toNat + m.counters.completed.toNat + m.counters.aborted.toNat +
      m.counters.failed.toNat ≤ m.counters.started.toNat := by
  have hactive := h.active
  have hended := (Party.log_balance m.parties).ended_le
  obtain ⟨hstarted, hcompleted, haborted, hfailed⟩ := h.numbers
  unfold Counters.TellsActive at hactive
  omega

/-! ## Between calls -/

/-- No call is half done. -/
def Quiet (m : Census) : Prop := ∀ p ∈ m.parties, p.Quiet

instance (m : Census) : Decidable m.Quiet :=
  inferInstanceAs (Decidable (∀ p ∈ m.parties, p.Quiet))

/-- What counters tell of streams between the calls. -/
structure Exact (m : Census) : Prop where
  active : m.counters.active.toNat = m.parties.countP Party.isActive
  completed : m.counters.completed.toNat = m.parties.countP (Party.hasEndedAs .completed)
  aborted : m.counters.aborted.toNat = m.parties.countP (Party.hasEndedAs .aborted)
  failed : m.counters.failed.toNat = m.parties.countP Party.hasFailed
  bytesRelayed : m.counters.bytesRelayed.toNat =
    ((m.parties.filter Party.hasEnded).map Party.bytes).sum % UInt64.size

theorem Told.exact {m : Census} (h : m.Told) (hq : m.Quiet) : m.Exact := by
  obtain ⟨-, hcompleted, haborted, hfailed⟩ := h.numbers
  have hactive := h.active
  rw [Counters.TellsActive, Party.active_log hq, Nat.add_comm] at hactive
  refine ⟨Nat.add_left_cancel hactive, ?_, ?_, ?_, ?_⟩
  · exact hcompleted.trans (Party.countP_log fun p hp => (hq p hp).endedAs .completed)
  · exact haborted.trans (Party.countP_log fun p hp => (hq p hp).endedAs .aborted)
  · exact hfailed.trans (Party.countP_log fun p hp => (hq p hp).failed)
  · rw [h.grown.bytesRelayed, Party.relayed_log hq, UInt64.zero_add, UInt64.toNat_ofNat']

/-! ## Any order -/

/-- A step takes one stream further. -/
theorem getElem?_step (m : Census) (i k : Nat) :
    (m.step i).parties[k]? = if i = k then m.parties[k]?.map Party.step else m.parties[k]? := by
  obtain ⟨hm, hnone⟩ | ⟨p, u, hi, hu, hm⟩ := m.step_cases i
  · rw [hm]
    split
    · subst i
      cases hk : m.parties[k]? with
      | none => rfl
      | some p => simp [Party.step, hnone p hk]
    · rfl
  · rw [hm, List.getElem?_set]
    split
    · subst i
      have hk : k < m.parties.length := (List.getElem?_eq_some_iff.1 hi).1
      rw [if_pos hk, hi, Option.map_some, Party.step, hu]
      rfl
    · rfl

/-- How far a stream has come depends on how often it has had its turn. -/
theorem getElem?_run (m : Census) (schedule : List Nat) (k : Nat) :
    (m.run schedule).parties[k]? = m.parties[k]?.map Party.step^[schedule.count k] := by
  induction schedule generalizing m with
  | nil => simp
  | cons i schedule ih => by_cases h : i = k <;> simp [ih, getElem?_step, h]

/-- The counters tell no more than how far every stream has come. -/
theorem Told.counters_eq {m n : Census} (hm : m.Told) (hn : n.Told) (h : m.parties = n.parties) :
    m.counters = n.counters := by
  have hgrown := hm.grown
  have hmactive := hm.active
  have hnactive := hn.active
  unfold Counters.TellsActive at hmactive hnactive
  rw [h] at hgrown hmactive
  exact hgrown.eq_of_active hn.grown (UInt64.toNat_inj.1 (by omega))

/-- What counters tell of streams at any moment. -/
structure Balanced (m : Census) : Prop where
  /-- The update of a stream that leaves is not lost. -/
  guarded (i : Nat) (p : Party) :
    m.parties[i]? = some p → p.next? = some .leave → m.counters.active ≠ 0
  /-- A stream is active, or it has ended in one of three ways. -/
  bounded : m.counters.active.toNat + m.counters.completed.toNat + m.counters.aborted.toNat +
    m.counters.failed.toNat ≤ m.counters.started.toNat
  exact : m.Quiet → m.Exact

/-- **Streams counted in any order.** The counters are balanced at every moment, exact between the
calls, and do not depend on the order of the updates. -/
theorem run_balanced (ends : List (State × Nat)) (h : ends.length < UInt64.size)
    (schedule : List Nat) :
    ((fresh ends).run schedule).Balanced ∧
      ∀ other : List Nat, other.Perm schedule →
        (fresh ends).run other = (fresh ends).run schedule := by
  have htold := told_run (told_fresh h)
  refine ⟨⟨fun i p => (htold schedule).leave, (htold schedule).bounded, (htold schedule).exact⟩, ?_⟩
  intro other hperm
  have hparties : ((fresh ends).run other).parties = ((fresh ends).run schedule).parties := by
    refine List.ext_getElem? fun k => ?_
    rw [getElem?_run, getElem?_run, hperm.count_eq]
  have hcounters := (htold other).counters_eq (htold schedule) hparties
  cases hm : (fresh ends).run other
  cases hn : (fresh ends).run schedule
  simp_all

/-- Two of three streams have ended, and the updates of all have fallen between each other's. -/
theorem run_balanced_three :
    ([(.completed, 100), (.aborted, 20), (.failed, 3)] : List (State × Nat)).length <
        UInt64.size ∧
      let m := (fresh [(.completed, 100), (.aborted, 20), (.failed, 3)]).run
        [0, 1, 1, 0, 0, 2, 1, 0, 2, 1, 0, 1]
      m.Balanced ∧ m.Quiet ∧ m.counters =
        { started := 3, active := 1, completed := 1, aborted := 1, bytesRelayed := 120 } :=
  ⟨by decide, (run_balanced _ (by decide) _).1, by decide, by decide⟩

end Census

end ToneRelay.Stream
