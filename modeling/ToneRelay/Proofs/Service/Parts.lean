import ToneRelay.Proofs.Service.Prompt
import ToneRelay.Proofs.Service.Reconciliation

/-!
# One exchange among many

Many exchanges share the counters and the history, and each of them runs as if it were alone:
`run_of_absent` takes all that happens apart, into one run for each exchange with the effects that
it has had. The history has been called for the reports among these effects and for the questions in
between (`history_run`, `reports_calls`).
-/

namespace ToneRelay.Service.Traffic

open ToneRelay.Stream (History Report)

variable {t : Traffic}

/-! ## Effects -/

/-- The effects that a move has in the exchange `i`. -/
def effectsIn (t : Traffic) (i : Nat) : Move → List Effect
  | .exchange j m => if j = i then t.effects (.exchange j m) else []
  | _ => []

/-- The effects that moves have in the exchange `i`, in order. -/
def logIn (t : Traffic) (i : Nat) : List Move → List Effect
  | [] => []
  | m :: ms => t.effectsIn i m ++ (t.step m).1.logIn i ms

theorem effectsIn_sublist (t : Traffic) (i : Nat) (m : Move) :
    (t.effectsIn i m).Sublist (t.effects m) := by
  cases m with
  | exchange j m =>
    show (if j = i then t.effects (.exchange j m) else []).Sublist _
    split
    · exact .refl _
    · exact List.nil_sublist _
  | arrive x => exact .refl _
  | lookup id => exact .refl _

/-- The effects of one exchange are among all effects, in the same order. -/
theorem logIn_sublist (t : Traffic) (i : Nat) (ms : List Move) :
    (t.logIn i ms).Sublist (t.log ms) := by
  induction ms generalizing t with
  | nil => exact .refl _
  | cons m ms ih => exact (t.effectsIn_sublist i m).append (ih _)

/-! ## Moves -/

/-- The move that is made in the exchange `i`, if there is one. -/
def moveIn? (t : Traffic) (i : Nat) : Move → Option Exchange.Move
  | .exchange j m => if j = i ∧ i < t.exchanges.length then some m else none
  | _ => none

/-- The moves that are made in the exchange `i`, in order. -/
def movesIn (t : Traffic) (i : Nat) : List Move → List Exchange.Move
  | [] => []
  | m :: ms => (t.moveIn? i m).toList ++ (t.step m).1.movesIn i ms

/-- Another exchange, a new one or a question is no move of the exchange `i`. -/
theorem step_other {i : Nat} {x : Exchange} (hi : t.exchanges[i]? = some x) {m : Move}
    (hm : ∀ own, m ≠ .exchange i own) :
    (t.step m).1.exchanges[i]? = some x ∧ t.moveIn? i m = none ∧ t.effectsIn i m = [] := by
  cases m with
  | lookup id => exact ⟨hi, rfl, rfl⟩
  | arrive y =>
    refine ⟨?_, rfl, rfl⟩
    rw [step_arrive, List.getElem?_append_left (List.getElem?_eq_some_iff.1 hi).1, hi]
  | exchange j own =>
    have hij : j ≠ i := fun h => hm own (h ▸ rfl)
    refine ⟨?_, if_neg fun h => hij h.1, if_neg hij⟩
    cases hj : t.exchanges[j]? with
    | none => rwa [step_missing hj]
    | some y => rw [step_exchange hj, List.getElem?_set_ne hij, hi]

theorem step_own {i : Nat} {x : Exchange} (hi : t.exchanges[i]? = some x) (own : Exchange.Move) :
    (t.step (.exchange i own)).1.exchanges[i]? = some (x.step own).1 ∧
      t.moveIn? i (.exchange i own) = some own ∧
        t.effectsIn i (.exchange i own) = (x.step own).2.toList := by
  have hlt : i < t.exchanges.length := (List.getElem?_eq_some_iff.1 hi).1
  refine ⟨?_, if_pos ⟨rfl, hlt⟩, (if_pos rfl).trans (effects_exchange hi own)⟩
  rw [step_exchange hi, List.getElem?_set_self hlt]

/-- **One exchange among many** runs on its own. -/
theorem run_part {i : Nat} {x : Exchange} (hi : t.exchanges[i]? = some x) (ms : List Move) :
    (t.run ms).exchanges[i]? = some (x.run (t.movesIn i ms)).1 ∧
      t.logIn i ms = (x.run (t.movesIn i ms)).2 := by
  induction ms generalizing t x with
  | nil => exact ⟨hi, rfl⟩
  | cons m ms ih =>
    unfold movesIn logIn
    rw [run_cons]
    by_cases hm : ∃ own, m = .exchange i own
    · obtain ⟨own, rfl⟩ := hm
      obtain ⟨hstep, hmove, heffects⟩ := step_own hi own
      obtain ⟨hrun, hlog⟩ := ih hstep
      rw [hmove, heffects, Option.toList_some, List.singleton_append, Exchange.run_cons]
      exact ⟨hrun, congrArg ((x.step own).2.toList ++ ·) hlog⟩
    · obtain ⟨hstep, hmove, heffects⟩ := step_other hi fun own h => hm ⟨own, h⟩
      rw [hmove, heffects]
      exact ih hstep

/-- An exchange that is not there yet has made no move. -/
theorem step_absent {i : Nat} (hi : t.exchanges[i]? = none) (m : Move) :
    t.moveIn? i m = none ∧ t.effectsIn i m = [] ∧
      ((t.step m).1.exchanges[i]? = none ∨
        ∃ x : Exchange, x.phase = .arrived ∧ (t.step m).1.exchanges[i]? = some x) := by
  have hge : ¬ i < t.exchanges.length := Nat.not_lt.2 (List.getElem?_eq_none_iff.1 hi)
  cases m with
  | lookup id => exact ⟨rfl, rfl, .inl hi⟩
  | arrive y =>
    refine ⟨rfl, rfl, ?_⟩
    cases h : (t.step (.arrive y)).1.exchanges[i]? with
    | none => exact .inl rfl
    | some x =>
      rw [step_arrive, List.getElem?_append_right (Nat.le_of_not_lt hge),
        List.getElem?_singleton] at h
      split at h
      · exact .inr ⟨x, Option.some.inj h ▸ rfl, rfl⟩
      · cases h
  | exchange j own =>
    refine ⟨if_neg fun h => hge h.2, ?_, .inl ?_⟩
    · show (if j = i then t.effects (.exchange j own) else []) = []
      split
      · next h => exact effects_missing (h ▸ hi) own
      · rfl
    · cases hj : t.exchanges[j]? with
      | none => rwa [step_missing hj]
      | some y =>
        rw [step_exchange hj, List.getElem?_eq_none_iff, List.length_set]
        exact Nat.le_of_not_lt hge

/-- **All that happens, taken apart.** An exchange has run on its own since it arrived. -/
theorem run_of_absent {i : Nat} {x : Exchange} {ms : List Move} (h : t.exchanges[i]? = none)
    (hi : (t.run ms).exchanges[i]? = some x) :
    { x with phase := .arrived }.run (t.movesIn i ms) = (x, t.logIn i ms) := by
  induction ms generalizing t with
  | nil => cases h.symm.trans hi
  | cons m ms ih =>
    unfold movesIn logIn
    obtain ⟨hmove, heffects, hnone | ⟨y, hy, hsome⟩⟩ := step_absent h m
    all_goals rw [hmove, heffects, Option.toList_none, List.nil_append, List.nil_append]
    · exact ih hnone hi
    · obtain ⟨hrun, hlog⟩ := run_part hsome ms
      obtain rfl : ((y.run _).1 = x) := Option.some.inj (hrun.symm.trans hi)
      obtain ⟨p, hp⟩ := y.run_eq ((t.step m).1.movesIn i ms)
      have hback : { (y.run ((t.step m).1.movesIn i ms)).1 with phase := .arrived } = y := by
        rw [hp, ← hy]
      rw [hback, hlog]

/-- An exchange has run on its own since it arrived. -/
theorem leads_fresh {n : Nat} {ms : List Move} {i : Nat} {x : Exchange}
    (hi : ((fresh n).run ms).exchanges[i]? = some x) :
    ∃ x₀ : Exchange, x₀.phase = .arrived ∧ x₀.Leads x ((fresh n).logIn i ms) :=
  ⟨_, rfl, _, run_of_absent rfl hi⟩

/-! ## Calls of the history -/

/-- The calls of the history in a move. -/
def callsOf (t : Traffic) : Move → List History.Call
  | .lookup id => [.get id]
  | m => (reports (t.effects m)).map .record

/-- The calls of the history, in order. -/
def calls (t : Traffic) : List Move → List History.Call
  | [] => []
  | m :: ms => t.callsOf m ++ (t.step m).1.calls ms

theorem history_applyAll (s : Shared) (es : List Effect) :
    (s.applyAll es).history = s.history.run ((reports es).map .record) := by
  induction es generalizing s with
  | nil => rfl
  | cons e es ih =>
    rw [Shared.applyAll_cons, ih]
    cases e <;> rfl

theorem history_step (t : Traffic) (m : Move) :
    (t.step m).1.shared.history = t.shared.history.run (t.callsOf m) := by
  cases m with
  | lookup id => rfl
  | arrive x => rfl
  | exchange i m =>
    show _ = t.shared.history.run ((reports (t.effects (.exchange i m))).map .record)
    cases hi : t.exchanges[i]? with
    | none => simp [step_missing hi, effects_missing hi]
    | some x => simp [step_exchange hi, effects_exchange hi, history_applyAll]

/-- **The history** is what its calls have made of it. -/
theorem history_run (t : Traffic) (ms : List Move) :
    (t.run ms).shared.history = t.shared.history.run (t.calls ms) := by
  induction ms generalizing t with
  | nil => rfl
  | cons m ms ih => simp [calls, ih, history_step]

/-- The report that a call records. -/
def recordedBy? : History.Call → Option Report
  | .record r => some r
  | .get _ => none

/-- The reports that the history has got are those among the effects, in the same order. -/
theorem reports_calls (t : Traffic) (ms : List Move) :
    (t.calls ms).filterMap recordedBy? = reports (t.log ms) := by
  have hmap : ∀ rs : List Report, (rs.map .record).filterMap recordedBy? = rs := by
    intro rs
    rw [List.filterMap_map]
    exact List.filterMap_some
  have hstep : ∀ (t : Traffic) (m : Move),
      (t.callsOf m).filterMap recordedBy? = reports (t.effects m) := by
    intro t m
    cases m with
    | lookup id => rfl
    | arrive x => rfl
    | exchange i m => exact hmap _
  induction ms generalizing t with
  | nil => rfl
  | cons m ms ih =>
    unfold calls log
    rw [List.filterMap_append, hstep, ih, reports_append]

end ToneRelay.Service.Traffic
