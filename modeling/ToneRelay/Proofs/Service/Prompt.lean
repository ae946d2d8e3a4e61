import ToneRelay.Service.App

/-!
# The prompt schedule

The service carries an exchange on in one particular order: everyone does at once what it can, and
time passes only when nobody can. `leads_carry`: this is one of the orders in which the steps of the
handler, the relay, the generator and the listener can come, so that what holds after every run of
an exchange holds of an exchange that the service has carried on.
-/

namespace ToneRelay.Generator.Supervised

/-- The generator, the reader of diagnostics and time go on, and the owner does nothing. -/
inductive Stirs : Supervised → Supervised → Prop
  | refl (g : Supervised) : Stirs g g
  | act {g k : Supervised} (h : Stirs g.act k) : Stirs g k
  | drain {g k : Supervised} (h : Stirs g.drainOnce k) : Stirs g k
  | pass {g k : Supervised} (nanos : Nat) (h : Stirs { g with now := g.now + nanos } k) : Stirs g k

theorem stirs_workFor (fuel : Nat) (g : Supervised) : g.Stirs (g.workFor fuel) := by
  induction fuel generalizing g with
  | zero => exact .refl g
  | succ fuel ih =>
    unfold workFor
    split
    · next p hact =>
      have hstep : g.act = { g with process := p } := by
        unfold act
        rw [hact]
        rfl
      exact .act (hstep ▸ ih _)
    · split
      · exact .drain (ih _)
      · exact .refl g

theorem stirs_work (g : Supervised) : g.Stirs g.work := stirs_workFor _ g

/-- Time never goes back. -/
theorem le_nextTime {g : Supervised} {time : Nat} (h : g.nextTime = some time) : g.now ≤ time := by
  have hwake : ∀ t, g.process.wake g.now = some t → g.now ≤ t := by
    intro t ht
    unfold Process.wake at ht
    split at ht
    · next hlt => exact Option.some.inj ht ▸ Nat.le_of_lt hlt.2
    · cases ht
  have hdeadline : ∀ t, (g.stage.bind Stage.deadline?).filter (g.now < ·) = some t → g.now ≤ t := by
    intro t ht
    exact Nat.le_of_lt (by simpa using (Option.filter_eq_some_iff.1 ht).2)
  unfold nextTime at h
  dsimp only at h
  split at h
  · next a b ha hb => exact Option.some.inj h ▸ Nat.le_min.2 ⟨hwake a ha, hdeadline b hb⟩
  · next a ha _ => exact Option.some.inj h ▸ hwake a ha
  · exact hdeadline time h

theorem stirs_nextTime {g : Supervised} {time : Nat} (h : g.nextTime = some time) :
    g.Stirs { g with now := time } := by
  have hpass : g.now + (time - g.now) = time := Nat.add_sub_cancel' (le_nextTime h)
  exact .pass (time - g.now) (by rw [hpass]; exact .refl _)

end ToneRelay.Generator.Supervised

namespace ToneRelay.Service.Exchange

open Generator (Supervised)
open ToneRelay.Stream (Moment Transfer)
open ToneRelay.Stream.Transfer (Listener)

variable {x y : Exchange}

/-! ## What a run leads to -/

/-- An exchange becomes another one in some run with given effects. -/
def Leads (x y : Exchange) (es : List Effect) : Prop := ∃ ms, x.run ms = (y, es)

theorem Leads.refl (x : Exchange) : x.Leads x [] := ⟨[], rfl⟩

theorem leads_cons {m : Move} {es : List Effect} (h : (x.step m).1.Leads y es) :
    x.Leads y ((x.step m).2.toList ++ es) := by
  obtain ⟨ms, hms⟩ := h
  exact ⟨m :: ms, by rw [run_cons, hms]⟩

/-- A step without an effect. -/
theorem leads_quiet {m : Move} {es : List Effect} (h : (x.step m).1.Leads y es)
    (hnone : (x.step m).2 = none) : x.Leads y es := by
  have hcons := leads_cons h
  rwa [hnone] at hcons

theorem Leads.trans {z : Exchange} {es fs : List Effect} (h : x.Leads y es) (k : y.Leads z fs) :
    x.Leads z (es ++ fs) := by
  obtain ⟨ms, hms⟩ := h
  induction ms generalizing x es with
  | nil =>
    obtain ⟨rfl, rfl⟩ := Prod.mk.inj hms
    exact k
  | cons m ms ih =>
    obtain ⟨hlast, heffects⟩ := Prod.mk.inj hms
    rw [← heffects, List.append_assoc]
    exact leads_cons (ih (Prod.ext hlast rfl))

theorem Leads.quietly {z : Exchange} {es : List Effect} (h : x.Leads y []) (k : y.Leads z es) :
    x.Leads z es :=
  h.trans k

/-! ## The generator and the listener -/

/-- Without a generator there is nothing to change. -/
theorem mapSource_of_none (h : x.source? = none) (f : Supervised → Supervised) :
    x.mapSource f = x :=
  (mapSource_congr fun _ hg => nomatch h.symm.trans hg).trans x.mapSource_same

theorem mapSource_const {g : Supervised} (hg : x.source? = some g)
    (f : Supervised → Supervised) : x.mapSource f = x.mapSource fun _ => f g :=
  mapSource_congr fun _ hg' => congrArg f (Option.some.inj (hg'.symm.trans hg))

theorem leads_stirs {g k : Supervised} (h : g.Stirs k) (hg : x.source? = some g) :
    x.Leads (x.mapSource fun _ => k) [] := by
  have hfirst : ∀ {x : Exchange} {g : Supervised} {m : Move} {f : Supervised → Supervised},
      x.source? = some g → (x.step m).1 = x.mapSource f → (x.step m).2 = none →
        (∀ {y : Exchange}, y.source? = some (f g) → y.Leads (y.mapSource fun _ => k) []) →
          x.Leads (x.mapSource fun _ => k) [] := by
    intro x g m f hg hstep hnone hrest
    refine leads_quiet (m := m) ?_ hnone
    have hsource : (x.mapSource f).source? = some (f g) := by simp [hg]
    have hall := hrest hsource
    rwa [mapSource_mapSource, ← hstep] at hall
  induction h generalizing x with
  | refl g =>
    rw [← mapSource_const hg fun g => g, mapSource_same]
    exact .refl x
  | act h ih => exact hfirst (m := .act) hg rfl rfl (ih · hfirst)
  | drain h ih => exact hfirst (m := .drain) hg rfl rfl (ih · hfirst)
  | pass nanos h ih => exact hfirst (m := .pass nanos) hg rfl rfl (ih · hfirst)

/-- What the generator, the reader of diagnostics and time do in a number of steps. -/
theorem leads_mapSource {f : Supervised → Supervised}
    (hf : ∀ g, x.source? = some g → g.Stirs (f g)) :
    x.Leads (x.mapSource f) [] := by
  cases hg : x.source? with
  | none =>
    rw [mapSource_of_none hg]
    exact .refl x
  | some g =>
    rw [mapSource_const hg f]
    exact leads_stirs (hf g hg) hg

theorem mapTransfer_const {t : Transfer} (ht : x.transfer? = some t) (f : Transfer → Transfer) :
    x.mapTransfer f = x.mapTransfer fun _ => f t :=
  mapTransfer_congr fun _ ht' => congrArg f (Option.some.inj (ht'.symm.trans ht))

/-- The listener takes what is there, and perhaps goes away. -/
theorem leads_listen (x : Exchange) (l : Listener) : x.Leads (x.listen l).1 [] := by
  unfold listen
  cases ht : x.transfer? with
  | none => exact .refl x
  | some t =>
    have htake : x.Leads (x.mapTransfer Transfer.take) [] :=
      leads_quiet (m := .take) (.refl _) rfl
    have hleave : x.Leads (x.mapTransfer Transfer.leave) [] :=
      leads_quiet (m := .leave) (.refl _) rfl
    have hboth : x.Leads (x.mapTransfer fun t => t.take.leave) [] := by
      rw [← x.mapTransfer_mapTransfer Transfer.take Transfer.leave]
      exact leads_quiet (m := .take) (leads_quiet (m := .leave) (.refl _) rfl) rfl
    show x.Leads (x.mapTransfer fun _ => (t.listen l).1) []
    unfold Transfer.listen
    split
    · rw [← mapTransfer_const ht Transfer.leave]
      exact hleave
    · split
      · dsimp only
        split
        · rw [← mapTransfer_const ht fun t => t.take.leave]
          exact hboth
        · rw [← mapTransfer_const ht Transfer.take]
          exact htake
      · rw [← mapTransfer_const ht fun t => t, mapTransfer_same]
        exact .refl x

/-! ## Carrying on -/

theorem leads_carryFor (fuel : Nat) (x : Exchange) (now : Moment) (l : Listener) :
    x.Leads (x.carryFor fuel now l).1 (x.carryFor fuel now l).2 := by
  induction fuel generalizing x l with
  | zero => exact .refl x
  | succ fuel ih =>
    have hwork : x.Leads (x.mapSource (·.work)) [] := leads_mapSource fun g _ => g.stirs_work
    refine hwork.quietly ?_
    unfold carryFor
    dsimp only
    generalize x.mapSource (·.work) = x
    split
    · split
      · next time htime =>
        split
        · exact .refl x
        · refine (leads_mapSource ?_).quietly (ih _ _)
          intro g hg
          rw [hg] at htime
          exact Supervised.stirs_nextTime htime
      · exact .refl x
    · refine leads_cons (m := .proceed now) ?_
      exact (leads_listen _ _).quietly (ih _ _)

/-- **The prompt schedule** is one of the schedules. -/
theorem leads_carry (x : Exchange) (now : Moment) (l : Listener) :
    x.Leads (x.carry now l).1 (x.carry now l).2 := by
  unfold carry
  exact (leads_carryFor stepsToLaunch x now l).trans (leads_carryFor _ _ now l)

end ToneRelay.Service.Exchange
