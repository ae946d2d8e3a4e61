import ToneRelay.Proofs.Service.Fidelity
import ToneRelay.Proofs.Stream.Tally
import ToneRelay.Service.Shared

/-!
# Accounts

What the effects of one exchange amount to. `Balanced` is the account of a list of effects; it does
not depend on their order and is additive, so that it can be given for many exchanges at once.

1. An exchange that is at rest between two events has a balanced account (`balanced_of_kept`).
2. In every phase, the stream has entered before it has left (`enters_of_kept`), and its report has
   been recorded when it has ended, once (`reports_of_kept`).
3. The report goes by the name of the exchange (`named_step`, `id_recorded`).
-/

namespace ToneRelay.Service

open ToneRelay.Stream (Moment Occurrence Report Session Transfer Update)

/-! ## Effects -/

namespace Effect

/-- The update that an effect makes. -/
def update? : Effect → Option Update
  | .count u => some u
  | _ => none

def isLaunch : Effect → Bool
  | .launch => true
  | _ => false

end Effect

/-- The updates among effects, in order. -/
def updates (es : List Effect) : List Update := es.filterMap Effect.update?

@[simp] theorem updates_nil : updates [] = [] := rfl

@[simp] theorem updates_append (es fs : List Effect) :
    updates (es ++ fs) = updates es ++ updates fs :=
  List.filterMap_append

@[simp] theorem reports_nil : reports [] = [] := rfl

@[simp] theorem reports_append (es fs : List Effect) :
    reports (es ++ fs) = reports es ++ reports fs :=
  List.filterMap_append

/-- The counters make the update of an effect. -/
theorem counters_apply (s : Shared) (e : Effect) :
    (s.apply e).counters = s.counters.run (updates [e]) := by
  cases e <;> rfl

/-- What effects amount to, for `n` requests with `a` active streams and the reports `rs` of those
that have ended. -/
structure Balanced (n a : Nat) (rs : List Report) (es : List Effect) : Prop where
  requests : (updates es).count .request = n
  answers : n = (updates es).count .rejected + (updates es).count .spawnFailure +
    (updates es).count .started
  launches : es.countP Effect.isLaunch + (updates es).count .rejected = n
  started : (updates es).count .started = a + rs.length
  ended : (updates es).count (.ended .completed) + (updates es).count (.ended .aborted) +
    (updates es).countP Update.isFailure = rs.length
  bytes : ((updates es).map Update.bytes).sum = (rs.map (·.bytes)).sum
  active : (updates es).count .leave + a = (updates es).count .enter

theorem balanced_nil : Balanced 0 0 [] [] := ⟨rfl, rfl, rfl, rfl, rfl, rfl, rfl⟩

theorem Balanced.append {n m a b : Nat} {rs ss : List Report} {es fs : List Effect}
    (h : Balanced n a rs es) (k : Balanced m b ss fs) :
    Balanced (n + m) (a + b) (rs ++ ss) (es ++ fs) := by
  obtain ⟨h₁, h₂, h₃, h₄, h₅, h₆, h₇⟩ := h
  obtain ⟨k₁, k₂, k₃, k₄, k₅, k₆, k₇⟩ := k
  constructor <;>
    simp only [updates_append, List.count_append, List.countP_append, List.length_append,
      List.map_append, List.sum_append] <;>
    omega

/-- The order of effects does not matter. -/
theorem Balanced.perm {n a : Nat} {rs : List Report} {es fs : List Effect}
    (h : Balanced n a rs es) (hp : fs.Perm es) : Balanced n a rs fs := by
  have hu : (updates fs).Perm (updates es) := hp.filterMap _
  have hbytes := (hu.map Update.bytes).sum_nat
  obtain ⟨h₁, h₂, h₃, h₄, h₅, h₆, h₇⟩ := h
  constructor <;> simp only [hu.count_eq, hu.countP_eq, hp.countP_eq, hbytes] <;> assumption

/-- A report is no update. -/
theorem Balanced.record {n a : Nat} {rs : List Report} {es : List Effect}
    (h : Balanced n a rs es) (r : Report) : Balanced n a rs (es ++ [.record r]) := by
  have hr : Balanced 0 0 [] [.record r] := ⟨rfl, rfl, rfl, rfl, rfl, rfl, rfl⟩
  have happ := h.append hr
  rwa [List.append_nil] at happ

namespace Exchange

/-! ## The account of one exchange -/

/-- No handler is at work, and no event is half counted. -/
def isQuiet (x : Exchange) : Bool :=
  match x.phase with
  | .refused _ _ | .relaying _ _ | .closing _ _ => true
  | .settling us s _ => us = [] ∨ us = Occurrence.updates (.finished s.state s.bytes)
  | .recording _ _ | .ending _ _ | .over _ _ => true
  | _ => false

/-- The report of a stream whose end has been counted. -/
def counted? (x : Exchange) : Option Report :=
  match x.phase with
  | .settling [] s _ | .recording s _ | .ending s _ | .over s _ => some s.report
  | _ => none

/-- The report of a stream that has been recorded. -/
def recorded? (x : Exchange) : Option Report :=
  match x.phase with
  | .ending s _ | .over s _ => some s.report
  | _ => none

/-- The end of a stream has been counted, and its report has not been recorded. -/
def isReporting (x : Exchange) : Bool := x.counted?.isSome && x.recorded?.isNone

/-- A stream has started, and its end has not been counted. -/
def isActive (x : Exchange) : Bool := x.transfer?.isSome && x.counted?.isNone

variable {x : Exchange} {b : Stream.Books} {es : List Effect}

theorem counted?_of_recorded? {r : Report} (h : x.recorded? = some r) : x.counted? = some r := by
  unfold recorded? at h
  unfold counted?
  split at h
  · next hphase => rw [hphase, ← h]
  · next hphase => rw [hphase, ← h]
  · cases h

theorem recorded?_eq_counted? (h : x.isReporting = false) : x.recorded? = x.counted? := by
  cases hr : x.recorded? with
  | some r => exact (counted?_of_recorded? hr).symm
  | none =>
    unfold isReporting at h
    rw [hr] at h
    cases hc : x.counted? with
    | none => rfl
    | some r => rw [hc] at h; cases h

theorem Concluded.terminal {s : Session} {t : Transfer} (h : Concluded s t) :
    s.state = .completed ∨ s.state = .aborted ∨ s.state = .failed := by
  obtain ⟨e, s₀, now, -, hs₀, hperform⟩ := h
  rw [perform_closingCall_eq hs₀ hperform]
  have htarget := target_closingCall e t.source.handle.exitStatus
  simpa [verdict, Stream.State.next] using htarget

/-- The end of a stream is counted once, with its bytes. -/
theorem balanced_settled {s : Session} {t : Transfer} (h : Concluded s t) :
    Balanced 1 0 [s.report] (opened ++ settled s) := by
  have hupdates : updates (opened ++ settled s) =
      [.request, .started, .enter, .leave, .relayed s.bytes, .ended s.state] := rfl
  have hlaunch : (opened ++ settled s).countP Effect.isLaunch = 1 := rfl
  rcases h.terminal with hs | hs | hs <;> rw [hs] at hupdates <;> constructor <;>
    simp [hupdates, hlaunch, Update.isFailure, Update.bytes, Session.report]

theorem balanced_opened : Balanced 1 1 [] opened := by
  constructor <;> rfl

/-- **The account of one exchange.** -/
theorem balanced_of_kept (h : x.Kept b es) (hq : x.isQuiet = true) :
    Balanced 1 (if x.isActive then 1 else 0) x.counted?.toList es := by
  unfold Kept at h
  unfold isQuiet at hq
  unfold isActive transfer? counted?
  cases hphase : x.phase with
  | refused why g =>
    rw [hphase] at h
    rcases h with rfl | rfl <;> constructor <;> rfl
  | relaying s t =>
    rw [hphase] at h
    rw [h.1]
    exact balanced_opened
  | closing s t =>
    rw [hphase] at h
    exact h.elim
  | settling us s t =>
    rw [hphase] at h hq
    obtain ⟨hes, hs, -⟩ := h
    rcases of_decide_eq_true hq with rfl | rfl
    · rw [List.map_nil, List.append_nil] at hes
      rw [hes]
      exact balanced_settled hs
    · have hopened : es = opened := List.append_cancel_right hes
      rw [hopened]
      exact balanced_opened
  | recording s t =>
    rw [hphase] at h
    rw [h.1]
    exact balanced_settled h.2.1
  | ending s t =>
    rw [hphase] at h
    rw [h.1]
    exact (balanced_settled h.2.1).record _
  | «over» s t =>
    rw [hphase] at h
    rw [h.1]
    exact (balanced_settled h.2.1).record _
  | _ =>
    rw [hphase] at hq
    cases hq

/-- The effects of an exchange up to its report: those of a stream, as far as it has come, or those
of a refusal. -/
def Trail (es : List Effect) : Prop :=
  (∃ s, es <+: opened ++ settled s) ∨ es = [.count .request, .count .rejected] ∨
    es = [.count .request, .launch, .count .spawnFailure]

theorem trail_of_opened (h : es <+: opened) : Trail es :=
  .inl ⟨.receive (.ofNat 0) ⟨""⟩, h.trans (List.prefix_append _ _)⟩

/-- A session is reported after all else, and no exchange before. -/
theorem trail_of_kept (h : x.Kept b es) :
    ∃ fs, Trail fs ∧ es = fs ++ x.recorded?.toList.map .record := by
  have hunrecorded : x.recorded? = none → Trail es →
      ∃ fs, Trail fs ∧ es = fs ++ x.recorded?.toList.map .record := by
    intro hnone htrail
    refine ⟨es, htrail, ?_⟩
    rw [hnone]
    exact (List.append_nil es).symm
  have hbefore : ∀ fs gs, fs ++ gs = opened → Trail fs :=
    fun fs gs heq => trail_of_opened ⟨gs, heq⟩
  unfold Kept at h
  unfold recorded? at hunrecorded ⊢
  cases hphase : x.phase with
  | arrived =>
    rw [hphase] at h hunrecorded
    exact hunrecorded rfl (h.2 ▸ hbefore [] _ rfl)
  | counted =>
    rw [hphase] at h hunrecorded
    exact hunrecorded rfl (h.2 ▸ hbefore [_] _ rfl)
  | refusing u why g =>
    rw [hphase] at h hunrecorded
    rcases h with ⟨-, hes⟩ | ⟨-, hes⟩
    · exact hunrecorded rfl (hes ▸ hbefore [_] _ rfl)
    · exact hunrecorded rfl (hes ▸ hbefore [_, _] _ rfl)
  | refused why g =>
    rw [hphase] at h hunrecorded
    exact hunrecorded rfl (.inr h)
  | launching s p =>
    rw [hphase] at h hunrecorded
    exact hunrecorded rfl (h.2.1 ▸ hbefore [_] _ rfl)
  | awaiting s g =>
    rw [hphase] at h hunrecorded
    exact hunrecorded rfl (h.2.2.1 ▸ hbefore [_, _] _ rfl)
  | clearing g why =>
    rw [hphase] at h hunrecorded
    exact hunrecorded rfl (h ▸ hbefore [_, _] _ rfl)
  | opening us s t =>
    rw [hphase] at h hunrecorded
    exact hunrecorded rfl (hbefore _ _ h.1)
  | relaying s t =>
    rw [hphase] at h hunrecorded
    exact hunrecorded rfl (h.1 ▸ hbefore _ [] rfl)
  | closing s t =>
    rw [hphase] at h
    exact h.elim
  | settling us s t =>
    rw [hphase] at h hunrecorded
    exact hunrecorded rfl (.inl ⟨s, _, h.1⟩)
  | recording s t =>
    rw [hphase] at h hunrecorded
    exact hunrecorded rfl (.inl ⟨s, [], by rw [h.1, List.append_nil]⟩)
  | ending s t =>
    rw [hphase] at h
    exact ⟨_, .inl ⟨s, [], List.append_nil _⟩, h.1⟩
  | «over» s t =>
    rw [hphase] at h
    exact ⟨_, .inl ⟨s, [], List.append_nil _⟩, h.1⟩

/-- A stream enters once at most, and it does before it leaves. -/
def Enters (es : List Effect) : Prop :=
  (updates es).count .leave ≤ (updates es).count .enter ∧ (updates es).count .enter ≤ 1

theorem Trail.enters (h : Trail es) : Enters es := by
  rcases h with ⟨s, rest, h⟩ | rfl | rfl
  · have hall : updates es ++ updates rest =
        [.request, .started, .enter, .leave, .relayed s.bytes, .ended s.state] := by
      rw [← updates_append, h]
      rfl
    unfold Enters
    rw [List.prefix_iff_eq_take.1 ⟨_, hall⟩]
    -- the front parts of six updates, one by one
    rcases (updates es).length with _ | _ | _ | _ | _ | _ | n <;> simp
  · exact ⟨Nat.le_refl _, by decide⟩
  · exact ⟨Nat.le_refl _, by decide⟩

theorem Trail.reports (h : Trail es) : reports es = [] := by
  rcases h with ⟨s, rest, h⟩ | rfl | rfl
  · have hall := congrArg Service.reports h
    rw [reports_append] at hall
    exact (List.append_eq_nil_iff.1 hall).1
  · rfl
  · rfl

theorem enters_of_kept (h : x.Kept b es) : Enters es := by
  obtain ⟨fs, htrail, rfl⟩ := trail_of_kept h
  have hrecord : updates (x.recorded?.toList.map .record) = [] := by
    cases x.recorded? <;> rfl
  unfold Enters
  rw [updates_append, hrecord, List.append_nil]
  exact htrail.enters

/-- The report of a session is recorded once, at its end. -/
theorem reports_of_kept (h : x.Kept b es) : reports es = x.recorded?.toList := by
  obtain ⟨fs, htrail, rfl⟩ := trail_of_kept h
  rw [reports_append, htrail.reports]
  cases x.recorded? <;> rfl

/-! ## Names -/

/-- The session of an exchange that has been admitted. -/
def session? (x : Exchange) : Option Session :=
  match x.phase with
  | .launching s _ | .awaiting s _ | .opening _ s _ | .relaying s _ | .closing s _ => some s
  | .settling _ s _ | .recording s _ | .ending s _ | .over s _ => some s
  | _ => none

/-- The session goes by the name of the exchange. -/
def Named (x : Exchange) : Prop := ∀ s, x.session? = some s → s.id = x.id

theorem named_of_none (h : x.session? = none) : x.Named := fun _ hs => nomatch h.symm.trans hs

theorem named_of_some {s : Session} (h : x.session? = some s) (hs : s.id = x.id) : x.Named :=
  fun _ hs' => Option.some.inj (h.symm.trans hs') ▸ hs

theorem id_advance {s t : Session} {target : Stream.State} {now : Moment}
    (h : s.advance target now = .ok t) : t.id = s.id := by
  rw [(Session.advance_eq_ok_iff.1 h).2]

theorem id_perform (s : Session) (now : Moment) (c : Session.Call) :
    (s.perform now c).1.id = s.id := by
  have hmap : ∀ (target : Stream.State) (f : Session → Session), (∀ s, (f s).id = s.id) →
      ∀ t, (s.advance target now).map f = .ok t → t.id = s.id := by
    intro target f hf t ht
    cases hadvance : s.advance target now with
    | error e => rw [hadvance] at ht; cases ht
    | ok u =>
      rw [hadvance] at ht
      rw [← Except.ok.inj ht, hf, id_advance hadvance]
  unfold Session.perform
  split
  · next t ht =>
    cases c with
    | advance target => exact id_advance ht
    | _ =>
      refine hmap _ _ ?_ t ht
      intro u
      rfl
  · rfl

theorem session?_mapTransfer (f : Transfer → Transfer) :
    (x.mapTransfer f).session? = x.session? := by
  unfold mapTransfer session?
  cases x.phase <;> rfl

theorem session?_mapSource (f : Generator.Supervised → Generator.Supervised) :
    (x.mapSource f).session? = x.session? := by
  have hrest := x.session?_mapTransfer fun t => { t with source := f t.source }
  unfold mapSource
  split
  · next hphase => simp [session?, hphase]
  · next hphase => simp [session?, hphase]
  · next hphase => simp [session?, hphase]
  · exact hrest

theorem named_accept (now : Moment) : (x.accept now).1.Named := by
  unfold accept
  split
  · exact named_of_none rfl
  · next p hq =>
    dsimp only
    split
    · next s hs =>
      refine named_of_some rfl ?_
      have hgenerating : s = { Session.receive x.id now with
          state := .generating, parameters := some p } := (Except.ok.inj hs).symm
      rw [hgenerating]
      rfl
    · exact named_of_none rfl

theorem named_started {s : Session} (h : s.id = x.id) (now : Moment) (g : Generator.Supervised)
    (r : Generator.Reply) : (x.started now s g r).1.Named := by
  unfold started
  split
  · split <;> exact named_of_none rfl
  · split
    · next t ht => exact named_of_some rfl ((id_advance ht).trans h)
    · exact named_of_none rfl

theorem named_conclude {s : Session} (h : s.id = x.id) (now : Moment) (t : Transfer)
    (e : Stream.Ending) : (x.conclude now s t e).1.Named := by
  have hid := (id_perform s now (closingCall e t.source.handle.exitStatus)).trans h
  unfold conclude
  dsimp only
  split <;> exact named_of_some rfl hid

/-- **One step of the handler or of the relay task** leaves the name of the session alone. -/
theorem named_proceed (h : x.Named) (now : Moment) : (x.proceed now).1.Named := by
  have hsame := h
  unfold Named session? at h
  unfold proceed
  cases hphase : x.phase with
  | arrived => exact named_of_none rfl
  | counted => exact named_accept now
  | refusing u why g => exact named_of_none rfl
  | refused why g => exact hsame
  | launching s p =>
    rw [hphase] at h
    dsimp only
    unfold launch
    split
    · exact named_of_none rfl
    · exact named_of_some rfl (h s rfl)
  | awaiting s g =>
    rw [hphase] at h
    dsimp only
    split
    · exact named_started (h s rfl) now _ _
    · exact named_of_some rfl (h s rfl)
  | clearing g why =>
    dsimp only
    split <;> exact named_of_none rfl
  | opening us s t =>
    rw [hphase] at h
    cases us <;> exact named_of_some rfl (h s rfl)
  | relaying s t =>
    rw [hphase] at h
    dsimp only
    split
    · exact named_conclude (h s rfl) now t _
    · split
      · exact named_of_some rfl (h s rfl)
      · exact hsame
  | closing s t =>
    rw [hphase] at h
    dsimp only
    split <;> exact named_of_some rfl (h s rfl)
  | settling us s t =>
    rw [hphase] at h
    cases us <;> exact named_of_some rfl (h s rfl)
  | recording s t =>
    rw [hphase] at h
    exact named_of_some rfl (h s rfl)
  | ending s t =>
    rw [hphase] at h
    exact named_of_some rfl (h s rfl)
  | «over» s t => exact hsame

theorem named_step (h : x.Named) (m : Move) : (x.step m).1.Named := by
  have htransfer : ∀ f, (x.mapTransfer f).Named := by
    intro f s hs
    exact h s ((session?_mapTransfer f).symm.trans hs)
  have hsource : ∀ f, (x.mapSource f).Named := by
    intro f s hs
    obtain ⟨p, hp⟩ : ∃ p, x.mapSource f = { x with phase := p } := by
      unfold mapSource
      dsimp only
      split <;> exact ⟨_, rfl⟩
    rw [h s ((session?_mapSource f).symm.trans hs), hp]
  cases m with
  | proceed now => exact named_proceed h now
  | take => exact htransfer _
  | leave => exact htransfer _
  | _ => exact hsource _

/-- The report of a session is known by the name of the exchange. -/
theorem id_recorded {r : Report} (h : x.Named) (hr : x.recorded? = some r) : r.id = x.id := by
  unfold Named session? at h
  unfold recorded? at hr
  split at hr
  · next hphase =>
    rw [hphase] at h
    exact Option.some.inj hr ▸ h _ rfl
  · next hphase =>
    rw [hphase] at h
    exact Option.some.inj hr ▸ h _ rfl
  · cases hr

end Exchange

end ToneRelay.Service
