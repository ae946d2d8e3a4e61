import ToneRelay.Proofs.Service.Course
import ToneRelay.Proofs.Service.Prompt
import ToneRelay.Proofs.Stream.Anonymity

/-!
# Exchanges told again

What becomes of an exchange, but for its name and for times, is told by its story: who has done
something after whom. The generator and the listener have no dealings with each other, so a story
may be told in another order as long as the relay meets with each of them as before. `run_alike`:
exchanges with one query come to the same if their stories are the same for the relay and the
generator, and the same for the relay and the listener.

1. A move that stirs nothing changes nothing but a clock (`anonymously_of_not_stirs`).
2. A move that stirs does to the anonymous exchange what it does to the exchange (`redo_of_stirs`).
3. A run comes to where its story comes when it is told again without names and clocks
   (`retell_story`), in any order of what has to do with each other (`foldl_eq_of_filters`).
-/

namespace ToneRelay.Service

open Generator (Launcher Reply Supervised)
open ToneRelay.Stream (Moment Report Session Transfer)

/-! ## Names and clocks -/

/-- A phase without names and clocks. A generator that has been released does nothing any more. -/
def Phase.anonymous : Phase → Phase
  | .arrived => .arrived
  | .counted => .counted
  | .refusing u why _ => .refusing u why none
  | .refused why _ => .refused why none
  | .launching s p => .launching s.anonymous p
  | .awaiting s g => .awaiting s.anonymous g.timeless
  | .clearing g why => .clearing g.timeless why
  | .opening us s t => .opening us s.anonymous t.timeless
  | .relaying s t => .relaying s.anonymous t.timeless
  | .closing s t => .closing s.anonymous t.timeless
  | .settling us s t => .settling us s.anonymous t.timeless
  | .recording s t => .recording s.anonymous t.timeless
  | .ending s t => .ending s.anonymous t.timeless
  | .over s t => .over s.anonymous t.timeless

def Effect.anonymous : Effect → Effect
  | .record r => .record r.anonymous
  | e => e

namespace Exchange

/-- An exchange without its name and without clocks, whose generator is launched by `l`. -/
def anonymous (l : Launcher) (x : Exchange) : Exchange :=
  { x with launcher := l, id := .ofNat 0, phase := x.phase.anonymous }

@[simp] theorem settings_anonymous (l : Launcher) (x : Exchange) :
    (x.anonymous l).settings = x.settings := rfl

@[simp] theorem launcher_anonymous (l : Launcher) (x : Exchange) :
    (x.anonymous l).launcher = l := rfl

@[simp] theorem query_anonymous (l : Launcher) (x : Exchange) :
    (x.anonymous l).query = x.query := rfl

@[simp] theorem phase_anonymous (l : Launcher) (x : Exchange) :
    (x.anonymous l).phase = x.phase.anonymous := rfl

/-- The same with an effect. -/
abbrev anonymously (l : Launcher) (q : Exchange × Option Effect) : Exchange × Option Effect :=
  (q.1.anonymous l, q.2.map Effect.anonymous)

theorem anonymous_anonymous (l : Launcher) (x : Exchange) :
    (x.anonymous l).anonymous l = x.anonymous l := by
  obtain ⟨settings, launcher, query, id, phase⟩ := x
  cases phase <;> simp [anonymous, Phase.anonymous, Session.anonymous_anonymous,
    Transfer.timeless_timeless, Supervised.timeless_timeless]

/-! ## Moves that stir something -/

/-- Who does something. -/
inductive Deed
  /-- The handler or the relay task. -/
  | proceed
  /-- The generator. -/
  | act
  /-- The reader of diagnostics. -/
  | drain
  /-- The listener takes a chunk. -/
  | take
  /-- The listener goes away. -/
  | leave
deriving DecidableEq, Repr

/-- Whether the relay and the generator notice. -/
def Deed.atSource : Deed → Bool
  | .proceed | .act | .drain => true
  | .take | .leave => false

/-- Whether the relay and the listener notice. -/
def Deed.atListener : Deed → Bool
  | .proceed | .take | .leave => true
  | .act | .drain => false

/-- The deed of a move; time that passes is none. -/
def Move.deed? : Move → Option Deed
  | .proceed _ => some .proceed
  | .act => some .act
  | .drain => some .drain
  | .pass _ => none
  | .take => some .take
  | .leave => some .leave

/-- Whether something comes of a move. -/
def stirs (x : Exchange) : Move → Bool
  | .proceed _ => !x.waits
  | .act => x.source?.any fun g => (g.process.act g.now).isSome
  | .drain => x.source?.any fun g => g.drain.canStep g.process
  | .pass _ => false
  | .take => x.transfer?.any fun t => (t.channel.receive.1 matches .item _)
  | .leave => x.transfer?.any fun t => t.channel.receiver ≠ .gone || !t.channel.queue.isEmpty

/-- The deeds of which something comes, in order. -/
def story (x : Exchange) : List Move → List Deed
  | [] => []
  | m :: ms => (if x.stirs m then m.deed?.toList else []) ++ (x.step m).1.story ms

/-! ## Nothing stirs -/

theorem proceed_of_waits {x : Exchange} (h : x.waits = true) (now : Moment) :
    x.proceed now = (x, none) := by
  have hidle : ∀ g : Supervised, (g.poll.2.isNone && g.poll.1.stage = g.stage) = true →
      g.poll = (g, none) := by
    intro g hg
    rw [Bool.and_eq_true] at hg
    exact Supervised.poll_of_idle (Option.isNone_iff_eq_none.1 hg.1) (of_decide_eq_true hg.2)
  obtain ⟨settings, launcher, query, id, phase⟩ := x
  unfold waits at h
  unfold proceed
  cases phase with
  | awaiting s g =>
    dsimp only
    rw [hidle g h]
    rfl
  | clearing g why =>
    dsimp only
    rw [hidle g h]
    rfl
  | relaying s t =>
    dsimp only at h ⊢
    rw [Bool.and_eq_true] at h
    rw [Option.isNone_iff_eq_none.1 h.1, Option.isNone_iff_eq_none.1 h.2]
  | closing s t =>
    dsimp only
    rw [hidle t.source h]
    rfl
  | refused why g => rfl
  | «over» s t => rfl
  | _ => cases h

theorem mapSource_of_idle {x : Exchange} {f : Supervised → Supervised}
    (h : ∀ g, x.source? = some g → f g = g) : x.mapSource f = x :=
  (mapSource_congr h).trans x.mapSource_same

theorem mapTransfer_of_idle {x : Exchange} {f : Transfer → Transfer}
    (h : ∀ t, x.transfer? = some t → f t = t) : x.mapTransfer f = x :=
  (mapTransfer_congr h).trans x.mapTransfer_same

/-- Time that passes goes unnoticed where there are no clocks. -/
theorem anonymous_pass (l : Launcher) (x : Exchange) (nanos : Nat) :
    (x.mapSource fun g => { g with now := g.now + nanos }).anonymous l = x.anonymous l := by
  obtain ⟨settings, launcher, query, id, phase⟩ := x
  cases phase <;> rfl

/-- **A move of which nothing comes** changes nothing but a clock. -/
theorem anonymously_of_not_stirs {x : Exchange} {m : Move} (h : x.stirs m = false)
    (l : Launcher) : anonymously l (x.step m) = (x.anonymous l, none) := by
  unfold stirs at h
  cases m with
  | proceed now =>
    show anonymously l (x.proceed now) = _
    rw [proceed_of_waits (by simpa using h)]
    rfl
  | act =>
    have hidle : x.mapSource Supervised.act = x := by
      refine mapSource_of_idle fun g hg => ?_
      dsimp only at h
      rw [hg] at h
      have hnone : g.process.act g.now = none := Option.not_isSome_iff_eq_none.1 (by simpa using h)
      unfold Supervised.act
      rw [hnone]
      rfl
    exact congrArg (fun y : Exchange => (y.anonymous l, none)) hidle
  | drain =>
    have hidle : x.mapSource Supervised.drainOnce = x := by
      refine mapSource_of_idle fun g hg => ?_
      dsimp only at h
      rw [hg] at h
      have hstep : g.drain.step g.process = (g.drain, g.process) :=
        Generator.Drain.step_of_not_canStep h
      unfold Supervised.drainOnce
      rw [hstep]
    exact congrArg (fun y : Exchange => (y.anonymous l, none)) hidle
  | pass nanos => exact congrArg (·, none) (anonymous_pass l x nanos)
  | take =>
    have hidle : x.mapTransfer Transfer.take = x := by
      refine mapTransfer_of_idle fun t ht => ?_
      dsimp only at h
      rw [ht] at h
      unfold Transfer.take
      split
      · next hreceive =>
        rw [Option.any_some, hreceive] at h
        cases h
      · rfl
    exact congrArg (fun y : Exchange => (y.anonymous l, none)) hidle
  | leave =>
    have hidle : x.mapTransfer Transfer.leave = x := by
      refine mapTransfer_of_idle fun t ht => ?_
      dsimp only at h
      rw [ht] at h
      have hgone : t.channel.receiver = .gone ∧ t.channel.queue = [] := by simpa using h
      unfold Transfer.leave Stream.Channel.drop
      rw [← hgone.1, ← hgone.2]
    exact congrArg (fun y : Exchange => (y.anonymous l, none)) hidle

/-! ## Something stirs -/

section

variable {l : Launcher} {x y : Exchange}

theorem anonymously_enter (h : x.anonymous l = y.anonymous l) {p p' : Phase}
    (hp : p.anonymous = p'.anonymous) : anonymously l (x.enter p) = anonymously l (y.enter p') := by
  show ({ x.anonymous l with phase := p.anonymous }, none) =
    ({ y.anonymous l with phase := p'.anonymous }, none)
  rw [h, hp]

theorem anonymously_emit (h : x.anonymous l = y.anonymous l) {e e' : Effect}
    (he : e.anonymous = e'.anonymous) {p p' : Phase} (hp : p.anonymous = p'.anonymous) :
    anonymously l (x.emit e p) = anonymously l (y.emit e' p') := by
  show ({ x.anonymous l with phase := p.anonymous }, some e.anonymous) =
    ({ y.anonymous l with phase := p'.anonymous }, some e'.anonymous)
  rw [h, he, hp]

/-- The updates that count the end of a session. -/
theorem finished_of_anonymous {s s' : Session} (h : s.anonymous = s'.anonymous) :
    Stream.Occurrence.updates (.finished s.state s.bytes) =
      Stream.Occurrence.updates (.finished s'.state s'.bytes) := by
  change Stream.Occurrence.updates (.finished s.anonymous.state s.anonymous.bytes) =
    Stream.Occurrence.updates (.finished s'.anonymous.state s'.anonymous.bytes)
  rw [h]

theorem settings_of_anonymous (h : x.anonymous l = y.anonymous l) : x.settings = y.settings := by
  change (x.anonymous l).settings = (y.anonymous l).settings
  rw [h]

/-- A phase in which there is a session and a transfer. -/
theorem anonymous_pair (f : Session → Transfer → Phase)
    (hf : ∀ s t, (f s t).anonymous = f s.anonymous t.timeless) {s s' : Session}
    (hs : s.anonymous = s'.anonymous) {t u : Transfer} (ht : t.timeless = u.timeless) :
    (f s t).anonymous = (f s' u).anonymous := by
  rw [hf, hf, hs, ht]

theorem anonymous_awaiting {s s' : Session} (hs : s.anonymous = s'.anonymous) {g k : Supervised}
    (hg : g.timeless = k.timeless) :
    (Phase.awaiting s g).anonymous = (Phase.awaiting s' k).anonymous := by
  simp only [Phase.anonymous, hs, hg]

/-- What follows the wait for output. -/
theorem anonymously_started (h : x.anonymous l = y.anonymous l) {s s' : Session}
    (hs : s.anonymous = s'.anonymous) {g k : Supervised} (hg : g.timeless = k.timeless)
    (now now' : Moment) (r : Reply) :
    anonymously l (x.started now s g r) = anonymously l (y.started now' s' k r) := by
  have hadvance := Session.advance_congr hs .streaming now now'
  obtain ⟨hstart, hr⟩ := Prod.mk.inj (Supervised.timelessly_start_congr hg .terminate)
  unfold started
  split
  · next fault =>
    rcases hx : g.start .terminate with ⟨g', r⟩
    rcases hy : k.start .terminate with ⟨k', r'⟩
    rw [hx, hy] at hstart hr
    dsimp only at hstart hr
    subst hr
    cases r with
    | some _ => exact anonymously_enter h rfl
    | none => exact anonymously_enter h (congrArg (Phase.clearing · (.generator fault)) hstart)
  · rw [settings_of_anonymous h]
    rcases hx : s.advance .streaming now with e | s₁ <;>
      rcases hy : s'.advance .streaming now' with e' | s₁'
    all_goals rw [hx, hy] at hadvance
    · obtain rfl := Except.error.inj hadvance
      exact anonymously_enter h rfl
    · cases hadvance
    · cases hadvance
    · refine anonymously_enter h (anonymous_pair (.opening _) (fun _ _ => rfl)
        (Except.ok.inj hadvance) ?_)
      exact Transfer.timeless_source (t := .begin g (relayOptions y.settings))
        (u := .begin g (relayOptions y.settings)) rfl hg

/-- What follows the end of the relay. -/
theorem anonymously_conclude (h : x.anonymous l = y.anonymous l) {s s' : Session}
    (hs : s.anonymous = s'.anonymous) {t u : Transfer} (ht : t.timeless = u.timeless)
    (now now' : Moment) (e : Stream.Ending) :
    anonymously l (x.conclude now s t e) = anonymously l (y.conclude now' s' u e) := by
  have hsource := Transfer.source_of_timeless ht
  have hhandle : t.source.handle = u.source.handle := by
    change t.source.timeless.handle = u.source.timeless.handle
    rw [hsource]
  obtain ⟨hg, hr⟩ := Prod.mk.inj (Supervised.timelessly_start_congr hsource .terminate)
  have hperform := Session.perform_congr hs now now'
    (closingCall e t.source.handle.exitStatus)
  have htransfer := Transfer.timeless_source ht hg
  unfold conclude
  dsimp only at hr ⊢
  rw [← hhandle, ← hr, finished_of_anonymous hperform]
  cases (t.source.start .terminate).2 with
  | some _ =>
    exact anonymously_enter h (anonymous_pair (.settling _) (fun _ _ => rfl) hperform htransfer)
  | none =>
    exact anonymously_enter h (anonymous_pair .closing (fun _ _ => rfl) hperform htransfer)

theorem anonymously_accept (x : Exchange) (now now' : Moment) :
    anonymously l ((x.anonymous l).accept now') = anonymously l (x.accept now) := by
  unfold accept
  rw [query_anonymous, settings_anonymous]
  cases x.query.accept x.settings.maxMinutes with
  | error fault => rfl
  | ok p => rfl

theorem anonymously_launch (h : x.anonymous l = y.anonymous l) {s s' : Session}
    (hs : s.anonymous = s'.anonymous) (p : Job.Parameters)
    (hl : x.launcher.launch (Job.describe p) = y.launcher.launch (Job.describe p)) :
    anonymously l (x.launch s p) = anonymously l (y.launch s' p) := by
  unfold launch
  rw [hl, settings_of_anonymous h]
  cases y.launcher.launch (Job.describe p) with
  | error fault => exact anonymously_emit h rfl rfl
  | ok g => exact anonymously_emit h rfl (anonymous_awaiting hs rfl)

/-- A poll that gets anywhere is answered alike without a clock. -/
theorem poll_alike {g : Supervised} (h : (g.poll.2.isNone && g.poll.1.stage = g.stage) = false) :
    ∃ k k' r, g.poll = (k, r) ∧ g.timeless.poll = (k', r) ∧ k'.timeless = k.timeless := by
  have hgoes : g.poll ≠ (g, none) := by
    intro hidle
    rw [hidle] at h
    simp at h
  obtain ⟨hpoll, hr⟩ := Prod.mk.inj (Supervised.timelessly_poll hgoes)
  exact ⟨_, _, _, rfl, Prod.ext rfl hr, hpoll⟩

/-- **A step of the handler or of the relay task.** -/
theorem anonymously_proceed (hl : ∀ job, x.launcher.launch job = l.launch job)
    (h : x.waits = false) (now now' : Moment) :
    anonymously l ((x.anonymous l).proceed now') = anonymously l (x.proceed now) := by
  have hsame := x.anonymous_anonymous l
  have hboth : ∀ (f : Session → Transfer → Phase) {s : Session} {t u : Transfer},
      (∀ s t, (f s t).anonymous = f s.anonymous t.timeless) → t.timeless = u.timeless →
        (f s.anonymous t).anonymous = (f s u).anonymous := fun f s t u hf ht =>
    anonymous_pair f hf s.anonymous_anonymous ht
  unfold waits isOver at h
  unfold proceed
  rw [phase_anonymous]
  cases hphase : x.phase with
  | arrived => exact anonymously_emit hsame rfl rfl
  | counted => exact anonymously_accept x now now'
  | refusing u why g => exact anonymously_emit hsame rfl rfl
  | launching s p =>
    exact anonymously_launch hsame s.anonymous_anonymous p (by rw [launcher_anonymous, hl])
  | awaiting s g =>
    rw [hphase] at h
    obtain ⟨k, k', r, hpoll, hpoll', hk⟩ := poll_alike h
    dsimp only [Phase.anonymous]
    rw [hpoll, hpoll']
    cases r with
    | some r => exact anonymously_started hsame s.anonymous_anonymous hk now' now r
    | none => exact anonymously_enter hsame (anonymous_awaiting s.anonymous_anonymous hk)
  | clearing g why =>
    rw [hphase] at h
    obtain ⟨k, k', r, hpoll, hpoll', hk⟩ := poll_alike h
    dsimp only [Phase.anonymous]
    rw [hpoll, hpoll']
    cases r with
    | some r => exact anonymously_enter hsame rfl
    | none => exact anonymously_enter hsame (congrArg (Phase.clearing · why) hk)
  | «opening» us s t =>
    cases us with
    | nil => exact anonymously_enter hsame (hboth .relaying (fun _ _ => rfl) t.timeless_timeless)
    | cons u us =>
      exact anonymously_emit hsame rfl (hboth (.opening us) (fun _ _ => rfl) t.timeless_timeless)
  | relaying s t =>
    rw [hphase] at h
    dsimp only [Phase.anonymous] at h ⊢
    rw [Transfer.pump_timeless]
    cases he : t.pump.ending? with
    | some e =>
      exact anonymously_conclude hsame s.anonymous_anonymous t.timeless_timeless now' now e
    | none =>
      cases hr : t.relay with
      | none =>
        rw [he, hr] at h
        cases h
      | some q =>
        obtain ⟨q', hq', hq⟩ := Option.map_eq_some_iff.1 (Transfer.relay_timeless hr)
        rw [hq']
        exact anonymously_enter hsame (hboth .relaying (fun _ _ => rfl) (congrArg Prod.fst hq))
  | closing s t =>
    rw [hphase] at h
    obtain ⟨k, k', r, hpoll, hpoll', hk⟩ := poll_alike h
    have ht := Transfer.timeless_source t.timeless_timeless hk
    dsimp only [Phase.anonymous]
    rw [Transfer.source_timeless, hpoll, hpoll']
    cases r with
    | some r => exact anonymously_enter hsame (hboth (.settling _) (fun _ _ => rfl) ht)
    | none => exact anonymously_enter hsame (hboth .closing (fun _ _ => rfl) ht)
  | settling us s t =>
    cases us with
    | nil => exact anonymously_enter hsame (hboth .recording (fun _ _ => rfl) t.timeless_timeless)
    | cons u us =>
      exact anonymously_emit hsame rfl (hboth (.settling us) (fun _ _ => rfl) t.timeless_timeless)
  | recording s t =>
    refine anonymously_emit hsame ?_ (hboth .ending (fun _ _ => rfl) t.timeless_timeless)
    exact congrArg (fun s => Effect.record s.report) s.anonymous_anonymous
  | ending s t =>
    exact anonymously_enter hsame (hboth (fun s t => .over s { t with channel := t.channel.finish })
      (fun _ _ => rfl) t.timeless_timeless)
  | refused why g =>
    rw [hphase] at h
    cases h
  | «over» s t =>
    rw [hphase] at h
    cases h

/-- A step of the generator or of its reader. -/
theorem anonymous_mapSource {f : Supervised → Supervised}
    (h : ∀ g, x.source? = some g → (f g.timeless).timeless = (f g).timeless) :
    ((x.anonymous l).mapSource f).anonymous l = (x.mapSource f).anonymous l := by
  obtain ⟨settings, launcher, query, id, phase⟩ := x
  unfold source? transfer? at h
  cases phase <;>
    simp_all [anonymous, Phase.anonymous, mapSource, mapTransfer, Transfer.timeless,
      Session.anonymous_anonymous]

/-- A step of the listener. -/
theorem anonymous_mapTransfer {f : Transfer → Transfer} (h : ∀ t, f t.timeless = (f t).timeless)
    (l : Launcher) (x : Exchange) :
    (x.anonymous l).mapTransfer f = (x.mapTransfer f).anonymous l := by
  obtain ⟨settings, launcher, query, id, phase⟩ := x
  cases phase <;> simp [anonymous, Phase.anonymous, mapTransfer, h]

end

/-! ## Stories -/

/-- The move of a deed. -/
def Deed.move : Deed → Move
  | .proceed => .proceed .unknown
  | .act => .act
  | .drain => .drain
  | .take => .take
  | .leave => .leave

/-- A deed is done again, without names and clocks. -/
def redo (l : Launcher) (x : Exchange) (d : Deed) : Exchange × Option Effect :=
  anonymously l ((x.anonymous l).step d.move)

/-- **A move of which something comes** is done again. -/
theorem redo_of_stirs {l : Launcher} {x : Exchange} {m : Move} {d : Deed}
    (hl : ∀ job, x.launcher.launch job = l.launch job) (h : x.stirs m = true)
    (hd : m.deed? = some d) : redo l x d = anonymously l (x.step m) := by
  unfold stirs at h
  cases m with
  | proceed now =>
    obtain rfl := Option.some.inj hd
    exact anonymously_proceed hl (by simpa using h) now .unknown
  | act =>
    obtain rfl := Option.some.inj hd
    refine congrArg (·, none) (anonymous_mapSource fun g hg => ?_)
    dsimp only at h
    rw [hg] at h
    exact Supervised.timeless_act h
  | drain =>
    obtain rfl := Option.some.inj hd
    exact congrArg (·, none) (anonymous_mapSource fun g _ => g.timeless_drainOnce)
  | pass nanos => cases hd
  | take =>
    obtain rfl := Option.some.inj hd
    refine congrArg (·, none) ?_
    show ((x.anonymous l).mapTransfer Transfer.take).anonymous l = _
    rw [anonymous_mapTransfer Transfer.timeless_take, anonymous_anonymous]
    rfl
  | leave =>
    obtain rfl := Option.some.inj hd
    refine congrArg (·, none) ?_
    show ((x.anonymous l).mapTransfer Transfer.leave).anonymous l = _
    have hleave : ∀ t : Transfer, t.timeless.leave = t.leave.timeless := fun _ => rfl
    rw [anonymous_mapTransfer hleave, anonymous_anonymous]
    rfl

/-- A story is told again: what becomes of the exchange, and the effects. -/
def retell (l : Launcher) (q : Exchange × List Effect) (d : Deed) : Exchange × List Effect :=
  ((redo l q.1 d).1, q.2 ++ (redo l q.1 d).2.toList)

theorem redo_anonymous (l : Launcher) (x : Exchange) (d : Deed) :
    redo l (x.anonymous l) d = redo l x d := by
  unfold redo
  rw [anonymous_anonymous]

/-- **A run** comes to where its story comes. -/
theorem retell_story {l : Launcher} {x : Exchange}
    (hl : ∀ job, x.launcher.launch job = l.launch job) (ms : List Move) (es : List Effect) :
    (x.story ms).foldl (retell l) (x.anonymous l, es) =
      ((x.run ms).1.anonymous l, es ++ (x.run ms).2.map Effect.anonymous) := by
  induction ms generalizing x es with
  | nil =>
    rw [story, run_nil]
    exact congrArg (x.anonymous l, ·) (List.append_nil es).symm
  | cons m ms ih =>
    obtain ⟨p, hp⟩ := x.step_eq m
    have hl' : ∀ job, (x.step m).1.launcher.launch job = l.launch job := by
      rw [hp]
      exact hl
    rw [story, run_cons, List.foldl_append]
    dsimp only
    cases h : x.stirs m with
    | false =>
      obtain ⟨hx, he⟩ := Prod.mk.inj (anonymously_of_not_stirs h l)
      rw [Option.map_eq_none_iff] at he
      rw [he, ← hx]
      exact ih hl' es
    | true =>
      have hd : ∃ d, m.deed? = some d := by
        cases m with
        | pass nanos => cases h
        | _ => exact ⟨_, rfl⟩
      obtain ⟨d, hd⟩ := hd
      have hredo := redo_of_stirs hl h hd
      rw [← redo_anonymous] at hredo
      rw [if_pos rfl, hd, Option.toList_some, List.foldl_cons, List.foldl_nil]
      have hretell : retell l (x.anonymous l, es) d = ((x.step m).1.anonymous l,
          es ++ ((x.step m).2.map Effect.anonymous).toList) := by
        unfold retell
        rw [hredo]
      rw [hretell, ih hl', List.map_append, List.append_assoc, Option.toList_map]

/-! ## Who meets with whom -/

/-- What the listener does to a transfer has nothing to do with the generator. -/
def Aloof (k : Transfer → Transfer) : Prop :=
  ∀ t (f : Supervised → Supervised),
    k { t with source := f t.source } = { k t with source := f (k t).source }

theorem aloof_take : Aloof Transfer.take := by
  intro t f
  unfold Transfer.take
  dsimp only
  obtain ⟨r, channel⟩ := t.channel.receive
  cases r <;> rfl

theorem aloof_leave : Aloof Transfer.leave := fun _ _ => rfl

theorem mapTransfer_mapSource {k : Transfer → Transfer} (hk : Aloof k) (x : Exchange)
    (f : Supervised → Supervised) :
    (x.mapSource f).mapTransfer k = (x.mapTransfer k).mapSource f := by
  have hf := fun t => hk t f
  obtain ⟨settings, launcher, query, id, phase⟩ := x
  cases phase <;> simp [mapSource, mapTransfer, hf]

variable {l : Launcher}

theorem redo_at_source {d : Deed} (h : d.atListener = false) :
    ∃ f, ∀ x, redo l x d = (((x.anonymous l).mapSource f).anonymous l, none) := by
  cases d with
  | act => exact ⟨Supervised.act, fun _ => rfl⟩
  | drain => exact ⟨Supervised.drainOnce, fun _ => rfl⟩
  | _ => cases h

theorem redo_at_listener {d : Deed} (h : d.atSource = false) :
    ∃ k, Aloof k ∧ (∀ t : Transfer, k t.timeless = (k t).timeless) ∧
      ∀ x, redo l x d = (((x.anonymous l).mapTransfer k).anonymous l, none) := by
  cases d with
  | take => exact ⟨Transfer.take, aloof_take, Transfer.timeless_take, fun _ => rfl⟩
  | leave => exact ⟨Transfer.leave, aloof_leave, fun _ => rfl, fun _ => rfl⟩
  | _ => cases h

/-- The listener does not notice what the generator does, nor the other way round. -/
theorem retell_comm (q : Exchange × List Effect) {a b : Deed} (ha : a.atListener = false)
    (hb : b.atSource = false) :
    retell l (retell l q a) b = retell l (retell l q b) a := by
  obtain ⟨f, hf⟩ := redo_at_source (l := l) ha
  obtain ⟨k, haloof, htimeless, hk⟩ := redo_at_listener (l := l) hb
  unfold retell
  dsimp only
  simp only [hf, hk, Option.toList_none, List.append_nil, anonymous_anonymous]
  rw [anonymous_mapTransfer htimeless, anonymous_anonymous, mapTransfer_mapSource haloof,
    ← anonymous_mapTransfer htimeless, anonymous_anonymous]

section

variable {α β : Type} {f : β → α → β} {p r : α → Bool} {u v : List α}

/-- A letter goes to the front past letters with which it may change places. -/
theorem foldl_append_cons {a : α} (hcomm : ∀ s b, p b = false → f (f s a) b = f (f s b) a)
    (hu : ∀ b ∈ u, p b = false) (s : β) :
    (u ++ a :: v).foldl f s = (u ++ v).foldl f (f s a) := by
  induction u generalizing s with
  | nil => rfl
  | cons b u ih =>
    obtain ⟨hb, hu⟩ := List.forall_mem_cons.1 hu
    show (u ++ a :: v).foldl f (f s b) = (u ++ v).foldl f (f (f s a) b)
    rw [ih hu, hcomm s b hb]

/-- The first letter of one word is taken out of the other one. -/
theorem exists_foldl_cons (hboth : ∀ a, p a = true ∨ r a = true)
    (hcomm : ∀ s a b, r a = false → p b = false → f (f s a) b = f (f s b) a) {a : α}
    (ha : p a = true) (hp : (a :: u).filter p = v.filter p) (hr : (a :: u).filter r = v.filter r)
    (s : β) : ∃ w : List α, v.foldl f s = w.foldl f (f s a) ∧ u.filter p = w.filter p ∧
      u.filter r = w.filter r := by
  rw [List.filter_cons_of_pos ha] at hp
  obtain ⟨before, after, rfl, hbefore, -, hafter⟩ := List.filter_eq_cons_iff.1 hp.symm
  have hnone : ∀ b ∈ before, p b = false := fun b hb => Bool.eq_false_iff.2 (hbefore b hb)
  have hfilter : (before ++ after).filter p = after.filter p := by
    rw [List.filter_append, List.filter_eq_nil_iff.2 hbefore, List.nil_append]
  cases h : r a with
  | false =>
    refine ⟨before ++ after, foldl_append_cons (fun s b => hcomm s a b h) hnone s, ?_, ?_⟩
    · rw [hfilter, hafter]
    · have hskip : ∀ w, (a :: w).filter r = w.filter r := fun w =>
        List.filter_cons_of_neg (Bool.eq_false_iff.1 h)
      rw [← hskip, hr, List.filter_append, hskip, List.filter_append]
  | true =>
    -- what stands before `a` would stand before it in the other word, too
    cases before with
    | nil =>
      rw [List.nil_append, List.filter_cons_of_pos h, List.filter_cons_of_pos h] at hr
      exact ⟨after, rfl, hafter.symm, (List.cons.inj hr).2⟩
    | cons b before =>
      have hpb := hnone b List.mem_cons_self
      have hrb : r b = true := (hboth b).resolve_left (Bool.eq_false_iff.1 hpb)
      rw [List.filter_cons_of_pos h, List.cons_append, List.filter_cons_of_pos hrb] at hr
      rw [(List.cons.inj hr).1, hpb] at ha
      cases ha

/-- Words whose letters stand in one of two parts of them are told by these parts, if letters that
stand in different ones may change places. -/
theorem foldl_eq_of_filters (hboth : ∀ a, p a = true ∨ r a = true)
    (hcomm : ∀ s a b, r a = false → p b = false → f (f s a) b = f (f s b) a)
    (hp : u.filter p = v.filter p) (hr : u.filter r = v.filter r) (s : β) :
    u.foldl f s = v.foldl f s := by
  induction u generalizing v s with
  | nil =>
    have hnone : v = [] := by
      rw [List.eq_nil_iff_forall_not_mem]
      intro a ha
      rcases hboth a with h | h
      · exact List.filter_eq_nil_iff.1 hp.symm a ha h
      · exact List.filter_eq_nil_iff.1 hr.symm a ha h
    rw [hnone]
  | cons a u ih =>
    rcases hboth a with h | h
    · obtain ⟨w, hw, hp, hr⟩ := exists_foldl_cons hboth hcomm h hp hr s
      rw [hw]
      exact ih hp hr (f s a)
    · obtain ⟨w, hw, hr, hp⟩ := exists_foldl_cons (fun a => (hboth a).symm)
        (fun s a b ha hb => (hcomm s b a hb ha).symm) h hr hp s
      rw [hw]
      exact ih hp hr (f s a)

end

/-- **Exchanges that are told apart by names and clocks only** come to the same, with the same
effects, when the relay meets with the generator and with the listener in the same order. -/
theorem run_alike {x y : Exchange} {ms ns : List Move}
    (h : x.anonymous y.launcher = y.anonymous y.launcher)
    (hl : ∀ job, x.launcher.launch job = y.launcher.launch job)
    (hsource : (x.story ms).filter Deed.atSource = (y.story ns).filter Deed.atSource)
    (hlistener : (x.story ms).filter Deed.atListener = (y.story ns).filter Deed.atListener) :
    (x.run ms).1.anonymous y.launcher = (y.run ns).1.anonymous y.launcher ∧
      (x.run ms).2.map Effect.anonymous = (y.run ns).2.map Effect.anonymous := by
  have hboth : ∀ d : Deed, d.atSource = true ∨ d.atListener = true := by
    intro d
    cases d
    all_goals first | exact .inl rfl | exact .inr rfl
  have hstories := foldl_eq_of_filters hboth
    (fun q _ _ ha hb => retell_comm (l := y.launcher) q ha hb) hsource hlistener
    (y.anonymous y.launcher, [])
  have hthere := retell_story (l := y.launcher) (fun _ => rfl) ns []
  have hhere := retell_story hl ms []
  rw [h, hstories, hthere, List.nil_append, List.nil_append] at hhere
  obtain ⟨hend, heffects⟩ := Prod.mk.inj hhere
  exact ⟨hend.symm, heffects.symm⟩

end Exchange

end ToneRelay.Service
