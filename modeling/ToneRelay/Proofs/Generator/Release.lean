import ToneRelay.Proofs.Generator.Custody

/-!
# What a release means

A generator is released by a call that terminates it, and in no other way. `released_run`: whatever
its owner asks for and drops, and whenever the generator acts, a generator that is released has been
told to terminate and its job file is gone; it has ended and how it has ended is recorded, unless
the wait for its end has failed and the owner has been answered so.

Each function that answers a call or lets it wait keeps what is known of the generator (`Tended`)
and of the stage at which the owner waits (`Attended`), and so does one thing that happens
(`attended_step`).
-/

namespace ToneRelay.Generator

namespace Handle

/-- What a handle tells about the job file, the release and the end of the process. -/
def duties (h : Handle) : Bool × Bool × Bool := (h.jobFile, h.released, h.outcome.isSome)

theorem duties_attach (h : Handle) : h.attach.duties = h.duties := by
  have hsome := h.isSome_outcome_attach
  rw [attach_eq]
  unfold duties
  dsimp only
  rw [hsome]

end Handle

namespace Process

/-- A process whose end is told has ended. -/
theorem exit_of_wait {p : Process} {status : Status} (h : p.wait.1 = .ended status) :
    p.exit.isSome := by
  unfold wait at h
  split at h
  · cases h
  · split at h
    · next s hexit =>
      rw [hexit]
      rfl
    · cases h

theorem exit_receive {p : Process} (h : p.exit.isSome) (n : Nat) : (p.receive n).exit.isSome := by
  rw [receive_of_exit h]
  exact h

end Process

/-- What an owner has done before it asks for the diagnostics: one that releases its generator has
been told how that has ended, or that this cannot be told. -/
def Purpose.Backed (os : List Supervised.Move) (h : Handle) : Purpose → Prop
  | .terminate none => .call .terminate ∈ os ∧ h.outcome.isSome
  | .terminate (some fault) => .call .terminate ∈ os ∧ ∃ reason, fault = .wait reason
  | _ => True

/-- What an owner has done before it waits at a stage. -/
def Stage.Backed (os : List Supervised.Move) (h : Handle) : Stage → Prop
  | .reaping p => p = .await ∨ p = .read
  | .joining p _ => p.Backed os h
  | .stopping _ | .killing => .call .terminate ∈ os
  | _ => True

theorem Purpose.backed_of_ne {os : List Supervised.Move} {h : Handle} {p : Purpose}
    (hp : p = .await ∨ p = .read) : p.Backed os h := by
  rcases hp with rfl | rfl <;> trivial

theorem Purpose.Backed.mono {os os' : List Supervised.Move} {h h' : Handle} {p : Purpose}
    (hp : p.Backed os h) (hos : os ⊆ os') (ho : h'.outcome.isSome = h.outcome.isSome) :
    p.Backed os' h' := by
  cases p with
  | terminate fault =>
    cases fault with
    | none => exact ⟨hos hp.1, ho.trans hp.2⟩
    | some fault => exact ⟨hos hp.1, hp.2⟩
  | _ => trivial

theorem Stage.Backed.mono {os os' : List Supervised.Move} {h : Handle} {stage : Stage}
    (hs : stage.Backed os h) (hos : os ⊆ os') : stage.Backed os' h := by
  cases stage with
  | reaping p => exact hs
  | joining p deadline => exact Purpose.Backed.mono hs hos rfl
  | stopping deadline => exact hos hs
  | killing => exact hos hs
  | _ => trivial

namespace Supervised

/-- What is known of a generator after its owner has done some things and has been answered. -/
structure Tended (os : List Move) (rs : List Reply) (s : Supervised) : Prop where
  /-- The job file is there up to the release. -/
  jobFile : s.handle.jobFile = !s.handle.released
  called : s.handle.released = true → .call .terminate ∈ os
  outcome : s.handle.released = true →
    s.handle.outcome.isSome ∨ ∃ reason, .failed (.wait reason) ∈ rs
  ended : s.handle.outcome.isSome → s.process.exit.isSome

/-- The same, and what is known of the stage at which the owner waits. -/
structure Attended (os : List Move) (rs : List Reply) (s : Supervised) : Prop
    extends Tended os rs s where
  stage : ∀ stage, s.stage = some stage → stage.Backed os s.handle

/-- What is known after a step of a call. -/
abbrev AttendedBy (os : List Move) (rs : List Reply) (r : Supervised × Option Reply) : Prop :=
  r.1.Attended os (rs ++ r.2.toList)

variable {os : List Move} {rs : List Reply} {s t : Supervised} {p : Purpose}

theorem Tended.mono {os' : List Move} {rs' : List Reply} (h : Tended os rs s) (hos : os ⊆ os')
    (hrs : rs ⊆ rs') : Tended os' rs' s where
  jobFile := h.jobFile
  called hr := hos (h.called hr)
  outcome hr := (h.outcome hr).imp_right fun ⟨reason, hmem⟩ => ⟨reason, hrs hmem⟩
  ended := h.ended

theorem Attended.mono {os' : List Move} (h : Attended os rs s) (hos : os ⊆ os') :
    Attended os' rs s :=
  ⟨h.toTended.mono hos (List.Subset.refl rs), fun stage hs => (h.stage stage hs).mono hos⟩

/-- Only the duties matter, and that a process which has ended stays so. -/
theorem Tended.congr (h : Tended os rs s) (hd : t.handle.duties = s.handle.duties)
    (hx : s.process.exit.isSome → t.process.exit.isSome) : Tended os rs t := by
  simp only [Handle.duties, Prod.mk.injEq] at hd
  obtain ⟨hj, hr, ho⟩ := hd
  refine ⟨?_, ?_, ?_, ?_⟩
  · rw [hj, hr, h.jobFile]
  · rw [hr]
    exact h.called
  · rw [hr, ho]
    exact h.outcome
  · rw [ho]
    exact hx ∘ h.ended

theorem Tended.own (h : Tended os rs s) {f : Handle → Handle}
    (hf : (f s.handle).duties = s.handle.duties) : Tended os rs (s.own f) :=
  h.congr hf id

/-! ## Calls -/

theorem attended_reply (h : Tended os rs s) (r : Reply) : AttendedBy os rs (s.reply r) := by
  have hsame : Tended os rs (s.reply r).1 := h.congr rfl id
  exact ⟨hsame.mono (List.Subset.refl os) (List.subset_append_left _ _), nofun⟩

theorem attended_wait (h : Tended os rs s) {stage : Stage} (hs : stage.Backed os s.handle) :
    AttendedBy os rs (s.wait stage) := by
  have hsame : Tended os rs (s.wait stage).1 := h.congr rfl id
  refine ⟨hsame.mono (List.Subset.refl os) (List.subset_append_left _ _), ?_⟩
  intro stage' hstage
  obtain rfl := Option.some.inj hstage
  exact hs

theorem attended_still (h : Attended os rs s) : AttendedBy os rs (s, none) := by
  show Attended os (rs ++ []) s
  rwa [List.append_nil]

/-- **The release.** Nothing else removes the job file. -/
theorem attended_release (h : Tended os rs s) (fault : Option Fault)
    (hp : (Purpose.terminate fault).Backed os s.handle) :
    AttendedBy os rs (s.conclude (.terminate fault)) := by
  have hsome := s.handle.isSome_outcome_attach
  have hended : s.handle.attach.outcome.isSome → s.process.exit.isSome := by
    rw [hsome]
    exact h.ended
  cases fault with
  | none => exact ⟨⟨rfl, fun _ => hp.1, fun _ => .inl (hsome.trans hp.2), hended⟩, nofun⟩
  | some fault =>
    obtain ⟨hcall, reason, rfl⟩ := hp
    refine ⟨⟨rfl, fun _ => hcall, fun _ => .inr ⟨reason, ?_⟩, hended⟩, nofun⟩
    exact List.mem_append_right _ List.mem_cons_self

theorem attended_conclude (h : Tended os rs s) (hp : p.Backed os s.handle) :
    AttendedBy os rs (s.conclude p) := by
  have hattach : Tended os rs (s.own Handle.attach) := h.own s.handle.duties_attach
  cases p with
  | await =>
    rw [conclude_await]
    exact attended_reply hattach _
  | read => exact attended_reply (hattach.own rfl) _
  | terminate fault => exact attended_release h fault hp

theorem attended_join (h : Tended os rs s) (hp : p.Backed os s.handle) :
    AttendedBy os rs (s.join p) := by
  unfold join
  split
  · exact attended_wait (h.own rfl) (hp.mono (List.Subset.refl os) rfl)
  · exact attended_conclude h hp

theorem attended_reap (h : Tended os rs s) (hp : p = .await ∨ p = .read) :
    AttendedBy os rs (s.reap p) := by
  unfold reap
  split
  · exact attended_join h (Purpose.backed_of_ne hp)
  · exact attended_wait h hp

theorem attended_close (h : Tended os rs s) {fault : Option Fault}
    (hp : (Purpose.terminate fault).Backed os s.handle) : AttendedBy os rs (s.close fault) :=
  attended_join (h.own rfl) (hp.mono (List.Subset.refl os) rfl)

/-- The wait for the end tells it, fails, or goes on. -/
theorem attended_ended {onEnd onNothing : Supervised → Supervised × Option Reply}
    {onFault : Fault → Supervised → Supervised × Option Reply} (h : Tended os rs s)
    (hend : ∀ t, Tended os rs t → t.handle.outcome.isSome → AttendedBy os rs (onEnd t))
    (hfault : ∀ reason t, Tended os rs t → AttendedBy os rs (onFault (.wait reason) t))
    (hnothing : AttendedBy os rs (onNothing s)) :
    AttendedBy os rs (s.ended onEnd onFault onNothing) := by
  obtain ⟨-, -, -, hexit⟩ := s.process.wait_spec
  unfold ended
  split
  · next status q hw =>
    rw [hw] at hexit
    refine hend _ ⟨h.jobFile, h.called, fun _ => .inl rfl, fun _ => ?_⟩ rfl
    show q.exit.isSome
    rw [hexit]
    exact Process.exit_of_wait (congrArg Prod.fst hw)
  · next reason q hw =>
    rw [hw] at hexit
    refine hfault reason _ (h.congr rfl fun hx => ?_)
    show q.exit.isSome
    rwa [hexit]
  · exact hnothing

theorem attended_readFor {max : Nat} {onNothing : Supervised → Supervised × Option Reply}
    {onData : List UInt8 → Supervised → Supervised × Option Reply} (h : Tended os rs s)
    (hp : p = .await ∨ p = .read)
    (hdata : ∀ chunk t, Tended os rs t → AttendedBy os rs (onData chunk t))
    (hnothing : AttendedBy os rs (onNothing s)) :
    AttendedBy os rs (s.readFor max p onData onNothing) := by
  obtain ⟨-, hexit, -⟩ := s.process.read_spec (Nat.max max 1)
  have hread : ∀ taken q, s.process.read (Nat.max max 1) = (taken, q) →
      Tended os rs { s with process := q } := by
    intro taken q hr
    rw [hr] at hexit
    refine h.congr rfl fun hx => ?_
    show q.exit.isSome
    rwa [hexit]
  unfold readFor
  split
  · split
    · next chunk q hr => exact hdata chunk _ (hread _ q hr)
    · exact attended_reap (h.own rfl) hp
    · next reason q hr => exact attended_reply (hread _ q hr) _
    · exact hnothing
  · exact attended_reap (h.own rfl) hp

/-- A generator that is asked to terminate, or killed, is waited for. -/
theorem attended_signal (h : Tended os rs s) (n : Nat) {stage : Stage}
    (hs : stage.Backed os s.handle) :
    AttendedBy os rs (({ s with process := s.process.receive n } : Supervised).wait stage) := by
  have hsent : Tended os rs { s with process := s.process.receive n } :=
    h.congr rfl fun hx => Process.exit_receive hx n
  exact attended_wait hsent hs

/-- The end of a generator that is being stopped. -/
theorem attended_stop {onNothing : Supervised → Supervised × Option Reply} (h : Tended os rs s)
    (hcall : .call .terminate ∈ os) (hnothing : AttendedBy os rs (onNothing s)) :
    AttendedBy os rs
      (s.ended (·.close none) (fun fault s => s.close (some fault)) onNothing) :=
  attended_ended h (fun _ ht ho => attended_close ht ⟨hcall, ho⟩)
    (fun reason _ ht => attended_close ht ⟨hcall, reason, rfl⟩) hnothing

/-- **A call.** -/
theorem attended_start (h : Tended os rs s) {c : Call} (hc : .call c ∈ os) :
    AttendedBy os rs (s.start c) := by
  unfold start
  cases c with
  | await max limit =>
    dsimp only
    split
    · exact attended_reply h _
    · exact attended_wait h trivial
  | read max =>
    dsimp only
    split
    · exact attended_reply h _
    · split
      · exact attended_reply (h.own rfl) _
      · split
        · exact attended_reap h (.inr rfl)
        · exact attended_wait h trivial
  | terminate =>
    dsimp only
    split
    · exact attended_reply h _
    · split
      · next ho => exact attended_close h ⟨hc, ho⟩
      · exact attended_stop h hc (attended_signal h sigTerm hc)

/-- **Going on.** -/
theorem attended_poll (h : Attended os rs s) : AttendedBy os rs s.poll := by
  have hstill := attended_still h
  unfold poll
  cases hstage : s.stage with
  | none => exact hstill
  | some stage =>
    have hs := h.stage stage hstage
    cases stage with
    | awaiting max limit deadline =>
      refine attended_readFor h.toTended (.inl rfl)
        (fun chunk t ht => attended_reply (ht.own rfl) _) ?_
      split
      · exact attended_reply h.toTended _
      · exact hstill
    | reading max =>
      exact attended_readFor h.toTended (.inr rfl) (fun chunk t ht => attended_reply ht _) hstill
    | reaping p =>
      exact attended_ended h.toTended (fun t ht _ => attended_join ht (Purpose.backed_of_ne hs))
        (fun reason t ht => attended_reply ht _) hstill
    | joining p deadline =>
      have hcollect : ∀ bytes, AttendedBy os rs ((s.own (·.collect bytes)).conclude p) := by
        intro bytes
        exact attended_conclude (h.toTended.own rfl)
          (Purpose.Backed.mono hs (List.Subset.refl os) rfl)
      dsimp only
      split
      · exact hcollect _
      · split
        · exact hcollect _
        · exact hstill
    | stopping deadline =>
      refine attended_stop h.toTended hs ?_
      split
      · exact attended_signal h.toTended sigKill hs
      · exact hstill
    | killing => exact attended_stop h.toTended hs hstill

/-! ## Runs -/

/-- What happens while the owner does nothing. -/
theorem Aside.attended {written : List UInt8} (ha : Aside written s t) (h : Attended os rs s) :
    Attended os rs t := by
  refine ⟨h.toTended.congr (congrArg Handle.duties ha.handle) ha.exited, ?_⟩
  rw [ha.stage, ha.handle]
  exact h.stage

/-- **One thing happens.** -/
theorem attended_step (h : Attended os rs s) (m : Move) :
    AttendedBy (os ++ [m]) rs (s.step m) := by
  have hmore := h.mono (List.subset_append_left os [m])
  cases m with
  | call c => exact attended_start hmore.toTended (List.mem_append_right _ List.mem_cons_self)
  | poll => exact attended_poll hmore
  | cancel => exact attended_still ⟨hmore.toTended.congr rfl id, nofun⟩
  | act => exact attended_still (s.aside_act.attended hmore)
  | drain => exact attended_still (s.aside_drainOnce.attended hmore)
  | pass nanos => exact attended_still ((s.aside_pass nanos).attended hmore)

theorem attended_run (h : Attended os rs s) (ms : List Move) :
    Attended (os ++ ms) (rs ++ (s.run ms).2) (s.run ms).1 := by
  induction ms generalizing os rs s with
  | nil =>
    rw [run_nil, List.append_nil, List.append_nil]
    exact h
  | cons m ms ih =>
    have hrest := ih (attended_step h m)
    rwa [List.append_assoc, List.append_assoc] at hrest

theorem attended_launch {l : Launcher} {job : Job.Description} (h : l.launch job = .ok s) :
    Attended [] [] s := by
  obtain ⟨todo, rfl⟩ := launch_eq h
  exact ⟨⟨rfl, nofun, nofun, nofun⟩, nofun⟩

/-- What the release of a generator means, after its owner has done some things and has been
answered. -/
structure Cleared (os : List Move) (rs : List Reply) (s : Supervised) : Prop where
  called : .call .terminate ∈ os
  released : s.handle.released = true
  jobFile : s.handle.jobFile = false
  /-- The generator has ended, and how is recorded. -/
  outcome : (∀ reason, .failed (.wait reason) ∉ rs) →
    s.handle.outcome.isSome ∧ s.process.exit.isSome

theorem Attended.cleared (h : Attended os rs s) (hr : s.handle.released = true) :
    Cleared os rs s where
  called := h.called hr
  released := hr
  jobFile := by rw [h.jobFile, hr, Bool.not_true]
  outcome hwait := by
    have hsome := (h.outcome hr).resolve_right fun ⟨reason, hmem⟩ => hwait reason hmem
    exact ⟨hsome, h.ended hsome⟩

/-- **What a release means**, whatever has been asked for and has happened since the launch. -/
theorem released_run {l : Launcher} {job : Job.Description} (h : l.launch job = .ok s)
    {ms : List Move} (hr : (s.run ms).1.handle.released = true) :
    Cleared ms (s.run ms).2 (s.run ms).1 := by
  have hattended := attended_run (attended_launch h) ms
  rw [List.nil_append, List.nil_append] at hattended
  exact hattended.cleared hr

end Supervised

end ToneRelay.Generator
