import ToneRelay.Proofs.Generator.Records

/-!
# How long a chunk is

A read returns one byte at least, and at most as many as were asked for: by the read itself, or, if
a wait for output has read ahead, by that wait (`chunk_fits`). So a chunk is no longer than its read
allows unless a wait has read ahead under a larger limit, and then it may be (`chunk_too_long`).

The limit under which something has been read ahead can be told from the answers that were given
(`aheadLimit`). A `Measured` owner holds no more than it allows; a call that goes on reads under its
own limit, or leaves what is held alone (`Plain`).
-/

namespace ToneRelay.Generator

/-- The limit under which something has been read ahead, after one more answer. -/
def Call.limits (limit : Option Nat) : Call × Reply → Option Nat
  | (.await max _, .ready) => limit.or (some max)
  | (.read _, .data _) => none
  | _ => limit

/-- The limit under which something has been read ahead, if anything has. -/
def aheadLimit (ts : List (Call × Reply)) : Option Nat := ts.foldl Call.limits none

/-- An answer that is output is as long as it may be. -/
def Call.Fits (limit : Option Nat) : Call × Reply → Prop
  | (.read max, .data chunk) => chunk ≠ [] ∧ chunk.length ≤ Nat.max (limit.getD max) 1
  | _ => True

/-- So are some answers in a row. -/
def AllFit : Option Nat → List (Call × Reply) → Prop
  | _, [] => True
  | limit, t :: ts => Call.Fits limit t ∧ AllFit (Call.limits limit t) ts

@[simp] theorem allFit_append {limit : Option Nat} {ts us : List (Call × Reply)} :
    AllFit limit (ts ++ us) ↔ AllFit limit ts ∧ AllFit (ts.foldl Call.limits limit) us := by
  induction ts generalizing limit with
  | nil => exact ⟨fun h => ⟨trivial, h⟩, And.right⟩
  | cons t ts ih => simp [AllFit, ih, and_assoc]

/-! ## What an owner holds -/

/-- What has been read ahead was read under a limit. -/
structure Handle.Kept (limit : Option Nat) (h : Handle) : Prop where
  chunk : ∀ chunk, h.pending = some chunk →
    chunk ≠ [] ∧ ∃ max, limit = some max ∧ chunk.length ≤ Nat.max max 1
  free : h.pending = none → h.output = true → limit = none

namespace Handle

variable {limit : Option Nat} {h k : Handle}

theorem Kept.congr (hk : h.Kept limit) (hpending : k.pending = h.pending)
    (hout : k.output = true → h.output = true) : k.Kept limit :=
  ⟨fun chunk hc => hk.chunk chunk (hpending.symm.trans hc),
    fun hnone ho => hk.free (hpending.symm.trans hnone) (hout ho)⟩

theorem Kept.attach (hk : h.Kept limit) : h.attach.Kept limit := by
  rw [attach_eq]
  exact hk.congr rfl id

theorem kept_letGo (limit : Option Nat) (h : Handle) : h.letGo.Kept limit := ⟨nofun, nofun⟩

/-- A wait that has nothing to read does not change the limit. -/
theorem Kept.ready (hk : h.Kept limit) (hready : h.pending.isSome ∨ h.output = false) (max : Nat) :
    h.Kept (limit.or (some max)) := by
  refine ⟨fun chunk hc => ?_, fun hnone ho => ?_⟩
  · obtain ⟨hne, under, rfl, hlength⟩ := hk.chunk chunk hc
    exact ⟨hne, under, rfl, hlength⟩
  · rw [hnone, ho] at hready
    simp at hready

end Handle

namespace Supervised

variable {s : Supervised} {r : Supervised × Option Reply}

/-- Nothing is read, and what was read ahead is still held or let go. -/
structure Plain (s : Supervised) (r : Supervised × Option Reply) : Prop where
  kept : ∀ limit, s.handle.Kept limit → r.1.handle.Kept limit
  silent : ∀ chunk, r.2 ≠ some (.data chunk)
  ready : r.2 = some .ready → r.1.handle.pending.isSome ∨ r.1.handle.output = false
  stage : ∀ stage, r.1.stage = some stage → ∀ p, ¬ stage.Listens p

/-- What matters is what is held when the answer is found. -/
theorem Plain.of_kept {t : Supervised} (h : t.Plain r)
    (hkept : ∀ limit, s.handle.Kept limit → t.handle.Kept limit) : s.Plain r :=
  ⟨fun limit hk => h.kept limit (hkept limit hk), h.silent, h.ready, h.stage⟩

theorem plain_failed (s : Supervised) (fault : Fault) : s.Plain (s.reply (.failed fault)) :=
  ⟨fun _ => id, nofun, nofun, nofun⟩

theorem plain_wait (s : Supervised) (stage : Stage) (h : ∀ p, ¬ stage.Listens p) :
    s.Plain (s.wait stage) :=
  ⟨fun _ => id, nofun, nofun, fun _ heq => Option.some.inj heq ▸ h⟩

/-- An owner that has let go of the output concludes. -/
theorem plain_conclude {p : Purpose} (h : p = .await → s.handle.output = false) :
    s.Plain (s.conclude p) := by
  refine .of_kept (t := s.own Handle.attach) ?_ fun _ => Handle.Kept.attach
  cases p with
  | await =>
    have hout : s.handle.attach.output = false := by simpa using h rfl
    rw [conclude_await]
    rcases s.handle.attach.verdict_cases with hr | ⟨code, text, -, hr⟩
    · rw [hr]
      exact ⟨fun _ => id, nofun, fun _ => .inr hout, nofun⟩
    · rw [hr]
      exact plain_failed _ _
  | read => exact ⟨fun _ hk => hk.congr rfl id, nofun, nofun, nofun⟩
  | terminate fault =>
    cases fault with
    | none => exact ⟨fun _ hk => hk.congr rfl id, nofun, nofun, nofun⟩
    | some fault => exact ⟨fun _ hk => hk.congr rfl id, nofun, nofun, nofun⟩

/-- An owner concludes that has let go of the output, whatever it is told of the diagnostics. -/
theorem plain_collect {p : Purpose} (h : p = .await → s.handle.output = false)
    (bytes : List UInt8) : s.Plain ((s.own (·.collect bytes)).conclude p) := by
  have hconclude : (s.own (·.collect bytes)).Plain ((s.own (·.collect bytes)).conclude p) :=
    plain_conclude h
  exact hconclude.of_kept fun _ hk => hk.congr rfl id

theorem plain_join {p : Purpose} (h : p = .await → s.handle.output = false) :
    s.Plain (s.join p) := by
  unfold join
  split
  · have hwait := (s.own fun h => { h with reader := false }).plain_wait
      (.joining p (s.now + joinLimit.nanos)) fun _ => id
    exact hwait.of_kept fun _ hk => hk.congr rfl id
  · exact plain_conclude h

theorem plain_reap {p : Purpose} (h : p = .await → s.handle.output = false) :
    s.Plain (s.reap p) := by
  unfold reap
  split
  · exact plain_join h
  · exact s.plain_wait _ fun _ => id

theorem plain_drained (s : Supervised) (p : Purpose) : s.Plain ((s.own Handle.drain).reap p) := by
  have hreap : (s.own Handle.drain).Plain ((s.own Handle.drain).reap p) := plain_reap fun _ => rfl
  exact hreap.of_kept fun _ hk => hk.congr rfl nofun

theorem plain_close (s : Supervised) (fault : Option Fault) : s.Plain (s.close fault) := by
  have hjoin : (s.own Handle.letGo).Plain (s.close fault) := plain_join nofun
  exact hjoin.of_kept fun limit _ => s.handle.kept_letGo limit

/-- A call that reads gets a chunk, finds nothing yet, or reads nothing any more. -/
theorem readFor_cases (s : Supervised) (max : Nat) (p : Purpose)
    (onData : List UInt8 → Supervised → Supervised × Option Reply)
    (onNothing : Supervised → Supervised × Option Reply) :
    (∃ chunk q, s.handle.output = true ∧ s.process.read (Nat.max max 1) = (.bytes chunk, q) ∧
        s.readFor max p onData onNothing = onData chunk { s with process := q }) ∨
      s.readFor max p onData onNothing = onNothing s ∨
      s.Plain (s.readFor max p onData onNothing) := by
  unfold readFor
  split
  · next hout =>
    split
    · next chunk q hr => exact .inl ⟨chunk, q, hout, hr, rfl⟩
    · exact .inr (.inr (s.plain_drained p))
    · next reason q hr =>
      have hfailed := { s with process := q }.plain_failed (.read reason)
      exact .inr (.inr (hfailed.of_kept fun _ => id))
    · exact .inr (.inl rfl)
  · exact .inr (.inr (s.plain_drained p))

/-- The wait for the end goes on, or nothing is read. -/
theorem plain_ended {onEnd : Supervised → Supervised × Option Reply}
    {onFault : Fault → Supervised → Supervised × Option Reply}
    (onNothing : Supervised → Supervised × Option Reply)
    (hend : ∀ t : Supervised, t.handle.output = s.handle.output → t.Plain (onEnd t))
    (hfault : ∀ fault (t : Supervised), t.Plain (onFault fault t)) :
    s.ended onEnd onFault onNothing = onNothing s ∨ s.Plain (s.ended onEnd onFault onNothing) := by
  unfold ended
  split
  · next status q hw =>
    have hplain := hend ({ s with process := q }.own (·.record status)) rfl
    exact .inr (hplain.of_kept fun _ hk => hk.congr rfl id)
  · next reason q hw =>
    have hplain := hfault (.wait reason) { s with process := q }
    exact .inr (hplain.of_kept fun _ => id)
  · exact .inl rfl

theorem plain_stop (s : Supervised) (onNothing : Supervised → Supervised × Option Reply) :
    s.ended (·.close none) (fun fault s => s.close (some fault)) onNothing = onNothing s ∨
      s.Plain (s.ended (·.close none) (fun fault s => s.close (some fault)) onNothing) :=
  plain_ended onNothing (fun t _ => t.plain_close none) fun fault t => t.plain_close (some fault)

/-! ## What a call is answered -/

end Supervised

/-- A call that waits for output does so under its own limit, and nothing has been read ahead. -/
def Stage.Asks (c : Option Call) (h : Handle) : Stage → Prop
  | .awaiting max limit _ => c = some (.await max limit) ∧ h.pending = none
  | .reading max => c = some (.read max) ∧ h.pending = none
  | _ => True

theorem Stage.asks_of_not_listens {stage : Stage} (h : ∀ p, ¬ stage.Listens p) (c : Option Call)
    (k : Handle) : stage.Asks c k := by
  cases stage with
  | awaiting max limit deadline => exact absurd rfl (h .await)
  | reading max => exact absurd rfl (h .read)
  | _ => trivial

namespace Supervised

variable {s : Supervised} {r : Supervised × Option Reply} {limit : Option Nat} {c : Option Call}

/-- An owner that holds no more than a limit allows, where `c` is the call under way. -/
structure Measured (limit : Option Nat) (c : Option Call) (s : Supervised) : Prop where
  kept : s.handle.Kept limit
  stage : ∀ stage, s.stage = some stage → stage.Asks c s.handle

/-- The answer is as long as it may be, and so is what is held after it. -/
def Keeps (limit : Option Nat) (c : Option Call) (r : Supervised × Option Reply) : Prop :=
  AllFit limit (turn c r.2) ∧ Measured ((turn c r.2).foldl Call.limits limit) c r.1

theorem keeps_none {t : Supervised} (h : Measured limit c t) : Keeps limit c (t, none) := by
  unfold Keeps
  rw [turn_none]
  exact ⟨trivial, h⟩

/-- Where nothing is read, a limit stays in force. -/
theorem Plain.keeps (h : s.Plain r) (hk : s.handle.Kept limit) (c : Option Call) :
    Keeps limit c r := by
  obtain ⟨t, reply⟩ := r
  have hkept := h.kept limit hk
  have hstage (stage : Stage) (hs : t.stage = some stage) :=
    Stage.asks_of_not_listens (h.stage stage hs) c t.handle
  cases reply with
  | none => exact keeps_none ⟨hkept, hstage⟩
  | some reply =>
    cases c with
    | none => exact ⟨trivial, hkept, hstage⟩
    | some call =>
      cases call with
      | await max wait =>
        refine ⟨⟨trivial, trivial⟩, ?_, hstage⟩
        cases reply with
        | ready => exact hkept.ready (h.ready rfl) max
        | _ => exact hkept
      | read max =>
        cases reply with
        | data chunk => exact absurd rfl (h.silent chunk)
        | _ => exact ⟨⟨trivial, trivial⟩, hkept, hstage⟩
      | terminate => exact ⟨⟨trivial, trivial⟩, hkept, hstage⟩

/-- A call that goes on in one of two ways. -/
theorem Keeps.of_cases {t : Supervised × Option Reply} (h : r = t ∨ s.Plain r)
    (hk : s.handle.Kept limit) (ht : Keeps limit c t) : Keeps limit c r := by
  rcases h with rfl | hplain
  · exact ht
  · exact hplain.keeps hk c

/-- A process that is asked to end. -/
theorem keeps_signal (hk : s.handle.Kept limit) (n : Nat) {stage : Stage}
    (h : ∀ p, ¬ stage.Listens p) (c : Option Call) :
    Keeps limit c ({ s with process := s.process.receive n }.wait stage) := by
  have hsignal := { s with process := s.process.receive n }.plain_wait stage h
  exact (hsignal.of_kept fun _ => id).keeps hk c

/-- A chunk that comes from the process is as long as the call allows. -/
theorem chunk_of_read {p q : Process} {max : Nat} {chunk : List UInt8}
    (h : p.read (Nat.max max 1) = (.bytes chunk, q)) :
    chunk ≠ [] ∧ chunk.length ≤ Nat.max max 1 :=
  ⟨Process.read_ne_nil (Nat.le_max_right max 1) (congrArg Prod.fst h),
    Process.length_read_le (congrArg Prod.fst h)⟩

/-- **A call begins.** -/
theorem keeps_start (h : Measured limit c s) (hi : s.Informed) (call : Call) :
    Keeps limit (some call) (s.start call) := by
  unfold start
  cases call with
  | await max wait =>
    dsimp only
    split
    · next hknown =>
      have hready : s.Plain (s.reply .ready) :=
        ⟨fun _ => id, nofun, fun _ => hknown.imp_right hi.handle.drained, nofun⟩
      exact hready.keeps h.kept _
    · next hknown =>
      refine keeps_none ⟨h.kept, fun stage hs => ?_⟩
      obtain rfl := Option.some.inj hs
      exact ⟨rfl, Option.not_isSome_iff_eq_none.1 (not_or.1 hknown).1⟩
  | read max =>
    dsimp only
    split
    · exact (plain_failed _ _).keeps h.kept _
    · split
      · next chunk hpending =>
        obtain ⟨hne, under, rfl, hlength⟩ := h.kept.chunk chunk hpending
        exact ⟨⟨⟨hne, hlength⟩, trivial⟩, ⟨nofun, fun _ _ => rfl⟩, nofun⟩
      · next hpending =>
        split
        · have hreap : s.Plain (s.reap .read) := plain_reap nofun
          exact hreap.keeps h.kept _
        · refine keeps_none ⟨h.kept, fun stage hs => ?_⟩
          obtain rfl := Option.some.inj hs
          exact ⟨rfl, hpending⟩
  | terminate =>
    dsimp only
    split
    · have hstopped : s.Plain (s.reply .stopped) := ⟨fun _ => id, nofun, nofun, nofun⟩
      exact hstopped.keeps h.kept _
    · split
      · exact (s.plain_close none).keeps h.kept _
      · exact .of_cases (s.plain_stop _) h.kept (keeps_signal h.kept sigTerm (fun _ => id) _)

/-- A wait for output goes on. A chunk that it reads is held from then on, under its own limit. -/
theorem keeps_awaiting {max : Nat} {wait : Duration} (deadline : Nat)
    (h : Measured limit (some (.await max wait)) s) (hpending : s.handle.pending = none) :
    Keeps limit (some (.await max wait)) (s.readFor max .await
      (fun chunk s => (s.own fun h => { h with pending := some chunk }).reply .ready)
      fun s => if deadline ≤ s.now then s.reply (.failed (.startupTimeout wait))
        else (s, none)) := by
  obtain ⟨chunk, q, hout, hr, heq⟩ | hcases := s.readFor_cases max .await
    (fun chunk s => (s.own fun h => { h with pending := some chunk }).reply .ready)
    fun s => if deadline ≤ s.now then s.reply (.failed (.startupTimeout wait)) else (s, none)
  · have hlimit : limit = none := h.kept.free hpending hout
    subst hlimit
    rw [heq]
    refine ⟨⟨trivial, trivial⟩, ⟨fun chunk' hc => ?_, nofun⟩, nofun⟩
    obtain rfl : chunk = chunk' := Option.some.inj hc
    obtain ⟨hne, hlength⟩ := chunk_of_read hr
    exact ⟨hne, max, rfl, hlength⟩
  · refine .of_cases hcases h.kept ?_
    split
    · exact (s.plain_failed _).keeps h.kept _
    · exact keeps_none h

/-- A read goes on. Nothing limits it but the call. -/
theorem keeps_reading {max : Nat} (h : Measured limit (some (.read max)) s)
    (hpending : s.handle.pending = none) : Keeps limit (some (.read max))
      (s.readFor max .read (fun chunk s => s.reply (.data chunk)) (·, none)) := by
  obtain ⟨chunk, q, hout, hr, heq⟩ | hcases :=
    s.readFor_cases max .read (fun chunk s => s.reply (.data chunk)) (·, none)
  · have hlimit : limit = none := h.kept.free hpending hout
    subst hlimit
    rw [heq]
    exact ⟨⟨chunk_of_read hr, trivial⟩, h.kept, nofun⟩
  · exact .of_cases hcases h.kept (keeps_none h)

/-- **A call goes on.** -/
theorem keeps_poll (h : Measured limit c s) (hi : s.Informed) : Keeps limit c s.poll := by
  have hstill : Keeps limit c (s, none) := keeps_none h
  unfold poll
  cases hstage : s.stage with
  | none => exact hstill
  | some stage =>
    have hasks := h.stage stage hstage
    have hsuits := hi.stage stage hstage
    cases stage with
    | awaiting max wait deadline =>
      obtain ⟨rfl, hpending⟩ := hasks
      exact keeps_awaiting deadline h hpending
    | reading max =>
      obtain ⟨rfl, hpending⟩ := hasks
      exact keeps_reading h hpending
    | reaping p =>
      have hout : s.handle.output = false := hi.handle.drained hsuits.2.1
      exact .of_cases (plain_ended (·, none) (fun t ht => plain_join fun _ => ht.trans hout)
        fun fault t => t.plain_failed fault) h.kept hstill
    | joining p deadline =>
      have hout : p = .await → s.handle.output = false := by
        rintro rfl
        exact hi.handle.drained hsuits.2.2.1
      dsimp only
      split
      · exact (plain_collect hout _).keeps h.kept _
      · split
        · exact (plain_collect hout _).keeps h.kept _
        · exact hstill
    | stopping deadline =>
      refine .of_cases (s.plain_stop _) h.kept ?_
      split
      · exact keeps_signal h.kept sigKill (fun _ => id) c
      · exact hstill
    | killing => exact .of_cases (s.plain_stop (·, none)) h.kept hstill

theorem Aside.measured {written : List UInt8} {t : Supervised} (ha : Aside written s t)
    (h : Measured limit c s) : Measured limit c t := by
  refine ⟨?_, ?_⟩
  · rw [ha.handle]
    exact h.kept
  · rw [ha.stage, ha.handle]
    exact h.stage

/-- **One thing happens.** -/
theorem keeps_step (h : Measured limit c s) (hi : s.Informed) (m : Move) :
    Keeps limit (m.asks c) (s.step m) := by
  cases m with
  | call call => exact keeps_start h hi call
  | poll => exact keeps_poll h hi
  | cancel => exact keeps_none ⟨h.kept, nofun⟩
  | act => exact keeps_none (s.aside_act.measured h)
  | drain => exact keeps_none (s.aside_drainOnce.measured h)
  | pass nanos => exact keeps_none ((s.aside_pass nanos).measured h)

theorem allFit_run (h : Measured limit c s) (hi : s.Informed) (ms : List Move) :
    AllFit limit (s.turns c ms) := by
  induction ms generalizing limit c s with
  | nil => trivial
  | cons m ms ih =>
    obtain ⟨hfit, hmeasured⟩ := keeps_step h hi m
    exact allFit_append.2 ⟨hfit, ih hmeasured (informed_step hi m)⟩

theorem measured_launch {l : Launcher} {job : Job.Description} (h : l.launch job = .ok s) :
    Measured none none s := by
  obtain ⟨todo, rfl⟩ := launch_eq h
  exact ⟨⟨nofun, fun _ _ => rfl⟩, nofun⟩

/-- **How long a chunk is**, whatever has been asked for before, under whatever limits, and whatever
the generator does. -/
theorem chunk_fits {l : Launcher} {job : Job.Description} (h : l.launch job = .ok s)
    {ms : List Move} {max : Nat} {chunk : List UInt8} {before after : List (Call × Reply)}
    (hturns : s.turns none ms = before ++ (.read max, .data chunk) :: after) :
    1 ≤ chunk.length ∧
      chunk.length ≤ Nat.max ((aheadLimit before).getD max) 1 ∧
      ((∀ ahead, aheadLimit before = some ahead → ahead ≤ Nat.max max 1) →
        chunk.length ≤ Nat.max max 1) := by
  have hall := allFit_run (measured_launch h) (informed_launch h) ms
  rw [hturns] at hall
  have hfit : Call.Fits (aheadLimit before) (.read max, .data chunk) := (allFit_append.1 hall).2.1
  obtain ⟨hne, hlength⟩ := hfit
  refine ⟨List.length_pos_iff.2 hne, hlength, fun hahead => Nat.le_trans hlength ?_⟩
  cases hlimit : aheadLimit before with
  | none => exact Nat.le_refl _
  | some ahead => exact Nat.max_le.2 ⟨hahead ahead hlimit, Nat.le_max_right max 1⟩

/-- Three bytes are waited for, and one is asked for. -/
def greedyMoves : List Move :=
  [.pass startTime.nanos, .act, .call (.await 3 (.ofSecs 1)), .poll, .call (.read 1)]

/-- One byte is waited for, and two and then eight are asked for. -/
def modestMoves : List Move :=
  [.pass startTime.nanos, .act, .call (.await 1 (.ofSecs 1)), .poll, .call (.read 2),
    .call (.read 8), .poll]

theorem chunk_fits_modest :
    brief.launch ⟨[], ⟨44100, 100⟩, []⟩ = .ok briefStart ∧
      briefStart.turns none modestMoves =
        [(.await 1 (.ofSecs 1), .ready), (.read 2, .data [1]), (.read 8, .data [2, 3])] ∧
      [1].length ≤ Nat.max 2 1 ∧ [2, 3].length ≤ Nat.max 8 1 := by
  have hlaunch : brief.launch ⟨[], ⟨44100, 100⟩, []⟩ = .ok briefStart := rfl
  have hturns : briefStart.turns none modestMoves =
      [(.await 1 (.ofSecs 1), .ready), (.read 2, .data [1]), (.read 8, .data [2, 3])] := by
    decide
  have hfirst : briefStart.turns none modestMoves =
      [(.await 1 (.ofSecs 1), .ready)] ++ (.read 2, .data [1]) :: [(.read 8, .data [2, 3])] :=
    hturns
  have hsecond : briefStart.turns none modestMoves =
      [(.await 1 (.ofSecs 1), .ready), (.read 2, .data [1])] ++ (.read 8, .data [2, 3]) :: [] :=
    hturns
  refine ⟨hlaunch, hturns, (chunk_fits hlaunch hfirst).2.2 ?_, (chunk_fits hlaunch hsecond).2.2 ?_⟩
  · rintro ahead hahead
    obtain rfl := Option.some.inj hahead
    decide
  · nofun

/-- A read that asks for one byte is given the three that were read ahead. -/
theorem chunk_too_long :
    brief.launch ⟨[], ⟨44100, 100⟩, []⟩ = .ok briefStart ∧
      briefStart.turns none greedyMoves =
        [(.await 3 (.ofSecs 1), .ready), (.read 1, .data [1, 2, 3])] ∧
      ¬ [1, 2, 3].length ≤ Nat.max 1 1 :=
  ⟨rfl, by decide, by decide⟩

end Supervised

end ToneRelay.Generator
