import ToneRelay.Proofs.Generator.Custody

/-!
# What an owner is answered

An owner waits for output, reads, stops its generator and asks how it ended, in any order.
`answers_faithful`: whatever it asks and whenever the generator writes, what the reads have returned
is a front part of the output, followed by what is held as long as the generator is not stopped, so
that a wait for output, however it is answered, moves no byte. The end of the output is handed out
once at most, when all of it has been returned; from then on the exit is known. After it, and after
a stop, every read is refused.

The proof keeps apart how a conversation stands (`Standing`): it is open, the generator is being
stopped, the end has been handed out, or all has been released. One thing that happens keeps or
changes that (`standing_step`), and so does a whole conversation (`standing_run`).
-/

namespace ToneRelay.Generator

/-- The call is made for a purpose. -/
def Call.For : Purpose → Call → Prop
  | .await, .await _ _ => True
  | .read, .read _ => True
  | .terminate _, .terminate => True
  | _, _ => False

theorem Call.For.ne_terminate {c : Call} {p : Purpose} (h : c.For p) (hp : p = .await ∨ p = .read) :
    c ≠ .terminate := by
  rintro rfl
  rcases hp with rfl | rfl <;> exact h

namespace Supervised

/-! ## Conversations -/

/-- Whether a call that stops the generator is under way. -/
def isStopping (s : Supervised) : Bool :=
  match s.stage with
  | some (.stopping _) | some .killing | some (.joining (.terminate _) _) => true
  | _ => false

/-- Whether the owner makes a call or drops the one under way. -/
def Move.interrupts : Move → Bool
  | .call _ | .cancel => true
  | _ => false

/-- A call that stops the generator is seen through. Other calls may be dropped for the next one. -/
def orderly (s : Supervised) : List Move → Bool
  | [] => true
  | m :: ms => !(s.isStopping && m.interrupts) && (s.step m).1.orderly ms

/-- The call under way after a move, unless it is answered at once. -/
def Move.asks (c : Option Call) : Move → Option Call
  | .call c => some c
  | .cancel => none
  | _ => c

/-- An answer, with the call that it answers. -/
def turn (c : Option Call) (r : Option Reply) : List (Call × Reply) :=
  (c.bind fun c => r.map (c, ·)).toList

/-- The answered calls in order, where `c` is the call under way. -/
def turns (s : Supervised) (c : Option Call) : List Move → List (Call × Reply)
  | [] => []
  | m :: ms => turn (m.asks c) (s.step m).2 ++ (s.step m).1.turns (m.asks c) ms

/-- The bytes that reads have returned. -/
def heard (ts : List (Call × Reply)) : List UInt8 :=
  ts.flatMap fun
    | (.read _, .data chunk) => chunk
    | _ => []

/-- The bytes that the generator writes in a move. -/
def emission (s : Supervised) : Move → List UInt8
  | .act => s.process.emits s.now
  | _ => []

/-- The bytes that the generator has written. -/
def emitted (s : Supervised) : List Move → List UInt8
  | [] => []
  | m :: ms => s.emission m ++ (s.step m).1.emitted ms

/-- The number of times that the end of the output has been handed out. -/
def ends (ts : List (Call × Reply)) : Nat := ts.countP (·.2 = .eof)

@[simp] theorem heard_append (ts us : List (Call × Reply)) :
    heard (ts ++ us) = heard ts ++ heard us :=
  List.flatMap_append

@[simp] theorem ends_append (ts us : List (Call × Reply)) : ends (ts ++ us) = ends ts + ends us :=
  List.countP_append

@[simp] theorem turn_none (c : Option Call) : turn c none = [] := by
  cases c <;> rfl

@[simp] theorem turn_some (c : Call) (r : Reply) : turn (some c) (some r) = [(c, r)] := rfl

/-- An answer that is no output tells nothing of it. -/
theorem heard_single {c : Call} {r : Reply} (h : ∀ chunk, r ≠ .data chunk) :
    heard [(c, r)] = [] := by
  unfold heard
  rw [List.flatMap_singleton]
  split
  · next heq => exact absurd (Prod.mk.inj heq).2 (h _)
  · rfl

theorem heard_read {c : Call} (h : c.For .read) (chunk : List UInt8) :
    heard [(c, .data chunk)] = chunk := by
  cases c with
  | read max => exact List.append_nil chunk
  | _ => exact h.elim

theorem ends_single {c : Call} {r : Reply} (h : r ≠ .eof) : ends [(c, r)] = 0 := by
  simp [ends, h]

/-- No call to stop the generator has been answered. -/
def Unstopped (ts : List (Call × Reply)) : Prop := ∀ r, (Call.terminate, r) ∉ ts

theorem Unstopped.append {ts : List (Call × Reply)} (h : Unstopped ts) {c : Call} {r : Reply}
    (hc : c ≠ .terminate) : Unstopped (ts ++ [(c, r)]) := by
  intro r' hmem
  rcases List.mem_append.1 hmem with hmem | hmem
  · exact h r' hmem
  · exact hc (Prod.mk.inj (List.mem_singleton.1 hmem)).1.symm

/-! ## Answers and calls -/

/-- Only a call or a stage has an answer, and a stage is that of the call under way. -/
theorem asked_step {s : Supervised} {c : Option Call} (h : s.stage.isSome → c.isSome) (m : Move) :
    ((s.step m).1.stage.isSome → (m.asks c).isSome) ∧
      ((s.step m).2.isSome → (m.asks c).isSome) := by
  cases m with
  | call c => exact ⟨fun _ => rfl, fun _ => rfl⟩
  | poll =>
    cases hstage : s.stage with
    | none =>
      have hpoll : s.poll = (s, none) := by
        unfold poll
        rw [hstage]
      show (s.poll.1.stage.isSome → c.isSome) ∧ (s.poll.2.isSome → c.isSome)
      rw [hpoll]
      exact ⟨h, nofun⟩
    | some stage =>
      have hc := h (by rw [hstage]; rfl)
      exact ⟨fun _ => hc, fun _ => hc⟩
  | cancel => exact ⟨nofun, nofun⟩
  | act => exact ⟨fun hs => h (s.aside_act.stage ▸ hs), nofun⟩
  | drain => exact ⟨fun hs => h (s.aside_drainOnce.stage ▸ hs), nofun⟩
  | pass nanos => exact ⟨h, nofun⟩

/-- The answers of a conversation are those that are given in its run. -/
theorem map_turns {s : Supervised} {c : Option Call} (h : s.stage.isSome → c.isSome)
    (ms : List Move) : (s.turns c ms).map (·.2) = (s.run ms).2 := by
  induction ms generalizing s c with
  | nil => rfl
  | cons m ms ih =>
    obtain ⟨hstage, hreply⟩ := asked_step h m
    have hturn : (turn (m.asks c) (s.step m).2).map (·.2) = (s.step m).2.toList := by
      cases hr : (s.step m).2 with
      | none => simp
      | some r =>
        obtain ⟨call, hcall⟩ := Option.isSome_iff_exists.1 (hreply (by rw [hr]; rfl))
        simp [hcall]
    simp [turns, hturn, ih hstage]

/-! ## After the release -/

/-- A released generator, and perhaps a call that still waits for its output. -/
structure Lingering (s : Supervised) : Prop where
  released : s.handle.released = true
  stage : ∀ stage, s.stage = some stage → match stage with
    | .awaiting _ _ _ => True
    | .reaping p | .joining p _ => p = .await
    | _ => False

/-- What a step of a wait for output leads to after the release. The outcome stays known. -/
structure Lingered (s : Supervised) (r : Supervised × Option Reply) : Prop where
  lingering : r.1.Lingering
  outcome : s.handle.outcome.isSome → r.1.handle.outcome.isSome
  unwritten : r.1.process.unwritten = s.process.unwritten
  reply : r.2 ≠ some .eof

theorem Lingered.of_kept {s t : Supervised} {r : Supervised × Option Reply}
    (ho : s.handle.outcome.isSome → t.handle.outcome.isSome)
    (hu : t.process.unwritten = s.process.unwritten) (h : t.Lingered r) : s.Lingered r :=
  ⟨h.lingering, h.outcome ∘ ho, h.unwritten.trans hu, h.reply⟩

theorem lingered_reply {s : Supervised} (h : s.handle.released = true) {r : Reply} (hr : r ≠ .eof) :
    s.Lingered (s.reply r) :=
  ⟨⟨h, nofun⟩, id, rfl, fun heq => hr (Option.some.inj heq)⟩

theorem lingered_conclude {s : Supervised} (h : s.handle.released = true) :
    s.Lingered (s.conclude .await) := by
  have hreleased : s.handle.attach.released = true :=
    (congrArg (·.2.2.2.2) s.handle.custody_attach).trans h
  refine .of_kept (t := s.own Handle.attach) ?_ rfl ?_
  · intro ho
    exact s.handle.isSome_outcome_attach.trans ho
  · rw [conclude_await]
    refine lingered_reply hreleased ?_
    rcases s.handle.attach.verdict_cases with hr | ⟨code, text, -, hr⟩ <;> rw [hr] <;> nofun

theorem lingered_join {s : Supervised} (h : s.handle.released = true) :
    s.Lingered (s.join .await) := by
  unfold join
  split
  · exact ⟨⟨h, fun stage hstage => Option.some.inj hstage ▸ rfl⟩, id, rfl, nofun⟩
  · exact lingered_conclude h

theorem lingered_reap {s : Supervised} (h : s.handle.released = true) :
    s.Lingered (s.reap .await) := by
  unfold reap
  split
  · exact lingered_join h
  · exact ⟨⟨h, fun stage hstage => Option.some.inj hstage ▸ rfl⟩, id, rfl, nofun⟩

theorem lingered_ended {s : Supervised} (h : s.Lingering) :
    s.Lingered (s.ended (·.join .await) (fun fault s => s.reply (.failed fault)) (·, none)) := by
  obtain ⟨-, hun, -⟩ := s.process.wait_spec
  unfold ended
  dsimp only
  split
  · next status q hw =>
    rw [hw] at hun
    refine .of_kept (t := { s with process := q }.own (·.record status)) (fun _ => rfl) hun ?_
    exact lingered_join h.released
  · next reason q hw =>
    rw [hw] at hun
    refine .of_kept (t := { s with process := q }) id hun (lingered_reply ?_ nofun)
    exact h.released
  · exact ⟨h, id, rfl, nofun⟩

theorem lingered_awaiting {s : Supervised} (h : s.Lingering) (max : Nat) (limit : Duration)
    (deadline : Nat) :
    s.Lingered (s.readFor max .await
      (fun chunk s => (s.own fun h => { h with pending := some chunk }).reply .ready)
      fun s =>
        if deadline ≤ s.now then s.reply (.failed (.startupTimeout limit)) else (s, none)) := by
  have hreap : s.Lingered ((s.own Handle.drain).reap .await) :=
    .of_kept (t := s.own Handle.drain) id rfl (lingered_reap h.released)
  obtain ⟨hun, -⟩ := s.process.read_spec (Nat.max max 1)
  unfold readFor
  dsimp only
  split
  · split
    · next chunk q hr =>
      rw [hr] at hun
      exact ⟨⟨h.released, nofun⟩, id, hun, nofun⟩
    · exact hreap
    · next reason q hr =>
      rw [hr] at hun
      refine .of_kept (t := { s with process := q }) id hun (lingered_reply ?_ nofun)
      exact h.released
    · split
      · exact lingered_reply h.released nofun
      · exact ⟨h, id, rfl, nofun⟩
  · exact hreap

theorem lingered_poll {s : Supervised} (h : s.Lingering) : s.Lingered s.poll := by
  unfold poll
  cases hstage : s.stage with
  | none => exact ⟨h, id, rfl, nofun⟩
  | some stage =>
    have hfits := h.stage stage hstage
    cases stage with
    | awaiting max limit deadline => exact lingered_awaiting h max limit deadline
    | reaping p =>
      obtain rfl := hfits
      exact lingered_ended h
    | joining p deadline =>
      obtain rfl := hfits
      dsimp only
      split
      · exact .of_kept (t := s.own (·.collect s.drain.kept)) id rfl (lingered_conclude h.released)
      · split
        · exact .of_kept (t := s.own (·.collect [])) id rfl (lingered_conclude h.released)
        · exact ⟨h, id, rfl, nofun⟩
    | _ => exact hfits.elim

/-- After the release, a wait for output may still wait; every other call is answered. -/
theorem lingered_start {s : Supervised} (h : s.Lingering) (c : Call) :
    s.Lingered (s.start c) ∧ ((s.start c).1.stage.isSome → c.For .await) ∧
      ∀ chunk, (s.start c).2 ≠ some (.data chunk) := by
  cases c with
  | await max limit =>
    refine ⟨?_, fun _ => trivial, ?_⟩
    · unfold start
      dsimp only
      split
      · exact lingered_reply h.released nofun
      · exact ⟨⟨h.released, fun stage hstage => Option.some.inj hstage ▸ trivial⟩, id, rfl, nofun⟩
    · unfold start
      dsimp only
      split <;> nofun
  | read max =>
    rw [read_of_released h.released]
    exact ⟨lingered_reply h.released nofun, nofun, nofun⟩
  | terminate =>
    rw [start_of_released h.released]
    exact ⟨lingered_reply h.released nofun, nofun, nofun⟩

theorem Released.lingering {s : Supervised} (h : s.Released) : s.Lingering :=
  ⟨h.released, fun _ hstage => nomatch h.stage.symm.trans hstage⟩

theorem Aside.lingering {s t : Supervised} {written : List UInt8} (h : Aside written s t)
    (hs : s.Lingering) : t.Lingering :=
  ⟨by rw [h.handle, hs.released], fun stage hstage => hs.stage stage (h.stage.symm.trans hstage)⟩

/-! ## How a conversation stands -/

/-- The output is read, and nothing of it is missing. -/
structure Open (script written : List UInt8) (ts : List (Call × Reply)) (s : Supervised) :
    Prop where
  stock : heard ts ++ s.stock = written
  script : written ++ s.process.unwritten = script
  ends : ends ts = 0
  unstopped : Unstopped ts

/-- What has been returned and what has been written are as far as a script goes. -/
structure Within (script written : List UInt8) (ts : List (Call × Reply)) (s : Supervised) :
    Prop where
  returned : heard ts <+: written
  written : written ++ s.process.unwritten <+: script

/-- All has been returned, and the end has been handed out. -/
structure Spent (script written : List UInt8) (ts : List (Call × Reply)) : Prop where
  returned : heard ts = script
  written : written = script
  once : ends ts = 1

/-- How a conversation stands, where `c` is the call under way, if one is. -/
inductive Standing (script written : List UInt8) (ts : List (Call × Reply)) (c : Option Call)
    (s : Supervised) : Prop
  | idle (hs : s.Idle) (hopen : Open script written ts s)
  | waiting (p : Purpose) (call : Call) (hp : p = .await ∨ p = .read) (hs : s.Waits p)
      (hc : c = some call) (hcall : call.For p) (hopen : Open script written ts s)
  | stopping (hs : s.Stopping) (hc : c = some .terminate) (hin : Within script written ts s)
      (hends : ends ts = 0) (hunstopped : Unstopped ts)
  | spent (hs : s.Ended) (hspent : Spent script written ts) (hunstopped : Unstopped ts)
  | closed (hs : s.Lingering) (hc : s.stage.isSome → ∃ call, c = some call ∧ call.For .await)
      (hin : Within script written ts s) (hstopped : ∃ r, (Call.terminate, r) ∈ ts)
      (hends : ends ts = 0 ∨ Spent script written ts ∧ s.handle.outcome.isSome)

section

variable {script written : List UInt8} {ts : List (Call × Reply)} {c : Option Call}
  {s t : Supervised}

theorem Open.within (h : Open script written ts s) : Within script written ts s :=
  ⟨⟨s.stock, h.stock⟩, h.script ▸ List.prefix_rfl⟩

theorem Open.aside {bytes : List UInt8} (h : Open script written ts s) (ha : Aside bytes s t) :
    Open script (written ++ bytes) ts t := by
  refine ⟨?_, ?_, h.ends, h.unstopped⟩
  · rw [ha.stock, ← List.append_assoc, h.stock]
  · rw [List.append_assoc, ha.unwritten, h.script]

theorem Within.aside {bytes : List UInt8} (h : Within script written ts s)
    (ha : Aside bytes s t) : Within script (written ++ bytes) ts t := by
  refine ⟨h.returned.trans (List.prefix_append _ _), ?_⟩
  rw [List.append_assoc, ha.unwritten]
  exact h.written

/-- A process that is being stopped writes less, and nothing is read meanwhile. -/
theorem Within.curbed (h : Within script written ts s) (hc : s.process.Curbed t.process) :
    Within script written ts t :=
  ⟨h.returned, ((List.prefix_append_right_inj written).2 hc.unwritten).trans h.written⟩

/-- Only the answer of a read tells of the output. -/
theorem Within.answer {us : List (Call × Reply)} (h : Within script written ts s)
    (hu : t.process.unwritten = s.process.unwritten) (hus : heard us = []) :
    Within script written (ts ++ us) t := by
  refine ⟨?_, by rw [hu]; exact h.written⟩
  rw [heard_append, hus, List.append_nil]
  exact h.returned

/-- When all has been written, no more is. -/
theorem Within.unwritten_eq_nil (h : Within script written ts s) (hw : written = script) :
    s.process.unwritten = [] := by
  have hlen := h.written.length_le
  rw [hw, List.length_append] at hlen
  exact List.eq_nil_of_length_eq_zero (by omega)

theorem Spent.answer {us : List (Call × Reply)} (h : Spent script written ts) (hus : heard us = [])
    (hends : ends us = 0) : Spent script written (ts ++ us) := by
  refine ⟨?_, h.written, ?_⟩
  · rw [heard_append, hus, List.append_nil, h.returned]
  · rw [ends_append, hends, h.once]

/-- **In between.** What has been written is counted, and all else stays. -/
theorem standing_aside {bytes : List UInt8} (h : Standing script written ts c s)
    (ha : Aside bytes s t) : Standing script (written ++ bytes) ts c t := by
  cases h with
  | idle hs hopen => exact .idle (ha.idle hs) (hopen.aside ha)
  | waiting p call hp hs hc hcall hopen =>
    exact .waiting p call hp (ha.waits hs) hc hcall (hopen.aside ha)
  | stopping hs hc hin hends hun => exact .stopping (ha.stopping hs) hc (hin.aside ha) hends hun
  | spent hs hspent hun =>
    have hnil := ha.written_eq_nil hs.closed
    rw [hnil, List.append_nil]
    exact .spent (ha.ended hs) hspent hun
  | closed hs hc hin hstopped hends =>
    refine .closed (ha.lingering hs) ?_ (hin.aside ha) hstopped (hends.imp_right ?_)
    · rw [ha.stage]
      exact hc
    · rintro ⟨hspent, ho⟩
      have hun := ha.unwritten
      rw [hin.unwritten_eq_nil hspent.written] at hun
      rw [(List.append_eq_nil_iff.1 hun).1, List.append_nil, ha.handle]
      exact ⟨hspent, ho⟩

/-- **Waiting and reading.** A chunk leaves the stock when it is handed out, and the end is handed
out when all is written and nothing is in stock. -/
theorem standing_led {p : Purpose} {call : Call} {r : Supervised × Option Reply}
    (h : Open script written ts s) (hp : p = .await ∨ p = .read) (hcall : call.For p)
    (hr : s.Led p r) : Standing script written (ts ++ turn (some call) r.2) (some call) r.1 := by
  obtain ⟨t, reply⟩ := r
  have hunstopped : ∀ r, Unstopped (ts ++ [(call, r)]) :=
    fun r => h.unstopped.append (hcall.ne_terminate hp)
  have hscript : t.process.unwritten = s.process.unwritten →
      written ++ t.process.unwritten = script := fun hu => hu ▸ h.script
  have hsilent : ∀ r, (∀ chunk, r ≠ .data chunk) → heard (ts ++ [(call, r)]) = heard ts := by
    intro r hr
    rw [heard_append, heard_single hr, List.append_nil]
  have hends : ∀ r, r ≠ .eof → ends (ts ++ [(call, r)]) = 0 := by
    intro r hr
    rw [ends_append, ends_single hr, h.ends]
  -- an answer that is no output leaves the stock as it was
  have hidle : ∀ r, (∀ chunk, r ≠ .data chunk) → r ≠ .eof → t.Idle → Moved [] s t →
      Standing script written (ts ++ [(call, r)]) (some call) t := by
    intro r hdata heof hidle hmoved
    refine .idle hidle ⟨?_, hscript hmoved.2.1, hends r heof, hunstopped r⟩
    rw [hsilent r hdata, ← h.stock, ← hmoved.1]
    rfl
  cases reply with
  | none =>
    obtain ⟨hwaits, hmoved⟩ := hr
    refine .waiting p call hp hwaits rfl hcall ?_
    rw [turn_none, List.append_nil]
    refine ⟨?_, hscript hmoved.2.1, h.ends, h.unstopped⟩
    rw [← h.stock, ← hmoved.1]
    rfl
  | some reply =>
    cases reply with
    | ready => exact hidle _ nofun nofun hr.2.1 hr.2.2
    | data chunk =>
      obtain ⟨rfl, hidle', hmoved, -⟩ := hr
      refine .idle hidle' ⟨?_, hscript hmoved.2.1, hends _ nofun, hunstopped _⟩
      rw [turn_some, heard_append, heard_read hcall, List.append_assoc, hmoved.1, h.stock]
    | eof =>
      obtain ⟨rfl, hended, hmoved⟩ := hr
      have hall : heard ts = written := by
        rw [← h.stock, ← hmoved.1, hended.stock, List.append_nil, List.append_nil]
      have hwritten := hscript hmoved.2.1
      rw [Process.unwritten_of_closed hended.closed, List.append_nil] at hwritten
      refine .spent hended ⟨?_, hwritten, ?_⟩ (hunstopped _)
      · rw [turn_some, hsilent .eof nofun, hall, hwritten]
      · rw [turn_some, ends_append, h.ends]
        rfl
    | stopped => exact hr.elim
    | failed fault => exact hidle _ nofun nofun hr.1 hr.2.1

/-- **Stopping.** The stop is answered when all has been let go. -/
theorem standing_halted {r : Supervised × Option Reply} (h : Within script written ts s)
    (hends : ends ts = 0) (hunstopped : Unstopped ts) (hr : Halted s.process r) :
    Standing script written (ts ++ turn (some .terminate) r.2) (some .terminate) r.1 := by
  obtain ⟨t, reply⟩ := r
  have hclosed : ∀ r, r ≠ .eof → t.Released → s.process.Curbed t.process →
      Standing script written (ts ++ [(.terminate, r)]) (some .terminate) t := by
    intro r heof hreleased hcurbed
    refine .closed hreleased.lingering ?_ ((h.curbed hcurbed).answer rfl rfl) ?_ ?_
    · rw [hreleased.stage]
      nofun
    · exact ⟨r, List.mem_append_right _ List.mem_cons_self⟩
    · exact .inl (by rw [ends_append, ends_single heof, hends])
  cases reply with
  | none =>
    rw [turn_none, List.append_nil]
    exact .stopping hr.1 rfl (h.curbed hr.2) hends hunstopped
  | some reply =>
    cases reply with
    | stopped => exact hclosed _ nofun hr.1 hr.2
    | failed fault => exact hclosed _ nofun hr.1 hr.2
    | _ => exact hr.elim

/-- **After the release.** No answer tells of the output any more. -/
theorem standing_lingered {call : Call} {r : Supervised × Option Reply} (hs : s.Lingered r)
    (hc : r.1.stage.isSome → call.For .await) (hsilent : heard (turn (some call) r.2) = [])
    (hin : Within script written ts s) (hstopped : ∃ r, (Call.terminate, r) ∈ ts)
    (hends : ends ts = 0 ∨ Spent script written ts ∧ s.handle.outcome.isSome) :
    Standing script written (ts ++ turn (some call) r.2) (some call) r.1 := by
  obtain ⟨r', hmem⟩ := hstopped
  have hnone : ends (turn (some call) r.2) = 0 := by
    cases hr : r.2 with
    | none => rfl
    | some reply => exact ends_single fun heq => hs.reply (hr.trans (congrArg some heq))
  refine .closed hs.lingering (fun h => ⟨call, rfl, hc h⟩) (hin.answer hs.unwritten hsilent)
    ⟨r', List.mem_append_left _ hmem⟩ (hends.imp ?_ ?_)
  · intro h
    rw [ends_append, hnone, h]
  · rintro ⟨hspent, ho⟩
    exact ⟨hspent.answer hsilent hnone, hs.outcome ho⟩

theorem isStopping_of_stopping (h : s.Stopping) : s.isStopping = true := by
  obtain ⟨stage, hstage, hfits⟩ := h.stage
  unfold isStopping
  rw [hstage]
  cases stage with
  | stopping deadline => rfl
  | killing => rfl
  | joining p deadline => cases p <;> first | rfl | exact hfits.elim
  | _ => exact hfits.elim

/-- **A call.** It is answered or waits, as the owner can still read or not. -/
theorem standing_call (h : Standing script written ts c s) (hok : s.isStopping = false)
    (call : Call) : Standing script written (ts ++ turn (some call) (s.start call).2) (some call)
      (s.start call).1 := by
  have hlisten : s.Held → Open script written ts s → Standing script written
      (ts ++ turn (some call) (s.start call).2) (some call) (s.start call).1 := by
    intro hs hopen
    cases call with
    | await max limit =>
      exact standing_led hopen (.inl rfl) trivial (led_start_await hs max limit)
    | read max => exact standing_led hopen (.inr rfl) trivial (led_start_read hs max)
    | terminate =>
      exact standing_halted hopen.within hopen.ends hopen.unstopped (halted_start hs.released)
  cases h with
  | idle hs hopen => exact hlisten hs.toHeld hopen
  | waiting p under hp hs hc hcall hopen => exact hlisten hs.toHeld hopen
  | stopping hs => exact absurd ((isStopping_of_stopping hs).symm.trans hok) (by decide)
  | spent hs hspent hunstopped =>
    have hsame : ∀ r, r ≠ .eof → call ≠ .terminate → s.start call = s.reply r →
        heard [(call, r)] = [] → Standing script written
          (ts ++ turn (some call) (s.start call).2) (some call) (s.start call).1 := by
      intro r heof hcall hstart hsilent
      rw [hstart]
      refine .spent ?_ (hspent.answer hsilent (ends_single heof)) (hunstopped.append hcall)
      exact { hs with stage := rfl }
    cases call with
    | await max limit => exact hsame .ready (by simp) (by simp) (by simp [start, hs.drained]) rfl
    | read max =>
      exact hsame (.failed .closed) (by simp) (by simp) (by simp [start, hs.eofSent]) rfl
    | terminate =>
      obtain ⟨t, hstart, hreleased, hout, hprocess⟩ := hs.start_terminate
      rw [hstart]
      have hunwritten : t.process.unwritten = [] := by
        rw [hprocess]
        exact Process.unwritten_of_closed hs.closed
      have hdone : Spent script written (ts ++ turn (some .terminate) (some .stopped)) :=
        hspent.answer rfl rfl
      have hall := hdone.returned.trans hspent.written.symm
      refine .closed hreleased.lingering ?_ ⟨hall ▸ List.prefix_rfl, ?_⟩ ?_ (.inr ⟨hdone, ?_⟩)
      · intro hsome
        rw [hreleased.stage] at hsome
        cases hsome
      · rw [hunwritten, List.append_nil]
        exact hspent.written ▸ List.prefix_rfl
      · exact ⟨.stopped, List.mem_append_right _ List.mem_cons_self⟩
      · rw [hout]
        exact hs.outcome
  | closed hs hc hin hstopped hends =>
    obtain ⟨hlingered, hawait, hdata⟩ := lingered_start hs call
    refine standing_lingered hlingered hawait ?_ hin hstopped hends
    cases hr : (s.start call).2 with
    | none => rfl
    | some r => exact heard_single fun chunk heq => hdata chunk (hr.trans (congrArg some heq))

/-- **Going on.** The call under way is answered or waits on. -/
theorem standing_poll (h : Standing script written ts c s) :
    Standing script written (ts ++ turn c s.poll.2) c s.poll.1 := by
  have hquiet : s.stage = none → Standing script written (ts ++ turn c s.poll.2) c s.poll.1 := by
    intro hstage
    have hpoll : s.poll = (s, none) := by
      unfold poll
      rw [hstage]
    rw [hpoll, turn_none, List.append_nil]
    exact h
  cases h with
  | idle hs hopen => exact hquiet hs.stage
  | waiting p call hp hs hc hcall hopen =>
    subst hc
    exact standing_led hopen hp hcall (led_poll hs hp)
  | stopping hs hc hin hends hunstopped =>
    subst hc
    exact standing_halted hin hends hunstopped (halted_poll hs)
  | spent hs hspent hunstopped => exact hquiet hs.stage
  | closed hs hc hin hstopped hends =>
    by_cases hstage : s.stage.isSome
    · obtain ⟨call, rfl, hcall⟩ := hc hstage
      refine standing_lingered (lingered_poll hs) (fun _ => hcall) ?_ hin hstopped hends
      cases call with
      | await max limit => cases s.poll.2 <;> rfl
      | _ => exact hcall.elim
    · exact hquiet (Option.not_isSome_iff_eq_none.1 hstage)

/-- **One thing happens**, and a call that stops the generator is not dropped. -/
theorem standing_step {m : Move} (h : Standing script written ts c s)
    (hok : (s.isStopping && m.interrupts) = false) :
    Standing script (written ++ s.emission m) (ts ++ turn (m.asks c) (s.step m).2) (m.asks c)
      (s.step m).1 := by
  cases m with
  | call call =>
    have hstopping : s.isStopping = false := by simpa [Move.interrupts] using hok
    show Standing script (written ++ []) _ _ _
    rw [List.append_nil]
    exact standing_call h hstopping call
  | poll =>
    show Standing script (written ++ []) _ _ _
    rw [List.append_nil]
    exact standing_poll h
  | cancel =>
    have hstopping : s.isStopping = false := by simpa [Move.interrupts] using hok
    show Standing script (written ++ []) (ts ++ []) none s.cancel
    rw [List.append_nil, List.append_nil]
    cases h with
    | idle hs hopen => exact .idle { hs with stage := rfl } ⟨hopen.1, hopen.2, hopen.3, hopen.4⟩
    | waiting p call hp hs hc hcall hopen =>
      refine .idle ⟨hs.toHeld.of_undisturbed ⟨rfl, rfl, rfl, rfl, rfl⟩, rfl⟩ ?_
      exact ⟨hopen.1, hopen.2, hopen.3, hopen.4⟩
    | stopping hs => exact absurd ((isStopping_of_stopping hs).symm.trans hstopping) nofun
    | spent hs hspent hunstopped => exact .spent { hs with stage := rfl } hspent hunstopped
    | closed hs hc hin hstopped hends =>
      exact .closed ⟨hs.released, nofun⟩ nofun ⟨hin.1, hin.2⟩ hstopped hends
  | act =>
    show Standing script _ (ts ++ turn c none) c s.act
    rw [turn_none, List.append_nil]
    exact standing_aside h s.aside_act
  | drain =>
    show Standing script _ (ts ++ turn c none) c s.drainOnce
    rw [turn_none, List.append_nil]
    exact standing_aside h s.aside_drainOnce
  | pass nanos =>
    show Standing script _ (ts ++ turn c none) c { s with now := s.now + nanos }
    rw [turn_none, List.append_nil]
    exact standing_aside h (s.aside_pass nanos)

/-- **A whole conversation**, move by move. -/
theorem standing_run {ms : List Move} (h : Standing script written ts c s)
    (hok : s.orderly ms = true) :
    ∃ c', Standing script (written ++ s.emitted ms) (ts ++ s.turns c ms) c' (s.run ms).1 := by
  induction ms generalizing written ts c s with
  | nil =>
    rw [emitted, turns, List.append_nil, List.append_nil]
    exact ⟨c, h⟩
  | cons m ms ih =>
    rw [orderly, Bool.and_eq_true, Bool.not_eq_true'] at hok
    rw [emitted, turns, ← List.append_assoc, ← List.append_assoc]
    exact ih (standing_step h hok.1) hok.2

end

/-! ## Whole conversations -/

/-- What an owner has been answered, after `ts`, by a generator with a script that has written some
of it and has come to `s`. -/
structure Faithful (script written : List UInt8) (ts : List (Call × Reply)) (s : Supervised) :
    Prop where
  /-- The reads have returned a front part of the output, in order. -/
  returned : heard ts <+: written
  within : written <+: script
  /-- Until the generator is stopped, what has not been returned is still held. -/
  kept : Unstopped ts → s.isStopping = false → heard ts ++ s.stock = written
  once : ends ts ≤ 1
  /-- With the end, all has been returned, and the exit is known. -/
  complete : 0 < ends ts →
    heard ts = script ∧ written = script ∧ ∃ outcome, s.handle.exitStatus = .ok outcome
  /-- After the end and after a stop, nothing is read any more. -/
  refused : 0 < ends ts ∨ ¬ Unstopped ts →
    ∀ max, s.start (.read max) = s.reply (.failed .closed)

theorem exitStatus_of_isSome {h : Handle} (ho : h.outcome.isSome) :
    ∃ outcome, h.exitStatus = .ok outcome := by
  obtain ⟨outcome, ho⟩ := Option.isSome_iff_exists.1 ho
  exact ⟨outcome, by simp [Handle.exitStatus, ho]⟩

theorem Open.faithful {script written : List UInt8} {ts : List (Call × Reply)} {s : Supervised}
    (h : Open script written ts s) : Faithful script written ts s where
  returned := h.within.returned
  within := ⟨_, h.script⟩
  kept _ _ := h.stock
  once := by rw [h.ends]; omega
  complete he := by rw [h.ends] at he; omega
  refused hor := by
    rcases hor with he | hstopped
    · rw [h.ends] at he
      omega
    · exact absurd h.unstopped hstopped

theorem Standing.faithful {script written : List UInt8} {ts : List (Call × Reply)}
    {c : Option Call} {s : Supervised} (h : Standing script written ts c s) :
    Faithful script written ts s := by
  cases h with
  | idle hs hopen => exact hopen.faithful
  | waiting p call hp hs hc hcall hopen => exact hopen.faithful
  | stopping hs hc hin hends hunstopped =>
    refine ⟨hin.returned, (List.prefix_append _ _).trans hin.written, ?_, ?_, ?_, ?_⟩
    · intro _ hstopping
      exact absurd ((isStopping_of_stopping hs).symm.trans hstopping) nofun
    · omega
    · intro he
      omega
    · rintro (he | hstopped)
      · omega
      · exact absurd hunstopped hstopped
  | spent hs hspent hunstopped =>
    have hall : heard ts = written := hspent.returned.trans hspent.written.symm
    refine ⟨hall ▸ List.prefix_rfl, hspent.written ▸ List.prefix_rfl, ?_,
      Nat.le_of_eq hspent.once, ?_, ?_⟩
    · intro _ _
      rw [hs.stock, List.append_nil, hall]
    · intro _
      exact ⟨hspent.returned, hspent.written, exitStatus_of_isSome hs.outcome⟩
    · intro _ max
      simp [start, hs.eofSent]
  | closed hs hc hin hstopped hends =>
    refine ⟨hin.returned, (List.prefix_append _ _).trans hin.written, ?_, ?_, ?_, ?_⟩
    · intro hunstopped _
      exact absurd hstopped.choose_spec (hunstopped _)
    · rcases hends with hends | ⟨hspent, -⟩
      · omega
      · exact Nat.le_of_eq hspent.once
    · intro he
      rcases hends with hends | ⟨hspent, ho⟩
      · omega
      · exact ⟨hspent.returned, hspent.written, exitStatus_of_isSome ho⟩
    · intro _ max
      exact read_of_released hs.released max

/-- **What an owner is answered**, whatever the generator does and whatever the owner asks and
drops, as long as it sees each stop through. As a conversation may be cut anywhere, this holds from
each answer on. -/
theorem answers_faithful {l : Launcher} {job : Job.Description} {s : Supervised}
    (h : l.launch job = .ok s) {ms : List Move} (hok : s.orderly ms = true) :
    (s.turns none ms).map (·.2) = (s.run ms).2 ∧
      Faithful s.process.unwritten (s.emitted ms) (s.turns none ms) (s.run ms).1 := by
  obtain ⟨hidle, hstock⟩ := idle_launch h
  refine ⟨map_turns ?_ ms, ?_⟩
  · rw [hidle.stage]
    nofun
  have hopen : Open s.process.unwritten [] [] s := ⟨hstock, rfl, rfl, nofun⟩
  obtain ⟨c, hstanding⟩ := standing_run (.idle (c := none) hidle hopen) hok
  exact hstanding.faithful

/-- A program that writes three bytes and ends. -/
def brief : Launcher where
  command := {}
  installed := .runs [.act (.out [1, 2, 3]), .act (.exit 0)]
  jobPath := []

/-- The same program, once it has been launched. -/
def briefStart : Supervised where
  process := {
    todo := [.out [1, 2, 3], .exit 0]
    ready := startTime.nanos
    output := ⟨[], pipeCapacity, Nat.zero_add _⟩ }

/-- It is waited for, read to its end, read again and stopped. -/
def briefMoves : List Move :=
  [.pass startTime.nanos, .act, .call (.await 2 (.ofSecs 1)), .poll, .call (.read 8),
    .call (.read 8), .poll, .act, .call (.read 8), .poll, .poll, .drain, .poll, .call (.read 8),
    .call .terminate]

theorem answers_faithful_brief :
    brief.launch ⟨[], ⟨44100, 100⟩, []⟩ = .ok briefStart ∧ briefStart.orderly briefMoves = true ∧
      (briefStart.run briefMoves).2 = [.ready, .data [1, 2], .data [3], .eof, .failed .closed,
        .stopped] ∧
      heard (briefStart.turns none briefMoves) = [1, 2, 3] := by
  have hlaunch : brief.launch ⟨[], ⟨44100, 100⟩, []⟩ = .ok briefStart := rfl
  have hok : briefStart.orderly briefMoves = true := by decide
  obtain ⟨-, hfaithful⟩ := answers_faithful hlaunch hok
  refine ⟨hlaunch, hok, by decide, ?_⟩
  rw [(hfaithful.complete (by decide)).1]
  decide

end Supervised

end ToneRelay.Generator
