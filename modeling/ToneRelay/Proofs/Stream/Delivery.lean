import ToneRelay.Proofs.Generator.Custody
import ToneRelay.Proofs.Stream.Dialogue
import ToneRelay.Proofs.Stream.Steps

/-!
# What a transfer delivers

The bytes of a generator are on their way through five places: the pipe, the chunk that was read
ahead, the chunk in the hands of the relay, the channel and the listener. The `Books` tell what has
been written, accepted and lost; two invariants tie them to the places.

1. `Carried`: the chunks accepted are those taken, then those lost or queued, of which there is one
   at most.
2. `Flows`: the bytes accepted, then those in the hands of the relay and of the owner, are those
   written; those that are yet to be written follow. When the relay has stopped the generator they
   are a front part, and all of them when the end of the output had been seen.

Every step preserves both (`sound_relay`, `carried_take`, `carried_leave`, `Flows.aside`).
-/

namespace ToneRelay.Stream

open Generator (Supervised Process Reply Fault)

/-- What has become of the bytes of a generator. -/
structure Books where
  /-- The bytes that the generator has written. -/
  written : List UInt8 := []
  /-- The chunks that the channel has accepted. -/
  accepted : List Chunk := []
  /-- The chunks that were queued when the listener went away. -/
  lost : List Chunk := []

namespace Books

def write (b : Books) (bytes : List UInt8) : Books := { b with written := b.written ++ bytes }

def accept (b : Books) (chunks : List Chunk) : Books := { b with accepted := b.accepted ++ chunks }

def lose (b : Books) (chunks : List Chunk) : Books := { b with lost := b.lost ++ chunks }

@[simp] theorem accept_nil (b : Books) : b.accept [] = b := by simp [accept]

@[simp] theorem write_nil (b : Books) : b.write [] = b := by simp [write]

@[simp] theorem lose_nil (b : Books) : b.lose [] = b := by simp [lose]

end Books

theorem Piece.total_eq_length (chunks : List Chunk) :
    total chunks = chunks.flatten.length := by
  induction chunks with
  | nil => rfl
  | cons chunk chunks ih =>
    rw [List.flatten_cons, List.length_append, ← ih]
    rfl

namespace Ending

/-- Whether the end of the output has been handed out. -/
def isFinished : Ending → Bool
  | .finished _ => true
  | _ => false

/-- The end of the output had been seen. -/
def Whole : Ending → Prop
  | .finished _ => True
  | .sourceFailed _ (.wait _) => True
  | _ => False

end Ending

namespace Transfer

/-- The chunk that the next step of the relay puts into the channel. -/
def sends (t : Transfer) : List Chunk :=
  match t.pump.phase with
  | .sending chunk => if t.channel.room = .accepted then [chunk] else []
  | _ => []

/-- The books of the channel. -/
structure Carried (b : Books) (t : Transfer) : Prop where
  capacity : t.channel.capacity = 1
  accepted : b.accepted = t.taken.reverse ++ (b.lost ++ t.channel.queue)
  total : t.pump.total = Piece.total b.accepted
  receiver :
    (t.channel.receiver = .listening ∧ b.lost = [] ∧ t.channel.queue.length ≤ 1) ∨
      (t.channel.receiver = .gone ∧ t.channel.queue = [] ∧ b.lost.length ≤ 1)

/-- The relay had a reason to end as it did. -/
def Explained (t : Transfer) : Ending → Prop
  | .finished total => total = t.pump.total
  | .consumerGone total => total = t.pump.total ∧ t.channel.receiver = .gone
  | .sourceFailed total fault =>
    total = t.pump.total ∧ ((∃ reason, fault = .read reason) ∨ ∃ reason, fault = .wait reason)

end Transfer

/-- No more will be read. -/
structure Books.Settled (script : List UInt8) (b : Books) (p : Process) (e : Ending) : Prop where
  delivered : b.accepted.flatten <+: b.written
  ahead : b.written ++ p.unwritten <+: script
  whole : e.Whole →
    b.accepted.flatten = b.written ∧ b.written = script ∧ p.outputOpen = false

/-- Some bytes are in the hands of the relay, and more will be read. -/
structure Books.Open (script : List UInt8) (b : Books) (s : Supervised) (hand : List UInt8) :
    Prop where
  written : b.accepted.flatten ++ (hand ++ s.stock) = b.written
  ahead : b.written ++ s.process.unwritten = script

namespace Transfer

/-- The books of the generator, in each phase of the relay. -/
def Flows (script : List UInt8) (b : Books) (t : Transfer) : Prop :=
  match t.pump.phase with
  | .checking => t.source.Idle ∧ b.Open script t.source []
  | .reading => t.source.Waits .read ∧ b.Open script t.source []
  | .sending chunk => t.source.Idle ∧ b.Open script t.source chunk
  | .stopping e => t.source.Stopping ∧ e.isFinished = false ∧
      b.Settled script t.source.process e ∧ t.Explained e
  | .done e => t.source.AtRest ∧ (e.isFinished = true → t.source.handle.outcome.isSome) ∧
      b.Settled script t.source.process e ∧ t.Explained e

end Transfer

/-! ## Books -/

namespace Books

variable {script : List UInt8} {b : Books}

theorem Settled.of_curbed {p q : Process} {e : Ending} (h : b.Settled script p e)
    (hc : p.Curbed q) : b.Settled script q e := by
  refine ⟨h.delivered, ?_, ?_⟩
  · exact ((List.prefix_append_right_inj b.written).2 hc.unwritten).trans h.ahead
  · intro hw
    obtain ⟨hall, hscript, ho⟩ := h.whole hw
    exact ⟨hall, hscript, hc.closed ho⟩

/-- A relay that stops the generator has delivered a front part. -/
theorem Open.settled {s : Supervised} {hand : List UInt8} {e : Ending}
    (h : b.Open script s hand) (he : ¬ e.Whole) : b.Settled script s.process e := by
  exact ⟨⟨_, h.written⟩, ⟨[], (List.append_nil _).trans h.ahead⟩, fun hw => absurd hw he⟩

/-- When nothing is held and nothing can be written, all has been delivered. -/
theorem Open.settled_whole {s : Supervised} {e : Ending} (h : b.Open script s [])
    (hstock : s.stock = []) (ho : s.process.outputOpen = false) : b.Settled script s.process e := by
  have hall : b.accepted.flatten = b.written := by
    rw [← h.written, hstock, List.append_nil, List.append_nil]
  have hscript : b.written = script := by
    rw [← h.ahead, Process.unwritten_of_closed ho, List.append_nil]
  exact ⟨⟨[], (List.append_nil _).trans hall⟩, ⟨[], (List.append_nil _).trans h.ahead⟩,
    fun _ => ⟨hall, hscript, ho⟩⟩

/-- What a call hands out comes into the hands of the relay. -/
theorem Open.of_moved {s t : Supervised} {chunk : List UInt8} (h : b.Open script s [])
    (hm : Supervised.Moved chunk s t) : b.Open script t chunk := by
  refine ⟨?_, by rw [hm.2.1, h.ahead]⟩
  rw [hm.1, ← h.written]
  rfl

end Books

namespace Transfer

variable {script : List UInt8} {b : Books} {t : Transfer}

/-- The books of the channel and of the generator. -/
structure Sound (script : List UInt8) (b : Books) (t : Transfer) : Prop where
  carried : t.Carried b
  flows : t.Flows script b

theorem Explained.congr {t u : Transfer} {e : Ending} (h : t.Explained e)
    (htotal : u.pump.total = t.pump.total)
    (hgone : t.channel.receiver = .gone → u.channel.receiver = .gone) : u.Explained e := by
  cases e with
  | finished total => exact h.trans htotal.symm
  | consumerGone total => exact ⟨h.1.trans htotal.symm, hgone h.2⟩
  | sourceFailed total fault => exact ⟨h.1.trans htotal.symm, h.2⟩

theorem Explained.total_eq {e : Ending} (h : t.Explained e) : e.total = t.pump.total := by
  cases e with
  | finished total => exact h
  | consumerGone total => exact h.1
  | sourceFailed total fault => exact h.1

/-- The channel does not depend on where the relay and the generator are. -/
theorem Carried.congr {t u : Transfer} (h : t.Carried b) (hchannel : u.channel = t.channel)
    (htaken : u.taken = t.taken) (htotal : u.pump.total = t.pump.total) : u.Carried b := by
  refine ⟨?_, ?_, htotal.trans h.total, ?_⟩
  · rw [hchannel, h.capacity]
  · rw [hchannel, htaken, h.accepted]
  · rw [hchannel]
    exact h.receiver

/-- A listener that has withdrawn is gone. -/
theorem Carried.gone (h : t.Carried b) (hw : t.channel.receiver ≠ .listening) :
    t.channel.receiver = .gone := by
  rcases h.receiver with ⟨hl, -⟩ | ⟨hg, -⟩
  · exact absurd hl hw
  · exact hg

/-! ## Steps of the relay -/

/-- The generator that the relay stops has answered, or not yet. -/
theorem sound_stopped {p : Process} {e : Ending} {r : Option Reply}
    (hphase : t.pump.phase = .stopping e) (hc : t.Carried b) (he : e.isFinished = false)
    (hs : b.Settled script p e) (hx : t.Explained e) (hh : Supervised.Halted p (t.source, r)) :
    Sound script b (t.tellStopped r).1 := by
  cases r with
  | none =>
    obtain ⟨hstopping, hcurbed⟩ := hh
    refine ⟨hc, ?_⟩
    show Flows script b t
    unfold Flows
    rw [hphase]
    exact ⟨hstopping, he, hs.of_curbed hcurbed, hx⟩
  | some reply =>
    have hreleased : t.source.Released ∧ p.Curbed t.source.process := by
      cases reply with
      | stopped => exact hh
      | failed fault => exact hh
      | _ => exact hh.elim
    rw [tellStopped_some hphase]
    refine ⟨hc.congr rfl rfl rfl, .inl hreleased.1, fun hfin => ?_, hs.of_curbed hreleased.2,
      hx.congr rfl id⟩
    exact absurd (he.symm.trans hfin) nofun

/-- The relay stops the generator. -/
theorem sound_halt {e : Ending} {a : Answer Chunk} (hstep : (t.pump.step a).1 = t.pump.stop e)
    (hreleased : t.source.handle.released = false) (hc : t.Carried b) (he : e.isFinished = false)
    (hs : b.Settled script t.source.process e) (hx : t.Explained e) :
    Sound script b (t.halt a).1 := by
  rw [halt_eq hstep]
  exact sound_stopped rfl (hc.congr rfl rfl rfl) he hs (hx.congr rfl id)
    (Supervised.halted_start hreleased)

/-- A read has been answered, or not yet. -/
theorem sound_read {s : Supervised} {r : Option Reply} (hphase : t.pump.phase = .reading)
    (hc : t.Carried b) (ho : b.Open script s []) (hl : s.Led .read (t.source, r)) :
    Sound script b (t.tellRead r).1 := by
  cases r with
  | none =>
    obtain ⟨hwaits, hmoved⟩ := hl
    refine ⟨hc, ?_⟩
    show Flows script b t
    unfold Flows
    rw [hphase]
    exact ⟨hwaits, ho.of_moved hmoved⟩
  | some reply =>
    cases reply with
    | ready => exact absurd hl.1 nofun
    | stopped => exact hl.elim
    | data chunk =>
      obtain ⟨-, hidle, hmoved, -⟩ := hl
      rw [tellRead_data hphase]
      exact ⟨hc.congr rfl rfl rfl, hidle, ho.of_moved hmoved⟩
    | eof =>
      obtain ⟨-, hended, hmoved⟩ := hl
      rw [tellRead_eof hphase]
      have hopen := ho.of_moved hmoved
      exact ⟨hc.congr rfl rfl rfl, .inr hended, fun _ => hended.outcome,
        hopen.settled_whole hended.stock hended.closed, rfl⟩
    | failed fault =>
      obtain ⟨hidle, hmoved, hfault⟩ := hl
      have hstep : (t.pump.step (.read (.failed fault))).1 =
          t.pump.stop (.sourceFailed t.pump.total fault) := by
        unfold Pump.step
        rw [hphase]
      have hopen := ho.of_moved hmoved
      rcases hfault rfl with ⟨reason, rfl⟩ | ⟨⟨reason, rfl⟩, hd⟩
      · exact sound_halt hstep hidle.released hc rfl (hopen.settled nofun) ⟨rfl, .inl ⟨_, rfl⟩⟩
      · refine sound_halt hstep hidle.released hc rfl ?_ ⟨rfl, .inr ⟨_, rfl⟩⟩
        exact hopen.settled_whole (hidle.stock_eq_nil hd) (hidle.dry hd).2.2

/-- The relay sees that the listener has gone. -/
theorem sound_gone {a : Answer Chunk} {hand : List UInt8}
    (hstep : (t.pump.step a).1 = t.pump.stop (.consumerGone t.pump.total))
    (hreleased : t.source.handle.released = false) (hc : t.Carried b)
    (ho : b.Open script t.source hand) (hw : t.channel.receiver ≠ .listening) :
    Sound script b (t.halt a).1 :=
  sound_halt hstep hreleased hc rfl (ho.settled id) ⟨rfl, hc.gone hw⟩

/-- The channel takes the chunk in the hands of the relay. -/
theorem sound_accepted {chunk : Chunk} (hphase : t.pump.phase = .sending chunk) (hc : t.Carried b)
    (hidle : t.source.Idle) (ho : b.Open script t.source chunk)
    (hroom : t.channel.room = .accepted) :
    Sound script (b.accept [chunk]) ({ t with
      channel := { t.channel with queue := t.channel.queue ++ [chunk] } }.tell .accepted).1 := by
  obtain ⟨hphase', -, htotal, -⟩ := t.pump.advance_spec chunk
  obtain ⟨hl, hlength⟩ := Channel.room_eq_accepted_iff.1 hroom
  rw [hc.capacity] at hlength
  have hqueue : t.channel.queue = [] := List.eq_nil_of_length_eq_zero (by omega)
  have hlost : b.lost = [] := by
    rcases hc.receiver with ⟨-, hlost, -⟩ | ⟨hg, -⟩
    · exact hlost
    · exact absurd (hl.symm.trans hg) nofun
  rw [tell_accepted hphase]
  refine ⟨⟨hc.capacity, ?_, ?_, .inl ⟨hl, hlost, ?_⟩⟩, ?_⟩
  · show b.accepted ++ [chunk] = t.taken.reverse ++ (b.lost ++ (t.channel.queue ++ [chunk]))
    rw [hc.accepted, List.append_assoc, List.append_assoc]
  · show (t.pump.advance chunk).1.total = Piece.total (b.accepted ++ [chunk])
    rw [htotal, hc.total, Piece.total_concat]
  · show (t.channel.queue ++ [chunk]).length ≤ 1
    rw [hqueue]
    exact Nat.le_refl 1
  · unfold Flows
    dsimp only
    rw [hphase']
    refine ⟨hidle, ?_, ho.ahead⟩
    show (b.accepted ++ [chunk]).flatten ++ ([] ++ t.source.stock) = b.written
    rw [List.flatten_append, List.flatten_singleton, List.append_assoc]
    exact ho.written

/-- A relay that waits sends nothing. -/
theorem sends_of_relay_eq_none (h : t.relay = none) : t.sends = [] := by
  unfold sends
  cases stuck_of_relay h with
  | sending hphase hroom => simp [hphase, hroom]
  | reading hphase | stopping hphase | done hphase => simp [hphase]

theorem sends_of_done {e : Ending} (h : t.pump.phase = .done e) : t.sends = [] :=
  sends_of_relay_eq_none (relay_of_done h)

/-- **One step of the relay.** The books are kept with the chunk that the step sends. -/
theorem sound_relay {q : Transfer × List (Event Chunk)} (h : Sound script b t)
    (hr : t.relay = some q) : Sound script (b.accept t.sends) q.1 := by
  obtain ⟨hc, hf⟩ := h
  unfold Flows at hf
  cases relay_eq_some_iff.1 hr with
  | gone hphase hl =>
    simp only [hphase] at hf
    simp only [sends, hphase, Books.accept_nil]
    exact sound_gone (by simp [Pump.step, hphase]) hf.1.released hc hf.2 hl
  | ask hphase hl =>
    simp only [hphase] at hf
    simp only [sends, hphase, Books.accept_nil]
    exact sound_read rfl (hc.congr rfl rfl rfl) hf.2 (Supervised.led_start_read hf.1.toHeld _)
  | dropped hphase hl =>
    simp only [hphase] at hf
    simp only [sends, hphase, Books.accept_nil]
    exact sound_gone (by simp [Pump.step, hphase]) hf.1.released (hc.congr rfl rfl rfl)
      ⟨hf.2.written, hf.2.ahead⟩ hl
  | read hphase hl hpoll =>
    simp only [hphase] at hf
    simp only [sends, hphase, Books.accept_nil]
    have hled := Supervised.led_poll hf.1 (.inr rfl)
    rw [hpoll] at hled
    exact sound_read hphase (hc.congr rfl rfl rfl) hf.2 hled
  | @reading g hphase hl hpoll hstage =>
    simp only [hphase] at hf
    simp only [sends, hphase, Books.accept_nil]
    have hled := Supervised.led_poll hf.1 (.inr rfl)
    rw [hpoll] at hled
    exact sound_read (t := { t with source := g }) hphase (hc.congr rfl rfl rfl) hf.2 hled
  | sent hphase hroom =>
    simp only [hphase] at hf
    simp only [sends, hphase, if_pos hroom]
    exact sound_accepted hphase hc hf.1 hf.2 hroom
  | refused hphase hl =>
    have hroom : t.channel.room ≠ .accepted := by simp [hl]
    simp only [hphase] at hf
    simp only [sends, hphase, if_neg hroom, Books.accept_nil]
    exact sound_gone (by simp [Pump.step, hphase]) hf.1.released hc hf.2 hl
  | stopped hphase hpoll =>
    simp only [hphase] at hf
    simp only [sends, hphase, Books.accept_nil]
    obtain ⟨hstopping, he, hs, hx⟩ := hf
    have hhalted := Supervised.halted_poll hstopping
    rw [hpoll] at hhalted
    exact sound_stopped hphase (hc.congr rfl rfl rfl) he hs (hx.congr rfl id) hhalted
  | @stopping e g hphase hpoll hstage =>
    simp only [hphase] at hf
    simp only [sends, hphase, Books.accept_nil]
    obtain ⟨hstopping, he, hs, hx⟩ := hf
    have hhalted := Supervised.halted_poll hstopping
    rw [hpoll] at hhalted
    exact sound_stopped (t := { t with source := g }) hphase (hc.congr rfl rfl rfl) he hs
      (hx.congr rfl id) hhalted

/-! ## Steps of the listener -/

/-- What the relay and the generator do with the bytes does not depend on the channel, as long as a
listener that has gone does not come back. -/
theorem Flows.congr {u : Transfer} (h : t.Flows script b) (hpump : u.pump = t.pump)
    (hsource : u.source = t.source)
    (hgone : t.channel.receiver = .gone → u.channel.receiver = .gone) (lost : List Chunk) :
    u.Flows script { b with lost := lost } := by
  have hx : ∀ e, t.Explained e → u.Explained e := by
    intro e he
    exact he.congr (by rw [hpump]) hgone
  unfold Flows at h ⊢
  rw [hpump, hsource]
  cases hphase : t.pump.phase with
  | stopping e =>
    rw [hphase] at h
    obtain ⟨hstopping, he, hs, hexplained⟩ := h
    exact ⟨hstopping, he, ⟨hs.delivered, hs.ahead, hs.whole⟩, hx e hexplained⟩
  | done e =>
    rw [hphase] at h
    obtain ⟨hrest, houtcome, hs, hexplained⟩ := h
    exact ⟨hrest, houtcome, ⟨hs.delivered, hs.ahead, hs.whole⟩, hx e hexplained⟩
  | _ =>
    rw [hphase] at h
    exact ⟨h.1, h.2.written, h.2.ahead⟩

theorem carried_take (h : t.Carried b) : t.take.Carried b := by
  rcases t.take_cases with ⟨htake, -⟩ | ⟨chunk, rest, hg, hqueue, htake⟩
  · rwa [htake]
  · have hlisten := h.receiver.resolve_right fun hr => hg hr.1
    obtain ⟨hl, hlost, hlength⟩ := hlisten
    rw [hqueue] at hlength
    rw [htake]
    refine ⟨h.capacity, ?_, h.total, .inl ⟨hl, hlost, Nat.le_of_succ_le hlength⟩⟩
    show b.accepted = (chunk :: t.taken).reverse ++ (b.lost ++ rest)
    rw [h.accepted, hqueue, hlost, List.reverse_cons, List.append_assoc]
    rfl

/-- The listener goes away, and what is queued is lost. -/
theorem carried_leave (h : t.Carried b) : t.leave.Carried (b.lose t.channel.queue) := by
  refine ⟨h.capacity, ?_, h.total, .inr ⟨rfl, rfl, ?_⟩⟩
  · show b.accepted = t.taken.reverse ++ (b.lost ++ t.channel.queue ++ [])
    rw [h.accepted, List.append_nil]
  · show (b.lost ++ t.channel.queue).length ≤ 1
    rcases h.receiver with ⟨-, hlost, hlength⟩ | ⟨-, hqueue, hlength⟩
    · rwa [hlost]
    · rwa [hqueue, List.append_nil]

theorem sound_take (h : t.Sound script b) : t.take.Sound script b := by
  refine ⟨carried_take h.carried, ?_⟩
  rcases t.take_cases with ⟨htake, -⟩ | ⟨chunk, rest, -, -, htake⟩
  · rw [htake]
    exact h.flows
  · rw [htake]
    exact h.flows.congr rfl rfl id b.lost

theorem sound_leave (h : t.Sound script b) : t.leave.Sound script (b.lose t.channel.queue) :=
  ⟨carried_leave h.carried,
    h.flows.congr (u := t.leave) rfl rfl (fun _ => rfl) (b.lost ++ t.channel.queue)⟩

/-- The body is ended. -/
theorem sound_finish (h : t.Sound script b) :
    Sound script b { t with channel := t.channel.finish } :=
  ⟨⟨h.carried.capacity, h.carried.accepted, h.carried.total, h.carried.receiver⟩,
    h.flows.congr rfl rfl id b.lost⟩

/-! ## Steps of the generator -/

end Transfer

namespace Books

variable {script written : List UInt8} {b : Books} {s s' : Supervised}

theorem Open.aside {hand : List UInt8} (h : b.Open script s hand)
    (ha : Supervised.Aside written s s') : (b.write written).Open script s' hand := by
  constructor
  · show b.accepted.flatten ++ (hand ++ s'.stock) = b.written ++ written
    rw [ha.stock, ← h.written, List.append_assoc, List.append_assoc]
  · show b.written ++ written ++ s'.process.unwritten = script
    rw [List.append_assoc, ha.unwritten, h.ahead]

theorem Settled.aside {e : Ending} (h : b.Settled script s.process e)
    (ha : Supervised.Aside written s s') : (b.write written).Settled script s'.process e := by
  refine ⟨h.delivered.trans (List.prefix_append _ _), ?_, ?_⟩
  · show b.written ++ written ++ s'.process.unwritten <+: script
    rw [List.append_assoc, ha.unwritten]
    exact h.ahead
  · intro hw
    obtain ⟨hall, hscript, ho⟩ := h.whole hw
    rw [ha.written_eq_nil ho, write_nil]
    exact ⟨hall, hscript, ha.closed ho⟩

end Books

namespace Transfer

variable {script written : List UInt8} {b : Books} {t : Transfer}

/-- **One step of the generator.** The books are kept with what it writes. -/
theorem sound_aside {g : Supervised} (h : t.Sound script b)
    (ha : Supervised.Aside written t.source g) :
    Sound script (b.write written) { t with source := g } := by
  obtain ⟨hc, hf⟩ := h
  refine ⟨⟨hc.capacity, hc.accepted, hc.total, hc.receiver⟩, ?_⟩
  unfold Flows at hf ⊢
  dsimp only
  cases hphase : t.pump.phase with
  | checking =>
    rw [hphase] at hf
    exact ⟨ha.idle hf.1, hf.2.aside ha⟩
  | reading =>
    rw [hphase] at hf
    exact ⟨ha.waits hf.1, hf.2.aside ha⟩
  | sending chunk =>
    rw [hphase] at hf
    exact ⟨ha.idle hf.1, hf.2.aside ha⟩
  | stopping e =>
    rw [hphase] at hf
    obtain ⟨hstopping, he, hs, hx⟩ := hf
    exact ⟨ha.stopping hstopping, he, hs.aside ha, hx.congr rfl id⟩
  | done e =>
    rw [hphase] at hf
    obtain ⟨hrest, houtcome, hs, hx⟩ := hf
    refine ⟨ha.atRest hrest, ?_, hs.aside ha, hx.congr rfl id⟩
    rw [ha.handle]
    exact houtcome

/-! ## What follows for the listener -/

theorem sound_begin {g : Supervised} (options : RelayOptions) (hg : g.Idle)
    (ho : b.Open script g []) (ha : b.accepted = []) (hl : b.lost = []) :
    Sound script b (begin g options) :=
  ⟨⟨rfl, by rw [ha, hl]; rfl, by rw [ha]; rfl, .inl ⟨rfl, hl, Nat.zero_le 1⟩⟩, hg, ho⟩

/-- **What is delivered.** The bytes accepted are a front part of those written. -/
theorem Flows.delivered (h : t.Flows script b) :
    b.accepted.flatten <+: b.written ∧ b.written <+: script := by
  have hopen : ∀ {hand}, b.Open script t.source hand →
      b.accepted.flatten <+: b.written ∧ b.written <+: script := by
    intro hand ho
    exact ⟨⟨_, ho.written⟩, ⟨_, ho.ahead⟩⟩
  have hsettled : ∀ {e}, b.Settled script t.source.process e →
      b.accepted.flatten <+: b.written ∧ b.written <+: script := by
    intro e hs
    exact ⟨hs.delivered, (List.prefix_append _ _).trans hs.ahead⟩
  unfold Flows at h
  cases hphase : t.pump.phase with
  | checking =>
    rw [hphase] at h
    exact hopen h.2
  | reading =>
    rw [hphase] at h
    exact hopen h.2
  | sending chunk =>
    rw [hphase] at h
    exact hopen h.2
  | stopping e =>
    rw [hphase] at h
    exact hsettled h.2.2.1
  | done e =>
    rw [hphase] at h
    exact hsettled h.2.2.1

/-- What has been taken comes before what is lost or queued. -/
theorem Carried.received_append (h : t.Carried b) :
    t.received ++ (b.lost ++ t.channel.queue).flatten = b.accepted.flatten := by
  rw [h.accepted]
  exact List.flatten_append.symm

/-- **What is received.** The bytes that the listener has taken are the first ones written. -/
theorem Sound.received (h : t.Sound script b) : t.received <+: b.written :=
  List.IsPrefix.trans ⟨_, h.carried.received_append⟩ h.flows.delivered.1

/-- The total counts what was taken and at most one chunk more. -/
theorem Carried.total_eq (h : t.Carried b) :
    t.pump.total = t.received.length + (b.lost ++ t.channel.queue).flatten.length ∧
      (b.lost ++ t.channel.queue).length ≤ 1 := by
  constructor
  · rw [h.total, Piece.total_eq_length, ← h.received_append, List.length_append]
  · rcases h.receiver with ⟨-, hlost, hlength⟩ | ⟨-, hqueue, hlength⟩
    · rwa [hlost]
    · rwa [hqueue, List.append_nil]

end Transfer

end ToneRelay.Stream
