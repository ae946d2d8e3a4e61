import Mathlib.Data.Prod.Lex
import ToneRelay.Proofs.Generator.Patience
import ToneRelay.Proofs.Stream.Delivery

/-!
# How a transfer comes to its end

A transfer is `Doomed` once its listener has gone, its generator has exited or the relay stops it.

1. Every step of the relay lowers the `rank`, a bound for the steps that it has left
   (`nears_relay`).
2. The relay of a transfer that is doomed waits only for time to pass or for its listener to take a
   chunk (`waits_for`).
3. In a transfer that is doomed nothing raises the rank (`rank_aside`, `rank_take`, `rank_leave`).
-/

namespace ToneRelay.Stream

open Generator (Supervised Process Reply Fault)

namespace Transfer

/-- The transfer has an end: there is no one to send to, or nothing more to send. -/
def Doomed (t : Transfer) : Prop :=
  match t.pump.phase with
  | .stopping _ | .done _ => True
  | _ => t.channel.receiver = .gone ∨ t.source.process.exit.isSome

/-- A bound for the steps of a round with so many left, and of those that follow. Each round takes
some of the bytes that the generator has written; none begins when the listener has gone. -/
def toCome (t : Transfer) (n : Nat) : Nat :=
  if t.channel.receiver = .gone then 4 else 5 * t.source.stock.length + n + 5

/-- A bound for the steps that the relay has left, as long as nothing more is written. -/
def rank (t : Transfer) : Nat :=
  match t.pump.phase with
  | .sending _ => t.toCome 4
  | .checking => t.toCome 3
  | .reading => t.toCome t.source.height
  | .stopping _ => t.source.height + 1
  | .done _ => 0

variable {script written : List UInt8} {b : Books} {t u : Transfer}

theorem doomed_of_gone (h : t.channel.receiver = .gone) : t.Doomed := by
  unfold Doomed
  split
  · trivial
  · trivial
  · exact .inl h

theorem doomed_of_exit (h : t.source.process.exit.isSome) : t.Doomed := by
  unfold Doomed
  split
  · trivial
  · trivial
  · exact .inr h

theorem four_le_toCome (t : Transfer) (n : Nat) : 4 ≤ t.toCome n := by
  unfold toCome
  split <;> omega

/-- A relay with few steps left stops. -/
theorem doomed_of_rank (h : t.rank ≤ 3) : t.Doomed := by
  have hround : ∀ n, ¬ t.toCome n ≤ 3 := by
    intro n
    exact Nat.not_le_of_lt (t.four_le_toCome n)
  unfold rank at h
  unfold Doomed
  cases hphase : t.pump.phase with
  | stopping e => trivial
  | done e => trivial
  | _ =>
    rw [hphase] at h
    exact absurd h (hround _)

/-! ## Steps of the relay -/

/-- The relay has come nearer to its end, and an end that was certain still is. -/
def Nears (t u : Transfer) : Prop := u.rank < t.rank ∧ (t.Doomed → u.Doomed)

theorem nears_of_rank {n : Nat} (hu : u.rank ≤ 3) (ht : t.rank = t.toCome n) : t.Nears u := by
  constructor
  · have := t.four_le_toCome n
    omega
  · intro _
    exact doomed_of_rank hu

/-- The relay stops the generator, and then it has few steps left. -/
theorem rank_halt {e : Ending} {a : Answer Chunk} (hstep : (t.pump.step a).1 = t.pump.stop e) :
    (t.halt a).1.rank ≤ 3 := by
  rw [halt_eq hstep]
  cases (t.source.start .terminate).2 with
  | none => exact Nat.succ_le_succ (Supervised.height_le _)
  | some r =>
    rw [tellStopped_some rfl r]
    exact Nat.zero_le 3

/-- An end that is certain while a listener is there is certain because of the generator. -/
theorem exit_of_doomed (h : t.Doomed) (hrank : 4 ≤ t.rank) (hl : t.channel.receiver ≠ .gone) :
    t.source.process.exit.isSome := by
  unfold Doomed at h
  unfold rank at hrank
  cases hphase : t.pump.phase with
  | stopping e =>
    rw [hphase] at hrank
    exact absurd t.source.height_le (Nat.not_le_of_lt (Nat.le_of_succ_le_succ hrank))
  | done e =>
    rw [hphase] at hrank
    cases hrank
  | _ =>
    rw [hphase] at h
    exact h.resolve_left hl

/-- A step within the rounds has fewer steps to follow, or has taken some bytes. -/
theorem nears_round {chunk : Chunk} {m n : Nat} (ht : t.rank = t.toCome n)
    (hu : u.rank = u.toCome m) (hl : t.channel.receiver = .listening)
    (hreceiver : u.channel.receiver = t.channel.receiver)
    (hmoved : Supervised.Moved chunk t.source u.source) (hless : m < n + 5 * chunk.length) :
    t.Nears u := by
  obtain ⟨hstock, -, hexit⟩ := hmoved
  have hthere : t.channel.receiver ≠ .gone := by
    rw [hl]
    nofun
  constructor
  · have hlength := congrArg List.length hstock
    rw [List.length_append] at hlength
    rw [ht, hu]
    unfold toCome
    rw [if_neg hthere, if_neg (by rwa [hreceiver])]
    omega
  · intro hd
    apply doomed_of_exit
    rw [hexit]
    exact exit_of_doomed hd (ht ▸ t.four_le_toCome n) hthere

/-- A read that is answered takes some bytes or ends the rounds; one that waits has fewer stages to
follow. -/
theorem nears_tellRead {n : Nat} {r : Option Reply} (ht : t.rank = t.toCome n)
    (hl : t.channel.receiver = .listening) (hphase : u.pump.phase = .reading)
    (hchannel : u.channel = t.channel) (hled : t.source.Led .read (u.source, r))
    (hwaits : r = none → u.source.height < n) : t.Nears (u.tellRead r).1 := by
  have hreceiver := congrArg Channel.receiver hchannel
  cases r with
  | none =>
    refine nears_round (u := u) ht ?_ hl hreceiver hled.2 (hwaits rfl)
    unfold rank
    rw [hphase]
  | some reply =>
    cases reply with
    | ready => exact absurd hled.1 nofun
    | stopped => exact hled.elim
    | data chunk =>
      obtain ⟨-, -, hmoved, hne⟩ := hled
      have hlength := List.length_pos_iff.2 hne
      rw [tellRead_data hphase]
      exact nears_round ht rfl hl hreceiver hmoved (by omega)
    | eof =>
      rw [tellRead_eof hphase]
      exact nears_of_rank (Nat.zero_le 3) ht
    | failed fault =>
      refine nears_of_rank (rank_halt (e := .sourceFailed u.pump.total fault) ?_) ht
      unfold Pump.step
      rw [hphase]

/-- **Steps of the relay.** Each brings it nearer to its end. -/
theorem nears_relay {q : Transfer × List (Event Chunk)} (h : t.Sound script b)
    (hr : t.relay = some q) : t.Nears q.1 := by
  have hf := h.flows
  unfold Flows at hf
  cases relay_eq_some_iff.1 hr with
  | gone hphase hl =>
    have hround : t.rank = t.toCome 3 := by simp [rank, hphase]
    exact nears_of_rank (rank_halt (e := .consumerGone t.pump.total) (by simp [Pump.step, hphase]))
      hround
  | ask hphase hl =>
    -- The read that a round begins with waits at one of three stages, if it is not answered.
    simp only [hphase] at hf
    have hround : t.rank = t.toCome 3 := by simp [rank, hphase]
    exact nears_tellRead hround hl rfl rfl
      (Supervised.led_start_read hf.1.toHeld _)
      fun _ => Nat.lt_succ_of_le (Supervised.height_le _)
  | dropped hphase hl =>
    have hround : t.rank = t.toCome t.source.height := by simp [rank, hphase]
    exact nears_of_rank (rank_halt (e := .consumerGone t.pump.total) (by simp [Pump.step, hphase]))
      hround
  | @read g r hphase hl hpoll =>
    simp only [hphase] at hf
    have hround : t.rank = t.toCome t.source.height := by simp [rank, hphase]
    have hled := Supervised.led_poll hf.1 (.inr rfl)
    rw [hpoll] at hled
    exact nears_tellRead (u := { t with source := g }) hround hl hphase rfl hled
      fun hnone => absurd hnone (Option.some_ne_none r)
  | @reading g hphase hl hpoll hstage =>
    simp only [hphase] at hf
    have hround : t.rank = t.toCome t.source.height := by simp [rank, hphase]
    obtain ⟨stage, hat, -⟩ := hf.1.stage
    have hlower := Supervised.height_lt_of_poll hat hpoll hstage
    have hled := Supervised.led_poll hf.1 (.inr rfl)
    rw [hpoll] at hled
    exact nears_tellRead (u := { t with source := g }) hround hl hphase rfl hled fun _ => hlower
  | @sent chunk hphase hroom =>
    -- An accepted chunk ends its round.
    have hl := (Channel.room_eq_accepted_iff.1 hroom).1
    have hround : t.rank = t.toCome 4 := by simp [rank, hphase]
    obtain ⟨hphase', -⟩ := t.pump.advance_spec chunk
    have hmoved : Supervised.Moved [] t.source t.source := ⟨rfl, rfl, rfl⟩
    rw [tell_accepted hphase]
    exact nears_round hround (by simp [rank, hphase']) hl rfl hmoved (Nat.lt_succ_self 3)
  | refused hphase hl =>
    have hround : t.rank = t.toCome 4 := by simp [rank, hphase]
    exact nears_of_rank (rank_halt (e := .consumerGone t.pump.total) (by simp [Pump.step, hphase]))
      hround
  | @stopped e g r hphase hpoll =>
    have hround : t.rank = t.source.height + 1 := by simp [rank, hphase]
    rw [tellStopped_some (t := { t with source := g }) hphase]
    exact ⟨by rw [hround]; exact Nat.succ_pos _, fun _ => trivial⟩
  | @stopping e g hphase hpoll hstage =>
    simp only [hphase] at hf
    obtain ⟨stage, hat, -⟩ := hf.1.stage
    have hlower := Supervised.height_lt_of_poll hat hpoll hstage
    refine ⟨?_, fun _ => by simp [Doomed, hphase]⟩
    simpa [rank, hphase] using hlower

/-- **What the relay waits for.** A relay that will end waits for time to pass or for the listener
to take a chunk. -/
theorem waits_for (h : t.Sound script b) (hd : t.Doomed) (hr : t.relay = none) :
    (∃ e, t.pump.phase = .done e) ∨ 0 < t.source.delay ∨ t.channel.queue ≠ [] := by
  obtain ⟨hc, hf⟩ := h
  unfold Flows at hf
  cases stuck_of_relay hr with
  | reading hphase hl hpoll hsame =>
    simp only [hphase] at hf
    obtain ⟨stage, hat, hfits⟩ := hf.1.stage
    have hexit : t.source.process.exit.isSome := by
      simp only [Doomed, hphase] at hd
      exact hd.resolve_left (by rw [hl]; nofun)
    have hholds := Supervised.holds_of_poll hat hpoll hsame
    cases stage with
    | awaiting max limit deadline => exact absurd hfits.1 nofun
    | reading max =>
      have hopen : t.source.process.outputOpen = true := hholds
      exact absurd (hf.1.shut hexit) (by rw [hopen]; nofun)
    | reaping p =>
      have hnone : t.source.process.exit = none := hholds
      exact absurd hexit (by rw [hnone]; nofun)
    | joining p deadline => exact .inr (.inl (Supervised.delay_pos hat rfl hholds))
    | _ => exact hfits.elim
  | sending hphase hroom =>
    have hlength := (Channel.room_eq_full_iff.1 hroom).2
    rw [hc.capacity] at hlength
    exact .inr (.inr (List.length_pos_iff.1 hlength))
  | stopping hphase hpoll hsame =>
    simp only [hphase] at hf
    obtain ⟨stage, hat, hfits⟩ := hf.1.stage
    have hholds := Supervised.holds_of_poll hat hpoll hsame
    cases stage with
    | stopping deadline => exact .inr (.inl (Supervised.delay_pos hat rfl hholds))
    | joining p deadline => exact .inr (.inl (Supervised.delay_pos hat rfl hholds))
    | killing =>
      have hnone : t.source.process.exit = none := hholds
      exact absurd hfits (by rw [hnone]; nofun)
    | _ => exact hfits.elim
  | done hphase => exact .inl ⟨_, hphase⟩

/-! ## What happens in between -/

theorem toCome_aside {g : Supervised} (hs : t.source.Held)
    (hd : t.channel.receiver = .gone ∨ t.source.process.exit.isSome)
    (ha : Supervised.Aside written t.source g) (n : Nat) :
    { t with source := g }.toCome n = t.toCome n := by
  unfold toCome
  by_cases hg : t.channel.receiver = .gone
  · rw [if_pos hg, if_pos hg]
  · have hclosed := hs.shut (hd.resolve_left hg)
    rw [if_neg hg, if_neg hg, ha.stock, ha.written_eq_nil hclosed, List.append_nil]

/-- A generator whose output matters has nothing more to write. -/
theorem rank_aside {g : Supervised} (h : t.Sound script b) (hd : t.Doomed)
    (ha : Supervised.Aside written t.source g) : { t with source := g }.rank = t.rank := by
  have hf := h.flows
  have hheight : g.height = t.source.height := by
    unfold Supervised.height
    rw [ha.stage]
  unfold Flows at hf
  unfold Doomed at hd
  unfold rank
  dsimp only
  cases hphase : t.pump.phase with
  | checking =>
    rw [hphase] at hf hd
    exact toCome_aside hf.1.toHeld hd ha 3
  | reading =>
    rw [hphase] at hf hd
    dsimp only
    rw [hheight]
    exact toCome_aside hf.1.toHeld hd ha _
  | sending chunk =>
    rw [hphase] at hf hd
    exact toCome_aside hf.1.toHeld hd ha 4
  | stopping e =>
    dsimp only
    rw [hheight]
  | done e => rfl

theorem doomed_aside {g : Supervised} (hd : t.Doomed)
    (ha : Supervised.Aside written t.source g) : { t with source := g }.Doomed := by
  unfold Doomed at hd ⊢
  dsimp only
  cases hphase : t.pump.phase with
  | stopping e => trivial
  | done e => trivial
  | _ =>
    rw [hphase] at hd
    exact hd.imp_right ha.exited

theorem rank_leave (t : Transfer) : t.leave.rank ≤ t.rank := by
  have hgone : ∀ n m, t.leave.toCome n ≤ t.toCome m := by
    intro n m
    unfold toCome
    rw [if_pos (show t.leave.channel.receiver = .gone from rfl)]
    exact t.four_le_toCome m
  unfold rank
  rw [pump_leave]
  cases t.pump.phase with
  | stopping e => exact Nat.le_refl _
  | done e => exact Nat.le_refl _
  | _ => exact hgone _ _

theorem rank_take (t : Transfer) : t.take.rank = t.rank := by
  rcases t.take_cases with ⟨htake, -⟩ | ⟨chunk, rest, -, -, htake⟩ <;> rw [htake]
  rfl

theorem doomed_take (h : t.Doomed) : t.take.Doomed := by
  rcases t.take_cases with ⟨htake, -⟩ | ⟨chunk, rest, -, -, htake⟩ <;> rw [htake]
  · exact h
  · exact h

/-- A chunk that is queued is there to be taken. -/
theorem length_queue_take (hc : t.Carried b) :
    t.take.channel.queue.length = t.channel.queue.length - 1 := by
  rcases t.take_cases with ⟨htake, hnone⟩ | ⟨chunk, rest, -, hqueue, htake⟩
  · have hqueue : t.channel.queue = [] := by
      rcases hc.receiver with ⟨hl, -⟩ | ⟨-, hqueue, -⟩
      · exact hnone.resolve_left (by rw [hl]; nofun)
      · exact hqueue
    rw [htake, hqueue]
    rfl
  · rw [htake, hqueue]
    rfl

/-! ## What is left to be done -/

/-- What is left to be done until the relay has ended: its steps, then the time that the next one
waits for, then the chunks. -/
def urgency (t : Transfer) : ℕ ×ₗ ℕ ×ₗ ℕ :=
  toLex (t.rank, toLex (t.source.delay, t.channel.queue.length))

theorem urgency_lt_of_rank (h : u.rank < t.rank) : u.urgency < t.urgency :=
  Prod.Lex.toLex_lt_toLex.2 (.inl h)

theorem urgency_lt_of_delay (hrank : u.rank = t.rank) (h : u.source.delay < t.source.delay) :
    u.urgency < t.urgency :=
  Prod.Lex.toLex_lt_toLex.2 (.inr ⟨hrank, Prod.Lex.toLex_lt_toLex.2 (.inl h)⟩)

theorem urgency_lt_of_queue (hrank : u.rank = t.rank) (hdelay : u.source.delay = t.source.delay)
    (h : u.channel.queue.length < t.channel.queue.length) : u.urgency < t.urgency :=
  Prod.Lex.toLex_lt_toLex.2 (.inr ⟨hrank, Prod.Lex.toLex_lt_toLex.2 (.inr ⟨hdelay, h⟩)⟩)

theorem urgency_le (hrank : u.rank ≤ t.rank) (hdelay : u.source.delay ≤ t.source.delay)
    (hqueue : u.channel.queue.length ≤ t.channel.queue.length) : u.urgency ≤ t.urgency :=
  Prod.Lex.toLex_mono ⟨hrank, Prod.Lex.toLex_mono ⟨hdelay, hqueue⟩⟩

end Transfer

end ToneRelay.Stream
