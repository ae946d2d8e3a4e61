import ToneRelay.Proofs.Stream.Delivery

/-!
# A consumer that falls behind

A relay reads no further ahead than its consumer lets it: at every moment it has read at most two
chunks more than the consumer has received, one that is queued and one in its hands, and when there
are two it reads no more before the consumer takes one or goes away (`Conduit.run_bounded`).

1. A `Conduit` is a relay with its channel, between a source that may answer anything at any time
   and a consumer that comes and goes as it likes.
2. The chunks read are those received, then the one that is queued or was lost with the consumer,
   then the one in the hands of the relay or the one it gave up (`Conduit.sound_step`).
3. A transfer is a conduit whose source is a supervised generator (`Transfer.run_conduit`), and the
   same holds of it (`Transfer.bounded_run`).
-/

namespace ToneRelay.Stream

open Generator (Fault Supervised Reply)

namespace Phase

variable {α : Type}

/-- The chunk that the relay has read and not handed on. -/
def hand : Phase α → List α
  | .sending chunk => [chunk]
  | _ => []

/-- Whether the relay reads no more. -/
def isOver : Phase α → Bool
  | .stopping _ | .done _ => true
  | _ => false

end Phase

/-- Whether an answer puts a chunk into the hands of a relay, or takes it away. -/
def Answer.isHandling {α : Type} : Answer α → Bool
  | .read (.data _) | .accepted | .refused => true
  | _ => false

namespace Pump

variable {α : Type} [Piece α]

theorem hand_step {p : Pump α} {a : Answer α} (h : a.isHandling = false) :
    (p.step a).1.phase.hand = p.phase.hand := by
  unfold step
  split
  case h_4 | h_7 | h_8 => cases h
  all_goals simp_all [Phase.hand, stop]

/-- A relay that reads no more does not start again. -/
theorem isOver_step {p : Pump α} {a : Answer α} (h : (p.step a).1.phase.isOver = false) :
    p.phase.isOver = false := by
  unfold step at h
  split at h
  all_goals simp_all [Phase.isOver, stop]

/-- Only a relay that has seen the consumer reads. -/
theorem read_not_mem_step {p : Pump α} {a : Answer α} (h : a ≠ .consumerPresent) (n : Nat) :
    .read n ∉ (p.step a).2 := by
  unfold step
  split
  case h_1 => exact absurd rfl h
  case h_7 =>
    unfold advance
    dsimp only
    split <;> simp
  all_goals simp

end Pump

/-- The chunk that a read gives, if any. -/
def ReadResult.chunks {α : Type} : ReadResult α → List α
  | .data chunk => [chunk]
  | _ => []

/-- A relay that puts what it reads into a channel of one chunk. -/
structure Conduit (α : Type) where
  pump : Pump α
  channel : Channel α := { capacity := 1 }
  /-- The chunks that have been read, in order. -/
  fetched : List α := []
  /-- The chunks that the consumer has received, in order. -/
  taken : List α := []

namespace Conduit

/-- What can happen at a conduit. -/
inductive Move (α : Type)
  /-- The relay looks at the channel. -/
  | look
  /-- The source answers a read. -/
  | answer (result : ReadResult α)
  /-- The source has been stopped, or could not be. -/
  | stopped (fault : Option Fault)
  | take
  /-- The consumer accepts no more. -/
  | close
  /-- The consumer goes away. -/
  | leave

/-- Whether it is the consumer that moves. -/
def Move.isConsumer {α : Type} : Move α → Bool
  | .take | .close | .leave => true
  | .look | .answer _ | .stopped _ => false

variable {α : Type}

def start (options : RelayOptions) : Conduit α := { pump := .start options }

/-- The consumer takes a chunk, if there is one. -/
def take (c : Conduit α) : Conduit α :=
  match c.channel.receive with
  | (.item chunk, channel) => { c with channel := channel, taken := c.taken ++ [chunk] }
  | _ => c

/-! ## Where the chunks are -/

/-- The chunks read are received, queued or lost with the consumer, in the hands of the relay or
given up by it. -/
structure Kept (lost waste : List α) (c : Conduit α) : Prop where
  capacity : c.channel.capacity = 1
  order : c.fetched = c.taken ++ (lost ++ c.channel.queue) ++ (c.pump.phase.hand ++ waste)
  queued : (lost ++ c.channel.queue).length ≤ 1
  lost_eq : c.channel.receiver ≠ .gone → lost = []
  held : (c.pump.phase.hand ++ waste).length ≤ 1
  waste_eq : c.pump.phase.isOver = false → waste = []

/-- The chunks read are somewhere. -/
def Sound (c : Conduit α) : Prop := ∃ lost waste, c.Kept lost waste

/-- No more than two chunks are under way. -/
theorem Kept.bounded {lost waste : List α} {c : Conduit α} (h : c.Kept lost waste) :
    c.fetched.length ≤ c.taken.length + 2 := by
  have horder := congrArg List.length h.order
  have hqueued := h.queued
  have hheld := h.held
  rw [List.length_append, List.length_append] at horder
  omega

theorem sound_start (options : RelayOptions) : (start options : Conduit α).Sound :=
  ⟨[], [], rfl, rfl, Nat.zero_le 1, fun _ => rfl, Nat.zero_le 1, fun _ => rfl⟩

/-! ## Steps of the consumer -/

theorem take_cases (c : Conduit α) :
    c.take = c ∨ ∃ chunk rest, c.channel.receiver ≠ .gone ∧ c.channel.queue = chunk :: rest ∧
      c.take = { c with
        channel := { c.channel with queue := rest }
        taken := c.taken ++ [chunk] } := by
  unfold take
  obtain ⟨r, hreceive, hitem, -⟩ | ⟨chunk, rest, hg, hqueue, hreceive⟩ := c.channel.receive_cases
  · left
    rw [hreceive]
    cases r with
    | item chunk => exact absurd rfl (hitem chunk)
    | _ => rfl
  · exact .inr ⟨chunk, rest, hg, hqueue, by rw [hreceive]⟩

theorem sound_take {lost waste : List α} {c : Conduit α} (h : c.Kept lost waste) :
    c.take.Sound := by
  obtain htake | ⟨chunk, rest, hgone, hqueue, htake⟩ := c.take_cases
  · rw [htake]
    exact ⟨lost, waste, h⟩
  · have hlost := h.lost_eq hgone
    have horder := h.order
    have hqueued := h.queued
    rw [hlost, hqueue] at horder hqueued
    rw [htake]
    refine ⟨[], waste, h.capacity, ?_, Nat.le_of_succ_le hqueued, fun _ => rfl, h.held, h.waste_eq⟩
    show c.fetched = c.taken ++ [chunk] ++ rest ++ (c.pump.phase.hand ++ waste)
    rw [horder]
    simp

/-- What is queued can still be taken. -/
theorem sound_close {lost waste : List α} {c : Conduit α} (h : c.Kept lost waste) :
    Sound { c with channel := c.channel.close } := by
  unfold Channel.close
  split
  · exact ⟨lost, waste, h⟩
  · next hg =>
    exact ⟨lost, waste, h.capacity, h.order, h.queued, fun _ => h.lost_eq hg, h.held, h.waste_eq⟩

/-- What is queued is lost. -/
theorem sound_leave {lost waste : List α} {c : Conduit α} (h : c.Kept lost waste) :
    Sound { c with channel := c.channel.drop } := by
  refine ⟨lost ++ c.channel.queue, waste, h.capacity, ?_, ?_, fun hg => absurd rfl hg, h.held,
    h.waste_eq⟩
  · show c.fetched = c.taken ++ (lost ++ c.channel.queue ++ []) ++ (c.pump.phase.hand ++ waste)
    rw [List.append_nil]
    exact h.order
  · show (lost ++ c.channel.queue ++ []).length ≤ 1
    rw [List.append_nil]
    exact h.queued

/-- Two chunks are under way. -/
def Full (c : Conduit α) : Prop := c.fetched.length = c.taken.length + 2

/-- When two chunks are under way, the relay has no room for the one in its hands, or has stopped
the source. -/
theorem Kept.full_cases {lost waste : List α} {c : Conduit α} (h : c.Kept lost waste)
    (hf : c.Full) :
    (∃ chunk, c.pump.phase = .sending chunk ∧ c.channel.room ≠ .accepted) ∨
      c.pump.phase.isOver = true := by
  have hlength := congrArg List.length h.order
  have hqueued := h.queued
  have hheld := h.held
  rw [List.length_append, List.length_append, hf] at hlength
  cases hphase : c.pump.phase with
  | sending chunk =>
    refine .inl ⟨chunk, rfl, fun hroom => ?_⟩
    obtain ⟨hl, hroom⟩ := Channel.room_eq_accepted_iff.1 hroom
    rw [h.lost_eq (by rw [hl]; decide), List.nil_append] at hlength hqueued
    rw [h.capacity] at hroom
    omega
  | stopping e => exact .inr rfl
  | done e => exact .inr rfl
  | checking =>
    rw [hphase, h.waste_eq (by rw [hphase]; rfl)] at hlength
    simp [Phase.hand] at hlength hqueued
    omega
  | reading =>
    rw [hphase, h.waste_eq (by rw [hphase]; rfl)] at hlength
    simp [Phase.hand] at hlength hqueued
    omega

/-! ## Steps of the relay -/

variable [Piece α]

/-- Tells the relay an answer. -/
def tell (c : Conduit α) (a : Answer α) : Conduit α × List (Event α) :=
  ({ c with pump := (c.pump.step a).1 }, (c.pump.step a).2)

/-- The relay finds out whether the consumer is there, and whether there is room for a chunk. -/
def look (c : Conduit α) : Conduit α × List (Event α) :=
  match c.pump.phase with
  | .checking => c.tell (if c.channel.isClosed then .consumerGone else .consumerPresent)
  | .reading => if c.channel.isClosed then c.tell .consumerGone else (c, [])
  | .sending chunk =>
    match c.channel.send chunk with
    | (.accepted, channel) => { c with channel := channel }.tell .accepted
    | (.refused, _) => c.tell .refused
    | (.full, _) => (c, [])
  | _ => (c, [])

/-- The source answers, which no one hears unless a read is under way. -/
def hear (c : Conduit α) (result : ReadResult α) : Conduit α × List (Event α) :=
  match c.pump.phase with
  | .reading => { c with fetched := c.fetched ++ result.chunks }.tell (.read result)
  | _ => (c, [])

/-- Makes one move. -/
def step (c : Conduit α) : Move α → Conduit α × List (Event α)
  | .look => c.look
  | .answer result => c.hear result
  | .stopped fault => c.tell (.stopped fault)
  | .take => (c.take, [])
  | .close => ({ c with channel := c.channel.close }, [])
  | .leave => ({ c with channel := c.channel.drop }, [])

/-- Makes moves in order, and says what can be seen of the relay. -/
def run (c : Conduit α) : List (Move α) → Conduit α × List (Event α)
  | [] => (c, [])
  | m :: ms => (((c.step m).1.run ms).1, (c.step m).2 ++ ((c.step m).1.run ms).2)

@[simp] theorem run_nil (c : Conduit α) : c.run [] = (c, []) := rfl

@[simp] theorem run_cons (c : Conduit α) (m : Move α) (ms : List (Move α)) :
    c.run (m :: ms) = (((c.step m).1.run ms).1, (c.step m).2 ++ ((c.step m).1.run ms).2) := rfl

theorem run_append (c : Conduit α) (ms ns : List (Move α)) :
    c.run (ms ++ ns) = (((c.run ms).1.run ns).1, (c.run ms).2 ++ ((c.run ms).1.run ns).2) := by
  induction ms generalizing c with
  | nil => simp
  | cons m ms ih => simp [ih]

/-- The relay is answered, and no chunk changes hands. -/
theorem Kept.tell {lost waste : List α} {c : Conduit α} (h : c.Kept lost waste) {a : Answer α}
    (ha : a.isHandling = false) : (c.tell a).1.Kept lost waste := by
  have hhand : (c.tell a).1.pump.phase.hand = c.pump.phase.hand := Pump.hand_step ha
  refine ⟨h.capacity, ?_, h.queued, h.lost_eq, ?_, fun ho => h.waste_eq (Pump.isOver_step ho)⟩
  · rw [hhand]
    exact h.order
  · rw [hhand]
    exact h.held

/-- The channel takes the chunk in the hands of the relay. -/
theorem Kept.accepted {lost waste : List α} {c : Conduit α} {chunk : α} (h : c.Kept lost waste)
    (hphase : c.pump.phase = .sending chunk) (hroom : c.channel.room = .accepted) :
    ({ c with
      channel := { c.channel with queue := c.channel.queue ++ [chunk] } }.tell .accepted).1.Kept
        [] [] := by
  obtain ⟨hl, hlength⟩ := Channel.room_eq_accepted_iff.1 hroom
  have hqueue : c.channel.queue = [] := by
    rw [h.capacity] at hlength
    exact List.length_eq_zero_iff.1 (Nat.lt_one_iff.1 hlength)
  have hlost : lost = [] := h.lost_eq (by rw [hl]; decide)
  have hwaste : waste = [] := h.waste_eq (by rw [hphase]; rfl)
  have hadvance : (c.pump.step .accepted).1.phase = .checking := by
    unfold Pump.step
    rw [hphase]
    exact (c.pump.advance_spec chunk).1
  rw [hqueue]
  refine ⟨h.capacity, ?_, Nat.le_refl 1, fun _ => rfl, ?_, fun _ => rfl⟩
  · show c.fetched = c.taken ++ [chunk] ++ ((c.pump.step .accepted).1.phase.hand ++ [])
    rw [h.order, hphase, hqueue, hlost, hwaste, hadvance]
    simp [Phase.hand]
  · show ((c.pump.step .accepted).1.phase.hand ++ []).length ≤ 1
    rw [hadvance]
    exact Nat.zero_le 1

/-- The relay gives up the chunk in its hands. -/
theorem Kept.refused {lost waste : List α} {c : Conduit α} {chunk : α} (h : c.Kept lost waste)
    (hphase : c.pump.phase = .sending chunk) : (c.tell .refused).1.Kept lost [chunk] := by
  have hwaste : waste = [] := h.waste_eq (by rw [hphase]; rfl)
  have hstop : (c.pump.step .refused).1.phase = .stopping (.consumerGone c.pump.total) := by
    unfold Pump.step
    rw [hphase]
    rfl
  refine ⟨h.capacity, ?_, h.queued, h.lost_eq, ?_, fun ho => ?_⟩
  · show c.fetched = c.taken ++ (lost ++ c.channel.queue) ++
      ((c.pump.step .refused).1.phase.hand ++ [chunk])
    rw [h.order, hphase, hwaste, hstop]
    rfl
  · show ((c.pump.step .refused).1.phase.hand ++ [chunk]).length ≤ 1
    rw [hstop]
    exact Nat.le_refl 1
  · change (c.pump.step .refused).1.phase.isOver = false at ho
    rw [hstop] at ho
    cases ho

theorem sound_look {lost waste : List α} {c : Conduit α} (h : c.Kept lost waste) :
    c.look.1.Sound := by
  unfold look
  cases hphase : c.pump.phase with
  | checking =>
    dsimp only
    split
    · exact ⟨lost, waste, h.tell rfl⟩
    · exact ⟨lost, waste, h.tell rfl⟩
  | reading =>
    dsimp only
    split
    · exact ⟨lost, waste, h.tell rfl⟩
    · exact ⟨lost, waste, h⟩
  | sending chunk =>
    dsimp only
    rcases c.channel.send_cases chunk with ⟨hroom, hsend⟩ | ⟨-, hsend⟩ | ⟨-, hsend⟩ <;> rw [hsend]
    · exact ⟨[], [], h.accepted hphase hroom⟩
    · exact ⟨lost, waste, h⟩
    · exact ⟨lost, [chunk], h.refused hphase⟩
  | stopping e => exact ⟨lost, waste, h⟩
  | done e => exact ⟨lost, waste, h⟩

/-- What is read comes into the hands of the relay, which were empty. -/
theorem sound_hear {lost waste : List α} {c : Conduit α} (h : c.Kept lost waste)
    (result : ReadResult α) : (c.hear result).1.Sound := by
  unfold hear
  cases hphase : c.pump.phase with
  | reading =>
    have hwaste : waste = [] := h.waste_eq (by rw [hphase]; rfl)
    cases result with
    | data chunk =>
      have hstep : (c.pump.step (.read (.data chunk))).1.phase = .sending chunk := by
        unfold Pump.step
        rw [hphase]
      refine ⟨lost, [], h.capacity, ?_, h.queued, h.lost_eq, ?_, fun _ => rfl⟩
      · show c.fetched ++ [chunk] = c.taken ++ (lost ++ c.channel.queue) ++
          ((c.pump.step (.read (.data chunk))).1.phase.hand ++ [])
        rw [h.order, hphase, hwaste, hstep]
        simp [Phase.hand]
      · show ((c.pump.step (.read (.data chunk))).1.phase.hand ++ []).length ≤ 1
        rw [hstep]
        exact Nat.le_refl _
    | eof =>
      show ({ c with fetched := c.fetched ++ [] }.tell (.read .eof)).1.Sound
      rw [List.append_nil]
      exact ⟨lost, waste, h.tell rfl⟩
    | failed fault =>
      show ({ c with fetched := c.fetched ++ [] }.tell (.read (.failed fault))).1.Sound
      rw [List.append_nil]
      exact ⟨lost, waste, h.tell rfl⟩
  | _ => exact ⟨lost, waste, h⟩

/-- **One move.** No chunk gets lost without a trace, and at most two are under way. -/
theorem sound_step {c : Conduit α} (h : c.Sound) (m : Move α) : (c.step m).1.Sound := by
  obtain ⟨lost, waste, h⟩ := h
  cases m with
  | look => exact sound_look h
  | answer result => exact sound_hear h result
  | stopped fault => exact ⟨lost, waste, h.tell rfl⟩
  | take => exact sound_take h
  | close => exact sound_close h
  | leave => exact sound_leave h

theorem sound_run {c : Conduit α} (h : c.Sound) (ms : List (Move α)) : (c.run ms).1.Sound := by
  induction ms generalizing c with
  | nil => exact h
  | cons m ms ih => exact ih (sound_step h m)

/-! ## At the bound -/

/-- A relay that reads no more, or has no room for the chunk in its hands, waits for the
consumer. -/
theorem full_step {c : Conduit α} (hs : c.Sound) (hf : c.Full) {m : Move α}
    (hm : m.isConsumer = false) :
    (c.step m).1.Full ∧ ∀ n, .read n ∉ (c.step m).2 := by
  obtain ⟨lost, waste, hs⟩ := hs
  have htell : ∀ a : Answer α, a ≠ .consumerPresent →
      (c.tell a).1.Full ∧ ∀ n, .read n ∉ (c.tell a).2 := by
    intro a ha
    exact ⟨hf, Pump.read_not_mem_step ha⟩
  have hidle : Full (c, ([] : List (Event α))).1 ∧ ∀ n, .read n ∉ (c, ([] : List (Event α))).2 :=
    ⟨hf, fun _ => List.not_mem_nil⟩
  cases m with
  | look =>
    show c.look.1.Full ∧ ∀ n, .read n ∉ c.look.2
    unfold look
    obtain ⟨chunk, hphase, hroom⟩ | hover := hs.full_cases hf
    · rw [hphase]
      dsimp only
      rcases c.channel.send_cases chunk with ⟨hroom', -⟩ | ⟨-, hsend⟩ | ⟨-, hsend⟩
      · exact absurd hroom' hroom
      · rw [hsend]
        exact hidle
      · rw [hsend]
        exact htell .refused nofun
    · cases hphase : c.pump.phase with
      | stopping e => exact hidle
      | done e => exact hidle
      | _ =>
        rw [hphase] at hover
        cases hover
  | answer result =>
    show (c.hear result).1.Full ∧ ∀ n, .read n ∉ (c.hear result).2
    unfold hear
    cases hphase : c.pump.phase with
    | reading =>
      obtain ⟨chunk, hsending, -⟩ | hover := hs.full_cases hf
      · exact absurd (hphase.symm.trans hsending) nofun
      · rw [hphase] at hover
        cases hover
    | _ => exact hidle
  | stopped fault => exact htell (.stopped fault) nofun
  | _ => cases hm

theorem full_run {c : Conduit α} (hs : c.Sound) (hf : c.Full) {ms : List (Move α)}
    (hm : ∀ m ∈ ms, m.isConsumer = false) :
    (c.run ms).1.Full ∧ ∀ n, .read n ∉ (c.run ms).2 := by
  induction ms generalizing c with
  | nil => exact ⟨hf, fun _ => List.not_mem_nil⟩
  | cons m ms ih =>
    obtain ⟨hm, hms⟩ := List.forall_mem_cons.1 hm
    obtain ⟨hfull, hnone⟩ := full_step hs hf hm
    obtain ⟨hfulls, hnones⟩ := ih (sound_step hs m) hfull hms
    refine ⟨hfulls, fun n hn => ?_⟩
    rcases List.mem_append.1 hn with hn | hn
    · exact hnone n hn
    · exact hnones n hn

/-- **Bounded buffering.** However the relay, its source and its consumer interleave, the chunks
read are at most two more than those received. When they are two more, nothing is read before the
consumer makes a move. -/
theorem run_bounded (options : RelayOptions) (ms : List (Move α)) :
    ((start options).run ms).1.fetched.length ≤ ((start options).run ms).1.taken.length + 2 ∧
      (((start options).run ms).1.fetched.length = ((start options).run ms).1.taken.length + 2 →
        ∀ ns : List (Move α), (∀ m ∈ ns, m.isConsumer = false) →
          ∀ n, .read n ∉ (((start options).run ms).1.run ns).2) := by
  have hsound := sound_run (sound_start options) ms
  refine ⟨?_, fun hf ns hns => (full_run hsound hf hns).2⟩
  obtain ⟨lost, waste, hkept⟩ := hsound
  exact hkept.bounded

/-- A consumer that has received nothing yet, and a source that could go on. -/
theorem run_bounded_two :
    let ms : List (Move (List UInt8)) :=
      [.look, .answer (.data [1]), .look, .look, .answer (.data [2])]
    let ns : List (Move (List UInt8)) := [.look, .answer (.data [3]), .look]
    let c := ((start {}).run ms).1
    c.fetched = [[1], [2]] ∧ c.taken = [] ∧ (∀ m ∈ ns, m.isConsumer = false) ∧
      ∀ n, .read n ∉ (c.run ns).2 :=
  ⟨rfl, rfl, by decide, (run_bounded {} _).2 rfl _ (by decide)⟩

/-! ## Transfers -/

/-- The relay gets from one conduit to another by itself. -/
def Leads (c d : Conduit α) (events : List (Event α)) : Prop :=
  ∃ ms, (∀ m ∈ ms, m.isConsumer = false) ∧ c.run ms = (d, events)

theorem Leads.refl (c : Conduit α) : c.Leads c [] := ⟨[], fun _ h => absurd h List.not_mem_nil, rfl⟩

theorem Leads.trans {c d e : Conduit α} {events more : List (Event α)} (h : c.Leads d events)
    (h' : d.Leads e more) : c.Leads e (events ++ more) := by
  obtain ⟨ms, hms, hrun⟩ := h
  obtain ⟨ns, hns, hrun'⟩ := h'
  refine ⟨ms ++ ns, fun m hm => ?_, ?_⟩
  · rcases List.mem_append.1 hm with hm | hm
    · exact hms m hm
    · exact hns m hm
  · rw [run_append, hrun, hrun']

theorem Leads.one {c : Conduit α} {m : Move α} (h : m.isConsumer = false) :
    c.Leads (c.step m).1 (c.step m).2 := by
  refine ⟨[m], fun _ hm => ?_, ?_⟩
  · rw [List.mem_singleton.1 hm]
    exact h
  · rw [run_cons]
    exact Prod.ext rfl (List.append_nil _)

end Conduit

namespace Transfer

/-- A transfer as a conduit, with the chunks that have been read. -/
def conduit (t : Transfer) (fetched : List Chunk) : Conduit Chunk where
  pump := t.pump
  channel := t.channel
  fetched := fetched
  taken := t.taken.reverse

@[simp] theorem pump_conduit (t : Transfer) (fetched : List Chunk) :
    (t.conduit fetched).pump = t.pump := rfl

@[simp] theorem channel_conduit (t : Transfer) (fetched : List Chunk) :
    (t.conduit fetched).channel = t.channel := rfl

/-- What is told to the relay of a transfer is told to that of its conduit. -/
theorem conduit_tell (t : Transfer) (fetched : List Chunk) (a : Answer Chunk) :
    (t.conduit fetched).tell a = ((t.tell a).1.conduit fetched, (t.tell a).2) := rfl

theorem leads_tellStopped (t : Transfer) (fetched : List Chunk) (r : Option Reply) :
    (t.conduit fetched).Leads ((t.tellStopped r).1.conduit fetched) (t.tellStopped r).2 := by
  cases r with
  | none => exact .refl _
  | some r =>
    cases r with
    | failed fault => exact .one (m := .stopped (some fault)) rfl
    | _ => exact .one (m := .stopped none) rfl

/-- The relay stops the source upon what it is told. -/
theorem leads_halt {t : Transfer} {fetched : List Chunk} {c : Conduit Chunk} {a : Answer Chunk}
    (h : c.Leads ((t.tell a).1.conduit fetched) (t.tell a).2) :
    c.Leads ((t.halt a).1.conduit fetched) (t.halt a).2 :=
  h.trans (leads_tellStopped { (t.tell a).1 with
    source := ((t.tell a).1.source.start .terminate).1 } fetched _)

theorem leads_look {c : Conduit Chunk} {a : Answer Chunk} (h : c.look = c.tell a) :
    c.Leads (c.tell a).1 (c.tell a).2 := by
  rw [← h]
  exact .one (m := .look) rfl

theorem leads_answer {t : Transfer} (h : t.pump.phase = .reading) (fetched : List Chunk)
    (result : ReadResult Chunk) : (t.conduit fetched).Leads
      ((t.tell (.read result)).1.conduit (fetched ++ result.chunks)) (t.tell (.read result)).2 := by
  have hhear : (t.conduit fetched).hear result =
      (t.conduit (fetched ++ result.chunks)).tell (.read result) := by
    simp only [Conduit.hear, pump_conduit, h]
    rfl
  rw [conduit_tell] at hhear
  have hone : (t.conduit fetched).Leads ((t.conduit fetched).hear result).1
    ((t.conduit fetched).hear result).2 := .one (m := .answer result) rfl
  rwa [hhear] at hone

/-- A read is answered, or not yet. -/
theorem leads_tellRead {t : Transfer} (h : t.pump.phase = .reading) (fetched : List Chunk)
    (r : Option Reply) : ∃ fetched',
      (t.conduit fetched).Leads ((t.tellRead r).1.conduit fetched') (t.tellRead r).2 := by
  cases r with
  | none => exact ⟨fetched, .refl _⟩
  | some r =>
    cases r with
    | data chunk => exact ⟨_, leads_answer h fetched (.data chunk)⟩
    | eof => exact ⟨_, leads_answer h fetched .eof⟩
    | failed fault => exact ⟨_, leads_halt (leads_answer h fetched (.failed fault))⟩
    | _ => exact ⟨fetched, .refl _⟩

/-- **One step of the relay** of a transfer is a number of moves of its conduit. -/
theorem leads_relay {t : Transfer} {q : Transfer × List (Event Chunk)} (hr : t.relay = some q)
    (fetched : List Chunk) :
    ∃ fetched', (t.conduit fetched).Leads (q.1.conduit fetched') q.2 := by
  have hone : (t.conduit fetched).Leads (t.conduit fetched).look.1 (t.conduit fetched).look.2 :=
    .one (m := .look) rfl
  cases relay_eq_some_iff.1 hr with
  | gone hphase hl =>
    have hlook : (t.conduit fetched).look = (t.conduit fetched).tell .consumerGone := by
      simp [Conduit.look, hphase, hl]
    exact ⟨fetched, leads_halt (leads_look hlook)⟩
  | ask hphase hl =>
    have hlook : (t.conduit fetched).look = (t.conduit fetched).tell .consumerPresent := by
      simp [Conduit.look, hphase, hl]
    rw [hlook, conduit_tell, tell_present hphase] at hone
    obtain ⟨fetched', hread⟩ := leads_tellRead (t := { t with
      pump := { t.pump with phase := .reading }
      source := (t.source.start (.read t.pump.options.request)).1 }) rfl fetched
        (t.source.start (.read t.pump.options.request)).2
    exact ⟨fetched', hone.trans hread⟩
  | dropped hphase hl =>
    have hlook : (t.conduit fetched).look = (t.conduit fetched).tell .consumerGone := by
      simp [Conduit.look, hphase, hl]
    exact ⟨fetched, leads_halt (t := { t with source := t.source.cancel }) (leads_look hlook)⟩
  | @read g r hphase hl hpoll =>
    exact leads_tellRead (t := { t with source := g }) hphase fetched (some r)
  | reading hphase hl hpoll hstage => exact ⟨fetched, .refl _⟩
  | sent hphase hroom =>
    simp only [Conduit.look, pump_conduit, channel_conduit, hphase, Channel.send_of_room hroom]
      at hone
    exact ⟨fetched, hone⟩
  | refused hphase hl =>
    simp only [Conduit.look, pump_conduit, channel_conduit, hphase, Channel.send_of_refused hl]
      at hone
    exact ⟨fetched, leads_halt hone⟩
  | @stopped e g r hphase hpoll =>
    exact ⟨fetched, leads_tellStopped { t with source := g } fetched (some r)⟩
  | stopping hphase hpoll hstage => exact ⟨fetched, .refl _⟩

/-- What can happen at a transfer. The generator may become any other one, as time passes. -/
inductive Move
  | relay
  | take
  | leave
  | source (s : Supervised)

/-- Whether it is the listener that moves. -/
def Move.isListener : Move → Bool
  | .take | .leave => true
  | .relay | .source _ => false

/-- Makes one move, and says what can be seen of the relay. -/
def step (t : Transfer) : Move → Transfer × List (Event Chunk)
  | .relay => t.relay.getD (t, [])
  | .take => (t.take, [])
  | .leave => (t.leave, [])
  | .source s => ({ t with source := s }, [])

def run (t : Transfer) : List Move → Transfer × List (Event Chunk)
  | [] => (t, [])
  | m :: ms => (((t.step m).1.run ms).1, (t.step m).2 ++ ((t.step m).1.run ms).2)

theorem conduit_take (t : Transfer) (fetched : List Chunk) :
    (t.conduit fetched).take = t.take.conduit fetched := by
  unfold Conduit.take take
  rw [channel_conduit]
  obtain ⟨r, channel⟩ := t.channel.receive
  cases r with
  | item chunk =>
    show { t.conduit fetched with channel := channel, taken := t.taken.reverse ++ [chunk] } = _
    rw [← List.reverse_cons]
    rfl
  | _ => rfl

theorem step_conduit (t : Transfer) (m : Move) (fetched : List Chunk) : ∃ ns fetched',
    (m.isListener = false → ∀ n ∈ ns, n.isConsumer = false) ∧
      (t.conduit fetched).run ns = ((t.step m).1.conduit fetched', (t.step m).2) := by
  have hnone : ∀ n ∈ ([] : List (Conduit.Move Chunk)), n.isConsumer = false :=
    fun _ hn => absurd hn List.not_mem_nil
  cases m with
  | relay =>
    cases hr : t.relay with
    | none => exact ⟨[], fetched, fun _ => hnone, by rw [step, hr]; rfl⟩
    | some q =>
      obtain ⟨fetched', ns, hns, hrun⟩ := leads_relay hr fetched
      exact ⟨ns, fetched', fun _ => hns, by rw [step, hr]; exact hrun⟩
  | take => exact ⟨[.take], fetched, nofun, Prod.ext (t.conduit_take fetched) rfl⟩
  | leave => exact ⟨[.leave], fetched, nofun, rfl⟩
  | source s => exact ⟨[], fetched, fun _ => hnone, rfl⟩

/-- A transfer is a conduit whose source is a generator. -/
theorem run_conduit (t : Transfer) (ms : List Move) (fetched : List Chunk) : ∃ ns fetched',
    ((∀ m ∈ ms, m.isListener = false) → ∀ n ∈ ns, n.isConsumer = false) ∧
      (t.conduit fetched).run ns = ((t.run ms).1.conduit fetched', (t.run ms).2) := by
  induction ms generalizing t fetched with
  | nil => exact ⟨[], fetched, fun _ _ hn => absurd hn List.not_mem_nil, rfl⟩
  | cons m ms ih =>
    obtain ⟨ns, fetched', hns, hstep⟩ := t.step_conduit m fetched
    obtain ⟨more, fetched'', hmore, hrun⟩ := ih (t.step m).1 fetched'
    refine ⟨ns ++ more, fetched'', fun hms n hn => ?_, ?_⟩
    · obtain ⟨hm, hms⟩ := List.forall_mem_cons.1 hms
      rcases List.mem_append.1 hn with hn | hn
      · exact hns hm n hn
      · exact hmore hms n hn
    · rw [Conduit.run_append, hstep, hrun]
      rfl

/-- A transfer buffers no more than its conduit does. -/
theorem bounded_run (g : Supervised) (options : RelayOptions) (ms : List Move) :
    let t := ((begin g options).run ms).1
    ∃ fetched : List Chunk, (∃ ns, (Conduit.start options).run ns =
        (t.conduit fetched, ((begin g options).run ms).2)) ∧
      fetched.length ≤ t.taken.length + 2 ∧
      (fetched.length = t.taken.length + 2 → ∀ more : List Move,
        (∀ m ∈ more, m.isListener = false) → ∀ n, .read n ∉ (t.run more).2) := by
  dsimp only
  obtain ⟨ns, fetched, -, hrun⟩ := (begin g options).run_conduit ms []
  change (Conduit.start options).run ns = _ at hrun
  have hsound := Conduit.sound_run (Conduit.sound_start options) ns
  rw [hrun] at hsound
  have hlength : (((begin g options).run ms).1.conduit fetched).taken.length =
      ((begin g options).run ms).1.taken.length := List.length_reverse
  refine ⟨fetched, ⟨ns, hrun⟩, ?_, fun hf more hmore n hn => ?_⟩
  · obtain ⟨lost, waste, hkept⟩ := hsound
    rw [← hlength]
    exact hkept.bounded
  · obtain ⟨ns', fetched', hns', hrun'⟩ :=
      ((begin g options).run ms).1.run_conduit more fetched
    have hfull := Conduit.full_run hsound (by rw [Conduit.Full, hlength]; exact hf) (hns' hmore)
    rw [hrun'] at hfull
    exact hfull.2 n hn

end Transfer

end ToneRelay.Stream
