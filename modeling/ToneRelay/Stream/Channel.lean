/-!
# Channels

A bounded queue between a sender and a receiver, which may stop listening. A receiver that has
closed the channel still gets what is queued; one that is gone gets nothing. Main statements:
`send_cases` and `receive_cases`, an item that is accepted is put behind those that are queued, and
the one that was queued first is received.
-/

namespace ToneRelay.Stream

/-- How far the receiver has withdrawn. -/
inductive Receiver
  | listening
  | closed
  | gone
deriving DecidableEq, Repr

/-- Items on their way. -/
structure Channel (α : Type) where
  capacity : Nat
  queue : List α := []
  receiver : Receiver := .listening
  /-- No sender is left. -/
  finished : Bool := false

/-- What becomes of an item that is to be sent. -/
inductive Sent
  | accepted
  | full
  | refused
deriving DecidableEq, Repr

/-- What a receiver gets. -/
inductive Received (α : Type)
  | item (a : α)
  | nothing
  | ended
  | unreachable
deriving DecidableEq, Repr

namespace Channel

variable {α : Type}

/-- What would become of an item. -/
def room (c : Channel α) : Sent :=
  if c.receiver ≠ .listening then .refused
  else if c.queue.length < c.capacity then .accepted
  else .full

/-- Sends an item, if there is room. -/
def send (c : Channel α) (a : α) : Sent × Channel α :=
  match c.room with
  | .accepted => (.accepted, { c with queue := c.queue ++ [a] })
  | r => (r, c)

/-- Takes the item that was sent first. -/
def receive (c : Channel α) : Received α × Channel α :=
  if c.receiver = .gone then (.unreachable, c)
  else match c.queue with
    | a :: rest => (.item a, { c with queue := rest })
    | [] => if c.receiver = .closed ∨ c.finished then (.ended, c) else (.nothing, c)

/-- Whether a sender can see that the receiver has withdrawn. -/
def isClosed (c : Channel α) : Bool := c.receiver ≠ .listening

/-- The receiver accepts no more items. -/
def close (c : Channel α) : Channel α :=
  if c.receiver = .gone then c else { c with receiver := .closed }

/-- The receiver goes away, and what is queued is lost. -/
def drop (c : Channel α) : Channel α := { c with receiver := .gone, queue := [] }

/-- The last sender goes away. -/
def finish (c : Channel α) : Channel α := { c with finished := true }

/-! ## What becomes of an item -/

variable {c : Channel α}

@[simp] theorem isClosed_iff : c.isClosed = true ↔ c.receiver ≠ .listening := decide_eq_true_iff

@[simp] theorem room_eq_accepted_iff :
    c.room = .accepted ↔ c.receiver = .listening ∧ c.queue.length < c.capacity := by
  unfold room
  split
  · next h => simp [h]
  · next h => split <;> simp_all

@[simp] theorem room_eq_full_iff :
    c.room = .full ↔ c.receiver = .listening ∧ c.capacity ≤ c.queue.length := by
  unfold room
  split
  · next h => simp [h]
  · next h => split <;> simp_all

@[simp] theorem room_eq_refused_iff : c.room = .refused ↔ c.receiver ≠ .listening := by
  unfold room
  split
  · next h => simp [h]
  · next h => split <;> simp [h]

theorem send_of_room (h : c.room = .accepted) (a : α) :
    c.send a = (.accepted, { c with queue := c.queue ++ [a] }) := by
  unfold send
  rw [h]

theorem send_of_full (h : c.room = .full) (a : α) : c.send a = (.full, c) := by
  unfold send
  rw [h]

theorem send_of_refused (h : c.receiver ≠ .listening) (a : α) : c.send a = (.refused, c) := by
  unfold send
  rw [room_eq_refused_iff.2 h]

/-- **Sending.** An item that is accepted is queued last; any other one changes nothing. -/
theorem send_cases (c : Channel α) (a : α) :
    (c.room = .accepted ∧ c.send a = (.accepted, { c with queue := c.queue ++ [a] })) ∨
      (c.room = .full ∧ c.send a = (.full, c)) ∨
      (c.room = .refused ∧ c.send a = (.refused, c)) := by
  cases hroom : c.room with
  | accepted => exact .inl ⟨rfl, send_of_room hroom a⟩
  | full => exact .inr (.inl ⟨rfl, send_of_full hroom a⟩)
  | refused => exact .inr (.inr ⟨rfl, send_of_refused (room_eq_refused_iff.1 hroom) a⟩)

/-- **Receiving.** The receiver gets the item that was queued first, or there is none for it. One
that has closed the channel is told so. -/
theorem receive_cases (c : Channel α) :
    (∃ r, c.receive = (r, c) ∧ (∀ a, r ≠ .item a) ∧ (c.receiver = .gone ∨ c.queue = []) ∧
        (c.receiver = .closed → r = .ended)) ∨
      ∃ a rest, c.receiver ≠ .gone ∧ c.queue = a :: rest ∧
        c.receive = (.item a, { c with queue := rest }) := by
  unfold receive
  by_cases hg : c.receiver = .gone
  · exact .inl ⟨.unreachable, if_pos hg, nofun, .inl hg, fun hc => nomatch hg.symm.trans hc⟩
  · rw [if_neg hg]
    cases hqueue : c.queue with
    | nil =>
      by_cases he : c.receiver = .closed ∨ c.finished = true
      · exact .inl ⟨.ended, if_pos he, nofun, .inr rfl, fun _ => rfl⟩
      · exact .inl ⟨.nothing, if_neg he, nofun, .inr rfl, fun hc => absurd (.inl hc) he⟩
    | cons a rest => exact .inr ⟨a, rest, hg, rfl, rfl⟩

end Channel

end ToneRelay.Stream
