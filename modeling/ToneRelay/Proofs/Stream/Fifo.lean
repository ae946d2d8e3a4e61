import ToneRelay.Stream.Channel

/-!
# A channel is a bounded queue that can be closed

Any number of sinks share a channel. They and its receiver use it in any order, each `Use` being
tried once: a send that finds no room is given up. Main statement `fifo_run`: the items accepted are
those received, then those queued, of which there are never more than fit, and what becomes of a use
depends on the uses before it and on the room there is.

1. `Effect` lists what a use can do. What was queued and what is accepted is received or still
   queued, unless the receiver is dropped (`balance_run`).
2. Whether a channel is closed can be read off its uses (`isClosed_run`), and one that is closed
   takes nothing more (`accepted_of_isClosed`).
3. A receiver that has closed the channel is given what is queued, then the end
   (`answers_of_closed`).
-/

namespace ToneRelay.Stream

/-- The item that a receiver has got, if any. -/
def Received.item? {α : Type} : Received α → Option α
  | .item a => some a
  | _ => none

namespace Channel

variable {α : Type}

/-- What the holders of a channel do with it. -/
inductive Use (α : Type)
  /-- One of the sinks, which are clones of each other, sends an item. -/
  | send (sink : Nat) (a : α)
  | receive
  /-- One of the sinks asks whether the receiver has withdrawn. -/
  | look (sink : Nat)
  | close
  | drop

/-- What the user of a channel is told. -/
inductive Told (α : Type)
  | sent (s : Sent)
  | received (r : Received α)
  | closed (b : Bool)
  | done

/-- The uses that were made of a channel, with what was told each time. -/
abbrev Log (α : Type) := List (Use α × Told α)

/-- Uses a channel once. A send that would have to wait is given up. -/
def perform (c : Channel α) : Use α → Channel α × Told α
  | .send _ a => ((c.send a).2, .sent (c.send a).1)
  | .receive => (c.receive.2, .received c.receive.1)
  | .look _ => (c, .closed c.isClosed)
  | .close => (c.close, .done)
  | .drop => (c.drop, .done)

/-- Uses a channel in order. -/
def run (c : Channel α) : List (Use α) → Channel α × Log α
  | [] => (c, [])
  | u :: us => (((c.perform u).1.run us).1, (u, (c.perform u).2) :: ((c.perform u).1.run us).2)

@[simp] theorem run_nil (c : Channel α) : c.run [] = (c, []) := rfl

@[simp] theorem run_cons (c : Channel α) (u : Use α) (us : List (Use α)) : c.run (u :: us) =
    (((c.perform u).1.run us).1, (u, (c.perform u).2) :: ((c.perform u).1.run us).2) := rfl

/-! ## What a log tells -/

namespace Log

/-- The items that the channel has accepted, in order. -/
def accepted (log : Log α) : List α :=
  log.filterMap fun
    | (.send _ a, .sent .accepted) => some a
    | _ => none

/-- What the receiver has been told, in order. -/
def answers (log : Log α) : List (Received α) :=
  log.filterMap fun
    | (_, .received r) => some r
    | _ => none

/-- The items that have been received, in order. -/
def received (log : Log α) : List α := log.answers.filterMap Received.item?

@[simp] theorem accepted_append (log more : Log α) :
    accepted (log ++ more) = accepted log ++ accepted more := List.filterMap_append ..

@[simp] theorem received_append (log more : Log α) :
    received (log ++ more) = received log ++ received more := by
  unfold received answers
  rw [List.filterMap_append, List.filterMap_append]

end Log

/-! ## One use -/

/-- What a use can do. -/
inductive Effect (c : Channel α) : Use α → Channel α × Told α → Prop
  | accepted (sink : Nat) (a : α) (hl : c.receiver = .listening)
    (hroom : c.queue.length < c.capacity) :
    Effect c (.send sink a) ({ c with queue := c.queue ++ [a] }, .sent .accepted)
  | full (sink : Nat) (a : α) (hl : c.receiver = .listening)
    (hroom : c.capacity ≤ c.queue.length) : Effect c (.send sink a) (c, .sent .full)
  | refused (sink : Nat) (a : α) (hl : c.receiver ≠ .listening) :
    Effect c (.send sink a) (c, .sent .refused)
  | item (a : α) (rest : List α) (hg : c.receiver ≠ .gone) (hqueue : c.queue = a :: rest) :
    Effect c .receive ({ c with queue := rest }, .received (.item a))
  /-- The receiver gets no item, and is told that it is the end when it has closed the channel. -/
  | without (r : Received α) (hitem : r.item? = none)
    (hended : c.receiver = .closed → c.queue = [] ∧ r = .ended) :
    Effect c .receive (c, .received r)
  | look (sink : Nat) : Effect c (.look sink) (c, .closed c.isClosed)
  | close (hg : c.receiver ≠ .gone) : Effect c .close ({ c with receiver := .closed }, .done)
  /-- There is no receiver that could close the channel. -/
  | closeGone (hg : c.receiver = .gone) : Effect c .close (c, .done)
  | drop : Effect c .drop ({ c with receiver := .gone, queue := [] }, .done)

theorem effect_send (c : Channel α) (sink : Nat) (a : α) :
    c.Effect (.send sink a) (c.perform (.send sink a)) := by
  dsimp only [perform]
  rcases c.send_cases a with ⟨hroom, hsend⟩ | ⟨hroom, hsend⟩ | ⟨hroom, hsend⟩ <;> rw [hsend]
  · obtain ⟨hl, hlength⟩ := room_eq_accepted_iff.1 hroom
    exact .accepted sink a hl hlength
  · obtain ⟨hl, hlength⟩ := room_eq_full_iff.1 hroom
    exact .full sink a hl hlength
  · exact .refused sink a (room_eq_refused_iff.1 hroom)

theorem effect_receive (c : Channel α) : c.Effect .receive (c.perform .receive) := by
  dsimp only [perform]
  obtain ⟨r, hreceive, hitem, hnone, hended⟩ | ⟨a, rest, hg, hqueue, hreceive⟩ := c.receive_cases
  · rw [hreceive]
    refine .without r ?_ fun hc => ⟨hnone.resolve_left (by rw [hc]; nofun), hended hc⟩
    cases r with
    | item a => exact absurd rfl (hitem a)
    | _ => rfl
  · rw [hreceive]
    exact .item a rest hg hqueue

theorem effect_perform (c : Channel α) (u : Use α) : c.Effect u (c.perform u) := by
  cases u with
  | send sink a => exact c.effect_send sink a
  | receive => exact c.effect_receive
  | look sink => exact .look sink
  | close =>
    change c.Effect .close (c.close, .done)
    unfold Channel.close
    split
    · next hg => exact .closeGone hg
    · next hg => exact .close hg
  | drop => exact .drop

theorem Effect.capacity_eq {c : Channel α} {u : Use α} {q : Channel α × Told α}
    (h : c.Effect u q) : q.1.capacity = c.capacity := by
  cases h <;> rfl

/-- What fitted into the queue still does. -/
theorem Effect.length_le {c : Channel α} {u : Use α} {q : Channel α × Told α}
    (h : c.Effect u q) (hc : c.queue.length ≤ c.capacity) : q.1.queue.length ≤ c.capacity := by
  cases h with
  | accepted sink a hl hroom =>
    rw [List.length_append]
    exact hroom
  | item a rest hg hqueue =>
    rw [hqueue] at hc
    exact Nat.le_of_succ_le hc
  | drop => exact Nat.zero_le _
  | _ => exact hc

/-- What was queued or is accepted, is received or still queued. -/
theorem Effect.balance {c : Channel α} {u : Use α} {q : Channel α × Told α}
    (h : c.Effect u q) (hu : u ≠ .drop) :
    c.queue ++ Log.accepted [(u, q.2)] = Log.received [(u, q.2)] ++ q.1.queue := by
  cases h with
  | item a rest hg hqueue => rw [hqueue]; exact List.append_nil _
  | without r hitem hended =>
    have hnone : Log.received [((.receive : Use α), .received r)] = [] := by
      simp [Log.received, Log.answers, hitem]
    rw [hnone]
    exact List.append_nil _
  | accepted sink a hl hroom => rfl
  | drop => exact absurd rfl hu
  | _ => exact List.append_nil _

theorem Effect.closed_iff {c : Channel α} {u : Use α} {q : Channel α × Told α}
    (h : c.Effect u q) :
    q.1.isClosed = true ↔ c.isClosed = true ∨ u = .close ∨ u = .drop := by
  cases h with
  | close hg => simp [isClosed]
  | closeGone hg => simp [isClosed, hg]
  | drop => simp [isClosed]
  | _ => simp [isClosed]

theorem Effect.gone_iff {c : Channel α} {u : Use α} {q : Channel α × Told α}
    (h : c.Effect u q) : q.1.receiver = .gone ↔ c.receiver = .gone ∨ u = .drop := by
  cases h with
  | close hg => simp [hg]
  | _ => simp

/-- A channel that is closed accepts nothing. -/
theorem Effect.accepted_eq_nil {c : Channel α} {u : Use α} {q : Channel α × Told α}
    (h : c.Effect u q) (hc : c.isClosed = true) : Log.accepted [(u, q.2)] = [] := by
  cases h with
  | accepted sink a hl hroom => exact absurd hl (isClosed_iff.1 hc)
  | _ => rfl

/-! ## Many uses -/

theorem accepted_run_cons (c : Channel α) (u : Use α) (us : List (Use α)) :
    (c.run (u :: us)).2.accepted =
      Log.accepted [(u, (c.perform u).2)] ++ ((c.perform u).1.run us).2.accepted :=
  Log.accepted_append [_] _

theorem received_run_cons (c : Channel α) (u : Use α) (us : List (Use α)) :
    (c.run (u :: us)).2.received =
      Log.received [(u, (c.perform u).2)] ++ ((c.perform u).1.run us).2.received :=
  Log.received_append [_] _

@[simp] theorem capacity_run (c : Channel α) (us : List (Use α)) :
    (c.run us).1.capacity = c.capacity := by
  induction us generalizing c with
  | nil => rfl
  | cons u us ih => simp [ih, (c.effect_perform u).capacity_eq]

/-- There are never more items queued than fit. -/
theorem length_run {c : Channel α} (h : c.queue.length ≤ c.capacity) (us : List (Use α)) :
    (c.run us).1.queue.length ≤ c.capacity := by
  induction us generalizing c with
  | nil => exact h
  | cons u us ih =>
    have heffect := c.effect_perform u
    have hcapacity := heffect.capacity_eq
    have hlength := heffect.length_le h
    rw [← hcapacity] at hlength ⊢
    exact ih hlength

/-- Nothing is lost, doubled or put out of order. -/
theorem balance_run (c : Channel α) {us : List (Use α)} (h : .drop ∉ us) :
    c.queue ++ (c.run us).2.accepted = (c.run us).2.received ++ (c.run us).1.queue := by
  induction us generalizing c with
  | nil => exact List.append_nil _
  | cons u us ih =>
    obtain ⟨hu, hus⟩ := List.forall_mem_cons.1 fun v hv => ne_of_mem_of_not_mem hv h
    have hrest := ih (c.perform u).1 fun hm => hus _ hm rfl
    calc c.queue ++ (c.run (u :: us)).2.accepted
        = c.queue ++ Log.accepted [(u, (c.perform u).2)] ++
            ((c.perform u).1.run us).2.accepted := by
          rw [accepted_run_cons, List.append_assoc]
      _ = Log.received [(u, (c.perform u).2)] ++
            ((c.perform u).1.queue ++ ((c.perform u).1.run us).2.accepted) := by
          rw [(c.effect_perform u).balance hu, List.append_assoc]
      _ = (c.run (u :: us)).2.received ++ (c.run (u :: us)).1.queue := by
          rw [hrest, received_run_cons, List.append_assoc, run_cons]

theorem isClosed_run (c : Channel α) (us : List (Use α)) :
    (c.run us).1.isClosed = true ↔ c.isClosed = true ∨ .close ∈ us ∨ .drop ∈ us := by
  induction us generalizing c with
  | nil => simp
  | cons u us ih =>
    rw [run_cons, ih, (c.effect_perform u).closed_iff, List.mem_cons, List.mem_cons, eq_comm,
      @eq_comm _ u, @eq_comm _ u, or_assoc, or_or_or_comm]

theorem gone_run (c : Channel α) (us : List (Use α)) :
    (c.run us).1.receiver = .gone ↔ c.receiver = .gone ∨ .drop ∈ us := by
  induction us generalizing c with
  | nil => simp
  | cons u us ih => simp [ih, (c.effect_perform u).gone_iff, eq_comm (a := u), or_assoc]

/-- A channel that is closed accepts nothing more. -/
theorem accepted_of_isClosed {c : Channel α} (h : c.isClosed = true) (us : List (Use α)) :
    (c.run us).2.accepted = [] := by
  induction us generalizing c with
  | nil => rfl
  | cons u us ih =>
    have heffect := c.effect_perform u
    rw [accepted_run_cons, heffect.accepted_eq_nil h, ih (heffect.closed_iff.2 (.inl h)),
      List.append_nil]

theorem answers_run_cons (c : Channel α) (u : Use α) (us : List (Use α)) :
    (c.run (u :: us)).2.answers =
      Log.answers [(u, (c.perform u).2)] ++ ((c.perform u).1.run us).2.answers :=
  List.filterMap_append (l := [_])

/-- A receiver that has closed the channel gets what is queued, then the end. -/
theorem answers_of_closed {c : Channel α} (h : c.receiver = .closed) {us : List (Use α)}
    (hus : .drop ∉ us) :
    (c.run us).2.answers <+: c.queue.map .item ++ List.replicate us.length .ended := by
  induction us generalizing c with
  | nil => exact List.nil_prefix
  | cons u us ih =>
    obtain ⟨hu, hus⟩ := List.forall_mem_cons.1 fun v hv => ne_of_mem_of_not_mem hv hus
    have hrest {d : Channel α} (hd : d.receiver = .closed) := ih hd fun hm => hus _ hm rfl
    -- A use that is no receive leaves more ends to be told than there are uses.
    have hmore (l : List (Received α)) : l ++ List.replicate us.length .ended <+:
        l ++ List.replicate (u :: us).length .ended := by
      rw [List.length_cons, List.replicate_succ', ← List.append_assoc]
      exact List.prefix_append _ _
    rw [answers_run_cons]
    generalize hq : c.perform u = q
    have heffect := hq ▸ c.effect_perform u
    cases heffect with
    | accepted sink a hl hroom => exact absurd (h.symm.trans hl) nofun
    | full sink a hl hroom => exact absurd (h.symm.trans hl) nofun
    | item a rest hg hqueue =>
      rw [hqueue]
      have htail := (hrest (d := { c with queue := rest }) h).trans (hmore _)
      exact List.cons_prefix_cons.2 ⟨rfl, htail⟩
    | without r hitem hended =>
      obtain ⟨hqueue, rfl⟩ := hended h
      have := hrest h
      rw [hqueue] at this ⊢
      exact List.cons_prefix_cons.2 ⟨rfl, this⟩
    | refused sink a hl => exact (hrest h).trans (hmore _)
    | look sink => exact (hrest h).trans (hmore _)
    | close hg => exact (hrest rfl).trans (hmore _)
    | closeGone hg => exact absurd (h.symm.trans hg) nofun
    | drop => exact absurd rfl hu

/-- What becomes of a send goes by the receiver and by the room there is. -/
theorem Effect.sent_iff {c : Channel α} {sink : Nat} {a : α} {q : Channel α × Told α}
    (h : c.Effect (.send sink a) q) :
    (q.2 = .sent .accepted ↔ ¬ c.isClosed = true ∧ c.queue.length < c.capacity) ∧
    (q.2 = .sent .full ↔ ¬ c.isClosed = true ∧ c.capacity ≤ c.queue.length) ∧
    (q.2 = .sent .full → q.1 = c) ∧
    (q.2 = .sent .refused ↔ c.isClosed = true) := by
  rw [isClosed_iff, Decidable.not_not]
  cases h with
  | accepted sink a hl hroom => simp [hl, hroom]
  | full sink a hl hroom => simp [hl, hroom]
  | refused sink a hl => simp [hl]

/-- **A channel is a bounded queue that can be closed.** -/
theorem fifo_run (n : Nat) (us : List (Use α)) :
    let start : Channel α := { capacity := n }
    let c := (start.run us).1
    let log := (start.run us).2
    (.drop ∉ us → log.accepted = log.received ++ c.queue) ∧
    c.queue.length ≤ n ∧
    (∀ sink a,
      ((c.perform (.send sink a)).2 = .sent .accepted ↔
        ¬ (.close ∈ us ∨ .drop ∈ us) ∧ c.queue.length < n) ∧
      ((c.perform (.send sink a)).2 = .sent .full ↔
        ¬ (.close ∈ us ∨ .drop ∈ us) ∧ c.queue.length = n) ∧
      ((c.perform (.send sink a)).2 = .sent .full → (c.perform (.send sink a)).1 = c) ∧
      ((c.perform (.send sink a)).2 = .sent .refused ↔ .close ∈ us ∨ .drop ∈ us)) ∧
    (∀ sink, (c.perform (.look sink)).2 = .closed true ↔ .close ∈ us ∨ .drop ∈ us) ∧
    (.close ∈ us ∨ .drop ∈ us → ∀ more, (c.run more).2.accepted = [] ∧
      ∀ sink, ((c.run more).1.perform (.look sink)).2 = .closed true) ∧
    (.close ∈ us → .drop ∉ us → ∀ more, .drop ∉ more →
      (c.run more).2.answers <+: c.queue.map .item ++ List.replicate more.length .ended) := by
  intro start c log
  have hcapacity : c.capacity = n := start.capacity_run us
  have hlength : c.queue.length ≤ n := length_run (c := start) (Nat.zero_le n) us
  have hclosed : c.isClosed = true ↔ .close ∈ us ∨ .drop ∈ us :=
    (start.isClosed_run us).trans (or_iff_right nofun)
  have hlook (d : Channel α) (sink : Nat) :
      (d.perform (.look sink)).2 = .closed true ↔ d.isClosed = true := Told.closed.injEq .. ▸ .rfl
  refine ⟨start.balance_run, hlength, fun sink a => ?_, fun sink => (hlook c sink).trans hclosed,
    fun hus more => ?_, fun hclose hdrop more => ?_⟩
  · obtain ⟨haccepted, hfull, hsame, hrefused⟩ := (c.effect_perform (.send sink a)).sent_iff
    rw [hclosed, hcapacity] at haccepted hfull
    refine ⟨haccepted, hfull.trans (and_congr_right fun _ => ?_), hsame, hrefused.trans hclosed⟩
    exact ⟨Nat.le_antisymm hlength, Nat.le_of_eq ∘ Eq.symm⟩
  · have hc := hclosed.2 hus
    exact ⟨accepted_of_isClosed hc more,
      fun sink => (hlook _ sink).2 ((c.isClosed_run more).2 (.inl hc))⟩
  · have hgone : c.receiver ≠ .gone := fun hg => ((start.gone_run us).1 hg).elim nofun hdrop
    have hl := isClosed_iff.1 (hclosed.2 (.inl hclose))
    have hreceiver : c.receiver = .closed := by
      cases hr : c.receiver with
      | listening => exact absurd hr hl
      | closed => rfl
      | gone => exact absurd hr hgone
    exact answers_of_closed hreceiver

/-- A channel for one item, used by two sinks, in which the second item waits in vain. -/
example : ((({ capacity := 1 } : Channel Nat).run
    [.send 0 1, .send 1 2, .close, .send 0 3, .receive, .receive]).2.map Prod.snd) =
    [.sent .accepted, .sent .full, .done, .sent .refused, .received (.item 1), .received .ended] :=
  rfl

end Channel

end ToneRelay.Stream
