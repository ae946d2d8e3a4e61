import Mathlib.Data.List.Perm.Subperm
import ToneRelay.Proofs.Service.Accounts
import ToneRelay.Proofs.Stream.Slots
import ToneRelay.Service.App

/-!
# Reconciliation

Any number of stream requests share the counters, the history and the number of launches, and their
steps interleave as they like. `accounts_reconciled`: whenever every handler has answered and no
event is half counted, each request that has reached a handler is counted once, as rejected, as
failed to start or as started; only one that was not rejected has launched a generator; each stream
that was started is active, or counted once under the state in which it ended, with its bytes; and
the history has got the report of each of these, and no other.

1. `Shares` says that effects, in order, are those of some exchanges. One step of one of them
   preserves it (`shares_step`), and so all of their accounts are one (`Shares.balanced`).
2. What is shared tells what its effects have been (`Told`, `told_apply`), and the history has a
   slot for each report (`size_apply`).
3. Both hold in all that can happen (`accounted_step`, `accounted_run`).
-/

namespace ToneRelay.Service

open ToneRelay.Stream (Books Counters History Report Update)

/-! ## The effects of many exchanges -/

/-- Effects, in order, that are those of some exchanges, each as far as it has come. -/
inductive Shares : List Exchange → List Effect → Prop
  | none : Shares [] []
  | one {x : Exchange} {xs : List Exchange} {b : Books} {es fs order : List Effect}
      (hn : x.Named) (hk : x.Kept b es) (hs : Shares xs fs) (hp : order.Perm (es ++ fs)) :
      Shares (x :: xs) order

section

variable {xs : List Exchange} {order : List Effect}

/-- **One step of one exchange.** -/
theorem shares_step (h : Shares xs order) {i : Nat} {x : Exchange} (hi : xs[i]? = some x)
    (m : Exchange.Move) : Shares (xs.set i (x.step m).1) (order ++ (x.step m).2.toList) := by
  induction h generalizing i with
  | none => cases hi
  | @one y ys b es fs order hn hk hs hp ih =>
    cases i with
    | zero =>
      obtain rfl : y = x := Option.some.inj hi
      refine .one (Exchange.named_step hn m) (Exchange.kept_step hk m) hs ?_
      calc
        (order ++ (y.step m).2.toList).Perm (es ++ fs ++ (y.step m).2.toList) := hp.append_right _
        _ = es ++ (fs ++ (y.step m).2.toList) := List.append_assoc _ _ _
        (es ++ (fs ++ (y.step m).2.toList)).Perm (es ++ ((y.step m).2.toList ++ fs)) :=
          List.perm_append_comm.append_left es
        _ = es ++ (y.step m).2.toList ++ fs := (List.append_assoc _ _ _).symm
    | succ i =>
      refine .one hn hk (ih hi) ?_
      rw [← List.append_assoc]
      exact hp.append_right _

theorem shares_arrive (h : Shares xs order) {x : Exchange} (hx : x.phase = .arrived) :
    Shares (xs ++ [x]) order := by
  induction h with
  | none =>
    have hnamed : x.Named := Exchange.named_of_none (by simp [Exchange.session?, hx])
    exact .one hnamed (Exchange.kept_of_arrived hx) .none (.refl _)
  | one hn hk hs hp ih => exact .one hn hk ih hp

/-- **All accounts are one.** -/
theorem Shares.balanced (h : Shares xs order) (hq : ∀ x ∈ xs, x.isQuiet = true) :
    Balanced xs.length (xs.countP Exchange.isActive) (xs.filterMap Exchange.counted?) order := by
  induction h with
  | none => exact balanced_nil
  | @one x xs b es fs order hn hk hs hp ih =>
    rw [List.forall_mem_cons] at hq
    have hall := (Exchange.balanced_of_kept hk hq.1).append (ih hq.2)
    have hcounted : (x :: xs).filterMap Exchange.counted? =
        x.counted?.toList ++ xs.filterMap Exchange.counted? := by
      rw [List.filterMap_cons]
      cases x.counted? <;> rfl
    rw [List.length_cons, List.countP_cons, hcounted, Nat.add_comm, Nat.add_comm (xs.countP _)]
    exact hall.perm hp

/-- No more streams have left than have entered, and none has entered twice. -/
theorem Shares.enters (h : Shares xs order) :
    (updates order).count .leave ≤ (updates order).count .enter ∧
      (updates order).count .enter ≤ xs.length := by
  induction h with
  | none => exact ⟨Nat.le_refl _, Nat.le_refl _⟩
  | @one x xs b es fs order hn hk hs hp ih =>
    have hu : (updates order).Perm (updates es ++ updates fs) :=
      (hp.filterMap _).trans (.of_eq (updates_append es fs))
    obtain ⟨hleave, henter⟩ := Exchange.enters_of_kept hk
    rw [hu.count_eq, hu.count_eq, List.count_append, List.count_append, List.length_cons]
    omega

/-- The reports are those of the exchanges that have recorded them. -/
theorem Shares.reports (h : Shares xs order) :
    (reports order).Perm (xs.filterMap Exchange.recorded?) := by
  induction h with
  | none => exact .refl _
  | @one x xs b es fs order hn hk hs hp ih =>
    have hr : (Service.reports order).Perm (Service.reports es ++ Service.reports fs) :=
      (hp.filterMap _).trans (.of_eq (reports_append es fs))
    have hrecorded : (x :: xs).filterMap Exchange.recorded? =
        x.recorded?.toList ++ xs.filterMap Exchange.recorded? := by
      rw [List.filterMap_cons]
      cases x.recorded? <;> rfl
    rw [Exchange.reports_of_kept hk] at hr
    rw [hrecorded]
    exact hr.trans (ih.append_left _)

/-- The reports go by the names of exchanges, each by that of another one. -/
theorem Shares.ids (h : Shares xs order) :
    ((Service.reports order).map (·.id)).Subperm (xs.map (·.id)) := by
  have hsublist : ((xs.filterMap Exchange.recorded?).map (·.id)).Sublist (xs.map (·.id)) := by
    induction h with
    | none => exact .slnil
    | @one x xs b es fs order hn hk hs hp ih =>
      rw [List.filterMap_cons]
      cases hr : x.recorded? with
      | none => exact .cons _ ih
      | some r =>
        rw [List.map_cons, List.map_cons, Exchange.id_recorded hn hr]
        exact .cons_cons _ ih
  exact (h.reports.map _).subperm.trans hsublist.subperm

/-- The reports of different exchanges have different names, if these have. -/
theorem Shares.nodup (h : Shares xs order) (hx : (xs.map (·.id)).Nodup) :
    ((Service.reports order).map (·.id)).Nodup := by
  obtain ⟨ids, hperm, hsublist⟩ := h.ids
  exact hperm.nodup_iff.1 (hx.sublist hsublist)

end

/-! ## What is shared -/

/-- What is shared tells of effects that have been had on it. -/
structure Told (capacity : Nat) (order : List Effect) (s : Shared) : Prop where
  counters : s.counters = ({} : Counters).run (updates order)
  active : (updates order).count .enter < UInt64.size → s.counters.TellsActive (updates order)
  launches : s.launches = order.countP Effect.isLaunch
  capacity : s.history.capacity = capacity
  slots : ∀ r ∈ s.history.reports, r ∈ reports order

section

variable {capacity : Nat} {order : List Effect} {s : Shared}

theorem told_empty (n : Nat) : Told (max n 1) [] { history := .empty n } :=
  ⟨rfl, fun _ => rfl, rfl, rfl, fun _ hr => absurd hr List.not_mem_nil⟩

theorem launches_apply (s : Shared) (e : Effect) :
    (s.apply e).launches = s.launches + [e].countP Effect.isLaunch := by
  cases e <;> rfl

theorem capacity_apply (s : Shared) (e : Effect) :
    (s.apply e).history.capacity = s.history.capacity := by
  cases e <;> rfl

theorem mem_apply {e : Effect} {r : Report} (hr : r ∈ (s.apply e).history.reports) :
    r ∈ s.history.reports ∨ r ∈ reports [e] := by
  cases e with
  | count u => exact .inl hr
  | launch => exact .inl hr
  | record q =>
    rcases History.mem_record hr with rfl | hr
    · exact .inr List.mem_cons_self
    · exact .inl hr

/-- An update of the number of active streams is not lost, because they enter before they leave. -/
theorem active_apply {e : Effect}
    (h : (updates order).count .enter < UInt64.size → s.counters.TellsActive (updates order))
    (hle : (updates (order ++ [e])).count .leave ≤ (updates (order ++ [e])).count .enter)
    (hlt : (updates (order ++ [e])).count .enter < UInt64.size) :
    (s.apply e).counters.TellsActive (updates (order ++ [e])) := by
  rw [updates_append] at hle hlt ⊢
  have hbefore : (updates order).count .enter < UInt64.size := by
    rw [List.count_append] at hlt
    omega
  cases e with
  | count u => exact Counters.active_update (h hbefore) hle hlt
  | launch => exact (List.append_nil (updates order)).symm ▸ h hbefore
  | record r => exact (List.append_nil (updates order)).symm ▸ h hbefore

/-- **One effect.** -/
theorem told_apply {e : Effect} (h : Told capacity order s)
    (hle : (updates (order ++ [e])).count .leave ≤ (updates (order ++ [e])).count .enter) :
    Told capacity (order ++ [e]) (s.apply e) where
  counters := by rw [counters_apply, h.counters, updates_append, Counters.run_append]
  active := active_apply h.active hle
  launches := by rw [launches_apply, h.launches, List.countP_append]
  capacity := (capacity_apply s e).trans h.capacity
  slots r hr := by
    rw [reports_append, List.mem_append]
    exact (mem_apply hr).imp_left (h.slots r)

/-- Each report has a slot of its own, as long as there is one. -/
theorem size_apply {e : Effect} (h : Told capacity order s)
    (hsize : s.history.size = min capacity (reports order).length)
    (hnodup : ((reports (order ++ [e])).map (·.id)).Nodup) :
    (s.apply e).history.size = min capacity (reports (order ++ [e])).length := by
  rw [reports_append] at hnodup ⊢
  have hsame : reports [e] = [] → (s.apply e).history = s.history →
      (s.apply e).history.size = min capacity (reports order ++ reports [e]).length := by
    intro hnil hhistory
    rw [hnil, List.append_nil, hhistory, hsize]
  cases e with
  | count u => exact hsame rfl rfl
  | launch => exact hsame rfl rfl
  | record r =>
    have hnew : ∀ q ∈ s.history.reports, q.id ≠ r.id := by
      intro q hq heq
      rw [List.map_append, List.nodup_append] at hnodup
      exact hnodup.2.2 q.id (List.mem_map.2 ⟨q, h.slots q hq, rfl⟩) r.id List.mem_cons_self heq
    show (s.history.record r).size = _
    rw [History.size_record_new hnew, h.capacity, hsize, List.length_append]
    show _ = min capacity ((reports order).length + 1)
    omega

/-- To ask for a report is not an effect. -/
theorem told_lookup (h : Told capacity order s) (id : Text.Uuid) :
    Told capacity order (s.lookup id).2 where
  counters := h.counters
  active := h.active
  launches := h.launches
  capacity := (s.history.capacity_get id).trans h.capacity
  slots r hr := h.slots r (History.mem_get hr)

end

namespace Traffic

/-! ## All that happens -/

/-- The effects of a move. -/
def effects (t : Traffic) : Move → List Effect
  | .exchange i m =>
    match t.exchanges[i]? with
    | some x => (x.step m).2.toList
    | none => []
  | _ => []

theorem effects_exchange {t : Traffic} {i : Nat} {x : Exchange} (hi : t.exchanges[i]? = some x)
    (m : Exchange.Move) : t.effects (.exchange i m) = (x.step m).2.toList := by simp [effects, hi]

theorem effects_missing {t : Traffic} {i : Nat} (hi : t.exchanges[i]? = none)
    (m : Exchange.Move) : t.effects (.exchange i m) = [] := by simp [effects, hi]

/-- The effects of moves, in order. -/
def log (t : Traffic) : List Move → List Effect
  | [] => []
  | m :: ms => t.effects m ++ (t.step m).1.log ms

/-- What is shared tells of the effects of all exchanges. -/
structure Accounted (capacity : Nat) (order : List Effect) (t : Traffic) : Prop where
  shares : Shares t.exchanges order
  told : Told capacity order t.shared
  size : (t.exchanges.map (·.id)).Nodup →
    t.shared.history.size = min capacity (reports order).length

/-- Nothing has happened yet. -/
def fresh (n : Nat) : Traffic := { shared := { history := .empty n } }

theorem accounted_fresh (n : Nat) : Accounted (max n 1) [] (fresh n) :=
  ⟨.none, told_empty n, fun _ => (Nat.min_eq_right (Nat.zero_le _)).symm⟩

variable {capacity : Nat} {order : List Effect} {t : Traffic}

/-- A step does not change the name of an exchange. -/
theorem ids_set {xs : List Exchange} {i : Nat} {x : Exchange} (hi : xs[i]? = some x)
    (m : Exchange.Move) : (xs.set i (x.step m).1).map (·.id) = xs.map (·.id) := by
  obtain ⟨p, hp⟩ := x.step_eq m
  have hlt : i < xs.length := (List.getElem?_eq_some_iff.1 hi).1
  apply List.ext_getElem?
  intro j
  rw [List.getElem?_map, List.getElem?_map, List.getElem?_set]
  by_cases hij : i = j
  · subst hij
    rw [if_pos rfl, if_pos hlt, hi, hp]
    rfl
  · rw [if_neg hij]

/-- **One thing happens.** -/
theorem accounted_step (h : Accounted capacity order t) (m : Move) :
    Accounted capacity (order ++ t.effects m) (t.step m).1 := by
  obtain ⟨hshares, htold, hsize⟩ := h
  cases m with
  | arrive x =>
    show Accounted capacity (order ++ []) _
    rw [List.append_nil]
    refine ⟨shares_arrive hshares rfl, htold, fun hnodup => hsize ?_⟩
    rw [step_arrive, List.map_append, List.nodup_append] at hnodup
    exact hnodup.1
  | lookup id =>
    show Accounted capacity (order ++ []) _
    rw [List.append_nil]
    exact ⟨hshares, told_lookup htold id,
      fun hnodup => (History.size_get _ _).trans (hsize hnodup)⟩
  | exchange i m =>
    cases hi : t.exchanges[i]? with
    | none =>
      rw [effects_missing hi, step_missing hi, List.append_nil]
      exact ⟨hshares, htold, hsize⟩
    | some x =>
      rw [effects_exchange hi, step_exchange hi]
      have hshares' := shares_step hshares hi m
      have hids := ids_set hi m
      cases he : (x.step m).2 with
      | none =>
        rw [he] at hshares'
        rw [Option.toList_none, List.append_nil] at hshares' ⊢
        refine ⟨hshares', htold, ?_⟩
        intro hnodup
        rw [hids] at hnodup
        exact hsize hnodup
      | some e =>
        rw [he] at hshares'
        refine ⟨hshares', told_apply htold hshares'.enters.1, ?_⟩
        intro hnodup
        exact size_apply htold (hsize (hids ▸ hnodup)) (hshares'.nodup hnodup)

theorem accounted_run (h : Accounted capacity order t) (ms : List Move) :
    Accounted capacity (order ++ t.log ms) (t.run ms) := by
  induction ms generalizing t order with
  | nil =>
    rw [log, List.append_nil]
    exact h
  | cons m ms ih =>
    rw [log, ← List.append_assoc]
    exact ih (accounted_step h m)

/-! ## Requests -/

/-- What comes to the service. -/
inductive Event
  /-- A request for which there is a token, where a stream would get the given name. -/
  | request (i : Incoming) (settings : Settings) (launcher : Generator.Launcher) (id : Text.Uuid)
  /-- Something happens in one of the exchanges. -/
  | exchange (i : Nat) (m : Exchange.Move)
  /-- A question for a session. -/
  | lookup (id : Text.Uuid)

/-- The exchange that an event starts: a request for a stream whose fields can be decoded reaches
the handler, under each of the two paths, and no other request does. -/
def Event.arrival? : Event → Option Exchange
  | .request i settings launcher id =>
    let target := Target.parse i.target
    if i.isRead ∧ Route.ofPath target.path = some .stream then
      match Request.Query.decode target.query with
      | .ok q => some { settings := settings, launcher := launcher, query := q, id := id }
      | .error _ => none
    else none
  | _ => none

def Event.move? : Event → Option Move
  | .exchange i m => some (.exchange i m)
  | .lookup id => some (.lookup id)
  | e => e.arrival?.map .arrive

/-- The exchanges and what they share after some events. -/
def serve (t : Traffic) (events : List Event) : Traffic := t.run (events.filterMap Event.move?)

/-- The reports that the history has got in some events. -/
def received (t : Traffic) (events : List Event) : List Report :=
  reports (t.log (events.filterMap Event.move?))

theorem length_step (t : Traffic) (m : Move) : (t.step m).1.exchanges.length =
    t.exchanges.length + if m matches .arrive _ then 1 else 0 := by
  cases m with
  | arrive x => simp
  | exchange i m =>
    cases hi : t.exchanges[i]? with
    | none => simp [step_missing hi]
    | some x => simp [step_exchange hi]
  | lookup id => rfl

/-- There is an exchange for each request that reached the handler. -/
theorem length_serve (t : Traffic) (events : List Event) : (t.serve events).exchanges.length =
    t.exchanges.length + (events.filterMap Event.arrival?).length := by
  unfold serve
  induction events generalizing t with
  | nil => rfl
  | cons e events ih =>
    cases e with
    | request i settings launcher id =>
      have hmove : (Event.request i settings launcher id).move? =
          (Event.request i settings launcher id).arrival?.map .arrive := rfl
      rw [List.filterMap_cons, List.filterMap_cons, hmove]
      cases (Event.request i settings launcher id).arrival? with
      | none => exact ih t
      | some x =>
        rw [Option.map_some]
        dsimp only
        rw [run_cons, ih, length_step, List.length_cons]
        simp
        omega
    | exchange i m =>
      show (t.run (.exchange i m :: _)).exchanges.length = _
      rw [run_cons, ih, length_step]
      rfl
    | lookup id =>
      show (t.run (.lookup id :: _)).exchanges.length = _
      rw [run_cons, ih, length_step]
      rfl

/-! ## The accounts -/

/-- The accounts of the service, for a history with room for `capacity` reports, after some number
of requests that have reached the handler and some reports that the history has got. All equations
of counters are modulo the size of a word. -/
structure Reconciled (capacity arrivals : Nat) (reported : List Report) (t : Traffic) : Prop where
  /-- No other request is counted. -/
  requests : t.shared.counters.requests = UInt64.ofNat arrivals
  answers : t.shared.counters.requests = t.shared.counters.rejected +
    t.shared.counters.spawnFailures + t.shared.counters.started
  /-- A rejected request never launches a generator. -/
  launches : UInt64.ofNat t.shared.launches =
    t.shared.counters.requests - t.shared.counters.rejected
  started : t.shared.counters.started = UInt64.ofNat (t.exchanges.countP Exchange.isActive) +
    t.shared.counters.completed + t.shared.counters.aborted + t.shared.counters.failed
  /-- The number of active streams is shown, unless there have been more than a word can count. -/
  active : arrivals < UInt64.size →
    t.shared.counters.active = UInt64.ofNat (t.exchanges.countP Exchange.isActive)
  bytesRelayed : t.shared.counters.bytesRelayed =
    UInt64.ofNat ((t.exchanges.filterMap Exchange.counted?).map (·.bytes)).sum
  /-- A request that has not become a stream takes no slot. -/
  slots : ∀ r ∈ t.shared.history.reports, ∃ x ∈ t.exchanges, x.recorded? = some r
  received : (∀ x ∈ t.exchanges, x.isReporting = false) → UInt64.ofNat reported.length =
    t.shared.counters.completed + t.shared.counters.aborted + t.shared.counters.failed
  size : (t.exchanges.map (·.id)).Nodup →
    t.shared.history.size = min capacity reported.length

theorem Accounted.reconciled (h : Accounted capacity order t)
    (hq : ∀ x ∈ t.exchanges, x.isQuiet = true) :
    Reconciled capacity t.exchanges.length (reports order) t := by
  obtain ⟨hshares, htold, hsize⟩ := h
  obtain ⟨hrequests, hrejected, hspawn, hstarted, hcompleted, haborted, hfailed, hbytes⟩ :=
    Counters.grown_run {} (updates order)
  simp only [← htold.counters, UInt64.zero_add] at hrequests hrejected hspawn hstarted
  simp only [← htold.counters, UInt64.zero_add] at hcompleted haborted hfailed hbytes
  have hb := hshares.balanced hq
  refine ⟨?_, ?_, ?_, ?_, ?_, ?_, ?_, ?_, hsize⟩
  · rw [hrequests, hb.requests]
  · rw [hrequests, hrejected, hspawn, hstarted, hb.requests, hb.answers, UInt64.ofNat_add,
      UInt64.ofNat_add]
  · rw [htold.launches, hrequests, hrejected, hb.requests, ← hb.launches, UInt64.ofNat_add,
      UInt64.add_sub_cancel]
  · rw [hstarted, hcompleted, haborted, hfailed, hb.started, ← hb.ended, UInt64.ofNat_add,
      UInt64.ofNat_add, UInt64.ofNat_add, UInt64.add_assoc, UInt64.add_assoc, UInt64.add_assoc]
  · intro hlt
    have hactive := htold.active (Nat.lt_of_le_of_lt hshares.enters.2 hlt)
    have hleave := hb.active
    unfold Counters.TellsActive at hactive
    have hnat : t.shared.counters.active.toNat = t.exchanges.countP Exchange.isActive := by omega
    rw [← hnat, UInt64.ofNat_toNat]
  · rw [hbytes, hb.bytes]
  · intro r hr
    have hmem := (hshares.reports.mem_iff).1 (htold.slots r hr)
    exact List.mem_filterMap.1 hmem
  · intro hreported
    have hsame : t.exchanges.filterMap Exchange.recorded? =
        t.exchanges.filterMap Exchange.counted? :=
      List.filterMap_congr fun x hx => Exchange.recorded?_eq_counted? (hreported x hx)
    rw [hshares.reports.length_eq, hsame, ← hb.ended, hcompleted, haborted, hfailed,
      UInt64.ofNat_add, UInt64.ofNat_add]

/-- **The accounts of the service**, after any requests whose steps come in any order, as soon as
every handler has answered and no event is half counted. -/
theorem accounts_reconciled (n : Nat) (events : List Event)
    (hq : ∀ x ∈ ((fresh n).serve events).exchanges, x.isQuiet = true) :
    Reconciled (max n 1) (events.filterMap Event.arrival?).length ((fresh n).received events)
      ((fresh n).serve events) := by
  have haccounted := accounted_run (accounted_fresh n) (events.filterMap Event.move?)
  have hlength := length_serve (fresh n) events
  have hrequests : ((fresh n).serve events).exchanges.length =
      (events.filterMap Event.arrival?).length := by
    rw [hlength]
    exact Nat.zero_add _
  rw [← hrequests]
  exact haccounted.reconciled hq

/-- A stream, a request that is rejected and one that does not reach the handler. The steps of the
first come after those of the second. -/
def threeRequests : List Event :=
  let request (target : String) (id : Nat) : Event :=
    .request ⟨"GET", target, []⟩ {} Exchange.sample.launcher (.ofNat id)
  let refusal : List Exchange.Move := List.replicate 3 (.proceed ⟨"2024-01-01T00:00:00Z"⟩)
  [request "/stream" 0, request "/api/stream?freq=0" 1, request "/stream?freq=1&freq=2" 2] ++
    refusal.map (.exchange 1) ++ Exchange.sampleMoves.map (.exchange 0)

theorem accounts_reconciled_three :
    let t := (fresh 4).serve threeRequests
    (∀ x ∈ t.exchanges, x.isQuiet = true) ∧ t.shared.counters.requests = 2 ∧
      t.shared.launches = 1 ∧ t.shared.history.size = 1 := by
  have hq : ∀ x ∈ ((fresh 4).serve threeRequests).exchanges, x.isQuiet = true :=
    List.all_eq_true.1 (by decide +kernel)
  have hreconciled := accounts_reconciled 4 threeRequests hq
  have harrivals : (threeRequests.filterMap Event.arrival?).length = 2 := by decide +kernel
  have hreceived : ((fresh 4).received threeRequests).length = 1 := by decide +kernel
  have hids : (((fresh 4).serve threeRequests).exchanges.map (·.id)).Nodup := by decide +kernel
  refine ⟨hq, ?_, by decide +kernel, ?_⟩
  · rw [hreconciled.requests, harrivals]
    rfl
  · rw [hreconciled.size hids, hreceived]
    decide

end Traffic

end ToneRelay.Service
