import ToneRelay.Proofs.Service.Lookup
import ToneRelay.Proofs.Service.Parts
import ToneRelay.Proofs.Service.Uniformity
import ToneRelay.Proofs.Stream.Recency

/-!
# Availability of reports

A listener that has seen the end of a stream can look its session up. `report_available`: in every
order in which the steps of any number of exchanges can come, the end of a body is seen after the
stream has been counted under its final state and after its report has been recorded, under the
name that the answer told and with the bytes that were received. From then on the session is found,
unless as many other sessions have been used as the history has room for. Names are drawn at random,
and a name that is drawn twice finds one session only: the exchange has its name alone.

1. The body is ended in the last step of the relay task, when all else has been done (`Kept.over`).
2. No other report goes by the name of the exchange (`not_recorded_twice`), so that the report stays
   as long as there is room (`find_later`).
3. A history has only reports of sessions that are over (`final_of_mem`).
-/

namespace ToneRelay.Service

open ToneRelay.Stream (Books Counters History Report Session Transfer)

/-- The report of a session that is over. -/
structure Final (r : Report) : Prop where
  terminal : r.state.terminal = true
  finishedAt : r.finishedAt.isSome
  parameters : r.parameters.isSome

namespace Exchange

variable {x : Exchange} {b : Books} {es : List Effect} {t : Transfer}

theorem Concluded.final {s : Session} (h : Concluded s t) : Final s.report := by
  refine ⟨?_, ?_, ?_⟩
  · show s.state.terminal = true
    rcases h.terminal with hs | hs | hs <;> rw [hs] <;> rfl
  all_goals
    obtain ⟨e, s₀, now, -, hs₀, hperform⟩ := h
    rw [perform_closingCall_eq hs₀ hperform]
  · rfl
  · exact hs₀.parameters

theorem final_of_kept (h : x.Kept b es) {r : Report} (hr : x.recorded? = some r) : Final r := by
  unfold Kept at h
  unfold recorded? at hr
  split at hr
  · next hphase =>
    rw [hphase] at h
    exact Option.some.inj hr ▸ h.2.1.final
  · next hphase =>
    rw [hphase] at h
    exact Option.some.inj hr ▸ h.2.1.final
  · cases hr

theorem named_of_arrived (h : x.phase = .arrived) : x.Named :=
  named_of_none (by simp [session?, h])

theorem named_run (h : x.Named) (ms : List Move) : (x.run ms).1.Named := by
  induction ms generalizing x with
  | nil => exact h
  | cons m ms ih => exact ih (named_step h m)

/-- The body is ended when all else has been done. -/
theorem Kept.over (h : x.Kept b es) (ht : x.transfer? = some t)
    (hf : t.channel.finished = true) : ∃ s, x.phase = .over s t := by
  have hopen : ∀ u, some u = some t → ¬ Flowing x.script b u := by
    intro u hu hflowing
    obtain rfl := Option.some.inj hu
    exact absurd (hflowing.unfinished.symm.trans hf) nofun
  unfold Kept at h
  unfold transfer? at ht
  cases hphase : x.phase with
  | «over» s u =>
    rw [hphase] at ht
    obtain rfl := Option.some.inj ht
    exact ⟨s, rfl⟩
  | closing s u =>
    rw [hphase] at h
    exact h.elim
  | relaying s u | settling us s u | recording s u | ending s u =>
    rw [hphase] at h ht
    exact absurd h.2.2 (hopen u ht)
  | _ =>
    rw [hphase] at ht
    cases ht

end Exchange

theorem Shares.final {xs : List Exchange} {order : List Effect} (h : Shares xs order) {r : Report}
    (hr : r ∈ Service.reports order) : Final r := by
  induction h with
  | none => cases hr
  | @one x xs b es fs order hn hk hs hp ih =>
    have hmem : r ∈ Service.reports es ++ Service.reports fs := by
      rw [← reports_append]
      exact (hp.filterMap _).mem_iff.1 hr
    rcases List.mem_append.1 hmem with hr | hr
    · rw [Exchange.reports_of_kept hk, Option.mem_toList] at hr
      exact Exchange.final_of_kept hk hr
    · exact ih hr

namespace Traffic

variable {n : Nat} {ms before after : List Move} {i : Nat} {x : Exchange} {t : Transfer}
  {r : Report}

/-! ## At the end of a body -/

/-- What has been done of a stream, the exchange `i`, whose listener has seen the end. -/
structure Posted (n : Nat) (ms : List Move) (i : Nat) (x : Exchange) (t : Transfer)
    (r : Report) : Prop where
  /-- The answer is a stream, and tells the name. -/
  answered : x.response? = some (.audio x.id)
  id : r.id = x.id
  bytes : r.bytes = t.received.length
  final : Final r
  /-- The stream has been counted under the state in which it ended, and then recorded. -/
  effects : (fresh n).logIn i ms = [.count .request, .launch, .count .started, .count .enter,
    .count .leave, .count (.relayed r.bytes), .count (.ended r.state), .record r]
  among : ((fresh n).logIn i ms).Sublist ((fresh n).log ms)
  /-- The counters show all that has been counted. -/
  counters : ((fresh n).run ms).shared.counters =
    ({} : Counters).run (updates ((fresh n).log ms))
  /-- The history has got all that has been recorded. -/
  recorded : .record r ∈ (fresh n).calls ms

theorem mem_calls {t : Traffic} (hr : r ∈ reports (t.log ms)) : .record r ∈ t.calls ms := by
  rw [← reports_calls] at hr
  obtain ⟨c, hc, hcr⟩ := List.mem_filterMap.1 hr
  cases c with
  | record q =>
    obtain rfl : q = r := Option.some.inj hcr
    exact hc
  | get id => cases hcr

/-- **The end of a body** is seen when the stream has been counted and recorded. -/
theorem posted_of_ended (hi : ((fresh n).run ms).exchanges[i]? = some x)
    (ht : x.transfer? = some t) (hended : t.channel.receive.1 = .ended) :
    ∃ r, Posted n ms i x t r := by
  obtain ⟨x₀, hx₀, moves, hrun⟩ := leads_fresh hi
  have hkept := Exchange.kept_run (Exchange.kept_of_arrived hx₀) moves
  have hnamed := Exchange.named_run (Exchange.named_of_arrived hx₀) moves
  rw [hrun, List.nil_append] at hkept
  rw [hrun] at hnamed
  dsimp only at hkept hnamed
  have hsound := (hkept.body ht).1
  obtain ⟨-, hempty, hfinished⟩ := Exchange.ended_spec hsound.carried hended
  obtain ⟨s, hphase⟩ := hkept.over ht hfinished
  have hover := hkept
  unfold Exchange.Kept at hover
  rw [hphase] at hover
  obtain ⟨heffects, hs, -⟩ := hover
  have hbytes : s.bytes = t.received.length := by
    have htotal := hsound.carried.total_eq.1
    rw [hempty] at htotal
    exact (hs.bytes_eq hsound).trans htotal
  have hsublist := (fresh n).logIn_sublist i ms
  have hcounters := (accounted_run (accounted_fresh n) ms).told.counters
  rw [List.nil_append] at hcounters
  refine ⟨s.report, ?_, hnamed s ?_, hbytes, hs.final, heffects, hsublist, hcounters, ?_⟩
  · unfold Exchange.response?
    rw [ht, hphase]
    rfl
  · unfold Exchange.session?
    rw [hphase]
  · refine mem_calls ((hsublist.filterMap _).subset ?_)
    rw [heffects]
    exact List.mem_cons_self

/-! ## From then on -/

theorem calls_append (t : Traffic) (before after : List Move) :
    t.calls (before ++ after) = t.calls before ++ (t.run before).calls after := by
  induction before generalizing t with
  | nil => rfl
  | cons m before ih =>
    show t.callsOf m ++ (t.step m).1.calls (before ++ after) = _
    rw [ih]
    exact (List.append_assoc _ _ _).symm

/-- No two reports go by the name of an exchange that has it alone. -/
theorem not_recorded_twice {cs ds : List History.Call}
    (hcalls : (fresh n).calls ms = cs ++ .record r :: ds)
    (halone : (((fresh n).run ms).exchanges.map (·.id)).count r.id = 1) :
    ∀ q, .record q ∈ ds → q.id ≠ r.id := by
  intro q hq hid
  have hreports : reports ((fresh n).log ms) =
      cs.filterMap recordedBy? ++ r :: ds.filterMap recordedBy? := by
    rw [← reports_calls, hcalls, List.filterMap_append]
    rfl
  have hids := (accounted_run (accounted_fresh n) ms).shares.ids.count_le r.id
  rw [List.nil_append, hreports, halone, List.map_append, List.map_cons, List.count_append,
    List.count_cons_self] at hids
  have hmem : r.id ∈ (ds.filterMap recordedBy?).map (·.id) :=
    List.mem_map.2 ⟨q, List.mem_filterMap.2 ⟨_, hq, rfl⟩, hid⟩
  have hpos := List.count_pos_iff.2 hmem
  omega

/-- **A report that has been recorded is found** as long as there is room. -/
theorem find_later (hrecorded : .record r ∈ (fresh n).calls before)
    (halone : (((fresh n).run (before ++ after)).exchanges.map (·.id)).count r.id = 1)
    (hfew : (History.empty n).rivals r.id ((fresh n).calls (before ++ after)) < max n 1) :
    ((fresh n).run (before ++ after)).shared.history.find r.id = some r := by
  obtain ⟨cs, ds, hsplit⟩ := List.append_of_mem hrecorded
  have hcalls : (fresh n).calls (before ++ after) =
      cs ++ .record r :: (ds ++ ((fresh n).run before).calls after) := by
    rw [calls_append, hsplit, List.append_assoc, List.cons_append]
  rw [history_run]
  rw [hcalls] at hfew ⊢
  exact History.find_run_record (not_recorded_twice hcalls halone) hfew

/-- **A history has only reports of sessions that are over.** -/
theorem final_of_mem (hr : r ∈ ((fresh n).run ms).shared.history.reports) : Final r := by
  have haccounted := accounted_run (accounted_fresh n) ms
  exact haccounted.shares.final (haccounted.told.slots r hr)

/-- A question for a session is answered with this report. -/
def Found (s : Shared) (id : Text.Uuid) (r : Report) : Prop :=
  ∀ a : App, a.shared = s →
    (a.session id.text).2 = .ofBody 200 Refusal.contentType (.report r) ∧
    ∀ q c bucket, q.method = "GET" → q.target = lookupPath id → a.bucket.take c.now = some bucket →
      (a.handle q c).2.response = (Response.ofBody 200 Refusal.contentType (.report r)).adding
        (Response.common a.origins (q.header? "origin") c.requestId)

theorem found_of_find {s : Shared} {id : Text.Uuid} (h : s.history.find id = some r) :
    Found s id r := by
  rintro a rfl
  exact ⟨App.session_found h, fun q c bucket hget htarget htoken =>
    App.handle_lookup hget htarget htoken h⟩

/-- **Availability.** A listener that sees the end of a body finds the report of the stream, with
the bytes that it has received, for as long as the exchange has its name alone and fewer other
sessions have been used than the history has room for. Whatever report is found, it is that of the
session that was asked for, which is over. -/
theorem report_available (n : Nat) :
    (∀ before i x t, ((fresh n).run before).exchanges[i]? = some x → x.transfer? = some t →
      t.channel.receive.1 = .ended → ∃ r, Posted n before i x t r ∧ ∀ after,
        (((fresh n).run (before ++ after)).exchanges.map (·.id)).count x.id = 1 →
        (History.empty n).rivals x.id ((fresh n).calls (before ++ after)) < max n 1 →
          Found ((fresh n).run (before ++ after)).shared x.id r) ∧
    ∀ ms (a : App) q c r, a.shared = ((fresh n).run ms).shared →
      (a.handle q c).2.response.body = .report r →
        Final r ∧ a.Holds (Target.parse q.target).path r := by
  constructor
  · intro before i x t hi ht hended
    obtain ⟨r, hposted⟩ := posted_of_ended hi ht hended
    refine ⟨r, hposted, ?_⟩
    intro after halone hfew
    rw [← hposted.id] at halone hfew ⊢
    exact found_of_find (find_later hposted.recorded halone hfew)
  · intro ms a q c r hshared hbody
    have hholds := App.report_of_handle hbody
    have hmem := hholds.1
    rw [hshared] at hmem
    exact ⟨final_of_mem hmem, hholds⟩

/-- A stream up to the end of its body. -/
def oneStream : List Move := .arrive Exchange.sample :: Exchange.sampleMoves.map (.exchange 0)

/-- Another one after it, and a question for that. -/
def nextStream : List Move :=
  .arrive { Exchange.sample with id := .ofNat 1 } :: Exchange.sampleMoves.map (.exchange 1) ++
    [.lookup (.ofNat 1)]

/-- Where there is room for two, the first of two streams is found. -/
theorem report_available_two :
    let a := { App.quiet with shared := ((fresh 2).run (oneStream ++ nextStream)).shared }
    ∃ r : Report, r.bytes = 3 ∧
      (a.handle ⟨"GET", lookupPath (.ofNat 0), []⟩ App.calm).2.response.body = .report r ∧
        Final r := by
  intro a
  have hshared : a.shared = ((fresh 2).run (oneStream ++ nextStream)).shared := by dsimp only [a]
  have hfacts : ((fresh 2).run oneStream).exchanges[0]?.map (fun x => (x.id,
      x.transfer?.map fun t => (t.channel.receive.1, t.received.length))) =
        some (.ofNat 0, some (.ended, 3)) := by decide +kernel
  cases hi : ((fresh 2).run oneStream).exchanges[0]? with
  | none =>
    rw [hi] at hfacts
    cases hfacts
  | some x =>
    rw [hi, Option.map_some, Option.some.injEq, Prod.mk.injEq] at hfacts
    obtain ⟨hid, hfacts⟩ := hfacts
    cases ht : x.transfer? with
    | none =>
      rw [ht] at hfacts
      cases hfacts
    | some t =>
      rw [ht, Option.map_some, Option.some.injEq, Prod.mk.injEq] at hfacts
      obtain ⟨hended, hlength⟩ := hfacts
      obtain ⟨r, hposted, hafter⟩ := (report_available 2).1 oneStream 0 x t hi ht hended
      have hfound := hafter nextStream (by rw [hid]; decide +kernel) (by rw [hid]; decide +kernel)
      obtain ⟨bucket, htoken⟩ : ∃ bucket, App.quiet.bucket.take App.calm.now = some bucket :=
        ⟨_, rfl⟩
      rw [hid] at hfound
      have hbody := congrArg Response.body ((hfound a hshared).2
        ⟨"GET", lookupPath (.ofNat 0), []⟩ App.calm bucket rfl rfl htoken)
      exact ⟨r, hposted.bytes.trans hlength, hbody,
        ((report_available 2).2 (oneStream ++ nextStream) a _ _ r hshared hbody).1⟩

end Traffic

end ToneRelay.Service
