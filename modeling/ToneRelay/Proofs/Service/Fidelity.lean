import ToneRelay.Proofs.Service.Course

/-!
# Byte fidelity

`received_faithful`: whatever a generator writes, however the reads cut it up, and in whatever order
the handler, the relay, the generator and the listener take their steps, the listener has at every
moment received the first bytes of the output. A listener that has seen the end of the body has
received all of them, unless a read failed, and the report of the session tells their number. For a
listener that has gone, the report counts at most one chunk more, the one that was queued.
-/

namespace ToneRelay.Service

open Generator (Supervised Process Fault Reply Outcome)
open ToneRelay.Stream (Books Channel Ending Moment Report Session Transfer)

/-- The report that an effect records. -/
def Effect.report? : Effect → Option Report
  | .record r => some r
  | _ => none

/-- The reports that are recorded, in order. -/
def reports (es : List Effect) : List Report := es.filterMap Effect.report?

theorem mem_reports {r : Report} {es : List Effect} : r ∈ reports es ↔ .record r ∈ es := by
  constructor
  · intro hr
    obtain ⟨e, he, her⟩ := List.mem_filterMap.1 hr
    cases e with
    | record q =>
      obtain rfl : q = r := Option.some.inj her
      exact he
    | _ => cases her
  · intro hr
    exact List.mem_filterMap.2 ⟨_, hr, rfl⟩

namespace Exchange

variable {x : Exchange} {b : Books} {es : List Effect}

theorem reports_counts (es : List Effect) (us : List Stream.Update) :
    reports (es ++ us.map .count) = reports es := by
  have hcounts : reports (us.map .count) = [] := by
    induction us with
    | nil => rfl
    | cons u us ih => exact ih
  unfold reports at hcounts ⊢
  rw [List.filterMap_append, hcounts, List.append_nil]

/-- What is known once there is a body: only a session that is over is reported, and the body is not
ended before. -/
theorem Kept.body {t : Transfer} (h : x.Kept b es) (ht : x.transfer? = some t) :
    t.Sound x.script b ∧ ((t.channel.finished = false ∧ reports es = []) ∨
      ∃ s, Concluded s t ∧ reports es = [s.report]) := by
  unfold Kept at h
  unfold transfer? at ht
  cases hphase : x.phase with
  | relaying s u =>
    rw [hphase] at h ht
    obtain rfl := Option.some.inj ht
    obtain ⟨rfl, -, hu⟩ := h
    exact ⟨hu.toSound, .inl ⟨hu.unfinished, rfl⟩⟩
  | closing s u =>
    rw [hphase] at h
    exact h.elim
  | settling us s u =>
    rw [hphase] at h ht
    obtain rfl := Option.some.inj ht
    obtain ⟨hes, -, hu⟩ := h
    refine ⟨hu.toSound, .inl ⟨hu.unfinished, ?_⟩⟩
    rw [← reports_counts es us, hes]
    rfl
  | recording s u =>
    rw [hphase] at h ht
    obtain rfl := Option.some.inj ht
    obtain ⟨rfl, -, hu⟩ := h
    exact ⟨hu.toSound, .inl ⟨hu.unfinished, rfl⟩⟩
  | ending s u =>
    rw [hphase] at h ht
    obtain rfl := Option.some.inj ht
    obtain ⟨rfl, hs, hu⟩ := h
    exact ⟨hu.toSound, .inr ⟨s, hs, rfl⟩⟩
  | «over» s u =>
    rw [hphase] at h ht
    obtain rfl := Option.some.inj ht
    obtain ⟨rfl, hs, hu⟩ := h
    exact ⟨hu, .inr ⟨s, hs, rfl⟩⟩
  | _ =>
    rw [hphase] at ht
    cases ht

/-- The report of a session tells the bytes that the channel has accepted. -/
theorem Concluded.bytes_eq {s : Session} {t : Transfer} (hs : Concluded s t)
    (ht : t.Sound x.script b) : s.bytes = t.pump.total := by
  obtain ⟨e, s₀, now, hphase, hs₀, hperform⟩ := hs
  have hf := ht.flows
  unfold Transfer.Flows at hf
  rw [hphase] at hf
  rw [perform_closingCall_eq hs₀ hperform]
  exact hf.2.2.2.total_eq

/-- A listener that has seen the end of the body has taken what was queued and has not gone. -/
theorem ended_spec {t : Transfer} (hc : t.Carried b) (he : t.channel.receive.1 = .ended) :
    t.channel.receiver = .listening ∧ b.lost ++ t.channel.queue = [] ∧
      t.channel.finished = true := by
  unfold Channel.receive at he
  rcases hc.receiver with ⟨hl, hlost, -⟩ | ⟨hg, -, -⟩
  · rw [if_neg (by rw [hl]; nofun)] at he
    cases hqueue : t.channel.queue with
    | nil =>
      refine ⟨hl, by rw [hlost]; rfl, ?_⟩
      rw [hqueue] at he
      dsimp only at he
      split at he
      · next hend => exact hend.resolve_left (by rw [hl]; nofun)
      · cases he
    | cons chunk rest =>
      rw [hqueue] at he
      cases he
  · rw [if_pos hg] at he
    cases he

/-- As long as the listener stays and no read fails, the relay goes on to the end of the output. -/
theorem Concluded.whole {s : Session} {t : Transfer} (hs : Concluded s t)
    (ht : t.Sound x.script b) (hl : t.channel.receiver = .listening)
    (hread : ∀ total reason, t.pump.phase ≠ .done (.sourceFailed total (.read reason))) :
    b.accepted.flatten = b.written ∧ b.written = x.script := by
  obtain ⟨e, -, -, hphase, -, -⟩ := hs
  have hf := ht.flows
  unfold Transfer.Flows at hf
  rw [hphase] at hf
  obtain ⟨-, -, hsettled, hexplained⟩ := hf
  have hwhole : e.Whole := by
    cases e with
    | finished total => trivial
    | consumerGone total => exact absurd (hl.symm.trans hexplained.2) nofun
    | sourceFailed total fault =>
      rcases hexplained.2 with ⟨reason, rfl⟩ | ⟨reason, rfl⟩
      · exact absurd hphase (hread total reason)
      · trivial
  obtain ⟨hall, hscript, -⟩ := hsettled.whole hwhole
  exact ⟨hall, hscript⟩

/-- **Byte fidelity.** What the listener has received is a front part of what the generator has
written, and that of its script. A report counts what was received and at most one chunk that was
queued. At the end of the body, without a failed read, all three are the same, and the one report
tells their length. -/
theorem received_faithful (hx : x.phase = .arrived) (ms : List Move) {t : Transfer}
    (ht : (x.run ms).1.transfer? = some t) :
    t.received <+: (x.books {} ms).written ∧ (x.books {} ms).written <+: x.script ∧
    (∀ r ∈ reports (x.run ms).2, r.bytes =
      t.received.length + ((x.books {} ms).lost ++ t.channel.queue).flatten.length) ∧
    ((x.books {} ms).lost ++ t.channel.queue).length ≤ 1 ∧
    (t.channel.receive.1 = .ended →
      (∀ total reason, t.pump.phase ≠ .done (.sourceFailed total (.read reason))) →
        t.received = x.script ∧ (x.books {} ms).written = x.script ∧
        ∃ r, reports (x.run ms).2 = [r] ∧ r.bytes = t.received.length) := by
  have hkept := kept_run (kept_of_arrived hx) ms
  rw [List.nil_append] at hkept
  obtain ⟨hs, hreports⟩ := hkept.body ht
  rw [script_run] at hs
  obtain ⟨htotal, hwaiting⟩ := hs.carried.total_eq
  have hbytes : ∀ {s}, Concluded s t → s.report.bytes =
      t.received.length + ((x.books {} ms).lost ++ t.channel.queue).flatten.length := by
    intro s hsession
    exact (hsession.bytes_eq hs).trans htotal
  refine ⟨hs.received, hs.flows.delivered.2, ?_, hwaiting, ?_⟩
  · intro r hr
    rcases hreports with ⟨-, hnone⟩ | ⟨s, hsession, hone⟩
    · rw [hnone] at hr
      cases hr
    · rw [hone, List.mem_singleton] at hr
      rw [hr]
      exact hbytes hsession
  · intro hended hread
    obtain ⟨hl, hempty, hfinished⟩ := ended_spec hs.carried hended
    rcases hreports with ⟨hopen, -⟩ | ⟨s, hsession, hone⟩
    · exact absurd (hopen.symm.trans hfinished) nofun
    · obtain ⟨hall, hscript⟩ := hsession.whole hs hl hread
      have hreceived := hs.carried.received_append
      rw [hempty, List.flatten_nil, List.append_nil] at hreceived
      refine ⟨by rw [hreceived, hall, hscript], hscript, s.report, hone, ?_⟩
      rw [hbytes hsession, hempty]
      rfl

/-- The three bytes of a short exchange are received, and reported. -/
theorem received_faithful_sample : ∃ t, (sample.run sampleMoves).1.transfer? = some t ∧
    t.received = [1, 2, 3] ∧ t.received = sample.script ∧
      (sample.books {} sampleMoves).written = sample.script ∧
        ∃ r, reports (sample.run sampleMoves).2 = [r] ∧ r.bytes = t.received.length := by
  have hfacts : (sample.run sampleMoves).1.transfer?.map
      (fun t => (t.received, t.channel.receive.1, t.pump.phase)) =
        some ([1, 2, 3], .ended, .done (.finished 3)) := by decide
  cases ht : (sample.run sampleMoves).1.transfer? with
  | none =>
    rw [ht] at hfacts
    cases hfacts
  | some t =>
    rw [ht, Option.map_some, Option.some.injEq, Prod.mk.injEq, Prod.mk.injEq] at hfacts
    obtain ⟨hreceived, hended, hdone⟩ := hfacts
    refine ⟨t, rfl, hreceived, (received_faithful rfl sampleMoves ht).2.2.2.2 hended ?_⟩
    intro total reason hread
    rw [hdone] at hread
    cases hread

end Exchange

end ToneRelay.Service
