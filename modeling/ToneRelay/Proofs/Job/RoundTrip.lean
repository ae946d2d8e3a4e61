import ToneRelay.Proofs.Decimal.ReadBack
import ToneRelay.Proofs.Job.Document

/-!
# Descriptions that keep their floats

The text of a description says everything about it but, perhaps, the exact value of its floats.
`read_toText_iff`: when the floats are finite, a description is what is read from its own text just
when each float is read from its own text as itself. `roundTrip_of_survives`: what has been read
once is then written and read again without a change.
-/

namespace ToneRelay.Job

open Decimal

/-- A finite float that is read from its own text as itself. -/
structure Survives (x : Float) : Prop where
  finite : x.isFinite = true
  reread : Json.float (Layout.json.chars x) = .ok (x, [])

/-- `P` holds of every carrier and of every resonance. -/
def Description.ForAllFloats (P : Float → Prop) (d : Description) : Prop :=
  ∀ s ∈ d.sequence, ∀ l ∈ s.track.tones, P l.carrier ∧ P l.resonance

theorem Description.ForAllFloats.imp {P Q : Float → Prop} {d : Description}
    (h : d.ForAllFloats P) (hPQ : ∀ x, P x → Q x) : d.ForAllFloats Q :=
  fun s hs l hl => ⟨hPQ _ (h s hs l hl).1, hPQ _ (h s hs l hl).2⟩

theorem readBack_eq_iff {x : Float} (h : x.isFinite = true) :
    readBack x = x ↔ Json.float (Layout.json.chars x) = .ok (x, []) := by
  have hread := (reads_readBack h).eq [] [] nofun Json.ends_nil
  rw [List.nil_append, List.append_nil] at hread
  rw [hread, Except.ok.injEq, Prod.mk.injEq, and_iff_left rfl]

/-! ## What is left as it is -/

theorem map_eq_self_iff {α : Type} {f : α → α} {xs : List α} :
    xs.map f = xs ↔ ∀ x ∈ xs, f x = x := by
  have h := List.map_inj_left (f := f) (g := id) (l := xs)
  rwa [List.map_id] at h

section
variable {back : Float → Float}

theorem ToneLayer.mapFloats_eq_iff {l : ToneLayer} :
    l.mapFloats back = l ↔ back l.carrier = l.carrier ∧ back l.resonance = l.resonance := by
  obtain ⟨mode, carrier, resonance, amplitude, waveform⟩ := l
  simp only [mapFloats, ToneLayer.mk.injEq, true_and, and_true]

theorem Track.mapFloats_eq_iff {t : Track} :
    t.mapFloats back = t ↔ ∀ l ∈ t.tones, l.mapFloats back = l := by
  obtain ⟨noises, tones⟩ := t
  simp only [mapFloats, Track.mk.injEq, true_and, map_eq_self_iff]

theorem Section.mapFloats_eq_iff {s : Section} :
    s.mapFloats back = s ↔ s.track.mapFloats back = s.track := by
  obtain ⟨time, transition, track⟩ := s
  simp only [mapFloats, Section.mk.injEq, true_and]

/-- A description stays the same under a map of floats just when each of its floats does. -/
theorem Description.mapFloats_eq_iff {d : Description} :
    d.mapFloats back = d ↔ d.ForAllFloats fun x => back x = x := by
  obtain ⟨description, options, sequence⟩ := d
  simp only [mapFloats, Description.mk.injEq, true_and, map_eq_self_iff, Section.mapFloats_eq_iff,
    Track.mapFloats_eq_iff, ToneLayer.mapFloats_eq_iff, ForAllFloats]

end

/-! ## There and back -/

section
variable {d : Description}

/-- Reading its text back keeps a description just when its floats survive. -/
theorem mapFloats_readBack_iff (h : d.ForAllFloats fun x => x.isFinite = true) :
    d.mapFloats readBack = d ↔ d.ForAllFloats Survives := by
  rw [Description.mapFloats_eq_iff]
  constructor
  · intro hsame s hs l hl
    obtain ⟨hc, hr⟩ := h s hs l hl
    exact ⟨⟨hc, (readBack_eq_iff hc).1 (hsame s hs l hl).1⟩,
      ⟨hr, (readBack_eq_iff hr).1 (hsame s hs l hl).2⟩⟩
  · intro hkept
    exact hkept.imp fun x hx => (readBack_eq_iff hx.finite).2 hx.reread

/-- **Descriptions read back as themselves.** -/
theorem read_toText_iff (h : d.ForAllFloats fun x => x.isFinite = true) :
    Description.read d.toText = .ok d ↔ d.ForAllFloats Survives := by
  rw [read_toText h, Except.ok.injEq, mapFloats_readBack_iff h]

/-- **There and back.** A description whose floats survive is read from its own text, and every text
that holds it holds the same description after it is read and written again. -/
theorem roundTrip_of_survives (h : d.ForAllFloats Survives) :
    Description.read d.toText = .ok d ∧
      ∀ text, Description.read text = .ok d →
        ∃ again, (Description.read text).map Description.toText = .ok again ∧
          Description.read again = .ok d := by
  have hread : Description.read d.toText = .ok d :=
    (read_toText_iff (h.imp fun _ hx => hx.finite)).2 h
  refine ⟨hread, ?_⟩
  intro text htext
  exact ⟨d.toText, by rw [htext]; rfl, hread⟩

end

/-- A description with all that could be lost: marks that must be escaped, the greatest numbers, no
layers at all, a negative zero, the least and the greatest float. -/
def extremes : Description where
  description := ["\"quoted\" \\ \u0000\u0008\u007f\r\n\u2028 é 😀", ""]
  options := ⟨4294967295, 255⟩
  sequence := [⟨0, .steady, ⟨[], []⟩⟩,
    ⟨18446744073709551615, .smooth, ⟨[⟨.brown, 255⟩, ⟨.white, 0⟩],
      [⟨.isochronic, -0.0, 5e-324, 0, .sine⟩,
        ⟨.monaural, 1.7976931348623157e308, -300.3, 255, .sine⟩]⟩⟩]

theorem roundTrip_of_survives_extremes : extremes.ForAllFloats Survives ∧
    Description.read extremes.toText = .ok extremes ∧
      ∀ text, Description.read text = .ok extremes →
        ∃ again, (Description.read text).map Description.toText = .ok again ∧
          Description.read again = .ok extremes := by
  have hzero : Survives (-0.0) := ⟨by decide +kernel, by decide +kernel⟩
  have hleast : Survives 5e-324 := ⟨by decide +kernel, by decide +kernel⟩
  have hgreatest : Survives 1.7976931348623157e308 := ⟨by decide +kernel, by decide +kernel⟩
  have hplaces : Survives (-300.3) := ⟨by decide +kernel, by decide +kernel⟩
  have hall : extremes.ForAllFloats Survives := by
    intro s hs
    simp only [extremes, List.mem_cons, List.not_mem_nil, or_false] at hs
    rcases hs with rfl | rfl
    · nofun
    · exact List.forall_mem_cons.2 ⟨⟨hzero, hleast⟩,
        List.forall_mem_singleton.2 ⟨hgreatest, hplaces⟩⟩
  exact ⟨hall, roundTrip_of_survives hall⟩

/-- Some floats that can be played do not survive: a reader multiplies the digits by a power of ten
and rounds twice. -/
example : isHz 9007199254740993e3 = true ∧ readBack 9007199254740993e3 ≠ 9007199254740993e3 := by
  decide +kernel

end ToneRelay.Job
