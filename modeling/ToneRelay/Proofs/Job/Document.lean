import ToneRelay.Job.Document
import ToneRelay.Proofs.Decimal.ReadBack
import ToneRelay.Proofs.Json.Collection

/-!
# Descriptions read back

A description with finite floats is legible: it is read in any layout and with the members of its
records in any order, with each float replaced by what is read from the text of that float. Each
part of it has a `draft`, which is what the reader of the part holds after some of its keys, and
`collects_toneLayer` and its like say so; `collects_description` puts them together. `read_toText`:
in particular it is read back from its own text.
-/

namespace ToneRelay.Job

open Json Decimal

/-- Both lines and gaps are blank. -/
theorem blanks_lines : Spacing.lines.Blanks := by
  constructor
  · intro depth c hc
    rcases List.mem_cons.1 hc with rfl | hc
    · decide
    · rw [(List.mem_replicate.1 hc).2]
      decide
  · intro c hc
    rw [List.mem_singleton.1 hc]
    decide

/-! ## Floats in a description -/

section
variable (back : Float → Float)

def ToneLayer.mapFloats (l : ToneLayer) : ToneLayer :=
  { l with carrier := back l.carrier, resonance := back l.resonance }

def Track.mapFloats (t : Track) : Track := { t with tones := t.tones.map (·.mapFloats back) }

def Section.mapFloats (s : Section) : Section := { s with track := s.track.mapFloats back }

def Description.mapFloats (d : Description) : Description :=
  { d with sequence := d.sequence.map (·.mapFloats back) }

end

/-! ## Scalars -/

theorem lookup_noise (m : Noise) : Noise.names.lookup m.name = some m := by cases m <;> rfl

theorem lookup_mode (m : Mode) : Mode.names.lookup m.name = some m := by cases m <;> rfl

theorem lookup_transition (t : Transition) : Transition.names.lookup t.name = some t := by
  cases t <;> rfl

theorem lookup_waveform (w : Waveform) : Waveform.names.lookup w.name = some w := by cases w; rfl

theorem legible_byte (n : UInt8) : Legible readByte (Value.whole n.toNat).tree n := by
  have hmax : n.toNat ≤ Text.max8 := Nat.le_of_lt_succ n.toNat_lt
  have h := (legible_whole hmax (by decide)).map UInt8.ofNat
  rwa [UInt8.ofNat_toNat] at h

theorem legible_float {x : Float} (h : x.isFinite = true) :
    Legible float (Value.float x).tree (readBack x) := by
  rw [Value.tree]
  exact legible_scalar (reads_readBack h) (halts_chars h)

/-! ## Layers -/

/-- What has been read of a noise layer after some of its keys. -/
def NoiseLayer.draft (l : NoiseLayer) (ks : List String) : NoiseLayer.Draft :=
  ⟨given ks "mode" l.mode, given ks "amplitude" l.amplitude⟩

def NoiseLayer.members (l : NoiseLayer) : List (String × Tree) :=
  [("mode", (Value.text l.mode.name).tree), ("amplitude", (Value.whole l.amplitude.toNat).tree)]

theorem collects_noiseLayer (l : NoiseLayer) :
    Collects NoiseLayer.fields NoiseLayer.Draft.finish l.draft l.members l where
  keeps := by
    refine .cons (keeps_of (fun _ => rfl) ?_ (legible_variant (lookup_noise l.mode))) <|
      .cons (keeps_of (fun _ => rfl) ?_ (legible_byte l.amplitude)) .nil
    all_goals
      intro ks
      simp [NoiseLayer.draft]
  nodup := by simp [NoiseLayer.members]
  complete ks h := by
    simp only [NoiseLayer.members, List.forall_mem_cons] at h
    obtain ⟨hmode, hamplitude, -⟩ := h
    simp only [NoiseLayer.draft, given_of_mem hmode, given_of_mem hamplitude]
    rfl
  lacking ks m hm hnot := by
    unfold NoiseLayer.Draft.finish
    split
    · rename_i heq
      simp only [NoiseLayer.draft, NoiseLayer.Draft.mk.injEq, given_eq_some] at heq
      simp only [NoiseLayer.members, List.mem_cons, List.not_mem_nil, or_false] at hm
      rcases hm with rfl | rfl <;> simp_all
    · rfl

theorem legible_noiseLayer (l : NoiseLayer) : Legible NoiseLayer.read l.toJson.tree l := by
  rw [NoiseLayer.toJson, tree_record]
  exact legible_record (collects_noiseLayer l)

/-- What has been read of a tone layer after some of its keys. -/
def ToneLayer.draft (l : ToneLayer) (ks : List String) : ToneLayer.Draft :=
  ⟨given ks "mode" l.mode, given ks "carrier" l.carrier, given ks "resonance" l.resonance,
    given ks "amplitude" l.amplitude, given ks "waveform" l.waveform⟩

def ToneLayer.members (l : ToneLayer) : List (String × Tree) :=
  [("mode", (Value.text l.mode.name).tree), ("carrier", (Value.float l.carrier).tree),
    ("resonance", (Value.float l.resonance).tree),
    ("amplitude", (Value.whole l.amplitude.toNat).tree),
    ("waveform", (Value.text l.waveform.name).tree)]

/-- Both floats of a tone layer are finite. -/
def ToneLayer.Finite (l : ToneLayer) : Prop :=
  l.carrier.isFinite = true ∧ l.resonance.isFinite = true

theorem collects_toneLayer {l : ToneLayer} (h : l.Finite) :
    Collects ToneLayer.fields ToneLayer.Draft.finish (l.mapFloats readBack).draft l.members
      (l.mapFloats readBack) where
  keeps := by
    refine .cons (keeps_of (fun _ => rfl) ?_ (legible_variant (lookup_mode l.mode))) <|
      .cons (keeps_of (fun _ => rfl) ?_ (legible_float h.1)) <|
      .cons (keeps_of (fun _ => rfl) ?_ (legible_float h.2)) <|
      .cons (keeps_of (fun _ => rfl) ?_ (legible_byte l.amplitude)) <|
      .cons (keeps_of (fun _ => rfl) ?_ (legible_variant (lookup_waveform l.waveform))) .nil
    all_goals
      intro ks
      simp [ToneLayer.draft, ToneLayer.mapFloats]
  nodup := by simp [ToneLayer.members]
  complete ks h := by
    simp only [ToneLayer.members, List.forall_mem_cons] at h
    obtain ⟨hmode, hcarrier, hresonance, hamplitude, hwaveform, -⟩ := h
    simp only [ToneLayer.draft, given_of_mem hmode, given_of_mem hcarrier,
      given_of_mem hresonance, given_of_mem hamplitude, given_of_mem hwaveform]
    rfl
  lacking ks m hm hnot := by
    unfold ToneLayer.Draft.finish
    split
    · rename_i heq
      simp only [ToneLayer.draft, ToneLayer.Draft.mk.injEq, given_eq_some] at heq
      simp only [ToneLayer.members, List.mem_cons, List.not_mem_nil, or_false] at hm
      rcases hm with rfl | rfl | rfl | rfl | rfl <;> simp_all
    · rfl

theorem legible_toneLayer {l : ToneLayer} (h : l.Finite) :
    Legible ToneLayer.read l.toJson.tree (l.mapFloats readBack) := by
  rw [ToneLayer.toJson, tree_record]
  exact legible_record (collects_toneLayer h)

/-! ## Sections -/

/-- What has been read of a track after some of its keys. -/
def Track.draft (t : Track) (ks : List String) : Track.Draft :=
  ⟨given ks "noises" t.noises, given ks "tones" t.tones⟩

def Track.members (t : Track) : List (String × Tree) :=
  [("noises", (Value.list (t.noises.map (·.toJson))).tree),
    ("tones", (Value.list (t.tones.map (·.toJson))).tree)]

theorem collects_track {t : Track} (h : ∀ l ∈ t.tones, l.Finite) :
    Collects Track.fields Track.Draft.finish (t.mapFloats readBack).draft t.members
      (t.mapFloats readBack) where
  keeps := by
    have hnoises := legible_map (g := id) fun l (_ : l ∈ t.noises) => legible_noiseLayer l
    rw [List.map_id] at hnoises
    have htones := legible_map fun l hl => legible_toneLayer (h l hl)
    refine .cons (keeps_of (fun _ => rfl) ?_ hnoises) <|
      .cons (keeps_of (fun _ => rfl) ?_ htones) .nil
    all_goals
      intro ks
      simp [Track.draft, Track.mapFloats]
  nodup := by simp [Track.members]
  complete ks h := by
    simp only [Track.members, List.forall_mem_cons] at h
    obtain ⟨hnoises, htones, -⟩ := h
    simp only [Track.draft, given_of_mem hnoises, given_of_mem htones]
    rfl
  lacking ks m hm hnot := by
    unfold Track.Draft.finish
    split
    · rename_i heq
      simp only [Track.draft, Track.Draft.mk.injEq, given_eq_some] at heq
      simp only [Track.members, List.mem_cons, List.not_mem_nil, or_false] at hm
      rcases hm with rfl | rfl <;> simp_all
    · rfl

theorem legible_track {t : Track} (h : ∀ l ∈ t.tones, l.Finite) :
    Legible Track.read t.toJson.tree (t.mapFloats readBack) := by
  rw [Track.toJson, tree_record]
  exact legible_record (collects_track h)

/-- What has been read of a section after some of its keys. -/
def Section.draft (s : Section) (ks : List String) : Section.Draft :=
  ⟨given ks "time" s.time, given ks "transition" s.transition, given ks "track" s.track⟩

def Section.members (s : Section) : List (String × Tree) :=
  [("time", (Value.whole s.time.toNat).tree), ("transition", (Value.text s.transition.name).tree),
    ("track", s.track.toJson.tree)]

theorem collects_section {s : Section} (h : ∀ l ∈ s.track.tones, l.Finite) :
    Collects Section.fields Section.Draft.finish (s.mapFloats readBack).draft s.members
      (s.mapFloats readBack) where
  keeps := by
    have hmax : s.time.toNat ≤ Text.max64 := Nat.le_of_lt_succ s.time.toNat_lt
    have htime := (legible_whole hmax (Nat.le_refl _)).map UInt64.ofNat
    rw [UInt64.ofNat_toNat] at htime
    refine .cons (keeps_of (fun _ => rfl) ?_ htime) <|
      .cons (keeps_of (fun _ => rfl) ?_ (legible_variant (lookup_transition s.transition))) <|
      .cons (keeps_of (fun _ => rfl) ?_ (legible_track h)) .nil
    all_goals
      intro ks
      simp [Section.draft, Section.mapFloats]
  nodup := by simp [Section.members]
  complete ks h := by
    simp only [Section.members, List.forall_mem_cons] at h
    obtain ⟨htime, htransition, htrack, -⟩ := h
    simp only [Section.draft, given_of_mem htime, given_of_mem htransition, given_of_mem htrack]
    rfl
  lacking ks m hm hnot := by
    unfold Section.Draft.finish
    split
    · rename_i heq
      simp only [Section.draft, Section.Draft.mk.injEq, given_eq_some] at heq
      simp only [Section.members, List.mem_cons, List.not_mem_nil, or_false] at hm
      rcases hm with rfl | rfl | rfl <;> simp_all
    · rfl

theorem legible_section {s : Section} (h : ∀ l ∈ s.track.tones, l.Finite) :
    Legible Section.read s.toJson.tree (s.mapFloats readBack) := by
  rw [Section.toJson, tree_record]
  exact legible_record (collects_section h)

/-! ## Descriptions -/

/-- What has been read of the options after some of their keys. -/
def Options.draft (o : Options) (ks : List String) : Options.Draft :=
  ⟨given ks "samplerate" o.samplerate, given ks "volume" o.volume⟩

def Options.members (o : Options) : List (String × Tree) :=
  [("samplerate", (Value.whole o.samplerate.toNat).tree),
    ("volume", (Value.whole o.volume.toNat).tree)]

theorem collects_options (o : Options) :
    Collects Options.fields Options.Draft.finish o.draft o.members o where
  keeps := by
    have hmax : o.samplerate.toNat ≤ Text.max32 := Nat.le_of_lt_succ o.samplerate.toNat_lt
    have hrate := (legible_whole hmax (by decide)).map UInt32.ofNat
    rw [UInt32.ofNat_toNat] at hrate
    refine .cons (keeps_of (fun _ => rfl) ?_ hrate) <|
      .cons (keeps_of (fun _ => rfl) ?_ (legible_byte o.volume)) .nil
    all_goals
      intro ks
      simp [Options.draft]
  nodup := by simp [Options.members]
  complete ks h := by
    simp only [Options.members, List.forall_mem_cons] at h
    obtain ⟨hrate, hvolume, -⟩ := h
    simp only [Options.draft, given_of_mem hrate, given_of_mem hvolume]
    rfl
  lacking ks m hm hnot := by
    unfold Options.Draft.finish
    split
    · rename_i heq
      simp only [Options.draft, Options.Draft.mk.injEq, given_eq_some] at heq
      simp only [Options.members, List.mem_cons, List.not_mem_nil, or_false] at hm
      rcases hm with rfl | rfl <;> simp_all
    · rfl

theorem legible_options (o : Options) : Legible Options.read o.toJson.tree o := by
  rw [Options.toJson, tree_record]
  exact legible_record (collects_options o)

/-- What has been read of a description after some of its keys. -/
def Description.draft (d : Description) (ks : List String) : Description.Draft :=
  ⟨given ks "description" d.description, given ks "options" d.options,
    given ks "sequence" d.sequence⟩

def Description.members (d : Description) : List (String × Tree) :=
  [("description", (Value.list (d.description.map .text)).tree),
    ("options", d.options.toJson.tree),
    ("sequence", (Value.list (d.sequence.map (·.toJson))).tree)]

/-- All floats of a description are finite. -/
def Description.Finite (d : Description) : Prop :=
  ∀ s ∈ d.sequence, ∀ l ∈ s.track.tones, l.Finite

theorem tree_description (d : Description) : d.toJson.tree = .record (spelled d.members) := by
  rw [Description.toJson, tree_record]
  rfl

theorem collects_description {d : Description} (h : d.Finite) :
    Collects Description.fields Description.Draft.finish (d.mapFloats readBack).draft d.members
      (d.mapFloats readBack) where
  keeps := by
    have hlines := legible_map (g := id) fun s (_ : s ∈ d.description) => legible_text s
    rw [List.map_id] at hlines
    have hsequence := legible_map fun s hs => legible_section (h s hs)
    refine .cons (keeps_of (fun _ => rfl) ?_ hlines) <|
      .cons (keeps_of (fun _ => rfl) ?_ (legible_options d.options)) <|
      .cons (keeps_of (fun _ => rfl) ?_ hsequence) .nil
    all_goals
      intro ks
      simp [Description.draft, Description.mapFloats]
  nodup := by simp [Description.members]
  complete ks h := by
    simp only [Description.members, List.forall_mem_cons] at h
    obtain ⟨hlines, hoptions, hsequence, -⟩ := h
    simp only [Description.draft, given_of_mem hlines, given_of_mem hoptions,
      given_of_mem hsequence]
    rfl
  lacking ks m hm hnot := by
    unfold Description.Draft.finish
    split
    · rename_i heq
      simp only [Description.draft, Description.Draft.mk.injEq, given_eq_some] at heq
      simp only [Description.members, List.mem_cons, List.not_mem_nil, or_false] at hm
      rcases hm with rfl | rfl | rfl <;> simp_all
    · rfl

/-! ## Whole texts -/

section
variable {d : Description} {t : Tree} {text : String}

theorem read_of_takes
    (h : Takes (record Description.fields {} Description.Draft.finish) t d)
    (ht : t.Rendered text) : Description.read text = .ok d := by
  obtain ⟨cs, blanks, hs, hb, rfl⟩ := ht
  have hends : Ends blanks := by
    rw [← List.append_nil blanks]
    exact ends_blanks hb ends_nil
  unfold Description.read whole?
  rw [String.toList_ofList, h cs blanks hs hends]
  show (if (skipSpace blanks).isEmpty = true then _ else _) = _
  rw [skipSpace_blank hb]
  rfl

theorem read_of_refuses
    (h : Refuses (record Description.fields {} Description.Draft.finish) t)
    (ht : t.Rendered text) : Description.read text = .error .mismatch := by
  obtain ⟨cs, blanks, hs, -, rfl⟩ := ht
  unfold Description.read whole?
  rw [String.toList_ofList, h cs blanks hs]
  rfl

theorem spaced_toText (d : Description) : Spaced d.toJson.tree.tokens d.toText.toList := by
  rw [Description.toText, Value.pretty, String.toList_ofList]
  exact spaced_write blanks_lines 0 d.toJson

/-- The text of a description is one of its tree. -/
theorem rendered_toText (d : Description) : d.toJson.tree.Rendered d.toText :=
  ⟨d.toText.toList, [], spaced_toText d, nofun, by rw [List.append_nil, String.ofList_toList]⟩

/-- **Descriptions read back.** -/
theorem read_toText (h : d.Finite) : Description.read d.toText = .ok (d.mapFloats readBack) := by
  refine read_of_takes ?_ (rendered_toText d)
  rw [tree_description]
  exact takes_record (collects_description h) (.refl _)

end

end ToneRelay.Job
