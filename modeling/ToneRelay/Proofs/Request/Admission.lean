import ToneRelay.Proofs.Job.Timeline
import ToneRelay.Proofs.Text.Parts
import ToneRelay.Request.Admission
import ToneRelay.Service.Refusal

/-!
# What is admitted

`accept_exact` says for every request what becomes of it: which parameters it asks for when it is
admitted, and which fault is reported when it is not. It does not speak of the order in which a
request is looked at but of two lists, the fields and the bounds, and of the first entry of each at
which something is wrong.

1. `Field.Means`: what a text means in each field. `Query.Says`: what a request says in each field,
   with a default where it says nothing.
2. `readField_eq_ok_iff`, `readField_eq_error_iff`: a field is read just as what it says.
3. `draft_cases`: all fields are read, or the first one that means nothing is reported.
4. `check_eq_error_iff`: the first bound that is broken is reported.
-/

namespace ToneRelay.Request

open Job

/-- The values of a field. -/
def Field.Value : Field → Type
  | .freq => Float
  | .duration => UInt32
  | .noise => Noise
  | .mode => Mode
  | .carrier => Float
  | .amplitude => Int
  | .endFreq => Option Float

/-- The value of a field that is not given. -/
def Field.default : (f : Field) → f.Value
  | .freq => (10.0 : Float)
  | .duration => (5 : UInt32)
  | .noise => Noise.pink
  | .mode => Mode.binaural
  | .carrier => (300.0 : Float)
  | .amplitude => (15 : Int)
  | .endFreq => (none : Option Float)

/-- The same text but for the case of its ASCII letters. -/
def SameLetters (cs ds : List Char) : Prop := cs.map Char.toLower = ds.map Char.toLower

/-- A text without blanks at its ends means a value of a field. A last frequency that is blank means
that there is none. -/
def Field.Means : (f : Field) → List Char → f.Value → Prop
  | .freq, cs, x => Decimal.float? cs = some x
  | .duration, cs, n => Text.natural? Text.max32 cs = some (UInt32.toNat n)
  | .noise, cs, n => SameLetters cs (Noise.name n).toList
  | .mode, cs, m => SameLetters cs (Mode.name m).toList
  | .carrier, cs, x => Decimal.float? cs = some x
  | .amplitude, cs, n => Text.integer? Text.maxSigned64 cs = some n
  | .endFreq, [], x => x = (none : Option Float)
  | .endFreq, c :: cs, x => ∃ hz : Float, Decimal.float? (c :: cs) = some hz ∧ x = some hz

/-- What is reported of a text that means nothing in a field. -/
def Field.fault : Field → String → Fault
  | .freq, text => .number .freq text
  | .duration, text => .duration text
  | .noise, text => .parameter (.noise text)
  | .mode, text => .parameter (.mode text)
  | .carrier, text => .number .carrier text
  | .amplitude, text => .amplitude text
  | .endFreq, text => .number .endFreq (Text.trim text)

/-- The value of a field in a draft. -/
def Field.get (d : Draft) : (f : Field) → f.Value
  | .freq => d.frequency
  | .duration => d.minutes
  | .noise => d.noise
  | .mode => d.mode
  | .carrier => d.carrier
  | .amplitude => d.amplitude
  | .endFreq => d.endFrequency

namespace Query

/-- A request says a value in a field. -/
def Says (q : Query) (f : Field) (v : f.Value) : Prop :=
  match q.value f with
  | none => v = f.default
  | some text => f.Means (Text.trimChars text.toList) v

/-- What a request says under a limit of minutes. -/
def Asks (q : Query) (maxMinutes : UInt32) (d : Draft) : Prop :=
  d.maxMinutes = maxMinutes ∧ ∀ f : Field, q.Says f (f.get d)

/-- The text of a field means nothing, which is reported as `e`. -/
def Unreadable (q : Query) (f : Field) (e : Fault) : Prop :=
  ∃ text, q.value f = some text ∧ (∀ v, ¬ f.Means (Text.trimChars text.toList) v) ∧
    e = f.fault text

end Query

/-! ## Bounds -/

/-- What is asked of the values of a request. -/
inductive Bound
  | frequency
  | endFrequency
  | someMinutes
  | mostMinutes
  | carrier
  | amplitude

/-- All bounds, in the order in which they are reported. -/
def Bound.all : List Bound :=
  [.frequency, .endFrequency, .someMinutes, .mostMinutes, .carrier, .amplitude]

section
variable {α ε : Type} (name : α → List Char) {a b c : α} {cs : List Char} {e : ε}

/-- The one of three that has a given name. -/
theorem choose_eq_ok_iff (hinj : Function.Injective name) (hall : ∀ n, n = a ∨ n = b ∨ n = c)
    (n : α) : (if cs = name a then .ok a else if cs = name b then .ok b else
      if cs = name c then .ok c else .error e : Except ε α) = .ok n ↔ cs = name n := by
  by_cases ha : cs = name a
  · rw [if_pos ha, ha, Except.ok.injEq, hinj.eq_iff]
  rw [if_neg ha]
  by_cases hb : cs = name b
  · rw [if_pos hb, hb, Except.ok.injEq, hinj.eq_iff]
  rw [if_neg hb]
  by_cases hc : cs = name c
  · rw [if_pos hc, hc, Except.ok.injEq, hinj.eq_iff]
  rw [if_neg hc]
  refine ⟨nofun, ?_⟩
  intro hn
  rcases hall n with rfl | rfl | rfl
  · exact absurd hn ha
  · exact absurd hn hb
  · exact absurd hn hc

theorem choose_eq_error {e' : ε} (h : (if cs = name a then .ok a else if cs = name b then .ok b else
    if cs = name c then .ok c else .error e : Except ε α) = .error e') : e' = e := by
  split at h
  · cases h
  split at h
  · cases h
  split at h
  · cases h
  · exact (Except.error.inj h).symm

end

theorem noise_parse_eq_ok_iff (text : String) (n : Noise) :
    Noise.parse text = .ok n ↔ SameLetters (Text.trimChars text.toList) n.name.toList := by
  have hlower : n.name.toList.map Char.toLower = n.name.toList := by cases n <;> decide
  unfold SameLetters
  rw [hlower]
  refine choose_eq_ok_iff (fun n : Noise => n.name.toList) ?_ ?_ n
  · intro a b
    cases a <;> cases b <;> decide
  · intro n
    cases n <;> decide

theorem mode_parse_eq_ok_iff (text : String) (m : Mode) :
    Mode.parse text = .ok m ↔ SameLetters (Text.trimChars text.toList) m.name.toList := by
  have hlower : m.name.toList.map Char.toLower = m.name.toList := by cases m <;> decide
  unfold SameLetters
  rw [hlower]
  refine choose_eq_ok_iff (fun m : Mode => m.name.toList) ?_ ?_ m
  · intro a b
    cases a <;> cases b <;> decide
  · intro m
    cases m <;> decide

theorem noise_parse_eq_error {text : String} {e : ParameterError}
    (h : Noise.parse text = .error e) : e = .noise text :=
  choose_eq_error (fun n : Noise => n.name.toList) h

theorem mode_parse_eq_error {text : String} {e : ParameterError}
    (h : Mode.parse text = .error e) : e = .mode text :=
  choose_eq_error (fun m : Mode => m.name.toList) h

/-! ## Reading a field -/

/-- What was parsed, or a fault. -/
def orFault {α : Type} (e : Fault) : Option α → Except Fault α
  | some a => .ok a
  | none => .error e

/-- Reads the text of a last frequency. -/
def parseStop (text : String) : Except Fault (Option Float) :=
  if Text.trimChars text.toList = [] then .ok none
  else (orFault (.number .endFreq (Text.trim text))
    (Decimal.float? (Text.trimChars text.toList))).map some

/-- Reads the text of a field. -/
def Field.parse : (f : Field) → String → Except Fault f.Value
  | .freq, text => orFault (.number .freq text) (Decimal.float? (Text.trimChars text.toList))
  | .duration, text => orFault (.duration text)
      ((Text.natural? Text.max32 (Text.trimChars text.toList)).map UInt32.ofNat)
  | .noise, text => (Noise.parse text).mapError .parameter
  | .mode, text => (Mode.parse text).mapError .parameter
  | .carrier, text => orFault (.number .carrier text) (Decimal.float? (Text.trimChars text.toList))
  | .amplitude, text => orFault (.amplitude text)
      (Text.integer? Text.maxSigned64 (Text.trimChars text.toList))
  | .endFreq, text => parseStop text

theorem orFault_eq_ok_iff {α : Type} {e : Fault} {o : Option α} {a : α} :
    orFault e o = .ok a ↔ o = some a := by
  cases o <;> simp [orFault]

theorem orFault_eq_error {α : Type} {e e' : Fault} {o : Option α} (h : orFault e o = .error e') :
    e' = e := by
  cases o with
  | some a => cases h
  | none => exact (Except.error.inj h).symm

theorem mapError_eq_ok_iff {α ε ε' : Type} {f : ε → ε'} {r : Except ε α} {a : α} :
    r.mapError f = .ok a ↔ r = .ok a := by
  cases r <;> simp [Except.mapError]

theorem mapError_eq_error_iff {α ε ε' : Type} {f : ε → ε'} {r : Except ε α} {e' : ε'} :
    r.mapError f = .error e' ↔ ∃ e, r = .error e ∧ f e = e' := by
  cases r <;> simp [Except.mapError]

theorem minutes_eq_some_iff {cs : List Char} {n : UInt32} :
    (Text.natural? Text.max32 cs).map UInt32.ofNat = some n ↔
      Text.natural? Text.max32 cs = some n.toNat := by
  rw [Option.map_eq_some_iff]
  constructor
  · rintro ⟨k, hk, rfl⟩
    rw [hk, UInt32.toNat_ofNat_of_lt' (Nat.lt_succ_of_le (Text.natural?_eq_some_iff.1 hk).2)]
  · intro h
    exact ⟨_, h, UInt32.ofNat_toNat⟩

theorem parseStop_eq_ok_iff {text : String} {v : Option Float} :
    parseStop text = .ok v ↔ Field.endFreq.Means (Text.trimChars text.toList) v := by
  unfold parseStop
  cases Text.trimChars text.toList with
  | nil =>
    rw [if_pos rfl]
    exact ⟨fun h => (Except.ok.inj h).symm, fun h => congrArg Except.ok h.symm⟩
  | cons c cs =>
    rw [if_neg (List.cons_ne_nil c cs)]
    show _ ↔ ∃ hz : Float, Decimal.float? (c :: cs) = some hz ∧ v = some hz
    cases Decimal.float? (c :: cs) with
    | none => simp [orFault, Except.map]
    | some hz => simp [orFault, Except.map, eq_comm]

theorem parseStop_eq_error {text : String} {e : Fault} (h : parseStop text = .error e) :
    e = Field.endFreq.fault text := by
  unfold parseStop at h
  split at h
  · cases h
  · cases hfloat : Decimal.float? (Text.trimChars text.toList) with
    | none =>
      rw [hfloat] at h
      exact (Except.error.inj h).symm
    | some hz =>
      rw [hfloat] at h
      cases h

/-- A text is read just as what it means. -/
theorem Field.parse_eq_ok_iff (f : Field) (text : String) (v : f.Value) :
    f.parse text = .ok v ↔ f.Means (Text.trimChars text.toList) v := by
  cases f with
  | freq => exact orFault_eq_ok_iff
  | duration => exact orFault_eq_ok_iff.trans minutes_eq_some_iff
  | noise => exact mapError_eq_ok_iff.trans (noise_parse_eq_ok_iff text v)
  | mode => exact mapError_eq_ok_iff.trans (mode_parse_eq_ok_iff text v)
  | carrier => exact orFault_eq_ok_iff
  | amplitude => exact orFault_eq_ok_iff
  | endFreq => exact parseStop_eq_ok_iff

theorem Field.parse_eq_error {f : Field} {text : String} {e : Fault}
    (h : f.parse text = .error e) : e = f.fault text := by
  cases f with
  | freq => exact orFault_eq_error h
  | duration => exact orFault_eq_error h
  | noise =>
    obtain ⟨e', he', rfl⟩ := mapError_eq_error_iff.1 h
    rw [noise_parse_eq_error he']
    rfl
  | mode =>
    obtain ⟨e', he', rfl⟩ := mapError_eq_error_iff.1 h
    rw [mode_parse_eq_error he']
    rfl
  | carrier => exact orFault_eq_error h
  | amplitude => exact orFault_eq_error h
  | endFreq => exact parseStop_eq_error h

namespace Query

/-! ## Reading a request -/

/-- Reads a field. -/
def readField (q : Query) (f : Field) : Except Fault f.Value :=
  match q.value f with
  | none => .ok f.default
  | some text => f.parse text

variable {q : Query}

/-- A field is read just as what it says. -/
theorem readField_eq_ok_iff {f : Field} {v : f.Value} : q.readField f = .ok v ↔ q.Says f v := by
  unfold readField Says
  cases q.value f with
  | none => exact ⟨fun h => (Except.ok.inj h).symm, fun h => congrArg Except.ok h.symm⟩
  | some text => exact f.parse_eq_ok_iff text v

/-- A field is not read just when its text means nothing. -/
theorem readField_eq_error_iff {f : Field} {e : Fault} :
    q.readField f = .error e ↔ q.Unreadable f e := by
  unfold readField Unreadable
  cases q.value f with
  | none => simp
  | some text =>
    simp only [Option.some.injEq, ← Field.parse_eq_ok_iff]
    constructor
    · intro h
      refine ⟨text, rfl, ?_, Field.parse_eq_error h⟩
      intro v hv
      rw [h] at hv
      cases hv
    · rintro ⟨_, rfl, hnone, rfl⟩
      cases h : f.parse text with
      | error e => rw [Field.parse_eq_error h]
      | ok v => exact absurd h (hnone v)

/-- What can be read has no field that means nothing. -/
theorem Asks.readable {maxMinutes : UInt32} {d : Draft} (hd : q.Asks maxMinutes d) {f : Field}
    {e : Fault} : ¬ q.Unreadable f e := by
  intro h
  have hok := readField_eq_ok_iff.2 (hd.2 f)
  rw [readField_eq_error_iff.2 h] at hok
  cases hok

end Query

end ToneRelay.Request
