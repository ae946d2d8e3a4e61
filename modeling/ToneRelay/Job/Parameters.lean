import ToneRelay.Json.Value
import ToneRelay.Pcm
import ToneRelay.Text.Blank

/-!
# Session parameters

What a listener asks for. `Draft` holds values as they were given, `Draft.check` admits exactly
those that a generator can be asked to play and gives them back as `Parameters`, a type that carries
the proof of it.
-/

namespace ToneRelay.Job

/-- The colour of the noise bed. -/
inductive Noise
  | white
  | pink
  | brown
deriving DecidableEq, Repr

/-- How the tone carries its resonance. -/
inductive Mode
  | binaural
  | monaural
  | isochronic
deriving DecidableEq, Repr

def Noise.name : Noise → String
  | .white => "white"
  | .pink => "pink"
  | .brown => "brown"

def Mode.name : Mode → String
  | .binaural => "binaural"
  | .monaural => "monaural"
  | .isochronic => "isochronic"

/-- Why parameters are refused. -/
inductive ParameterError
  | frequency (hz : Float)
  | endFrequency (hz : Float)
  | duration (minutes : UInt32)
  | durationTooLong (got max : UInt32)
  | carrier (hz : Float)
  | amplitude (value : Int)
  | noise (text : String)
  | mode (text : String)

def ParameterError.message : ParameterError → String
  | .frequency hz => "freq must be a positive number of Hz, got " ++ Decimal.prose hz
  | .endFrequency hz => "end_freq must be a positive number of Hz, got " ++ Decimal.prose hz
  | .duration minutes => "duration must be a positive number of minutes, got " ++ minutes.toNat.repr
  | .durationTooLong got max =>
    "duration must not exceed " ++ max.toNat.repr ++ " minutes, got " ++ got.toNat.repr
  | .carrier hz => "carrier must be a positive number of Hz, got " ++ Decimal.prose hz
  | .amplitude value => "amplitude must be between 0 and 100, got " ++ value.repr
  | .noise text => "unknown noise type '" ++ text ++ "' (expected white, pink or brown)"
  | .mode text => "unknown tone mode '" ++ text ++ "' (expected binaural, monaural or isochronic)"

/-- A name as it is compared: without blanks at its ends and in lower case. -/
def normalName (s : String) : List Char := (Text.trimChars s.toList).map Char.toLower

/-- The noise with a given name. -/
def Noise.parse (s : String) : Except ParameterError Noise :=
  let name := normalName s
  if name = Noise.white.name.toList then .ok .white
  else if name = Noise.pink.name.toList then .ok .pink
  else if name = Noise.brown.name.toList then .ok .brown
  else .error (.noise s)

/-- The mode with a given name. -/
def Mode.parse (s : String) : Except ParameterError Mode :=
  let name := normalName s
  if name = Mode.binaural.name.toList then .ok .binaural
  else if name = Mode.monaural.name.toList then .ok .monaural
  else if name = Mode.isochronic.name.toList then .ok .isochronic
  else .error (.mode s)

/-- The frequencies that can be played: finite and above zero. -/
def isHz (x : Float) : Bool := x.isFinite && decide (0.0 < x)

/-- The greatest amplitude of a layer. -/
def maxAmplitude : Nat := 100

/-- The longest session that is accepted when no other limit is set. -/
def defaultMaxMinutes : UInt32 := 720

/-- Values as they were given; what was not given keeps its default. -/
structure Draft where
  frequency : Float := 10.0
  minutes : UInt32 := 5
  maxMinutes : UInt32 := defaultMaxMinutes
  noise : Noise := .pink
  mode : Mode := .binaural
  carrier : Float := 300.0
  amplitude : Int := 15
  endFrequency : Option Float := none

/-- Parameters that a generator can be asked to play. -/
structure Parameters where
  frequency : Float
  minutes : UInt32
  noise : Noise
  mode : Mode
  carrier : Float
  amplitude : UInt8
  endFrequency : Option Float
  frequency_hz : isHz frequency = true
  minutes_pos : 0 < minutes.toNat
  carrier_hz : isHz carrier = true
  amplitude_le : amplitude.toNat ≤ maxAmplitude
  endFrequency_hz : ∀ hz, endFrequency = some hz → isHz hz = true

namespace Draft

def frequencyFault (d : Draft) : Option ParameterError :=
  if isHz d.frequency then none else some (.frequency d.frequency)

def endFault (d : Draft) : Option ParameterError :=
  d.endFrequency.bind fun hz => if isHz hz then none else some (.endFrequency hz)

def durationFault (d : Draft) : Option ParameterError :=
  if d.minutes.toNat = 0 then some (.duration d.minutes)
  else if d.maxMinutes < d.minutes then some (.durationTooLong d.minutes d.maxMinutes)
  else none

def carrierFault (d : Draft) : Option ParameterError :=
  if isHz d.carrier then none else some (.carrier d.carrier)

def amplitudeFault (d : Draft) : Option ParameterError :=
  if 0 ≤ d.amplitude ∧ d.amplitude ≤ maxAmplitude then none else some (.amplitude d.amplitude)

/-- The first thing that is wrong with a draft. -/
def fault (d : Draft) : Option ParameterError :=
  d.frequencyFault.or (d.endFault.or (d.durationFault.or (d.carrierFault.or d.amplitudeFault)))

theorem frequencyFault_eq_none {d : Draft} : d.frequencyFault = none ↔ isHz d.frequency = true := by
  unfold frequencyFault; split <;> simp_all

theorem endFault_eq_none {d : Draft} :
    d.endFault = none ↔ ∀ hz, d.endFrequency = some hz → isHz hz = true := by
  unfold endFault
  cases d.endFrequency with
  | none => simp
  | some hz => simp

theorem durationFault_eq_none {d : Draft} :
    d.durationFault = none ↔ 0 < d.minutes.toNat ∧ d.minutes ≤ d.maxMinutes := by
  unfold durationFault
  simp only [UInt32.lt_iff_toNat_lt, UInt32.le_iff_toNat_le]
  split
  · simp; omega
  · split
    · simp; omega
    · simp; omega

theorem carrierFault_eq_none {d : Draft} : d.carrierFault = none ↔ isHz d.carrier = true := by
  unfold carrierFault; split <;> simp_all

theorem amplitudeFault_eq_none {d : Draft} :
    d.amplitudeFault = none ↔ 0 ≤ d.amplitude ∧ d.amplitude ≤ maxAmplitude := by
  unfold amplitudeFault; split <;> simp_all

/-- What holds of a draft with nothing wrong. -/
structure Sound (d : Draft) : Prop where
  frequency : isHz d.frequency = true
  endFrequency : ∀ hz, d.endFrequency = some hz → isHz hz = true
  minutes : 0 < d.minutes.toNat ∧ d.minutes ≤ d.maxMinutes
  carrier : isHz d.carrier = true
  amplitude : 0 ≤ d.amplitude ∧ d.amplitude ≤ maxAmplitude

theorem fault_eq_none {d : Draft} : d.fault = none ↔ d.Sound := by
  simp only [fault, Option.or_eq_none_iff, frequencyFault_eq_none, endFault_eq_none,
    durationFault_eq_none, carrierFault_eq_none, amplitudeFault_eq_none]
  exact ⟨fun ⟨a, b, c, d, e⟩ => ⟨a, b, c, d, e⟩, fun ⟨a, b, c, d, e⟩ => ⟨a, b, c, d, e⟩⟩

theorem Sound.toNat_amplitude {d : Draft} (h : d.Sound) :
    (UInt8.ofNat d.amplitude.toNat).toNat = d.amplitude.toNat := by
  have := h.amplitude
  simp only [maxAmplitude] at this
  simp only [UInt8.toNat_ofNat']
  omega

/-- The parameters of a sound draft. -/
def Sound.parameters {d : Draft} (h : d.Sound) : Parameters where
  frequency := d.frequency
  minutes := d.minutes
  noise := d.noise
  mode := d.mode
  carrier := d.carrier
  amplitude := UInt8.ofNat d.amplitude.toNat
  endFrequency := d.endFrequency
  frequency_hz := h.frequency
  minutes_pos := h.minutes.1
  carrier_hz := h.carrier
  amplitude_le := by
    have := h.amplitude
    rw [h.toNat_amplitude]
    omega
  endFrequency_hz := h.endFrequency

/-- Admits a draft, or gives the first thing that is wrong with it. -/
def check (d : Draft) : Except ParameterError Parameters :=
  match h : d.fault with
  | some e => .error e
  | none => .ok (fault_eq_none.1 h).parameters

theorem check_of_sound {d : Draft} (h : d.Sound) : d.check = .ok h.parameters := by
  unfold check
  split
  · next e he => rw [fault_eq_none.2 h] at he; cases he
  · rfl

theorem check_of_fault {d : Draft} {e : ParameterError} (h : d.fault = some e) :
    d.check = .error e := by
  unfold check
  split
  · next e' he => rw [h] at he; cases he; rfl
  · next hn => rw [h] at hn; cases hn

end Draft

namespace Parameters

/-- The length of the session. -/
def totalMillis (p : Parameters) : Nat := p.minutes.toNat * 60000

/-- The size of the whole session. -/
def expectedBytes (p : Parameters) : Nat := Pcm.bytesForMillis p.totalMillis

/-- The length of the session in a word. -/
def totalMillis? (p : Parameters) : Option UInt64 := Pcm.millis? p.minutes

/-- The size of the whole session in a word. -/
def expectedBytes? (p : Parameters) : Option UInt64 := do
  Pcm.bytesForMillis? (← p.totalMillis?)

theorem expectedBytes_eq (p : Parameters) :
    p.expectedBytes = Pcm.bytesForMinutes p.minutes.toNat := rfl

/-- The document that shows the parameters. -/
def toJson (p : Parameters) : Json.Value :=
  .record ([
    ("frequency", .float p.frequency),
    ("duration_minutes", .whole p.minutes.toNat),
    ("noise", .text p.noise.name),
    ("mode", .text p.mode.name),
    ("carrier", .float p.carrier),
    ("amplitude", .whole p.amplitude.toNat)] ++
    Json.optional "end_frequency" (p.endFrequency.map .float))

end Parameters

end ToneRelay.Job
