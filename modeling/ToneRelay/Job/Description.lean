import ToneRelay.Job.Parameters
import ToneRelay.Job.Timeline

/-!
# Job descriptions

The document that tells a generator what to play: a few lines of prose, the options of the output,
and a sequence of sections, each with the layers that sound from its offset on. `describe` writes
the description of a session; it never fails, because `Parameters` only holds what can be played.
-/

namespace ToneRelay.Job

/-- How a section leads to the next. -/
inductive Transition
  | steady
  | smooth
deriving DecidableEq, Repr

/-- The shape of a tone. -/
inductive Waveform
  | sine
deriving DecidableEq, Repr

def Transition.name : Transition → String
  | .steady => "steady"
  | .smooth => "smooth"

def Waveform.name : Waveform → String
  | .sine => "sine"

structure NoiseLayer where
  mode : Noise
  amplitude : UInt8
deriving DecidableEq

structure ToneLayer where
  mode : Mode
  carrier : Float
  resonance : Float
  amplitude : UInt8
  waveform : Waveform

structure Track where
  noises : List NoiseLayer
  tones : List ToneLayer

/-- A section, which starts at its offset in milliseconds. -/
structure Section where
  time : UInt64
  transition : Transition
  track : Track

structure Options where
  samplerate : UInt32
  volume : UInt8
deriving DecidableEq

/-- What a generator is told. -/
structure Description where
  description : List String
  options : Options
  sequence : List Section

namespace Description

/-- The offsets of the sections. -/
def timestamps (d : Description) : List UInt64 := d.sequence.map (·.time)

/-- The offset of the last section, which is the length of the audio. -/
def endMillis (d : Description) : UInt64 := d.timestamps.getLast?.getD 0

end Description

/-- The amplitude of the noise bed where the layers sound. -/
def noiseBedAmplitude : UInt8 := 30

/-- The volume of the output. -/
def masterVolume : UInt8 := 100

/-- The section at a mark of the timeline. -/
def Parameters.section (p : Parameters) (m : Mark Float) : Section where
  time := UInt64.ofNat m.millis
  transition := if p.endFrequency.isSome then .smooth else .steady
  track := {
    noises := [⟨p.noise, if m.sounding then noiseBedAmplitude else 0⟩]
    tones := [⟨p.mode, p.carrier, m.resonance, if m.sounding then p.amplitude else 0, .sine⟩] }

/-- The lines that tell a reader what the session is. -/
def Parameters.summary (p : Parameters) : List String :=
  let start := Decimal.prose p.frequency
  let progression := match p.endFrequency with
    | some stop => ["Progression: " ++ start ++ "Hz -> " ++ Decimal.prose stop ++ "Hz"]
    | none => []
  ["Streaming Session - " ++ p.minutes.toNat.repr ++ " minutes",
    "Resonance: " ++ start ++ "Hz, Carrier: " ++ Decimal.prose p.carrier ++ "Hz",
    "Mode: " ++ p.mode.name] ++ progression

/-- The description of a session. -/
def describe (p : Parameters) : Description where
  description := p.summary
  options := ⟨UInt32.ofNat Pcm.sampleRate, masterVolume⟩
  sequence := (timeline p.totalMillis p.frequency p.endFrequency).map p.section

end ToneRelay.Job
