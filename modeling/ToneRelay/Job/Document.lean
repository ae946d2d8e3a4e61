import ToneRelay.Job.Description
import ToneRelay.Json.Record

/-!
# Job descriptions as documents

`Description.toText` writes a description with two blanks of indentation, `Description.read` reads
one in any layout, with its fields in any order.
-/

namespace ToneRelay.Job

open Json

/-! ## Writing -/

def NoiseLayer.toJson (l : NoiseLayer) : Value :=
  .record [("mode", .text l.mode.name), ("amplitude", .whole l.amplitude.toNat)]

def ToneLayer.toJson (l : ToneLayer) : Value :=
  .record [("mode", .text l.mode.name), ("carrier", .float l.carrier),
    ("resonance", .float l.resonance), ("amplitude", .whole l.amplitude.toNat),
    ("waveform", .text l.waveform.name)]

def Track.toJson (t : Track) : Value :=
  .record [("noises", .list (t.noises.map (·.toJson))), ("tones", .list (t.tones.map (·.toJson)))]

def Section.toJson (s : Section) : Value :=
  .record [("time", .whole s.time.toNat), ("transition", .text s.transition.name),
    ("track", s.track.toJson)]

def Options.toJson (o : Options) : Value :=
  .record [("samplerate", .whole o.samplerate.toNat), ("volume", .whole o.volume.toNat)]

def Description.toJson (d : Description) : Value :=
  .record [("description", .list (d.description.map .text)), ("options", d.options.toJson),
    ("sequence", .list (d.sequence.map (·.toJson)))]

/-- The text that is handed to a generator. -/
def Description.toText (d : Description) : String := d.toJson.pretty

/-! ## Reading -/

def Noise.names : List (String × Noise) :=
  [("white", .white), ("pink", .pink), ("brown", .brown)]

def Mode.names : List (String × Mode) :=
  [("binaural", .binaural), ("monaural", .monaural), ("isochronic", .isochronic)]

def Transition.names : List (String × Transition) :=
  [("steady", .steady), ("smooth", .smooth)]

def Waveform.names : List (String × Waveform) := [("sine", .sine)]

def readByte (cs : List Char) : Reading UInt8 :=
  (whole Text.max8 cs).map fun (n, rest) => (UInt8.ofNat n, rest)

/-- The fields of a noise layer read so far. -/
structure NoiseLayer.Draft where
  mode : Option Noise := none
  amplitude : Option UInt8 := none

def NoiseLayer.fields : List (Json.Field NoiseLayer.Draft) :=
  [.of "mode" (·.mode) (fun s v => { s with mode := some v }) (variant Noise.names),
    .of "amplitude" (·.amplitude) (fun s v => { s with amplitude := some v }) readByte]

def NoiseLayer.Draft.finish (s : NoiseLayer.Draft) : Option NoiseLayer :=
  match s with
  | ⟨some mode, some amplitude⟩ => some ⟨mode, amplitude⟩
  | _ => none

def NoiseLayer.read : List Char → Reading NoiseLayer :=
  record NoiseLayer.fields {} NoiseLayer.Draft.finish

/-- The fields of a tone layer read so far. -/
structure ToneLayer.Draft where
  mode : Option Mode := none
  carrier : Option Float := none
  resonance : Option Float := none
  amplitude : Option UInt8 := none
  waveform : Option Waveform := none

def ToneLayer.fields : List (Json.Field ToneLayer.Draft) :=
  [.of "mode" (·.mode) (fun s v => { s with mode := some v }) (variant Mode.names),
    .of "carrier" (·.carrier) (fun s v => { s with carrier := some v }) float,
    .of "resonance" (·.resonance) (fun s v => { s with resonance := some v }) float,
    .of "amplitude" (·.amplitude) (fun s v => { s with amplitude := some v }) readByte,
    .of "waveform" (·.waveform) (fun s v => { s with waveform := some v })
      (variant Waveform.names)]

def ToneLayer.Draft.finish (s : ToneLayer.Draft) : Option ToneLayer :=
  match s with
  | ⟨some mode, some carrier, some resonance, some amplitude, some waveform⟩ =>
    some ⟨mode, carrier, resonance, amplitude, waveform⟩
  | _ => none

def ToneLayer.read : List Char → Reading ToneLayer :=
  record ToneLayer.fields {} ToneLayer.Draft.finish

/-- The fields of a track read so far. -/
structure Track.Draft where
  noises : Option (List NoiseLayer) := none
  tones : Option (List ToneLayer) := none

def Track.fields : List (Json.Field Track.Draft) :=
  [.of "noises" (·.noises) (fun s v => { s with noises := some v }) (items NoiseLayer.read),
    .of "tones" (·.tones) (fun s v => { s with tones := some v }) (items ToneLayer.read)]

def Track.Draft.finish (s : Track.Draft) : Option Track :=
  match s with
  | ⟨some noises, some tones⟩ => some ⟨noises, tones⟩
  | _ => none

def Track.read : List Char → Reading Track := record Track.fields {} Track.Draft.finish

/-- The fields of a section read so far. -/
structure Section.Draft where
  time : Option UInt64 := none
  transition : Option Transition := none
  track : Option Track := none

def Section.fields : List (Json.Field Section.Draft) :=
  [.of "time" (·.time) (fun s v => { s with time := some v })
      (fun cs => (whole Text.max64 cs).map fun (n, rest) => (UInt64.ofNat n, rest)),
    .of "transition" (·.transition) (fun s v => { s with transition := some v })
      (variant Transition.names),
    .of "track" (·.track) (fun s v => { s with track := some v }) Track.read]

def Section.Draft.finish (s : Section.Draft) : Option Section :=
  match s with
  | ⟨some time, some transition, some track⟩ => some ⟨time, transition, track⟩
  | _ => none

def Section.read : List Char → Reading Section := record Section.fields {} Section.Draft.finish

/-- The options read so far. -/
structure Options.Draft where
  samplerate : Option UInt32 := none
  volume : Option UInt8 := none

def Options.fields : List (Json.Field Options.Draft) :=
  [.of "samplerate" (·.samplerate) (fun s v => { s with samplerate := some v })
      (fun cs => (whole Text.max32 cs).map fun (n, rest) => (UInt32.ofNat n, rest)),
    .of "volume" (·.volume) (fun s v => { s with volume := some v }) readByte]

def Options.Draft.finish (s : Options.Draft) : Option Options :=
  match s with
  | ⟨some samplerate, some volume⟩ => some ⟨samplerate, volume⟩
  | _ => none

def Options.read : List Char → Reading Options := record Options.fields {} Options.Draft.finish

/-- The fields of a description read so far. -/
structure Description.Draft where
  description : Option (List String) := none
  options : Option Options := none
  sequence : Option (List Section) := none

def Description.fields : List (Json.Field Description.Draft) :=
  [.of "description" (·.description) (fun s v => { s with description := some v }) (items text),
    .of "options" (·.options) (fun s v => { s with options := some v }) Options.read,
    .of "sequence" (·.sequence) (fun s v => { s with sequence := some v }) (items Section.read)]

def Description.Draft.finish (s : Description.Draft) : Option Description :=
  match s with
  | ⟨some description, some options, some sequence⟩ => some ⟨description, options, sequence⟩
  | _ => none

/-- The description that a text holds. -/
def Description.read (s : String) : Except ReadError Description :=
  whole? (record Description.fields {} Description.Draft.finish) s.toList

end ToneRelay.Job
