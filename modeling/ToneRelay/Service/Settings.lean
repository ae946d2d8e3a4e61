import ToneRelay.Duration
import ToneRelay.Generator.Command
import ToneRelay.Job.Parameters
import ToneRelay.Text.Blank
import ToneRelay.Text.Numeral

/-!
# Settings

The settings of the service and how the environment gives them. Each is read on its own: a value
that is absent, is no text or does not parse leaves the default. Sizes of which there must be one
are at least one. Main statements: `chunkSize_ofEnvironment` and `history_ofEnvironment`.
-/

namespace ToneRelay.Service

structure Settings where
  port : UInt16 := 8000
  program : String := Generator.defaultProgram
  programArgs : List String := []
  /-- The greatest number of bytes asked for in one read. -/
  chunkSize : UInt64 := 8192
  /-- The number of bytes between two progress reports. -/
  progressInterval : UInt64 := 1048576
  /-- How long a generator may take to end by itself when asked to. -/
  terminateGraceMillis : UInt64 := 5000
  /-- How long a generator may take to its first output. -/
  startupTimeoutSecs : UInt64 := 10
  maxMinutes : UInt32 := Job.defaultMaxMinutes
  /-- The number of reports that are kept. -/
  history : UInt64 := 256
  /-- The number of requests in a minute. -/
  rateLimit : UInt32 := 60
  requestTimeoutSecs : UInt64 := 60
  /-- The origins whose pages may read the answers, all of them if none is given. -/
  origins : Option (List String) := none
deriving DecidableEq, Repr

/-- The variables of an environment, whose values are bytes. -/
structure Environment where
  value : String → Option (List UInt8)

/-- No variable has a value. -/
def Environment.empty : Environment := ⟨fun _ => none⟩

/-- One variable has some bytes as its value, the others keep theirs. -/
def Environment.set (env : Environment) (name : String) (bytes : List UInt8) : Environment :=
  ⟨fun other => if other = name then some bytes else env.value other⟩

/-- A variable whose value is text. -/
def Environment.text? (env : Environment) (name : String) : Option String :=
  (env.value name).bind Text.decode?

/-- A variable whose value is a numeral of a type with greatest value `max`, blanks around it. -/
def Environment.natural? (env : Environment) (name : String) (max : Nat) : Option Nat :=
  (env.text? name).bind fun text => Text.natural? max (Text.trimChars text.toList)

namespace Settings

/-- At least one. -/
def positive (n : UInt64) : UInt64 := if n = 0 then 1 else n

theorem positive_ne_zero (n : UInt64) : positive n ≠ 0 := by
  unfold positive; split
  · decide
  · assumption

/-- A word of sixteen bits. -/
def word16 (env : Environment) (name : String) (default : UInt16) : UInt16 :=
  ((env.natural? name Text.max16).map UInt16.ofNat).getD default

/-- A word of thirty-two bits. -/
def word32 (env : Environment) (name : String) (default : UInt32) : UInt32 :=
  ((env.natural? name Text.max32).map UInt32.ofNat).getD default

/-- A word of sixty-four bits. -/
def word64 (env : Environment) (name : String) (default : UInt64) : UInt64 :=
  ((env.natural? name Text.max64).map UInt64.ofNat).getD default

/-- The program, kept as it is unless it is blank. -/
def programIn (env : Environment) (default : String) : String :=
  match env.text? "GENERATOR_BIN" with
  | some text => if Text.trim text = "" then default else text
  | none => default

/-- The program's own arguments, cut at blanks. -/
def programArgsIn (env : Environment) : List String :=
  ((env.text? "GENERATOR_ARGS").map Text.words).getD []

/-- The origins, cut at commas. -/
def originsIn (env : Environment) : Option (List String) :=
  (env.text? "CORS_ALLOWED_ORIGINS").map fun text => (Text.pieces ',' text).map Text.trim

/-- The settings that an environment gives. -/
def ofEnvironment (env : Environment) : Settings :=
  let base : Settings := {}
  { port := word16 env "PORT" base.port
    program := programIn env base.program
    programArgs := programArgsIn env
    chunkSize := positive (word64 env "CHUNK_SIZE" base.chunkSize)
    progressInterval := word64 env "PROGRESS_INTERVAL_BYTES" base.progressInterval
    terminateGraceMillis := word64 env "TERMINATE_GRACE_MS" base.terminateGraceMillis
    startupTimeoutSecs := word64 env "STARTUP_TIMEOUT_SECS" base.startupTimeoutSecs
    maxMinutes := word32 env "MAX_DURATION_MINUTES" base.maxMinutes
    history := positive (word64 env "SESSION_HISTORY" base.history)
    rateLimit := word32 env "RATE_LIMIT_PER_MINUTE" base.rateLimit
    requestTimeoutSecs := word64 env "REQUEST_TIMEOUT_SECS" base.requestTimeoutSecs
    origins := originsIn env }

/-- How generators are started. -/
def command (s : Settings) : Generator.Command := ⟨s.program, s.programArgs⟩

def terminateGrace (s : Settings) : Duration := .ofMillis s.terminateGraceMillis.toNat

def startupTimeout (s : Settings) : Duration := .ofSecs s.startupTimeoutSecs.toNat

def requestTimeout (s : Settings) : Duration := .ofSecs s.requestTimeoutSecs.toNat

theorem chunkSize_ofEnvironment (env : Environment) : (ofEnvironment env).chunkSize ≠ 0 :=
  positive_ne_zero _

theorem history_ofEnvironment (env : Environment) : (ofEnvironment env).history ≠ 0 :=
  positive_ne_zero _

end Settings

end ToneRelay.Service
