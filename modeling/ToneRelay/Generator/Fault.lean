import ToneRelay.Duration

/-!
# What goes wrong with a generator

The reasons for which a generator is not started, not read or not waited for, and their texts.
-/

namespace ToneRelay.Generator

/-- Why a call on a generator fails. -/
inductive Fault
  | serialize (reason : String)
  | jobFile (reason : String)
  | spawn (program reason : String)
  | startupTimeout (limit : Duration)
  | exitedEarly (diagnostics : String)
  | read (reason : String)
  | wait (reason : String)
  | stillRunning
  | closed
deriving DecidableEq, Repr

def Fault.message : Fault → String
  | .serialize reason => "failed to serialize job description: " ++ reason
  | .jobFile reason => "failed to write job description: " ++ reason
  | .spawn program reason => "failed to start generator '" ++ program ++ "': " ++ reason
  | .startupTimeout limit => "generator produced no output within " ++ limit.text
  | .exitedEarly diagnostics => "generator exited before producing output: " ++ diagnostics
  | .read reason => "failed to read generator output: " ++ reason
  | .wait reason => "failed to wait for generator: " ++ reason
  | .stillRunning => "generator is still running"
  | .closed => "generator output is closed"

end ToneRelay.Generator
