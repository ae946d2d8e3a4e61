import ToneRelay.Text.Utf8

/-!
# The command line of a generator

A program, arguments of its own, and the arguments that ask it to play one job in silence: the job
file comes after `-json`, and `-` sends the audio to its output. Main statements: `take_argsFor` and
`drop_argsFor`.
-/

namespace ToneRelay.Generator

/-- The program that is started when no other one is named. -/
def defaultProgram : String := "synapseq"

structure Command where
  program : String := defaultProgram
  leading : List String := []
deriving DecidableEq, Repr

namespace Command

/-- Replaces the arguments of the program's own. -/
def withLeading (c : Command) (args : List String) : Command := { c with leading := args }

/-- The arguments that ask for one job. A path is any bytes, and an argument is text. -/
def jobArgs (path : List UInt8) : List String := ["-quiet", "-json", Text.decodeLossy path, "-"]

/-- All arguments for a job file. -/
def argsFor (c : Command) (path : List UInt8) : List String := c.leading ++ jobArgs path

@[simp] theorem take_argsFor (c : Command) (path : List UInt8) :
    (c.argsFor path).take c.leading.length = c.leading := by simp [argsFor]

@[simp] theorem drop_argsFor (c : Command) (path : List UInt8) :
    (c.argsFor path).drop c.leading.length = jobArgs path := by simp [argsFor]

end Command

end ToneRelay.Generator
