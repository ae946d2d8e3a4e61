import ToneRelay.Generator.Command
import ToneRelay.Generator.Obstacle
import ToneRelay.Generator.Supervised
import ToneRelay.Job.Document

/-!
# Launching

A generator is told its job in a file and its arguments on the command line. What an installed
program then does is known as a list of steps, some of which depend on both. Main statement:
`launch_eq`, a generator that has just been launched has done nothing, and nothing is known of it.
-/

namespace ToneRelay.Generator

/-- What a program does. -/
inductive Step
  | act (a : Action)
  /-- Writes the job file to the output. -/
  | showJob
  /-- Writes each argument to the output, on a line of its own. -/
  | showArgs
deriving DecidableEq, Repr

/-- What there is to start under the name of a program. -/
inductive Installed
  | runs (steps : List Step)
  | missing
deriving DecidableEq, Repr

/-- The action of a step. -/
def Step.action (args : List String) (job : List UInt8) : Step → Action
  | .act a => a
  | .showJob => .out job
  | .showArgs => .out (args.flatMap fun arg => Text.utf8 arg ++ [10])

/-- How generators are started: the command, what it starts, and the path of the job file. -/
structure Launcher where
  command : Command
  installed : Installed
  grace : Duration := defaultGrace
  jobPath : List UInt8

/-- The time that a program takes to start, in which a signal finds nothing prepared for it. -/
def startTime : Duration := .ofMillis 1

/-- Starts a generator for a job. -/
def Launcher.launch (l : Launcher) (job : Job.Description) : Except Fault Supervised :=
  match l.installed with
  | .missing => .error (.spawn l.command.program (Obstacle.ofProgram l.command.program).message)
  | .runs steps =>
    let args := l.command.argsFor l.jobPath
    .ok {
      process := {
        todo := steps.map (Step.action args (Text.utf8 job.toText))
        ready := startTime.nanos }
      handle := { grace := l.grace } }

theorem launch_eq {l : Launcher} {job : Job.Description} {s : Supervised}
    (h : l.launch job = .ok s) :
    ∃ todo, s = {
      process := { todo := todo, ready := startTime.nanos }
      handle := { grace := l.grace } } := by
  unfold Launcher.launch at h
  split at h
  · cases h
  · exact ⟨_, (Except.ok.inj h).symm⟩

end ToneRelay.Generator
