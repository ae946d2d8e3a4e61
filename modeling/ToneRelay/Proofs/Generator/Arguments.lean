import ToneRelay.Generator.Launch
import ToneRelay.Proofs.Text.Utf8

/-!
# What a generator is told

A generator finds its job by the path of a file, which stands among its arguments after `-json`. A
path is any bytes and an argument is text, so that bytes of a path that are no text are replaced on
the way.

`launch_tells_iff`: a program that is there is started with the arguments that its command has for
the path of the job file. The command's own arguments come first, and two commands that differ in
them never give the same list. The path is told, and no other path of text gives the same list, just
if it is itself the bytes of a text.

A list of arguments is the command's own followed by four more, so two lists are compared from their
ends (`argsFor_eq_iff`).
-/

namespace ToneRelay.Generator

open Text (utf8 decodeLossy IsText)

namespace Command

variable {c d : Command} {path other : List UInt8}

/-! ## Two lists of arguments -/

theorem jobArgs_eq_iff : jobArgs path = jobArgs other ↔ decodeLossy path = decodeLossy other := by
  simp only [jobArgs, List.cons.injEq, true_and, and_true]

theorem argsFor_eq_iff :
    c.argsFor path = d.argsFor other ↔
      c.leading = d.leading ∧ decodeLossy path = decodeLossy other := by
  unfold argsFor
  rw [← jobArgs_eq_iff]
  constructor
  · intro h
    exact List.append_inj' h rfl
  · rintro ⟨hleading, hjob⟩
    rw [hleading, hjob]

/-- The path that the arguments name gives the same arguments. -/
theorem argsFor_decodeLossy : c.argsFor (utf8 (decodeLossy path)) = c.argsFor path :=
  argsFor_eq_iff.2 ⟨rfl, Text.decodeLossy_utf8 _⟩

/-! ## Telling a path -/

/-- The arguments for a path tell both the arguments of the command and the path. -/
structure Tells (c : Command) (path : List UInt8) : Prop where
  leading : (c.argsFor path).take c.leading.length = c.leading
  /-- After the command's own arguments, the one that follows `-json` is the path. -/
  file : ∃ arg, (c.argsFor path).drop c.leading.length = ["-quiet", "-json", arg, "-"] ∧
    utf8 arg = path
  /-- Nothing else gives these arguments. -/
  distinct : ∀ (d : Command) (other : List UInt8), IsText other → c.argsFor path = d.argsFor other →
    c.leading = d.leading ∧ path = other

theorem tells_of_isText (h : IsText path) : c.Tells path where
  leading := take_argsFor c path
  file := ⟨decodeLossy path, drop_argsFor c path, Text.utf8_decodeLossy_eq_iff.2 h⟩
  distinct d other hother heq := by
    obtain ⟨hleading, hpath⟩ := argsFor_eq_iff.1 heq
    exact ⟨hleading, (Text.decodeLossy_inj h hother).1 hpath⟩

/-- Bytes that are no text are taken for the path that is named in their place. -/
theorem isText_of_distinct
    (h : ∀ other, IsText other → c.argsFor path = c.argsFor other → path = other) :
    IsText path := by
  have hsame : path = utf8 (decodeLossy path) := h _ (Text.isText_utf8 _) argsFor_decodeLossy.symm
  exact ⟨_, hsame.symm⟩

theorem tells_iff : c.Tells path ↔ IsText path :=
  ⟨fun h => isText_of_distinct fun other hother heq => (h.distinct c other hother heq).2,
    tells_of_isText⟩

end Command

/-! ## Launching -/

/-- **What a launched generator is told.** It is started with the arguments for the path of its job
file, which tell the arguments of the command in any case and the path just if it is text. -/
theorem launch_tells_iff {l : Launcher} {steps : List Step} (h : l.installed = .runs steps)
    (job : Job.Description) :
    (∃ g, l.launch job = .ok g ∧ g.process.todo =
      steps.map (Step.action (l.command.argsFor l.jobPath) (utf8 job.toText))) ∧
    (l.command.argsFor l.jobPath).take l.command.leading.length = l.command.leading ∧
    (∀ (d : Command) (other : List UInt8), l.command.argsFor l.jobPath = d.argsFor other →
      l.command.leading = d.leading) ∧
    (l.command.Tells l.jobPath ↔ IsText l.jobPath) := by
  refine ⟨?_, Command.take_argsFor _ _, ?_, Command.tells_iff⟩
  · unfold Launcher.launch
    rw [h]
    exact ⟨_, rfl, rfl⟩
  · exact fun d other heq => (Command.argsFor_eq_iff.1 heq).1

/-- A generator with arguments of its own that shows what it is told. -/
def candid : Launcher where
  command := { program := "nice", leading := ["-json", "5", "synapseq"] }
  installed := .runs [.showArgs]
  jobPath := utf8 "/tmp/stream-job-a1B2c3.json"

/-- It shows its own arguments first, though one of them looks like those that follow. -/
theorem launch_tells_candid :
    candid.command.Tells candid.jobPath ∧ ∃ g,
      candid.launch ⟨[], ⟨44100, 100⟩, []⟩ = .ok g ∧ g.process.todo =
        [.out (utf8 "-json\n5\nsynapseq\n-quiet\n-json\n/tmp/stream-job-a1B2c3.json\n-\n")] := by
  obtain ⟨⟨g, hlaunch, htodo⟩, -, -, htells⟩ :=
    launch_tells_iff (l := candid) rfl ⟨[], ⟨44100, 100⟩, []⟩
  refine ⟨htells.2 (by decide), g, hlaunch, ?_⟩
  rw [htodo]
  decide

/-! ## A path that is no text -/

/-- A job file in a directory whose name ends with the byte `0xE9`. -/
def foreign : List UInt8 := utf8 "/tmp/caf" ++ 0xE9 :: utf8 "/stream-job-a1B2c3.json"

/-- The generator is told of a file in another directory, as it is for the file that is there. -/
theorem foreign_untold :
    (({} : Command).argsFor foreign)[2]? = some "/tmp/caf\uFFFD/stream-job-a1B2c3.json" ∧
      ({} : Command).argsFor foreign =
        ({} : Command).argsFor (utf8 "/tmp/caf\uFFFD/stream-job-a1B2c3.json") ∧
      foreign ≠ utf8 "/tmp/caf\uFFFD/stream-job-a1B2c3.json" ∧
      ¬ ({} : Command).Tells foreign := by
  refine ⟨by decide, by decide, by decide, ?_⟩
  rw [Command.tells_iff]
  decide

end ToneRelay.Generator
