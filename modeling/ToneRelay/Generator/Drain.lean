import ToneRelay.Generator.Process

/-!
# Collecting diagnostics

The reader of a generator's diagnostics. It reads to the end, so that a talkative generator is never
held up, and keeps the first bytes. Main statement: `kept_keep`, what is kept does not depend on how
the bytes arrive.
-/

namespace ToneRelay.Generator

/-- The bytes of diagnostics that are kept. -/
def maxDiagnosticBytes : Nat := 65536

/-- The bytes that are asked for in one read. -/
def drainRead : Nat := 4096

/-- The reader of diagnostics. -/
structure Drain where
  kept : List UInt8 := []
  ended : Bool := false
deriving DecidableEq, Repr

namespace Drain

/-- Keeps of a piece what there is room for. -/
def keep (d : Drain) (piece : List UInt8) : Drain :=
  { d with kept := d.kept ++ piece.take (maxDiagnosticBytes - d.kept.length) }

/-- Reads once, or sees the end. -/
def step (d : Drain) (p : Process) : Drain × Process :=
  if d.ended then (d, p)
  else if p.errors ≠ [] then
    (d.keep (p.errors.take drainRead), { p with errors := p.errors.drop drainRead })
  else if p.exit.isSome then ({ d with ended := true }, p)
  else (d, p)

/-- Whether there is something to read or to see. -/
def canStep (d : Drain) (p : Process) : Bool :=
  !d.ended && (p.errors ≠ [] || p.exit.isSome)

theorem kept_keep (seen piece : List UInt8) {d : Drain}
    (h : d.kept = seen.take maxDiagnosticBytes) :
    (d.keep piece).kept = (seen ++ piece).take maxDiagnosticBytes := by
  simp only [keep, h, List.take_append, List.length_take]
  congr 2
  omega

end Drain

end ToneRelay.Generator
