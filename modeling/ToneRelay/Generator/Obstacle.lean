import ToneRelay.Generator.Place

/-!
# Obstacles

Why a program cannot be started. A program is named by its path, or by a name alone that is looked
for among the installed programs; the path is walked from name to name. Main statement:
`ofProgram_eq_nulByte_iff`.
-/

namespace ToneRelay.Generator

/-- Why a program cannot be started. -/
inductive Obstacle
  | nulByte
  | nameTooLong
  | notFound
  | notDirectory
  /-- What is there is no program. -/
  | denied
deriving DecidableEq, Repr

namespace Obstacle

/-- The text of an obstacle. -/
def message : Obstacle → String
  | nulByte => "nul byte found in provided data"
  | nameTooLong => "File name too long (os error 36)"
  | notFound => "No such file or directory (os error 2)"
  | notDirectory => "Not a directory (os error 20)"
  | denied => "Permission denied (os error 13)"

/-- The largest size of a name. -/
def longestName : Nat := 255

/-- The largest size of a path. -/
def longestPath : Nat := 4095

/-- The directory in which a path begins that does not begin at the root. It is two levels below the
root, and nothing is known to be in it or in the one above it. -/
def elsewhere : List String := [".", "."]

/-- The obstacle on the way from a directory. -/
def onWay (here : List String) : List String → Obstacle
  | [] => denied
  | name :: rest =>
    if name = "" ∨ name = "." then onWay here rest
    else if name = ".." then onWay here.dropLast rest
    else if longestName < name.utf8ByteSize then nameTooLong
    else
      match Place.find? here name with
      | some .directory => onWay (here ++ [name]) rest
      | some (.link target) => onWay target rest
      | some .file => if rest = [] then denied else notDirectory
      | none => notFound

/-- The obstacle to starting a program. -/
def ofProgram (program : String) : Obstacle :=
  if '\x00' ∈ program.toList then nulByte
  else if program = "" then notFound
  else if longestPath < program.utf8ByteSize then nameTooLong
  else
    let here := if program.toList.head? = some '/' then [] else elsewhere
    onWay here (program.splitOn "/")

theorem onWay_ne_nulByte (here names : List String) : onWay here names ≠ nulByte := by
  fun_induction onWay here names <;> simp_all

theorem ofProgram_eq_nulByte_iff {program : String} :
    ofProgram program = nulByte ↔ '\x00' ∈ program.toList := by
  unfold ofProgram
  split <;> rename_i h
  · simp [h]
  · simp only [h, iff_false]
    split
    · simp
    · split
      · simp
      · exact onWay_ne_nulByte _ _

end Obstacle

end ToneRelay.Generator
