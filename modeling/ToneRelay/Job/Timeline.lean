import ToneRelay.Decimal.Exact

/-!
# The timeline of a session

A session fades in, holds its tone and fades out. A session that moves from one resonance to another
also has a mark every two minutes in between, at which the resonance has gone an equal part of the
way. The marks are computed over any kind of number, so that the same timeline can be read in floats
and in fractions. Main statements: `timeline_steady`, the marks of a session that keeps its
resonance, and `lt_preFadeOut`, by which no mark of a progression is lost to the fade-out.
-/

namespace ToneRelay.Job

/-- The offset at which the session has faded in. -/
def fadeInMillis : Nat := 15000

/-- The length of the fade to silence at the end. -/
def fadeOutMillis : Nat := 30000

/-- The distance of two marks of a progression. -/
def progressionMillis : Nat := 120000

/-- The arithmetic that a progression needs. -/
class Tuning (α : Type) extends Add α, Sub α, Mul α, Div α where
  ofNat : Nat → α
  /-- Rounds to hundredths, a half going away from zero. -/
  roundCenti : α → α

/-- Floats, each operation rounded on its own. -/
instance : Tuning Float where
  ofNat := Float.ofNat
  roundCenti v := Decimal.roundAway (v * 100.0) / 100.0

/-- An offset of the timeline: its resonance, and whether the layers sound there. -/
structure Mark (α : Type) where
  millis : Nat
  resonance : α
  sounding : Bool

/-- The offset at which the session starts to fade out. -/
def preFadeOut (total : Nat) : Nat := total - fadeOutMillis

/-- The number of equal parts into which a progression is cut. -/
def steps (total : Nat) : Nat := (preFadeOut total - fadeInMillis) / progressionMillis

section
variable {α : Type} [Tuning α]

/-- The resonance after `k` of `n` parts of the way. -/
def resonanceAt (start stop : α) (n k : Nat) : α :=
  let part := if 0 < n then (stop - start) / Tuning.ofNat n else Tuning.ofNat 0
  Tuning.roundCenti (start + part * Tuning.ofNat k)

/-- The `k`-th mark of a progression. -/
def progressionMark (start stop : α) (n k : Nat) : Mark α :=
  ⟨fadeInMillis + k * progressionMillis, resonanceAt start stop n k, true⟩

/-- The marks between fade-in and fade-out. -/
def progression (total : Nat) (start stop : α) : List (Mark α) :=
  let n := steps total
  ((List.range' 1 n).map (progressionMark start stop n)).takeWhile (·.millis < preFadeOut total)

/-- The marks of a session of `total` milliseconds from `start`, and to `stop` if one is given. -/
def timeline (total : Nat) (start : α) (stop : Option α) : List (Mark α) :=
  let final := stop.getD start
  let middle := match stop with
    | some stop => progression total start stop
    | none => []
  [⟨0, start, false⟩, ⟨fadeInMillis, start, true⟩] ++ middle ++
    [⟨preFadeOut total, final, true⟩, ⟨total, final, false⟩]

theorem timeline_steady (total : Nat) (start : α) :
    timeline total start none =
      [⟨0, start, false⟩, ⟨fadeInMillis, start, true⟩, ⟨preFadeOut total, start, true⟩,
        ⟨total, start, false⟩] := rfl

end

/-- In a session of whole minutes every mark lies before the fade-out. -/
theorem lt_preFadeOut {minutes k : Nat} (hm : 0 < minutes) (hk : k ≤ steps (minutes * 60000)) :
    fadeInMillis + k * progressionMillis < preFadeOut (minutes * 60000) := by
  simp only [steps, preFadeOut, fadeInMillis, fadeOutMillis, progressionMillis] at *
  omega

end ToneRelay.Job
