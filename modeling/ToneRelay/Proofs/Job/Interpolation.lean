import Mathlib.Algebra.Order.Round
import Mathlib.Data.Rat.Floor
import Mathlib.Tactic.FieldSimp
import Mathlib.Tactic.Linarith
import Mathlib.Tactic.Ring
import ToneRelay.Proofs.Job.Progression

/-!
# Progressions in exact arithmetic

The timeline is computed over any kind of number. Over fractions nothing but the rounding to
hundredths is inexact, and `timeline_interpolates` says what it leaves of a straight line from the
first frequency to the last.

1. `halfAway_mono` and `abs_halfAway_sub_le`: the rounding keeps the order and moves a number by a
   half at most. It is the one that floats are rounded by (`halfAway_toRat`).
2. `Interpolates`: so the resonances move in one direction, each within half a hundredth of the
   line.
-/

namespace ToneRelay.Decimal

/-! ## Rounding fractions -/

/-- The whole number nearest to a fraction, a half going away from zero. -/
def halfAway (x : ℚ) : ℤ := if 0 ≤ x then ⌊x + 1 / 2⌋ else ⌈x - 1 / 2⌉

theorem halfAway_of_nonneg {x : ℚ} (h : 0 ≤ x) : halfAway x = ⌊x + 1 / 2⌋ := if_pos h

theorem halfAway_of_neg {x : ℚ} (h : x < 0) : halfAway x = ⌈x - 1 / 2⌉ := if_neg (not_le.2 h)

theorem halfAway_mono {x y : ℚ} (hxy : x ≤ y) : halfAway x ≤ halfAway y := by
  rcases le_or_gt 0 x with hx | hx
  · rw [halfAway_of_nonneg hx, halfAway_of_nonneg (hx.trans hxy)]
    exact Int.floor_mono (by linarith)
  · rw [halfAway_of_neg hx]
    rcases le_or_gt 0 y with hy | hy
    · rw [halfAway_of_nonneg hy]
      calc ⌈x - 1 / 2⌉ ≤ 0 := Int.ceil_le.2 (by push_cast; linarith)
        _ ≤ ⌊y + 1 / 2⌋ := Int.floor_nonneg.2 (by linarith)
    · rw [halfAway_of_neg hy]
      exact Int.ceil_mono (by linarith)

theorem abs_halfAway_sub_le (x : ℚ) : |(halfAway x : ℚ) - x| ≤ 1 / 2 := by
  rw [abs_le]
  rcases le_or_gt 0 x with hx | hx
  · rw [halfAway_of_nonneg hx]
    have hle := Int.floor_le (x + 1 / 2)
    have hlt := Int.lt_floor_add_one (x + 1 / 2)
    constructor <;> linarith
  · rw [halfAway_of_neg hx]
    have hle := Int.le_ceil (x - 1 / 2)
    have hlt := Int.ceil_lt_add_one (x - 1 / 2)
    constructor <;> linarith

theorem halfAway_neg (x : ℚ) : halfAway (-x) = -halfAway x := by
  rcases lt_trichotomy x 0 with hx | rfl | hx
  · rw [halfAway_of_neg hx, halfAway_of_nonneg (by linarith), ← Int.floor_neg]
    congr 1
    ring
  · rw [neg_zero, halfAway_of_nonneg le_rfl]
    norm_num
  · rw [halfAway_of_nonneg hx.le, halfAway_of_neg (by linarith), ← Int.ceil_neg]
    congr 1
    ring

/-! ## The fraction that a float stands for -/

/-- The exact value of a finite float. -/
def Exact.toRat : Exact → ℚ
  | .finite negative m q =>
    let value : ℚ := (ratio m q).1 / (ratio m q).2
    if negative then -value else value
  | _ => 0

/-- The exact value of a finite float. -/
def toRat (x : Float) : ℚ := (Exact.ofFloat x).toRat

theorem halfAway_div {num den : ℕ} (hden : 0 < den) :
    halfAway (num / den) = divUp num den := by
  have hd : (den : ℚ) ≠ 0 := Nat.cast_ne_zero.2 hden.ne'
  have hsum : (num / den + 1 / 2 : ℚ) = ((2 * num + den : ℕ) : ℚ) / (2 * den : ℕ) := by
    push_cast
    field_simp
  rw [halfAway_of_nonneg (by positivity), hsum, Rat.floor_natCast_div_natCast]
  rfl

/-- Floats are rounded by their exact values: what is made a float again in `roundAway` is the
rounded fraction. -/
theorem halfAway_toRat {x : Float} {negative : Bool} {m : ℕ} {q : ℤ}
    (hx : Exact.ofFloat x = .finite negative m q) :
    halfAway (toRat x) =
      if negative then -(divUp (ratio m q).1 (ratio m q).2 : ℤ)
      else divUp (ratio m q).1 (ratio m q).2 := by
  have hden : 0 < (ratio m q).2 := Nat.two_pow_pos _
  unfold toRat Exact.toRat
  rw [hx]
  cases negative with
  | true => exact (halfAway_neg _).trans (congrArg _ (halfAway_div hden))
  | false => exact halfAway_div hden

end ToneRelay.Decimal

namespace ToneRelay.Job

open Decimal

/-- Fractions, where only the rounding is inexact. -/
instance : Tuning ℚ where
  ofNat n := n
  roundCenti v := halfAway (v * 100) / 100

theorem roundCenti_rat (v : ℚ) : Tuning.roundCenti v = (halfAway (v * 100) : ℚ) / 100 := rfl

theorem roundCenti_mono {v w : ℚ} (h : v ≤ w) : Tuning.roundCenti v ≤ Tuning.roundCenti w := by
  have hround : (halfAway (v * 100) : ℚ) ≤ halfAway (w * 100) :=
    Int.cast_le.2 (halfAway_mono (by linarith))
  rw [roundCenti_rat, roundCenti_rat]
  linarith

theorem abs_roundCenti_sub_le (v : ℚ) : |Tuning.roundCenti v - v| ≤ 1 / 200 := by
  have h := abs_le.1 (abs_halfAway_sub_le (v * 100))
  rw [roundCenti_rat, abs_le]
  constructor <;> linarith [h.1, h.2]

/-! ## The line -/

/-- The point of the line from `a` to `b` after `k` of `n` parts. -/
def onLine (a b : ℚ) (n k : ℕ) : ℚ := a + k * (b - a) / n

theorem resonanceAt_rat {a b : ℚ} {n k : ℕ} (hn : 0 < n) :
    resonanceAt a b n k = Tuning.roundCenti (onLine a b n k) := by
  have hpart : a + (b - a) / n * k = onLine a b n k := by
    unfold onLine
    ring
  rw [← hpart]
  unfold resonanceAt
  rw [if_pos hn]
  rfl

theorem onLine_last {a b : ℚ} {n : ℕ} (hn : 0 < n) : onLine a b n n = b := by
  have : (n : ℚ) ≠ 0 := Nat.cast_ne_zero.2 hn.ne'
  unfold onLine
  field_simp
  ring

theorem onLine_le {a b : ℚ} {n i j : ℕ} (hab : a ≤ b) (hij : i ≤ j) :
    onLine a b n i ≤ onLine a b n j := by
  have hmul : (i : ℚ) * (b - a) ≤ j * (b - a) :=
    mul_le_mul_of_nonneg_right (Nat.cast_le.2 hij) (by linarith)
  have hdiv : (i : ℚ) * (b - a) / n ≤ j * (b - a) / n :=
    div_le_div_of_nonneg_right hmul (Nat.cast_nonneg n)
  unfold onLine
  linarith

theorem onLine_ge {a b : ℚ} {n i j : ℕ} (hab : b ≤ a) (hij : i ≤ j) :
    onLine a b n j ≤ onLine a b n i := by
  have h := onLine_le (n := n) (neg_le_neg hab) hij
  unfold onLine at h ⊢
  have hneg : ∀ k : ℕ, (k : ℚ) * (-b - -a) / n = -(k * (b - a) / n) := by
    intro k
    ring
  rw [hneg, hneg] at h
  linarith

/-- Numbers that follow the line from `a` to `b` in `n` parts. -/
structure Interpolates (a b : ℚ) (n : ℕ) (r : ℕ → ℚ) : Prop where
  up : a ≤ b → ∀ i j, i ≤ j → r i ≤ r j
  down : b ≤ a → ∀ i j, i ≤ j → r j ≤ r i
  hundredths : ∀ k, ∃ z : ℤ, r k = z / 100
  near : ∀ k : ℕ, |r k - (a + k * (b - a) / n)| ≤ 1 / 200
  last : r n = halfAway (b * 100) / 100

theorem interpolates_resonanceAt {a b : ℚ} {n : ℕ} (hn : 0 < n) :
    Interpolates a b n (resonanceAt a b n) where
  up hab i j hij := by
    rw [resonanceAt_rat hn, resonanceAt_rat hn]
    exact roundCenti_mono (onLine_le hab hij)
  down hab i j hij := by
    rw [resonanceAt_rat hn, resonanceAt_rat hn]
    exact roundCenti_mono (onLine_ge hab hij)
  hundredths k := ⟨_, resonanceAt_rat hn⟩
  near k := by
    rw [resonanceAt_rat hn]
    exact abs_roundCenti_sub_le _
  last := by rw [resonanceAt_rat hn, onLine_last hn, roundCenti_rat]

/-! ## The timeline -/

section
variable {α β : Type} [Tuning α] [Tuning β]

/-- Where the marks lie does not depend on the kind of number. -/
theorem millis_alike (p : Parameters) (start stop : α) (start' stop' : β) :
    (timeline p.totalMillis start (some stop)).map (fun m => m.millis) =
      (timeline p.totalMillis start' (some stop')).map (fun m => m.millis) := by
  simp only [timeline_progression, progression_eq, List.map_append, List.map_cons, List.map_nil,
    List.map_map]
  rfl

theorem resonances_timeline (p : Parameters) (start stop : α) :
    (timeline p.totalMillis start (some stop)).map (·.resonance) =
      [start, start] ++
        (List.range' 1 (steps p.totalMillis)).map
          (resonanceAt start stop (steps p.totalMillis)) ++ [stop, stop] := by
  simp only [timeline_progression, progression_eq, List.map_append, List.map_map]
  rfl

end

/-- **Interpolation.** In exact arithmetic the marks of a session lie where its sections do, and
their resonances follow the line from the first frequency to the last, which are kept as they are
before and after. -/
theorem timeline_interpolates {d : Draft} {p : Parameters} {stop : Float} (h : d.check = .ok p)
    (hstop : d.endFrequency = some stop) (hn : 1 ≤ wholeParts d.minutes.toNat) :
    ∃ r : ℕ → ℚ,
      (timeline p.totalMillis (toRat d.frequency) (some (toRat stop))).map (·.resonance) =
        [toRat d.frequency, toRat d.frequency] ++
          (List.range' 1 (wholeParts d.minutes.toNat)).map r ++ [toRat stop, toRat stop] ∧
      Interpolates (toRat d.frequency) (toRat stop) (wholeParts d.minutes.toNat) r ∧
      (timeline p.totalMillis (toRat d.frequency) (some (toRat stop))).map (fun m => m.millis) =
        (describe p).timestamps.map (·.toNat) := by
  obtain ⟨hs, rfl⟩ := Draft.check_eq_ok_iff.1 h
  have hsteps : steps hs.parameters.totalMillis = wholeParts d.minutes.toNat := steps_eq _
  refine ⟨resonanceAt (toRat d.frequency) (toRat stop) (wholeParts d.minutes.toNat), ?_,
    interpolates_resonanceAt hn, ?_⟩
  · rw [← hsteps]
    exact resonances_timeline hs.parameters _ _
  · have hend : hs.parameters.endFrequency = some stop := hstop
    rw [toNat_timestamps, ← millis_timeline, hend]
    exact millis_alike hs.parameters _ _ _ _

theorem timeline_interpolates_descent :
    ∃ p, descent.check = .ok p ∧
      ∃ r : ℕ → ℚ,
        (timeline p.totalMillis (toRat 10.0) (some (toRat 6.0))).map (·.resonance) =
          [toRat 10.0, toRat 10.0] ++ (List.range' 1 4).map r ++ [toRat 6.0, toRat 6.0] ∧
        Interpolates (toRat 10.0) (toRat 6.0) 4 r ∧
        (timeline p.totalMillis (toRat 10.0) (some (toRat 6.0))).map (fun m => m.millis) =
          (describe p).timestamps.map (·.toNat) := by
  have hfrequency : descent.frequency = 10.0 := rfl
  have hstop : descent.endFrequency = some 6.0 := rfl
  have hparts : wholeParts descent.minutes.toNat = 4 := by decide
  have h := timeline_interpolates (Draft.check_of_sound sound_descent) hstop (by decide)
  rw [hparts, hfrequency] at h
  exact ⟨_, Draft.check_of_sound sound_descent, h⟩

end ToneRelay.Job
