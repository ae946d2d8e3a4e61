import ToneRelay.Decimal.Shortest
import ToneRelay.Proofs.Json.Numeral

/-!
# What the search for digits finds

`shortest_spec`: the digits of a positive float are a positive number of at most seventeen digits
(or `10 ^ 17`), and the number they stand for is not beyond the interval of the float.

1. `leading_spec`: the search starts at the power of ten of the first digit.
2. `grid_fine`: sixteen places further the grid is finer than the interval, so the search ends
   there at the latest (`Interval.search_spec`).
3. `trim_spec`: the zeros at the end are given to the power of ten.
-/

namespace ToneRelay.Decimal

open Json

/-! ## Powers of ten -/

/-- Two powers of ten, each as a quotient of whole numbers. -/
theorem tens_mul {p e : Int} (h : p ≤ e) :
    10 ^ e.toNat * 10 ^ (-p).toNat = 10 ^ p.toNat * 10 ^ (-e).toNat * 10 ^ (e - p).toNat := by
  rw [← Nat.pow_add, ← Nat.pow_add, ← Nat.pow_add]
  congr 1
  omega

theorem pow_length_le {n : Nat} (hn : 0 < n) : 10 ^ ((Nat.toDigits 10 n).length - 1) ≤ n := by
  apply Nat.le_of_not_lt
  intro hlt
  rcases Nat.eq_zero_or_pos ((Nat.toDigits 10 n).length - 1) with h0 | hpos
  · rw [h0] at hlt
    omega
  · have := (Nat.length_toDigits_le_iff (b := 10) (n := n) (by decide) hpos).2 (by omega)
    omega

/-- `leading` is the power of ten of the first digit. -/
theorem leading_spec {num den : Nat} (hnum : 0 < num) (hden : 0 < den) :
    den * 10 ^ (leading num den).toNat ≤ num * 10 ^ (-leading num den).toNat ∧
      num * 10 ^ (-leading num den).toNat < den * 10 ^ (leading num den).toNat * 10 := by
  unfold leading
  by_cases hle : den ≤ num
  · have hquot : 0 < num / den := Nat.div_pos hle hden
    have hlo := pow_length_le hquot
    have hhi := toDigits_lt (num / den)
    have hlen := Nat.length_toDigits_pos (b := 10) (n := num / den)
    rw [if_pos hle]
    generalize (Nat.toDigits 10 (num / den)).length = len at hlo hhi hlen
    have h1 : ((len : Int) - 1).toNat = len - 1 := by omega
    have h2 : (-((len : Int) - 1)).toNat = 0 := by omega
    rw [h1, h2, Nat.pow_zero, Nat.mul_one, Nat.mul_assoc, ← Nat.pow_succ, Nat.succ_eq_add_one,
      Nat.sub_add_cancel hlen]
    constructor
    · calc den * 10 ^ (len - 1) ≤ den * (num / den) := Nat.mul_le_mul_left _ hlo
        _ ≤ num := Nat.mul_div_le num den
    · rw [Nat.mul_comm]
      exact (Nat.div_lt_iff_lt_mul hden).1 hhi
  · have hquot : 0 < (den - 1) / num := Nat.div_pos (by omega) hnum
    have hlo := pow_length_le hquot
    have hhi := toDigits_lt ((den - 1) / num)
    have hlen := Nat.length_toDigits_pos (b := 10) (n := (den - 1) / num)
    rw [if_neg hle]
    generalize (Nat.toDigits 10 ((den - 1) / num)).length = len at hlo hhi hlen
    have h1 : (-(len : Int)).toNat = 0 := by omega
    have h2 : (- -(len : Int)).toNat = len := by omega
    rw [h1, h2, Nat.pow_zero, Nat.mul_one]
    constructor
    · have := (Nat.div_lt_iff_lt_mul hnum).1 hhi
      rw [Nat.mul_comm] at this
      omega
    · have hstep : num * 10 ^ (len - 1) ≤ den - 1 := by
        calc num * 10 ^ (len - 1) ≤ num * ((den - 1) / num) := Nat.mul_le_mul_left _ hlo
          _ ≤ den - 1 := Nat.mul_div_le _ _
      have hpow : num * 10 ^ len = num * 10 ^ (len - 1) * 10 := by
        rw [Nat.mul_assoc, ← Nat.pow_succ, Nat.succ_eq_add_one, Nat.sub_add_cancel hlen]
      omega

/-! ## The interval -/

namespace Interval

/-- The greatest multiple of `10 ^ p` up to the value is a multiple, and the next one exceeds it. -/
theorem below_spec (i : Interval) (p : Int) (hden : 0 < i.den) :
    i.below p * 10 ^ p.toNat * i.den ≤ i.value * 10 ^ (-p).toNat ∧
      i.value * 10 ^ (-p).toNat < (i.below p + 1) * 10 ^ p.toNat * i.den := by
  have hpos : 0 < i.den * 10 ^ p.toNat := Nat.mul_pos hden (Nat.pow_pos (by decide))
  have hcomm (c : Nat) : c * 10 ^ p.toNat * i.den = c * (i.den * 10 ^ p.toNat) := by
    rw [Nat.mul_assoc, Nat.mul_comm (10 ^ p.toNat)]
  unfold below
  simp only [Nat.pow_eq]
  rw [hcomm, hcomm]
  exact ⟨Nat.div_mul_le_self _ _, (Nat.div_lt_iff_lt_mul hpos).1 (Nat.lt_succ_self _)⟩

/-- A number of the interval is between its ends. -/
theorem has_spec {i : Interval} {c : Nat} {p : Int} (h : i.has c p = true) :
    i.low * 10 ^ (-p).toNat ≤ c * 10 ^ p.toNat * i.den ∧
      c * 10 ^ p.toNat * i.den ≤ i.high * 10 ^ (-p).toNat := by
  unfold has at h
  simp only [Nat.pow_eq] at h
  split at h
  · simpa only [Bool.and_eq_true, decide_eq_true_iff] using h
  · simp only [Bool.and_eq_true, decide_eq_true_iff] at h
    omega

theorem has_of_lt {i : Interval} {c : Nat} {p : Int}
    (hlo : i.low * 10 ^ (-p).toNat < c * 10 ^ p.toNat * i.den)
    (hhi : c * 10 ^ p.toNat * i.den < i.high * 10 ^ (-p).toNat) : i.has c p = true := by
  unfold has
  simp only [Nat.pow_eq]
  split
  · simp only [Bool.and_eq_true, decide_eq_true_iff]
    omega
  · simpa only [Bool.and_eq_true, decide_eq_true_iff] using ⟨hlo, hhi⟩

theorem hit?_spec {i : Interval} {p : Int} {tie : Tie} {c : Nat} (h : i.hit? p tie = some c) :
    i.has c p = true ∧ i.below p ≤ c ∧ c ≤ i.below p + 1 := by
  unfold hit? at h
  cases hc : i.has (i.below p) p with
  | true =>
    cases hn : i.has (i.below p + 1) p with
    | true =>
      simp only [hc, hn, Option.some.injEq, ite_eq_iff] at h
      rcases h with ⟨-, rfl⟩ | ⟨-, rfl⟩
      · exact ⟨hn, by omega, by omega⟩
      · exact ⟨hc, by omega, by omega⟩
    | false =>
      simp only [hc, hn, Option.some.injEq] at h
      rw [← h]
      exact ⟨hc, by omega, by omega⟩
  | false =>
    cases hn : i.has (i.below p + 1) p with
    | true =>
      simp only [hc, hn, Option.some.injEq] at h
      rw [← h]
      exact ⟨hn, by omega, by omega⟩
    | false => simp only [hc, hn, reduceCtorEq] at h

theorem hit?_isSome {i : Interval} {p : Int} (tie : Tie)
    (h : i.has (i.below p) p = true ∨ i.has (i.below p + 1) p = true) :
    (i.hit? p tie).isSome = true := by
  unfold hit?
  simp only
  split
  · rfl
  · rfl
  · rfl
  · simp_all

/-- On a grid finer than the interval a number is found. -/
theorem hit?_of_lt {i : Interval} {p : Int} (tie : Tie) (hden : 0 < i.den)
    (hlow : i.low < i.value) (hhigh : i.value < i.high)
    (hfine : 10 ^ p.toNat * i.den < (i.high - i.low) * 10 ^ (-p).toNat) :
    (i.hit? p tie).isSome = true := by
  obtain ⟨hle, hlt⟩ := i.below_spec p hden
  have hpos : 0 < 10 ^ (-p).toNat := Nat.pow_pos (by decide)
  have hlow' := Nat.mul_lt_mul_of_pos_right hlow hpos
  have hhigh' := Nat.mul_lt_mul_of_pos_right hhigh hpos
  rw [Nat.sub_mul] at hfine
  rw [Nat.add_mul, Nat.add_mul, Nat.one_mul] at hlt
  apply hit?_isSome
  by_cases h : i.low * 10 ^ (-p).toNat < i.below p * 10 ^ p.toNat * i.den
  · exact .inl (has_of_lt h (by omega))
  · refine .inr (has_of_lt ?_ ?_)
    · rw [Nat.add_mul, Nat.add_mul, Nat.one_mul]
      omega
    · rw [Nat.add_mul, Nat.add_mul, Nat.one_mul]
      omega

/-- A search that reaches a grid with a number ends at one. -/
theorem search_spec {i : Interval} {tie : Tie} {tries k : Nat} {p : Int} (hk : k < tries)
    (h : (i.hit? (p - k) tie).isSome = true) :
    ∃ c p', i.search tie tries p = ⟨c, p'⟩ ∧ p - k ≤ p' ∧ p' ≤ p ∧ i.hit? p' tie = some c := by
  induction tries generalizing k p with
  | zero => omega
  | succ tries ih =>
    unfold search
    cases hc : i.hit? p tie with
    | some c => exact ⟨c, p, rfl, by omega, by omega, hc⟩
    | none =>
      have hk0 : k ≠ 0 := by
        rintro rfl
        simp [hc] at h
      obtain ⟨j, rfl⟩ := Nat.exists_eq_succ_of_ne_zero hk0
      have hp : p - ((j + 1 : Nat) : Int) = p - 1 - (j : Int) := by omega
      obtain ⟨c, p', hs, h1, h2, h3⟩ := ih (k := j) (p := p - 1) (by omega) (hp ▸ h)
      exact ⟨c, p', hs, by omega, by omega, h3⟩

end Interval

/-! ## The digits of a float -/

section
variable {m : Nat} {q : Int}

theorem value_of (m : Nat) (q : Int) :
    (Interval.of m q).value = 4 * (m * 2 ^ q.toNat) ∧ (Interval.of m q).den = 4 * 2 ^ (-q).toNat ∧
      (Interval.of m q).high = 4 * (m * 2 ^ q.toNat) + 2 * 2 ^ q.toNat := ⟨rfl, rfl, rfl⟩

theorem low_of (m : Nat) (q : Int) :
    (Interval.of m q).low = 4 * (m * 2 ^ q.toNat) - 2 * 2 ^ q.toNat ∨
      m = 2 ^ 52 ∧ (Interval.of m q).low = 4 * (m * 2 ^ q.toNat) - 2 ^ q.toNat := by
  unfold Interval.of ratio
  simp only [Nat.pow_eq]
  split
  · rename_i h
    exact .inr ⟨h.1, rfl⟩
  · exact .inl rfl

/-- Sixteen places after the first digit the grid is finer than the interval. -/
theorem grid_fine (hm : 0 < m) (hlt : m < 2 ^ 53) {g s : Nat}
    (hgrid : g * 10 ^ 16 * (Interval.of m q).den ≤ (Interval.of m q).value * s) (hs : 0 < s) :
    g * (Interval.of m q).den < ((Interval.of m q).high - (Interval.of m q).low) * s := by
  obtain ⟨hvalue, -, hhigh⟩ := value_of m q
  have hlow := low_of m q
  rw [hvalue] at hgrid
  rw [hhigh]
  generalize (Interval.of m q).den = den at *
  generalize (Interval.of m q).low = low at *
  have hu := Nat.two_pow_pos q.toNat
  generalize 2 ^ q.toNat = u at *
  have hus : 0 < u * s := Nat.mul_pos hu hs
  have hg : g * 10 ^ 16 * den = 10 ^ 16 * (g * den) := by ac_rfl
  have hv : 4 * (m * u) * s = 4 * (m * (u * s)) := by ac_rfl
  rw [hg, hv] at hgrid
  have hmu : 1 * u ≤ m * u := Nat.mul_le_mul_right _ hm
  rw [Nat.one_mul] at hmu
  rcases hlow with rfl | ⟨rfl, rfl⟩
  · have hwidth : (4 * (m * u) + 2 * u - (4 * (m * u) - 2 * u)) * s = 4 * (u * s) := by
      rw [← Nat.mul_assoc 4 u s]
      congr 1
      omega
    have hmus : m * (u * s) ≤ (2 ^ 53 - 1) * (u * s) := Nat.mul_le_mul_right _ (by omega)
    rw [hwidth]
    omega
  · have hwidth : (4 * (2 ^ 52 * u) + 2 * u - (4 * (2 ^ 52 * u) - u)) * s = 3 * (u * s) := by
      rw [← Nat.mul_assoc 3 u s]
      congr 1
      omega
    rw [hwidth]
    omega

/-- The grid of `10 ^ p` under the first digit. -/
theorem grid_bounds {num den : Nat} (hnum : 0 < num) (hden : 0 < den) {p : Int}
    (hp : p ≤ leading num den) :
    10 ^ p.toNat * 10 ^ (leading num den - p).toNat * den ≤ num * 10 ^ (-p).toNat ∧
      num * 10 ^ (-p).toNat < 10 ^ p.toNat * 10 ^ (leading num den - p).toNat * den * 10 := by
  obtain ⟨hle, hlt⟩ := leading_spec hnum hden
  have htens := tens_mul hp
  generalize leading num den = e at *
  have hpos : 0 < 10 ^ (-e).toNat := Nat.pow_pos (by decide)
  have hpos' : 0 < 10 ^ (-p).toNat := Nat.pow_pos (by decide)
  have hcommon : den * 10 ^ e.toNat * 10 ^ (-p).toNat =
      10 ^ p.toNat * 10 ^ (e - p).toNat * den * 10 ^ (-e).toNat := by
    rw [Nat.mul_assoc, htens]
    ac_rfl
  constructor
  · apply Nat.le_of_mul_le_mul_right (c := 10 ^ (-e).toNat) ?_ hpos
    rw [← hcommon, Nat.mul_right_comm num]
    exact Nat.mul_le_mul_right _ hle
  · apply Nat.lt_of_mul_lt_mul_right (a := 10 ^ (-e).toNat)
    rw [Nat.mul_right_comm _ 10, ← hcommon, Nat.mul_right_comm num, Nat.mul_right_comm _ _ 10]
    exact Nat.mul_lt_mul_of_pos_right hlt hpos'

/-- The search finds a number of at most seventeen digits, or `10 ^ 17`. -/
theorem search_of (tie : Tie) (hm : 0 < m) (hlt : m < 2 ^ 53) :
    ∃ c p, (Interval.of m q).search tie mostDigits
        (leading (Interval.of m q).value (Interval.of m q).den) = ⟨c, p⟩ ∧
      0 < c ∧ c ≤ 10 ^ 17 ∧
      leading (Interval.of m q).value (Interval.of m q).den - 16 ≤ p ∧
      p ≤ leading (Interval.of m q).value (Interval.of m q).den ∧
      c * 10 ^ p.toNat * (Interval.of m q).den ≤ (Interval.of m q).high * 10 ^ (-p).toNat := by
  have hfine := @grid_fine m q hm hlt
  obtain ⟨hvalue, hdenval, hhigh⟩ := value_of m q
  have hlowval := low_of m q
  have hu := Nat.two_pow_pos q.toNat
  have hmu : 1 * 2 ^ q.toNat ≤ m * 2 ^ q.toNat := Nat.mul_le_mul_right _ hm
  have hden : 0 < (Interval.of m q).den := by
    rw [hdenval]
    exact Nat.mul_pos (by decide) (Nat.two_pow_pos _)
  have hnum : 0 < (Interval.of m q).value := by omega
  have hlow : 0 < (Interval.of m q).low ∧ (Interval.of m q).low < (Interval.of m q).value := by
    omega
  have hup : (Interval.of m q).value < (Interval.of m q).high := by omega
  generalize Interval.of m q = i at *
  have hbounds := fun p => @grid_bounds _ _ hnum hden p
  generalize leading i.value i.den = e at *
  have h16 : (e - (e - 16)).toNat = 16 := by omega
  have hgrid := (hbounds (e - 16) (by omega)).1
  rw [h16] at hgrid
  have hhit := i.hit?_of_lt tie hden hlow.2 hup (hfine hgrid (Nat.pow_pos (by decide)))
  have htries : 16 < mostDigits := by decide
  obtain ⟨c, p, hs, hp, hp', hc⟩ := Interval.search_spec htries hhit
  obtain ⟨hhas, hbelow, hbelow'⟩ := Interval.hit?_spec hc
  obtain ⟨hhas, hhas'⟩ := Interval.has_spec hhas
  refine ⟨c, p, hs, ?_, ?_, by omega, hp', hhas'⟩
  · apply Nat.pos_of_ne_zero
    rintro rfl
    have := Nat.mul_pos hlow.1 (Nat.pow_pos (n := (-p).toNat) (show 0 < 10 by decide))
    omega
  · have hlt' := Nat.lt_of_le_of_lt (i.below_spec p hden).1 (hbounds p hp').2
    have hpow : 10 ^ (e - p).toNat ≤ 10 ^ 16 := Nat.pow_le_pow_right (by decide) (by omega)
    have hsplit : 10 ^ p.toNat * 10 ^ (e - p).toNat * i.den * 10 =
        10 ^ (e - p).toNat * 10 * (10 ^ p.toNat * i.den) := by ac_rfl
    rw [hsplit, Nat.mul_assoc] at hlt'
    have := Nat.lt_of_mul_lt_mul_right hlt'
    omega

/-! ## The shortest number -/

/-- Without the zeros at its end a number keeps its value. -/
theorem trim_spec {c : Nat} (hc : 0 < c) (p : Int) :
    ∃ z : Nat, (Scaled.mk c p).trim = ⟨c / 10 ^ z, p + z⟩ ∧ 10 ^ z ≤ c := by
  obtain ⟨d, ds, hds, hd⟩ := toDigits_eq_cons hc
  have hzeros : (((Nat.toDigits 10 c).reverse.takeWhile (· == '0')).length ≤
      (Nat.toDigits 10 c).length - 1) := by
    rw [hds, List.reverse_cons, List.takeWhile_append]
    split
    · rename_i hall
      simp [hd]
    · have := (List.takeWhile_sublist (· == '0') (l := ds.reverse)).length_le
      simpa using this
  refine ⟨_, ?_, Nat.le_trans (Nat.pow_le_pow_right (by decide) hzeros) (pow_length_le hc)⟩
  unfold Scaled.trim
  rw [if_neg (Nat.ne_of_gt hc)]
  rfl

theorem three_mul_le {a b : Nat} (h : 10 ^ a ≤ 2 ^ b) : 3 * a ≤ b := by
  rw [← Nat.pow_le_pow_iff_right (a := 2) (by decide), Nat.pow_mul]
  exact Nat.le_trans (Nat.pow_le_pow_left (by decide) a) h

/-- The first digit of a float is not far from the point. -/
theorem leading_natAbs (hm : 0 < m) (hlt : m < 2 ^ 53) (hmin : -1074 ≤ q) (hmax : q ≤ 971) :
    (leading (Interval.of m q).value (Interval.of m q).den).natAbs ≤ 360 := by
  obtain ⟨hvalue, hden, -⟩ := value_of m q
  have hu := Nat.two_pow_pos q.toNat
  have hv := Nat.two_pow_pos (-q).toNat
  have hmu : 1 * 1 ≤ m * 2 ^ q.toNat := Nat.mul_le_mul hm hu
  have hmu' : m * 2 ^ q.toNat ≤ 2 ^ (53 + q.toNat) := by
    rw [Nat.pow_add]
    exact Nat.mul_le_mul_right _ (Nat.le_of_lt hlt)
  have hnum : 0 < (Interval.of m q).value := by omega
  have hpos : 0 < (Interval.of m q).den := by omega
  obtain ⟨hle, hgt⟩ := leading_spec hnum hpos
  rw [hvalue, hden] at hle hgt ⊢
  generalize leading (4 * (m * 2 ^ q.toNat)) (4 * 2 ^ (-q).toNat) = e at *
  generalize m * 2 ^ q.toNat = u at *
  rcases Int.le_total 0 e with he | he
  · have h0 : (-e).toNat = 0 := by omega
    rw [h0, Nat.pow_zero, Nat.mul_one, Nat.mul_assoc] at hle
    have h10 : 1 * 10 ^ e.toNat ≤ 2 ^ (-q).toNat * 10 ^ e.toNat := Nat.mul_le_mul_right _ hv
    have := three_mul_le (a := e.toNat) (b := 53 + q.toNat) (by omega)
    omega
  · have h0 : e.toNat = 0 := by omega
    rw [h0, Nat.pow_zero, Nat.mul_one, Nat.mul_assoc] at hgt
    have h10 : 1 * 10 ^ (-e).toNat ≤ u * 10 ^ (-e).toNat := Nat.mul_le_mul_right _ (by omega)
    have h16 : 2 ^ (4 + (-q).toNat) = 16 * 2 ^ (-q).toNat := Nat.pow_add 2 4 _
    have := three_mul_le (a := (-e).toNat) (b := 4 + (-q).toNat) (by omega)
    omega

/-- **The shortest number.** It has at most seventeen digits, unless it is `10 ^ 17`, and does not
exceed the end of the interval. -/
theorem shortest_spec (tie : Tie) (hm : 0 < m) (hlt : m < 2 ^ 53) (hmin : -1074 ≤ q)
    (hmax : q ≤ 971) :
    0 < (shortest tie m q).digits ∧ (shortest tie m q).digits ≤ 10 ^ 17 ∧
      (shortest tie m q).exponent.natAbs ≤ 1000 ∧
      (0 ≤ (shortest tie m q).exponent →
        (shortest tie m q).digits * 10 ^ (shortest tie m q).exponent.toNat *
          (Interval.of m q).den ≤ (Interval.of m q).high) := by
  have hlead := leading_natAbs hm hlt hmin hmax
  obtain ⟨c, p, hs, hc, hc', hp, hp', hle⟩ := search_of (q := q) tie hm hlt
  obtain ⟨z, htrim, hz⟩ := trim_spec hc p
  have hshort : shortest tie m q = ⟨c / 10 ^ z, p + z⟩ := by
    unfold shortest
    rw [if_neg (Nat.ne_of_gt hm)]
    simp only [hs, htrim]
  have hten : 0 < 10 ^ z := Nat.pow_pos (by decide)
  have hz17 : z ≤ 17 := by
    rw [← Nat.pow_le_pow_iff_right (a := 10) (by decide)]
    omega
  rw [hshort]
  refine ⟨Nat.div_pos hz hten, Nat.le_trans (Nat.div_le_self _ _) hc', by simp only; omega, ?_⟩
  intro hexp
  have hpos : 0 < 10 ^ (-p).toNat := Nat.pow_pos (by decide)
  apply Nat.le_of_mul_le_mul_right (c := 10 ^ (-p).toNat) ?_ hpos
  have hpow : 10 ^ (p + z).toNat * 10 ^ (-p).toNat = 10 ^ z * 10 ^ p.toNat := by
    simp only at hexp
    rw [← Nat.pow_add, ← Nat.pow_add]
    congr 1
    omega
  calc c / 10 ^ z * 10 ^ (p + z).toNat * (Interval.of m q).den * 10 ^ (-p).toNat
      = c / 10 ^ z * (10 ^ (p + z).toNat * 10 ^ (-p).toNat) * (Interval.of m q).den := by ac_rfl
    _ = c / 10 ^ z * 10 ^ z * 10 ^ p.toNat * (Interval.of m q).den := by rw [hpow, ← Nat.mul_assoc]
    _ ≤ c * 10 ^ p.toNat * (Interval.of m q).den :=
      Nat.mul_le_mul_right _ (Nat.mul_le_mul_right _ (Nat.div_mul_le_self _ _))
    _ ≤ (Interval.of m q).high * 10 ^ (-p).toNat := hle

end

end ToneRelay.Decimal
