import ToneRelay.Job.Parameters
import ToneRelay.Proofs.Decimal.Rounding

/-!
# Rounding to hundredths

A frequency is rounded to hundredths by rounding a hundred times its value to a whole number and
dividing by a hundred. `isHz_roundAway_iff`: what comes out is positive and finite just when what
is rounded is finite and at least a half. The steps are `Full.mul` and `Full.div`, by which the
operations keep positive numbers apart from zero and infinity as long as their exponents are in
range.
-/

namespace ToneRelay.Decimal

open Float.Model Float.Model.UnpackedFloat

/-! ## Positive numbers -/

/-- `x` is the positive number `m · 2 ^ e`, and its mantissa is full. -/
structure Full (x : Float) (m : Nat) (e : Int) : Prop where
  unpack : ∃ h, x.toModel.unpack = .finite .positive m e h
  lo : 2 ^ 52 ≤ m
  hi : m < 2 ^ 53

theorem unpack_zero : (0.0 : Float).toModel.unpack = .zero .positive := rfl

theorem isFinite_eq (x : Float) : x.isFinite = x.toModel.unpack.isFinite := rfl

theorem lt_iff {x y : Float} :
    x < y ↔ x.toModel.unpack.compare y.toModel.unpack = some .lt := by
  show decide ((x.toModel.unpack.compare y.toModel.unpack == some .lt) = true) = true ↔ _
  rw [decide_eq_true_iff, beq_iff_eq]

/-- What can be played is a positive number. -/
theorem isHz_iff {x : Float} :
    Job.isHz x = true ↔ ∃ m e h, x.toModel.unpack = .finite .positive m e h := by
  unfold Job.isHz
  rw [Bool.and_eq_true, decide_eq_true_iff, lt_iff, unpack_zero, isFinite_eq]
  cases hx : x.toModel.unpack with
  | notANumber => simp [UnpackedFloat.isFinite]
  | infinity s => simp [UnpackedFloat.isFinite]
  | zero s => simp [UnpackedFloat.compare]
  | finite s m e h => cases s <;> simp [UnpackedFloat.isFinite, UnpackedFloat.compare, h]

theorem Full.isHz {x : Float} {m : Nat} {e : Int} (h : Full x m e) : Job.isHz x = true := by
  obtain ⟨hm, hx⟩ := h.unpack
  exact isHz_iff.2 ⟨m, e, hm, hx⟩

theorem unpack_mul (x y : Float) : (x * y).toModel.unpack =
    (Float.Model.pack (UnpackedFloat.mul Format.binary64 x.toModel.unpack
      y.toModel.unpack)).unpack := rfl

theorem unpack_div (x y : Float) : (x / y).toModel.unpack =
    (Float.Model.pack (UnpackedFloat.div Format.binary64 x.toModel.unpack
      y.toModel.unpack)).unpack := rfl

/-- A rounded number whose exponent is in range has a full mantissa again. -/
theorem full_round {x : Float} {m : Nat} {e : Int} {a : Accuracy}
    (hx : x.toModel.unpack =
      (Float.Model.pack (roundWithAccuracy Format.binary64 .positive m e a)).unpack)
    (hm : 52 ≤ m.log2) (hmin : -1022 ≤ (m.log2 : Int) + e)
    (hmax : (m.log2 : Int) + e ≤ 1022 ∨ (m.log2 : Int) + e = 1023 ∧ roundedLead m e a < 2 ^ 53) :
    ∃ n f, Full x n f ∧ (f = m.log2 + e - 52 ∧ n = roundedLead m e a ∨
      f = m.log2 + e - 51 ∧ n = 2 ^ 52 ∧ roundedLead m e a = 2 ^ 53) := by
  obtain ⟨n, f, h, hround, hlo, hhi, hf⟩ := round_normal .positive a hm hmin
  refine ⟨n, f, ⟨⟨h, ?_⟩, hlo, hhi⟩, hf⟩
  rw [hx, hround, unpack_pack .positive h hlo hhi (by omega) (by omega)]

theorem log2_mul {m n : Nat} (hm : 2 ^ 52 ≤ m) (hm' : m < 2 ^ 53) (hn : 2 ^ 52 ≤ n)
    (hn' : n < 2 ^ 53) : 104 ≤ (m * n).log2 ∧ (m * n).log2 ≤ 105 := by
  have hlo : 2 ^ 104 ≤ m * n := by
    calc 2 ^ 104 = 2 ^ 52 * 2 ^ 52 := by decide
      _ ≤ m * n := Nat.mul_le_mul hm hn
  have hhi : m * n < 2 ^ 106 := by
    calc m * n < 2 ^ 53 * 2 ^ 53 := Nat.mul_lt_mul'' hm' hn'
      _ = 2 ^ 106 := by decide
  have hne : m * n ≠ 0 := by omega
  have := (Nat.le_log2 hne).2 hlo
  have := (Nat.log2_lt hne).2 hhi
  omega

/-- The greatest float. -/
def greatest : Nat := (2 ^ 53 - 1) * 2 ^ 971

theorem greatest_mul : ∃ j : Nat, j = 1075 ∧ greatest * 2 ^ 104 = (2 ^ 53 - 1) * 2 ^ j :=
  ⟨1075, rfl, by decide +kernel⟩

theorem log2_le_of_mul_le {m s j : Nat} (hm : 52 ≤ m.log2) (h : m * 2 ^ s ≤ (2 ^ 53 - 1) * 2 ^ j) :
    m.log2 + s ≤ j + 52 ∧ (m.log2 + s = j + 52 → m ≤ (2 ^ 53 - 1) * 2 ^ (m.log2 - 52)) := by
  have hne : m ≠ 0 := by
    rintro rfl
    simp at hm
  constructor
  · have hlt : 2 ^ (m.log2 + s) < 2 ^ (53 + j) := by
      calc 2 ^ (m.log2 + s) = 2 ^ m.log2 * 2 ^ s := Nat.pow_add ..
        _ ≤ m * 2 ^ s := Nat.mul_le_mul_right _ (Nat.log2_self_le hne)
        _ ≤ (2 ^ 53 - 1) * 2 ^ j := h
        _ < 2 ^ 53 * 2 ^ j := Nat.mul_lt_mul_of_pos_right (by decide) (Nat.two_pow_pos j)
        _ = 2 ^ (53 + j) := (Nat.pow_add ..).symm
    rw [Nat.pow_lt_pow_iff_right (by decide)] at hlt
    omega
  · intro heq
    have hj : j = m.log2 - 52 + s := by omega
    rw [hj, Nat.pow_add, ← Nat.mul_assoc] at h
    exact Nat.le_of_mul_le_mul_right h (Nat.two_pow_pos s)

/-- A product that does not exceed the greatest float is positive. -/
theorem Full.mul {x y : Float} {m n : Nat} {e f : Int} (hx : Full x m e) (hy : Full y n f)
    (he : -52 ≤ e) (hf : -52 ≤ f)
    (hmax : m * 2 ^ (e + 52).toNat * (n * 2 ^ (f + 52).toNat) ≤ greatest * 2 ^ 104) :
    ∃ k g, Full (x * y) k g ∧ e + f + 52 ≤ g ∧ g ≤ e + f + 54 := by
  obtain ⟨hm, hux⟩ := hx.unpack
  obtain ⟨hn, huy⟩ := hy.unpack
  have hlog := log2_mul hx.lo hx.hi hy.lo hy.hi
  have hmul : (x * y).toModel.unpack = (Float.Model.pack
      (roundWithAccuracy Format.binary64 .positive (m * n) (e + f) .exact)).unpack := by
    rw [unpack_mul, hux, huy]
    rfl
  obtain ⟨j, hj, hgreatest⟩ := greatest_mul
  have hbits : m * n * 2 ^ ((e + 52).toNat + (f + 52).toNat) ≤ (2 ^ 53 - 1) * 2 ^ j := by
    rw [← hgreatest, Nat.pow_add]
    calc m * n * (2 ^ (e + 52).toNat * 2 ^ (f + 52).toNat)
        = m * 2 ^ (e + 52).toNat * (n * 2 ^ (f + 52).toNat) := by ac_rfl
      _ ≤ greatest * 2 ^ 104 := hmax
  obtain ⟨hle, htop⟩ := log2_le_of_mul_le (by omega) hbits
  obtain ⟨k, g, hfull, hg⟩ := full_round hmul (by omega) (by omega) (by
    by_cases h : (m * n).log2 + ((e + 52).toNat + (f + 52).toNat) = j + 52
    · have hlead : roundedLead (m * n) (e + f) .exact ≤ 2 ^ 53 - 1 :=
        roundedLead_le (by omega) (by omega) (htop h)
      omega
    · omega)
  exact ⟨k, g, hfull, by omega, by omega⟩

/-- The quotient of two positive numbers is positive when its exponent is in range. -/
theorem Full.div {x y : Float} {m n : Nat} {e f : Int} (hx : Full x m e) (hy : Full y n f)
    (hmin : -1021 ≤ e - f) (hmax : e - f ≤ 1022) : ∃ k g, Full (x / y) k g := by
  obtain ⟨hm, hux⟩ := hx.unpack
  obtain ⟨hn, huy⟩ := hy.unpack
  obtain ⟨hmlo, hmhi⟩ := And.intro hx.lo hx.hi
  obtain ⟨hnlo, hnhi⟩ := And.intro hy.lo hy.hi
  have hlo : 2 ^ 52 ≤ m * 2 ^ 53 / n := by
    rw [Nat.le_div_iff_mul_le hn]
    calc 2 ^ 52 * n ≤ 2 ^ 52 * 2 ^ 53 := Nat.mul_le_mul_left _ (Nat.le_of_lt hnhi)
      _ ≤ m * 2 ^ 53 := Nat.mul_le_mul_right _ hmlo
  have hhi : m * 2 ^ 53 / n < 2 ^ 54 := by
    rw [Nat.div_lt_iff_lt_mul hn]
    calc m * 2 ^ 53 < 2 ^ 53 * 2 ^ 53 := Nat.mul_lt_mul_of_pos_right hmhi (by decide)
      _ = 2 ^ 54 * 2 ^ 52 := by decide
      _ ≤ 2 ^ 54 * n := Nat.mul_le_mul_left _ hnlo
  have hne : m * 2 ^ 53 / n ≠ 0 := by omega
  have hloglo := (Nat.le_log2 hne).2 hlo
  have hloghi := (Nat.log2_lt hne).2 hhi
  have htarget : Format.binary64.targetExponent (totalExponent m e - totalExponent n f) =
      e - f - 53 := by
    simp only [Format.targetExponent, totalExponent, Format.mantissaBits, Format.minExponent,
      log2_eq hmlo hmhi, log2_eq hnlo hnhi]
    omega
  have hcore : divCore Format.binary64 m e n f =
      (m * 2 ^ 53 / n, e - f - 53, accuracyOfFraction (m * 2 ^ 53 % n) n) := by
    have hmin' : min (e - f) (e - f - 53) = e - f - 53 := by omega
    have hshift : (e - f - (e - f - 53)).toNat = 53 := by omega
    simp only [divCore, htarget, hmin', hshift, Nat.shiftLeft_eq]
  have hdiv : (x / y).toModel.unpack = (Float.Model.pack (roundWithAccuracy Format.binary64
      .positive (m * 2 ^ 53 / n) (e - f - 53) (accuracyOfFraction (m * 2 ^ 53 % n) n))).unpack := by
    rw [unpack_div, hux, huy]
    simp only [UnpackedFloat.div, hcore]
    rfl
  obtain ⟨k, g, hfull, -⟩ := full_round hdiv hloglo (by omega) (by omega)
  exact ⟨k, g, hfull⟩

theorem full_one : Full (Float.ofBits 4607182418800017408) (2 ^ 52) (-52) :=
  ⟨⟨by decide, rfl⟩, by decide, by decide⟩

theorem full_hundred : Full 100.0 (100 * 2 ^ 46) (-46) := ⟨⟨by decide, rfl⟩, by decide, by decide⟩

theorem log2_shiftLeft {m : Nat} (hm : 0 < m) (k : Nat) : (m <<< k).log2 = m.log2 + k := by
  have hne : m * 2 ^ k ≠ 0 := Nat.ne_of_gt (Nat.mul_pos hm (Nat.two_pow_pos k))
  rw [Nat.shiftLeft_eq, Nat.log2_eq_iff hne]
  have hlo := Nat.log2_self_le (Nat.ne_of_gt hm)
  have hhi := Nat.lt_log2_self (n := m)
  have hpos := Nat.two_pow_pos k
  constructor
  · rw [Nat.pow_add]
    exact Nat.mul_le_mul_right _ hlo
  · rw [Nat.add_right_comm, Nat.pow_add]
    exact Nat.mul_lt_mul_of_pos_right hhi hpos

/-- A whole number that is cut to fifty-three bits does not go beyond one that has no more. -/
theorem roundedLead_toFloat_le {d y g : Nat} (hd : 0 < d) (hy : y < 2 ^ 53) (hle : d ≤ y * 2 ^ g) :
    roundedLead (d <<< (52 - d.log2)) (-((52 - d.log2 : Nat) : Int)) .exact * 2 ^ d.log2 ≤
      y * 2 ^ g * 2 ^ 52 := by
  have hlog := log2_shiftLeft hd (52 - d.log2)
  by_cases hsmall : d.log2 ≤ 52
  · have hk : (d <<< (52 - d.log2)).log2 - 52 = 0 := by omega
    have hlead := roundedLead_le (m := d <<< (52 - d.log2)) (n := d <<< (52 - d.log2))
      (e := -((52 - d.log2 : Nat) : Int)) (by omega) (by omega) (by simp [hk])
    calc _ ≤ (d <<< (52 - d.log2)) * 2 ^ d.log2 := Nat.mul_le_mul_right _ hlead
      _ = d * 2 ^ 52 := by
        rw [Nat.shiftLeft_eq, Nat.mul_assoc, ← Nat.pow_add, Nat.sub_add_cancel hsmall]
      _ ≤ y * 2 ^ g * 2 ^ 52 := Nat.mul_le_mul_right _ hle
  · have h0 : 52 - d.log2 = 0 := by omega
    have hkg : d.log2 - 52 ≤ g := by
      have hlt : 2 ^ d.log2 < 2 ^ (53 + g) := by
        calc 2 ^ d.log2 ≤ d := Nat.log2_self_le (Nat.ne_of_gt hd)
          _ ≤ y * 2 ^ g := hle
          _ < 2 ^ 53 * 2 ^ g := Nat.mul_lt_mul_of_pos_right hy (Nat.two_pow_pos g)
          _ = 2 ^ (53 + g) := (Nat.pow_add 2 53 g).symm
      rw [Nat.pow_lt_pow_iff_right (by decide)] at hlt
      omega
    have hsplit (n : Nat) : n * 2 ^ d.log2 = n * 2 ^ (d.log2 - 52) * 2 ^ 52 := by
      rw [Nat.mul_assoc, ← Nat.pow_add, Nat.sub_add_cancel (by omega)]
    have hgrid : y * 2 ^ g = y * 2 ^ (g - (d.log2 - 52)) * 2 ^ (d.log2 - 52) := by
      rw [Nat.mul_assoc, ← Nat.pow_add, Nat.sub_add_cancel hkg]
    rw [h0, Nat.shiftLeft_zero, Int.natCast_zero, Int.neg_zero, hsplit]
    refine Nat.mul_le_mul_right _ ?_
    rw [hgrid]
    exact Nat.mul_le_mul_right _ (roundedLead_le (by omega) (by omega) (hgrid ▸ hle))

/-- A whole number as a float: its exponent, and that it does not go beyond a float. -/
theorem full_toFloat {w : UInt64} (hw : 0 < w.toNat) :
    ∃ n f, Full w.toFloat n f ∧ w.toNat.log2 ≤ f + 52 ∧ f + 52 ≤ w.toNat.log2 + 1 ∧
      ∀ y g, y < 2 ^ 53 → w.toNat ≤ y * 2 ^ g →
        n * 2 ^ (f + 52).toNat ≤ y * 2 ^ g * 2 ^ 52 := by
  have hlog : w.toNat.log2 < 64 := (Nat.log2_lt (Nat.ne_of_gt hw)).2 w.toNat_lt
  have htarget := target_eq (m := w.toNat) (e := 0) (by omega)
  have hdec : decreaseExponent w.toNat 0 (w.toNat.log2 + 0 - 52) =
      (w.toNat <<< (52 - w.toNat.log2), -((52 - w.toNat.log2 : Nat) : Int)) := by
    have hk : (0 - ((w.toNat.log2 : Int) + 0 - 52)).toNat = 52 - w.toNat.log2 := by omega
    unfold decreaseExponent
    rw [hk]
    exact Prod.ext rfl (Int.zero_sub _)
  have hround : w.toFloat.toModel.unpack = (Float.Model.pack (roundWithAccuracy Format.binary64
      .positive (w.toNat <<< (52 - w.toNat.log2)) (-((52 - w.toNat.log2 : Nat) : Int))
        .exact)).unpack := by
    show (Float.Model.pack (UnpackedFloat.normalize Format.binary64 w.toNat 0 .positive)).unpack = _
    unfold UnpackedFloat.normalize
    rw [Int.compare_eq_gt.2 (by omega)]
    show (Float.Model.pack (UnpackedFloat.round Format.binary64 .positive w.toNat 0)).unpack = _
    simp only [UnpackedFloat.round, htarget, hdec]
  have hlog' := log2_shiftLeft hw (52 - w.toNat.log2)
  obtain ⟨n, f, hfull, hf⟩ := full_round hround (by omega) (by omega) (by omega)
  refine ⟨n, f, hfull, by omega, by omega, ?_⟩
  intro y g hy hle
  have hlead := roundedLead_toFloat_le hw hy hle
  rcases hf with ⟨hf, hn⟩ | ⟨hf, hn, hcarry⟩
  · have hexp : (f + 52).toNat = w.toNat.log2 := by omega
    rwa [hn, hexp]
  · have hexp : (f + 52).toNat = w.toNat.log2 + 1 := by omega
    have hdouble : 2 ^ 52 * 2 ^ (w.toNat.log2 + 1) = 2 ^ 53 * 2 ^ w.toNat.log2 := by
      rw [Nat.pow_succ]
      omega
    rwa [hn, hexp, hdouble, ← hcarry]

/-- A whole number below `2 ^ 53` is positive as a float. -/
theorem full_ofNat {n : Nat} (hn : 0 < n) (hlt : n < 2 ^ 53) :
    ∃ m e, Full (Float.ofNat n) m e ∧ -52 ≤ e ∧ e ≤ 4 := by
  have hof : Float.ofNat n = n.toUInt64.toFloat * Float.ofBits 4607182418800017408 := by
    show Float.ofScientific n false 0 = _
    unfold Float.ofScientific
    rw [dif_pos ⟨hlt, by decide⟩]
    rfl
  have hw : n.toUInt64.toNat = n := Nat.mod_eq_of_lt (by omega)
  have hlog : n.log2 < 53 := (Nat.log2_lt (by omega)).2 hlt
  obtain ⟨m, e, he, hlo, hhi, -⟩ := full_toFloat (w := n.toUInt64) (by omega)
  rw [hw] at hlo hhi
  have hmax : m * 2 ^ (e + 52).toNat * (2 ^ 52 * 2 ^ (-52 + 52 : Int).toNat) ≤
      greatest * 2 ^ 104 := by
    have hpow : 2 ^ (e + 52).toNat ≤ 2 ^ 53 := Nat.pow_le_pow_right (by decide) (by omega)
    calc m * 2 ^ (e + 52).toNat * (2 ^ 52 * 1)
        ≤ 2 ^ 53 * 2 ^ 53 * 2 ^ 52 := Nat.mul_le_mul_right _
          (Nat.mul_le_mul (Nat.le_of_lt he.hi) hpow)
      _ ≤ greatest * 2 ^ 104 := by decide +kernel
  obtain ⟨k, g, hg, hglo, hghi⟩ := he.mul full_one (by omega) (by omega) hmax
  rw [hof]
  exact ⟨k, g, hg, by omega, by omega⟩

/-- A hundredth of a number from one on is positive. -/
theorem Full.hundredth {x : Float} {m : Nat} {e : Int} (hx : Full x m e) (hmin : -52 ≤ e)
    (hmax : e ≤ 971) : Job.isHz (x / 100.0) = true := by
  obtain ⟨k, g, hg⟩ := hx.div full_hundred (by omega) (by omega)
  exact hg.isHz

theorem roundWithAccuracy_sign (s : Sign) (m : Nat) (e : Int) (a : Accuracy) :
    roundWithAccuracy Format.binary64 s m e a = .zero s ∨
      ∃ n f h, roundWithAccuracy Format.binary64 s m e a = .finite s n f h := by
  unfold roundWithAccuracy
  simp only
  split
  · exact .inl rfl
  · rename_i hne
    exact .inr ⟨_, _, Nat.pos_of_ne_zero hne, rfl⟩

/-- Only a positive number has a positive hundredth. -/
theorem positive_of_hundredth {x : Float} (h : Job.isHz (x / 100.0) = true) :
    Job.isHz x = true := by
  obtain ⟨m, e, hm, hx⟩ := isHz_iff.1 h
  obtain ⟨hn, hy⟩ := full_hundred.unpack
  rw [unpack_div, hy] at hx
  cases hu : x.toModel.unpack with
  | notANumber =>
    rw [hu, UnpackedFloat.div, unpack_pack_notANumber] at hx
    cases hx
  | infinity s =>
    rw [hu, UnpackedFloat.div, unpack_pack_infinity] at hx
    cases hx
  | zero s =>
    rw [hu, UnpackedFloat.div, unpack_pack_zero] at hx
    cases hx
  | finite s k f hk =>
    cases s with
    | positive => exact isHz_iff.2 ⟨k, f, hk, hu⟩
    | negative =>
      rw [hu] at hx
      refine absurd hx (unpack_pack_negative m e hm (.inr ?_))
      exact roundWithAccuracy_sign .negative _ _ _

/-! ## Rounding to whole numbers -/

/-- The half is the least number whose nearest whole number is positive. -/
theorem divUp_pos {m den : Nat} (hden : 0 < den) : 0 < divUp m den ↔ den ≤ 2 * m := by
  unfold divUp
  rw [Nat.div_pos_iff]
  omega

theorem roundAway_of_exact {x : Float} {negative : Bool} {m : Nat} {q : Int}
    (h : Exact.ofFloat x = .finite negative m q) :
    roundAway x = if 0 ≤ q then x
      else if negative then -Float.ofNat (divUp m (2 ^ (-q).toNat))
      else Float.ofNat (divUp m (2 ^ (-q).toNat)) := by
  unfold roundAway
  rw [h]
  by_cases hq : 0 ≤ q
  · simp only [if_pos hq]
  · have h0 : q.toNat = 0 := by omega
    simp only [if_neg hq, ratio, h0, Nat.pow_eq, Nat.pow_zero, Nat.mul_one]

theorem le_iff {x y : Float} :
    x ≤ y ↔ (x.toModel.unpack.compare y.toModel.unpack).any (·.isLE) = true := by
  show decide ((x.toModel.unpack.compare y.toModel.unpack).any (·.isLE) = true) = true ↔ _
  rw [decide_eq_true_iff]

theorem unpack_half : (0.5 : Float).toModel.unpack =
    .finite .positive (2 ^ 52) (-53) (by decide) := rfl

theorem exact_of_unpack {x : Float} {s : Sign} {m : Nat} {e : Int} {h : 0 < m}
    (hx : x.toModel.unpack = .finite s m e h) :
    Exact.ofFloat x = .finite (s == .negative) m e := by
  rw [ofFloat_eq, hx]
  rfl

/-- A positive number in its exact form. -/
theorem isHz_iff_exact {x : Float} :
    Job.isHz x = true ↔ ∃ m q, 0 < m ∧ Exact.ofFloat x = .finite false m q := by
  rw [isHz_iff, ofFloat_eq]
  cases x.toModel.unpack with
  | notANumber => simp [Exact.ofUnpacked]
  | infinity s => simp [Exact.ofUnpacked]
  | zero s => simp [Exact.ofUnpacked]
  | finite s m e h =>
    cases s with
    | negative => simp [Exact.ofUnpacked]
    | positive => exact ⟨fun _ => ⟨m, e, h, rfl⟩, fun _ => ⟨m, e, h, rfl⟩⟩

theorem compare_half {m : Nat} {e : Int} (hshape : 2 ^ 52 ≤ m ∨ e = -1074) :
    ((compare (-53) e).then (compare (2 ^ 52) m)).isLE = true ↔ -53 ≤ e := by
  rcases Int.lt_trichotomy (-53) e with hlt | heq | hgt
  · rw [Int.compare_eq_lt.2 hlt]
    simp only [Ordering.lt_then, Ordering.isLE_lt, true_iff]
    omega
  · rw [Int.compare_eq_eq.2 heq, Ordering.eq_then, Nat.isLE_compare]
    omega
  · rw [Int.compare_eq_gt.2 hgt]
    simp only [Ordering.gt_then, Ordering.isLE_gt, Bool.false_eq_true, false_iff]
    omega

theorem unpack_of_exact {x : Float} {m : Nat} {q : Int} (hm : 0 < m)
    (hx : Exact.ofFloat x = .finite false m q) :
    x.toModel.unpack = .finite .positive m q hm := by
  obtain ⟨m', q', hm', hu⟩ := isHz_iff.1 (isHz_iff_exact.2 ⟨m, q, hm, hx⟩)
  have hx' := exact_of_unpack hu
  rw [hx] at hx'
  cases hx'
  exact hu

/-- The finite floats from a half on. -/
theorem half_le_iff {x : Float} : x.isFinite = true ∧ (0.5 : Float) ≤ x ↔
    ∃ m q, 0 < m ∧ Exact.ofFloat x = .finite false m q ∧ -53 ≤ q := by
  rw [le_iff, unpack_half, isFinite_eq]
  constructor
  · rintro ⟨hfin, hle⟩
    cases hx : x.toModel.unpack with
    | notANumber => simp [hx, UnpackedFloat.isFinite] at hfin
    | infinity s => simp [hx, UnpackedFloat.isFinite] at hfin
    | zero s => simp [hx, UnpackedFloat.compare] at hle
    | finite s m e h =>
      obtain ⟨-, -, -, hshape⟩ := shape_ofFloat (exact_of_unpack hx)
      cases s with
      | negative => simp [hx, UnpackedFloat.compare] at hle
      | positive =>
        simp only [hx, UnpackedFloat.compare, Option.any_some, compare_half hshape] at hle
        exact ⟨m, e, h, exact_of_unpack hx, hle⟩
  · rintro ⟨m, q, hm, hx, hq⟩
    obtain ⟨-, -, -, hshape⟩ := shape_ofFloat hx
    simp only [unpack_of_exact hm hx, UnpackedFloat.isFinite, UnpackedFloat.compare,
      Option.any_some, compare_half hshape, hq, and_self]

theorem not_isHz_zero : Job.isHz (Float.ofNat 0) = false ∧ Job.isHz (-Float.ofNat 0) = false :=
  ⟨rfl, rfl⟩

theorem unpack_neg (x : Float) :
    (-x).toModel.unpack = (Float.Model.pack x.toModel.unpack.neg).unpack := rfl

theorem not_isHz_neg_ofNat {n : Nat} (hn : n < 2 ^ 53) : ¬ Job.isHz (-Float.ofNat n) = true := by
  intro h
  rcases Nat.eq_zero_or_pos n with rfl | hpos
  · simp [not_isHz_zero] at h
  · obtain ⟨m, e, hfull, -, -⟩ := full_ofNat hpos hn
    obtain ⟨hm, hu⟩ := hfull.unpack
    obtain ⟨m', e', hm', hu'⟩ := isHz_iff.1 h
    rw [unpack_neg, hu] at hu'
    exact unpack_pack_negative m' e' hm' (.inr (.inr ⟨m, e, hm, rfl⟩)) hu'

/-- The nearest whole number to a float that may have a fraction is below `2 ^ 53`. -/
theorem divUp_lt {m k : Nat} (hm : m < 2 ^ 53) (hk : 0 < k) : divUp m (2 ^ k) < 2 ^ 53 := by
  have h2 : 2 ≤ 2 ^ k := Nat.pow_le_pow_right (n := 2) (by decide) hk
  unfold divUp
  rw [Nat.div_lt_iff_lt_mul (by omega)]
  calc 2 * m + 2 ^ k < 2 * 2 ^ 53 + 2 ^ k := by omega
    _ ≤ 2 ^ 53 * (2 * 2 ^ k) := by omega

/-- Only floats from a half on are rounded to a positive number. -/
theorem half_le_of_roundAway {w : Float} (h : Job.isHz (roundAway w) = true) :
    ∃ m q, 0 < m ∧ Exact.ofFloat w = .finite false m q ∧ -53 ≤ q := by
  cases hw : Exact.ofFloat w with
  | nan =>
    have hround : roundAway w = w := by rw [roundAway, hw]
    obtain ⟨m, q, -, hq⟩ := isHz_iff_exact.1 (hround ▸ h)
    rw [hw] at hq
    cases hq
  | infinite negative =>
    have hround : roundAway w = w := by rw [roundAway, hw]
    obtain ⟨m, q, -, hq⟩ := isHz_iff_exact.1 (hround ▸ h)
    rw [hw] at hq
    cases hq
  | finite negative m q =>
    obtain ⟨hlt, -, -, -⟩ := shape_ofFloat hw
    rw [roundAway_of_exact hw] at h
    by_cases hq : 0 ≤ q
    · rw [if_pos hq] at h
      obtain ⟨m', q', hm', hq'⟩ := isHz_iff_exact.1 h
      rw [hw] at hq'
      cases hq'
      exact ⟨m, q, hm', rfl, by omega⟩
    · have hn := divUp_lt hlt (k := (-q).toNat) (by omega)
      rw [if_neg hq] at h
      cases negative with
      | true => exact absurd h (not_isHz_neg_ofNat hn)
      | false =>
        rcases Nat.eq_zero_or_pos (divUp m (2 ^ (-q).toNat)) with hzero | hpos
        · simp [hzero, not_isHz_zero] at h
        · have hle := (divUp_pos (Nat.two_pow_pos _)).1 hpos
          have hpow : (-q).toNat < 54 := by
            rw [← Nat.pow_lt_pow_iff_right (a := 2) (by decide)]
            omega
          have hm : 0 < m := by
            have := Nat.two_pow_pos (-q).toNat
            omega
          exact ⟨m, q, hm, rfl, by omega⟩

/-- **Rounding to hundredths.** What is rounded to a positive number, in hundreds, is what is at
least a half. -/
theorem isHz_roundAway_iff {w : Float} :
    Job.isHz (roundAway w / 100.0) = true ↔ w.isFinite = true ∧ (0.5 : Float) ≤ w := by
  rw [half_le_iff]
  constructor
  · intro h
    exact half_le_of_roundAway (positive_of_hundredth h)
  · rintro ⟨m, q, hm, hw, hq⟩
    obtain ⟨hlt, -, hmax, hshape⟩ := shape_ofFloat hw
    have hfull : 2 ^ 52 ≤ m := by omega
    rw [roundAway_of_exact hw]
    by_cases hq0 : 0 ≤ q
    · have hb : Full w m q := ⟨⟨hm, unpack_of_exact hm hw⟩, hfull, hlt⟩
      rw [if_pos hq0]
      exact hb.hundredth (by omega) hmax
    · have hden : 2 ^ (-q).toNat ≤ 2 ^ 53 := Nat.pow_le_pow_right (by decide) (by omega)
      have hpos := (divUp_pos (m := m) (Nat.two_pow_pos (-q).toNat)).2 (by omega)
      obtain ⟨n, e, he, hlo, hhi⟩ := full_ofNat hpos (divUp_lt hlt (by omega))
      rw [if_neg hq0]
      exact he.hundredth hlo (by omega)

end ToneRelay.Decimal
