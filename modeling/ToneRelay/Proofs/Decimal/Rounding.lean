import Mathlib
import ToneRelay.Decimal.Exact

/-!
# How floats are rounded and kept

The operations on floats compute a mantissa and an exponent, round them to fifty-three bits and pack
them into a word. Main statements:

1. `round_normal`: a number with fifty-three bits or more, not too small, is rounded to a full
   mantissa, and its exponent grows by one at most. By `roundedLead_le` it does not go beyond a
   number that needs no rounding.
2. `unpack_pack`: a full mantissa with an exponent in range is unpacked as it was packed.
3. `ofFloat_eq`: the exact value that is read off the bits is the number that is computed with.
-/

namespace ToneRelay.Decimal

open Float.Model Float.Model.UnpackedFloat

/-! ## Rounding -/

theorem mantissa_shift (em : ExtendedMantissa) (k : Nat) :
    (em >>> k).mantissa = em.mantissa / 2 ^ k := by
  induction k with
  | zero => simp [HShiftRight.hShiftRight, Nat.repeat]
  | succ k ih =>
    show (em >>> k).mantissa / 2 = _
    rw [ih, Nat.div_div_eq_div_mul, Nat.pow_succ]

theorem rounded_bounds (em : ExtendedMantissa) :
    em.mantissa ≤ em.roundedMantissa ∧ em.roundedMantissa ≤ em.mantissa + 1 := by
  obtain ⟨m, round, sticky⟩ := em
  cases round <;> cases sticky <;>
    simp [ExtendedMantissa.roundedMantissa, ExtendedMantissa.accuracy,
      Accuracy.roundToNearestEven]
  omega

theorem mantissa_ofAccuracy (m : Nat) (a : Accuracy) :
    (ExtendedMantissa.ofMantissaAndAccuracy m a).mantissa = m := by
  rcases a with _ | (_ | _ | _) <;> rfl

/-- The exponent to which a mantissa of fifty-three bits or more is cut. -/
theorem target_eq {m : Nat} {e : Int} (he : -1022 ≤ (m.log2 : Int) + e) :
    Format.binary64.targetExponent (totalExponent m e) = m.log2 + e - 52 := by
  simp only [Format.targetExponent, totalExponent, Format.mantissaBits, Format.minExponent]
  omega

theorem shift_mantissa {m : Nat} {e : Int} (a : Accuracy) (hm : 52 ≤ m.log2)
    (he : -1022 ≤ (m.log2 : Int) + e) :
    (shiftToTargetExponent Format.binary64 m e a).1.mantissa = m / 2 ^ (m.log2 - 52) ∧
      (shiftToTargetExponent Format.binary64 m e a).2 = m.log2 + e - 52 := by
  have hk : ((m.log2 : Int) + e - 52 - e).toNat = m.log2 - 52 := by omega
  simp only [shiftToTargetExponent, shiftToExponent, target_eq he, hk, mantissa_shift,
    mantissa_ofAccuracy, true_and]
  omega

/-- The leading fifty-three bits of a number. -/
theorem leading_bounds {m : Nat} (hm : 52 ≤ m.log2) :
    2 ^ 52 ≤ m / 2 ^ (m.log2 - 52) ∧ m / 2 ^ (m.log2 - 52) < 2 ^ 53 := by
  have hne : m ≠ 0 := by rintro rfl; simp at hm
  constructor
  · rw [Nat.le_div_iff_mul_le (Nat.two_pow_pos _), ← Nat.pow_add]
    have : 52 + (m.log2 - 52) = m.log2 := by omega
    rw [this]
    exact Nat.log2_self_le hne
  · rw [Nat.div_lt_iff_lt_mul (Nat.two_pow_pos _), ← Nat.pow_add]
    have : 53 + (m.log2 - 52) = m.log2 + 1 := by omega
    rw [this]
    exact Nat.lt_log2_self

theorem log2_eq {m : Nat} (hlo : 2 ^ 52 ≤ m) (hhi : m < 2 ^ 53) : m.log2 = 52 :=
  (Nat.log2_eq_iff (by omega)).2 ⟨hlo, hhi⟩

/-- The nearest number of fifty-three bits, as it was before a carry. -/
def roundedLead (m : Nat) (e : Int) (a : Accuracy) : Nat :=
  (shiftToTargetExponent Format.binary64 m e a).1.roundedMantissa

theorem roundedLead_bounds {m : Nat} {e : Int} (a : Accuracy) (hm : 52 ≤ m.log2)
    (he : -1022 ≤ (m.log2 : Int) + e) :
    2 ^ 52 ≤ roundedLead m e a ∧ roundedLead m e a ≤ 2 ^ 53 := by
  have hlead := leading_bounds hm
  have hround := rounded_bounds (shiftToTargetExponent Format.binary64 m e a).1
  rw [(shift_mantissa a hm he).1] at hround
  unfold roundedLead
  omega

/-- A number in the range of the floats with a full mantissa is rounded to one of them. -/
theorem round_normal (s : Sign) {m : Nat} {e : Int} (a : Accuracy) (hm : 52 ≤ m.log2)
    (he : -1022 ≤ (m.log2 : Int) + e) :
    ∃ n f h, roundWithAccuracy Format.binary64 s m e a = .finite s n f h ∧ 2 ^ 52 ≤ n ∧
      n < 2 ^ 53 ∧ (f = m.log2 + e - 52 ∧ n = roundedLead m e a ∨
        f = m.log2 + e - 51 ∧ n = 2 ^ 52 ∧ roundedLead m e a = 2 ^ 53) := by
  obtain ⟨hlo, hhi⟩ := roundedLead_bounds a hm he
  have hexp := (shift_mantissa a hm he).2
  unfold roundWithAccuracy
  unfold roundedLead at hlo hhi ⊢
  generalize shiftToTargetExponent Format.binary64 m e a = first at hexp hlo hhi ⊢
  obtain ⟨em, f⟩ := first
  simp only at hexp hlo hhi ⊢
  generalize em.roundedMantissa = r at hlo hhi ⊢
  have hne : r ≠ 0 := by omega
  by_cases hr : r < 2 ^ 53
  · have hlog : r.log2 = 52 := log2_eq hlo hr
    obtain ⟨hman, hexp'⟩ := shift_mantissa (m := r) (e := f) .exact (by omega) (by omega)
    rw [hlog] at hman hexp'
    simp only [Nat.sub_self, Nat.pow_zero, Nat.div_one] at hman
    simp only [hman, dif_neg hne]
    exact ⟨r, _, Nat.pos_of_ne_zero hne, rfl, hlo, hr, .inl ⟨by omega, rfl⟩⟩
  · have hr' : r = 2 ^ 53 := by omega
    have hlog : r.log2 = 53 := by rw [hr', Nat.log2_two_pow]
    obtain ⟨hman, hexp'⟩ := shift_mantissa (m := r) (e := f) .exact (by omega) (by omega)
    rw [hlog, hr'] at hman
    have hman' : (shiftToTargetExponent Format.binary64 r f .exact).1.mantissa = 2 ^ 52 := by
      rw [hr']
      exact hman
    simp only [hman']
    exact ⟨2 ^ 52, _, by decide, rfl, by omega, by omega, .inr ⟨by omega, rfl, hr'⟩⟩

theorem shift_exact (n k : Nat) :
    ExtendedMantissa.ofMantissaAndAccuracy (n * 2 ^ k) .exact >>> k =
      ExtendedMantissa.ofMantissaAndAccuracy n .exact := by
  induction k generalizing n with
  | zero => simp [HShiftRight.hShiftRight, Nat.repeat]
  | succ k ih =>
    have hmul : n * 2 ^ (k + 1) = n * 2 * 2 ^ k := by rw [Nat.pow_succ, Nat.mul_comm (2 ^ k),
      Nat.mul_assoc]
    rw [hmul]
    show (ExtendedMantissa.ofMantissaAndAccuracy (n * 2 * 2 ^ k) .exact >>> k).shiftRightOne = _
    rw [ih]
    simp [ExtendedMantissa.ofMantissaAndAccuracy, ExtendedMantissa.shiftRightOne]

/-- Rounding does not go beyond a number that needs no rounding. -/
theorem roundedLead_le {m n : Nat} {e : Int} (hm : 52 ≤ m.log2)
    (he : -1022 ≤ (m.log2 : Int) + e) (hn : m ≤ n * 2 ^ (m.log2 - 52)) :
    roundedLead m e .exact ≤ n := by
  have hpos := Nat.two_pow_pos (m.log2 - 52)
  have hround := rounded_bounds (shiftToTargetExponent Format.binary64 m e .exact).1
  rw [(shift_mantissa .exact hm he).1] at hround
  by_cases heq : m = n * 2 ^ (m.log2 - 52)
  · have hk : ((m.log2 : Int) + e - 52 - e).toNat = m.log2 - 52 := by omega
    have hexact : (shiftToTargetExponent Format.binary64 m e .exact).1 =
        ExtendedMantissa.ofMantissaAndAccuracy n .exact := by
      simp only [shiftToTargetExponent, shiftToExponent, target_eq he, hk]
      generalize m.log2 - 52 = k at heq
      rw [heq, shift_exact]
    unfold roundedLead
    rw [hexact]
    exact Nat.le_refl n
  · have hlt : m / 2 ^ (m.log2 - 52) < n := by
      rw [Nat.div_lt_iff_lt_mul hpos]
      omega
    unfold roundedLead
    omega

/-! ## Packing -/

theorem toNat_append_one (m : BitVec 52) : (1#1 ++ m).toNat = 2 ^ 52 + m.toNat := by
  rw [BitVec.toNat_append, ← Nat.shiftLeft_add_eq_or_of_lt m.isLt]
  rfl

/-- A full mantissa and an exponent in range are kept. -/
theorem unpack_pack (s : Sign) {m : Nat} {e : Int} (h : 0 < m) (hlo : 2 ^ 52 ≤ m)
    (hhi : m < 2 ^ 53) (hmin : -1074 ≤ e) (hmax : e ≤ 971) :
    (Float.Model.pack (.finite s m e h)).unpack = .finite s m e h := by
  have hb : ¬ 2 ^ 11 ≤ (e + 1023 + 52).toNat + 1 := by omega
  have hlog : m.log2 + 1 = 53 := by rw [log2_eq hlo hhi]
  have hexp : (BitVec.ofNat 11 (e + 1023 + 52).toNat).toNat = (e + 1023 + 52).toNat := by
    rw [BitVec.toNat_ofNat, Nat.mod_eq_of_lt (by omega)]
  have hzero : BitVec.ofNat 11 (e + 1023 + 52).toNat ≠ 0#11 := by
    intro h0
    have := congrArg BitVec.toNat h0
    rw [hexp] at this
    simp only [BitVec.toNat_ofNat] at this
    omega
  have hones : BitVec.ofNat 11 (e + 1023 + 52).toNat ≠ -1#11 := by
    intro h1
    have := congrArg BitVec.toNat h1
    rw [hexp] at this
    have h11 : (-1#11).toNat = 2047 := by decide
    omega
  have hman : (1#1 ++ BitVec.ofNat 52 m).toNat = m := by
    rw [toNat_append_one, BitVec.toNat_ofNat]
    omega
  have hpack : Float.Model.UnpackedFloat.pack Format.binary64 (.finite s m e h) =
      packComponents Format.binary64 s (BitVec.ofNat 11 (e + 1023 + 52).toNat)
        (BitVec.ofNat 52 m) := by
    show (if 2 ^ 11 ≤ (e + 1023 + 52).toNat + 1 then _ else if m.log2 + 1 = 53 then _ else _) = _
    rw [if_neg hb, if_pos hlog]
    rfl
  show Float.Model.UnpackedFloat.unpack Format.binary64
    (Float.Model.UnpackedFloat.pack Format.binary64 (.finite s m e h)) = _
  rw [hpack]
  unfold Float.Model.UnpackedFloat.unpack
  simp only [unpackMantissa_packComponents, unpackExponent_packComponents,
    unpackSign_packComponents, hones, hzero, if_false, Sign.ofBitVec_toBitVec, hman]
  congr 1
  rw [hexp]
  show ((e + 1023 + 52).toNat : Int) - (1023 + 52) = e
  omega

theorem unpack_pack_notANumber :
    (Float.Model.pack .notANumber).unpack = .notANumber := rfl

theorem unpack_pack_infinity (s : Sign) :
    (Float.Model.pack (.infinity s)).unpack = .infinity s := by
  cases s <;> rfl

theorem unpack_pack_zero (s : Sign) : (Float.Model.pack (.zero s)).unpack = .zero s := by
  cases s <;> rfl

/-- What has a sign keeps it. -/
theorem unpack_pack_negative {u : UnpackedFloat} (m : Nat) (e : Int) (h : 0 < m)
    (hu : u = .infinity .negative ∨ u = .zero .negative ∨ ∃ n f hn, u = .finite .negative n f hn) :
    (Float.Model.pack u).unpack ≠ .finite .positive m e h := by
  have hsign : unpackSign (Float.Model.UnpackedFloat.pack Format.binary64 u) = 1#1 := by
    rcases hu with rfl | rfl | ⟨n, f, hn, rfl⟩
    · rfl
    · rfl
    · unfold Float.Model.UnpackedFloat.pack
      simp only
      split
      · exact unpackSign_packComponents _ _ _
      · split
        · exact unpackSign_packComponents _ _ _
        · exact unpackSign_packComponents _ _ _
  show Float.Model.UnpackedFloat.unpack Format.binary64
    (Float.Model.UnpackedFloat.pack Format.binary64 u) ≠ _
  unfold Float.Model.UnpackedFloat.unpack
  simp only [hsign]
  split
  · split
    · simp
    · simp
  · split
    · split
      · simp
      · simp [Sign.ofBitVec]
    · simp [Sign.ofBitVec]

/-! ## Bits -/

theorem toNat_unpackMantissa (b : BitVec 64) :
    (@unpackMantissa Format.binary64 b).toNat = b.toNat % 2 ^ 52 := by
  simp [unpackMantissa]

theorem toNat_unpackExponent (b : BitVec 64) :
    (@unpackExponent Format.binary64 b).toNat = b.toNat / 2 ^ 52 % 2 ^ 11 := by
  simp [unpackExponent, Nat.shiftRight_eq_div_pow]

theorem ofBitVec_unpackSign (b : BitVec 64) :
    Sign.ofBitVec (@unpackSign Format.binary64 b) =
      if 2 ^ 63 ≤ b.toNat then .negative else .positive := by
  have hb := b.isLt
  have hs : (@unpackSign Format.binary64 b).toNat = b.toNat / 2 ^ 63 := by
    simp [unpackSign, Nat.shiftRight_eq_div_pow]
    omega
  unfold Sign.ofBitVec
  by_cases h : 2 ^ 63 ≤ b.toNat
  · rw [if_pos h, if_neg]
    intro h0
    rw [h0] at hs
    simp only [BitVec.toNat_ofNat] at hs
    omega
  · rw [if_neg h, if_pos]
    apply BitVec.eq_of_toNat_eq
    rw [hs, BitVec.toNat_ofNat]
    omega

/-- The exact value of what is unpacked. -/
def Exact.ofUnpacked : UnpackedFloat → Exact
  | .notANumber => .nan
  | .infinity s => .infinite (s == .negative)
  | .zero s => .finite (s == .negative) 0 (-1074)
  | .finite s m e _ => .finite (s == .negative) m e

/-- The exact value read off the bits is the one that is computed with. -/
theorem ofFloat_eq (x : Float) : Exact.ofFloat x = Exact.ofUnpacked x.toModel.unpack := by
  show _ = Exact.ofUnpacked (Float.Model.UnpackedFloat.unpack Format.binary64 _)
  generalize hb : x.toModel.toBits.toBitVec = b
  have hbits : x.toBits.toNat = b.toNat := congrArg BitVec.toNat hb
  have h11 : (-1#11).toNat = 2047 := by decide
  have h0 (n : Nat) : (0#n).toNat = 0 := BitVec.toNat_zero
  have hsign : (Sign.ofBitVec (@unpackSign Format.binary64 b) == .negative) =
      decide (2 ^ 63 ≤ b.toNat) := by
    rw [ofBitVec_unpackSign]
    by_cases h : 2 ^ 63 ≤ b.toNat
    · rw [if_pos h, decide_eq_true h]
      rfl
    · rw [if_neg h, decide_eq_false h]
      rfl
  have hleft : Exact.ofFloat x =
      if b.toNat / 2 ^ 52 % 2 ^ 11 = 2047 then
        if b.toNat % 2 ^ 52 = 0 then .infinite (decide (2 ^ 63 ≤ b.toNat)) else .nan
      else if b.toNat / 2 ^ 52 % 2 ^ 11 = 0 then
        .finite (decide (2 ^ 63 ≤ b.toNat)) (b.toNat % 2 ^ 52) (-1074)
      else .finite (decide (2 ^ 63 ≤ b.toNat)) (2 ^ 52 + b.toNat % 2 ^ 52)
        ((b.toNat / 2 ^ 52 % 2 ^ 11 : Nat) - 1075) := by
    rw [← hbits]
    rfl
  rw [hleft]
  unfold Float.Model.UnpackedFloat.unpack
  simp only [← BitVec.toNat_inj, h11, h0, toNat_unpackMantissa, toNat_unpackExponent]
  by_cases hinf : b.toNat / 2 ^ 52 % 2 ^ 11 = 2047
  · simp only [hinf, if_true]
    by_cases hzero : b.toNat % 2 ^ 52 = 0
    · simp only [hzero, if_true, Exact.ofUnpacked, hsign]
    · simp only [hzero, if_false, Exact.ofUnpacked]
  · simp only [hinf, if_false]
    by_cases hsub : b.toNat / 2 ^ 52 % 2 ^ 11 = 0
    · simp only [hsub, if_true]
      by_cases hzero : b.toNat % 2 ^ 52 = 0
      · simp only [hzero, dif_pos, Exact.ofUnpacked, hsign]
      · simp only [hzero, dif_neg, not_false_eq_true, Exact.ofUnpacked, hsign]
        rfl
    · simp only [hsub, if_false, Exact.ofUnpacked, hsign, toNat_append_one,
        toNat_unpackMantissa]
      rfl

/-- The shape of a finite number in a float. -/
theorem shape_ofFloat {x : Float} {negative : Bool} {m : Nat} {q : Int}
    (h : Exact.ofFloat x = .finite negative m q) :
    m < 2 ^ 53 ∧ -1074 ≤ q ∧ q ≤ 971 ∧ (2 ^ 52 ≤ m ∨ q = -1074) := by
  unfold Exact.ofFloat at h
  simp only [Nat.pow_eq] at h
  split at h
  · split at h <;> cases h
  · split at h
    · cases h
      omega
    · cases h
      omega

end ToneRelay.Decimal
