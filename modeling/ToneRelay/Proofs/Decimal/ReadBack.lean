import ToneRelay.Proofs.Decimal.Hundredths
import ToneRelay.Proofs.Decimal.Shortest
import ToneRelay.Proofs.Decimal.Written
import ToneRelay.Proofs.Json.Truncation

/-!
# Floats in documents

`isPositiveNumber_chars`: a positive float is written as a number without a sign that is not zero.
`reads_readBack`: the text of a finite float is read again as a number. A reader multiplies the
digits by a power of ten, and that could go beyond the greatest float:

1. `tenFits`: seventeen digits and a power of ten leave room for the rounding of both.
2. `isHz_scaled`: digits that stand for no more than the greatest float stay in range.
3. `shortest_le_greatest`: the shortest digits of a float stand for no more than that.
-/

namespace ToneRelay.Decimal

open Json Float.Model Float.Model.UnpackedFloat

/-! ## Powers of ten -/

/-- A float `y · 2 ^ g` that whole numbers of at most seventeen digits do not go beyond when they
are in range at the power `e`. -/
def ceiling (e : Nat) : Nat × Nat :=
  if e ≤ 291 then (5 ^ 17, 17)
  else if e = 292 then (8988465674311578, 1)
  else (greatest / 10 ^ e, 0)

/-- The float of a power of ten, and that its product with the ceiling is in range. -/
def TenFits (e : Nat) : Prop :=
  ∃ n f, Full (Float.ofScientific 1 false e) n f ∧ -52 ≤ f ∧
    (ceiling e).1 * 2 ^ (ceiling e).2 * (n * 2 ^ (f + 52).toNat) ≤ greatest * 2 ^ 52

def tenFits? (e : Nat) : Bool :=
  match Exact.ofFloat (Float.ofScientific 1 false e) with
  | .finite false n f =>
    2 ^ 52 ≤ n && -52 ≤ f &&
      (ceiling e).1 * 2 ^ (ceiling e).2 * (n * 2 ^ (f + 52).toNat) ≤ greatest * 2 ^ 52
  | _ => false

theorem tenFits_of {e : Nat} (h : tenFits? e = true) : TenFits e := by
  unfold tenFits? at h
  split at h
  · rename_i n f hx
    simp only [Bool.and_eq_true, decide_eq_true_iff] at h
    obtain ⟨⟨hlo, hf⟩, hmax⟩ := h
    have hn : 0 < n := by omega
    exact ⟨n, f, ⟨⟨hn, unpack_of_exact hn hx⟩, hlo, (shape_ofFloat hx).1⟩, hf, hmax⟩
  · cases h

/-- Powers of ten that are kept in a table, and those near the greatest float. -/
theorem tenFits_table : ∀ e ∈ List.range 23 ++ List.range' 291 18, tenFits? e = true := by
  decide +kernel

theorem unpack_ten {e : Nat} (he : 23 ≤ e) (he' : e ≤ 308) :
    (Float.ofScientific 1 false e).toModel.unpack =
      (Float.Model.pack (roundWithAccuracy Format.binary64 .positive (2 ^ 53 * 10 ^ e) (-53)
        .exact)).unpack := by
  have hof : Float.ofScientific 1 false e = ⟨Float.Model.ofScientific 1 (e : Int)⟩ := by
    unfold Float.ofScientific
    rw [dif_neg (by omega)]
    rfl
  have h1 : ¬ (e : Int) > 2 ^ Format.binary64.exponentBits := by
    show ¬ (e : Int) > 2048
    omega
  have h2 : ¬ (e : Int) < -(2 ^ Format.binary64.exponentBits + (Nat.log2 1 : Int)) := by
    show ¬ (e : Int) < -(2048 + 0)
    omega
  rw [hof]
  show (Float.Model.pack (UnpackedFloat.ofScientific Format.binary64 1 e)).unpack = _
  unfold UnpackedFloat.ofScientific
  rw [dif_neg (by decide), if_neg h1, if_neg h2, if_pos (Int.natCast_nonneg e)]
  rfl

/-- Up to a power of two hundred and ninety there is room for seventeen digits and a doubling. -/
theorem ten_middle : ∃ t : Nat, t = 290 ∧ (10 ^ t).log2 < 964 ∧
    10 ^ 17 * (2 * 10 ^ t) ≤ greatest := ⟨290, rfl, by decide +kernel, by decide +kernel⟩

/-- Powers of ten in between are at most doubled when they are rounded. -/
theorem tenFits_middle {e : Nat} (he : 23 ≤ e) (he' : e ≤ 290) : TenFits e := by
  have hten : 0 < 10 ^ e := Nat.pow_pos (by decide)
  obtain ⟨t, ht, htlog, htmax⟩ := ten_middle
  have hle : 10 ^ e ≤ 10 ^ t := Nat.pow_le_pow_right (by decide) (by omega)
  have hlog : (2 ^ 53 * 10 ^ e).log2 = (10 ^ e).log2 + 53 := by
    rw [Nat.mul_comm, ← Nat.shiftLeft_eq, log2_shiftLeft hten]
  have hlt : (10 ^ e).log2 < 964 := by
    rw [Nat.log2_lt (by omega)] at htlog ⊢
    omega
  obtain ⟨n, f, hfull, hf⟩ := full_round (unpack_ten he (by omega)) (by omega) (by omega) (by omega)
  have hceil : (ceiling e).1 * 2 ^ (ceiling e).2 = 10 ^ 17 := by
    unfold ceiling
    rw [if_pos (by omega)]
    decide
  have hvalue : n * 2 ^ (f + 52).toNat ≤ 2 * 10 ^ e * 2 ^ 52 := by
    have hpow : 2 ^ (10 ^ e).log2 ≤ 10 ^ e := Nat.log2_self_le (Nat.ne_of_gt hten)
    rcases hf with ⟨hf, -⟩ | ⟨hf, hn, -⟩
    · have hexp : (f + 52).toNat = (10 ^ e).log2 := by omega
      rw [hexp]
      calc n * 2 ^ (10 ^ e).log2 ≤ 2 ^ 53 * 10 ^ e :=
            Nat.mul_le_mul (Nat.le_of_lt hfull.hi) hpow
        _ = 2 * 10 ^ e * 2 ^ 52 := by omega
    · have hexp : (f + 52).toNat = (10 ^ e).log2 + 1 := by omega
      rw [hexp, hn, Nat.pow_succ]
      calc 2 ^ 52 * (2 ^ (10 ^ e).log2 * 2) ≤ 2 ^ 52 * (10 ^ e * 2) :=
            Nat.mul_le_mul_left _ (Nat.mul_le_mul_right _ hpow)
        _ = 2 * 10 ^ e * 2 ^ 52 := by omega
  refine ⟨n, f, hfull, by omega, ?_⟩
  rw [hceil]
  calc 10 ^ 17 * (n * 2 ^ (f + 52).toNat) ≤ 10 ^ 17 * (2 * 10 ^ t * 2 ^ 52) :=
        Nat.mul_le_mul_left _ (Nat.le_trans hvalue
          (Nat.mul_le_mul_right _ (Nat.mul_le_mul_left _ hle)))
    _ = 10 ^ 17 * (2 * 10 ^ t) * 2 ^ 52 := (Nat.mul_assoc ..).symm
    _ ≤ greatest * 2 ^ 52 := Nat.mul_le_mul_right _ htmax

/-- Every power of ten in range is a float, and its product with the ceiling is in range. -/
theorem tenFits {e : Nat} (he : e ≤ 308) : TenFits e := by
  by_cases hmiddle : 23 ≤ e ∧ e ≤ 290
  · exact tenFits_middle hmiddle.1 hmiddle.2
  · apply tenFits_of (tenFits_table e _)
    rw [List.mem_append, List.mem_range, List.mem_range'_1]
    omega

/-! ## Digits in range -/

/-- The leading digits of the greatest float. -/
theorem greatest_div : ∃ t : Nat, t = 292 ∧ greatest / 10 ^ t = 17976931348623157 :=
  ⟨292, rfl, by decide +kernel⟩

theorem exponent_le {d e : Nat} (hd : 0 < d) (hmax : d * 10 ^ e ≤ greatest) : e ≤ 308 := by
  obtain ⟨t, ht, hquot⟩ := greatest_div
  have hlt : greatest < 10 ^ 17 * 10 ^ t := by
    rw [← Nat.div_lt_iff_lt_mul (Nat.pow_pos (by decide)), hquot]
    decide
  have hpow : 1 * 10 ^ e ≤ d * 10 ^ e := Nat.mul_le_mul_right _ hd
  have : 10 ^ e < 10 ^ (17 + t) := by
    rw [Nat.pow_add]
    omega
  rw [Nat.pow_lt_pow_iff_right (by decide)] at this
  omega

/-- The digits of the greatest float are the only ones beyond the ceiling. -/
theorem le_ceiling {d e : Nat} (hd : d ≤ 10 ^ 17) (hmax : d * 10 ^ e ≤ greatest)
    (hne : ¬ (e = 292 ∧ d = 17976931348623157)) :
    (ceiling e).1 < 2 ^ 53 ∧ d ≤ (ceiling e).1 * 2 ^ (ceiling e).2 := by
  obtain ⟨t, ht, hquot⟩ := greatest_div
  have hdiv : d ≤ greatest / 10 ^ e := by
    rwa [Nat.le_div_iff_mul_le (Nat.pow_pos (by decide))]
  unfold ceiling
  by_cases h291 : e ≤ 291
  · rw [if_pos h291]
    exact ⟨by decide, by omega⟩
  · rw [if_neg h291]
    by_cases h292 : e = 292
    · rw [if_pos h292]
      have het : e = t := by omega
      rw [het, hquot] at hdiv
      exact ⟨by decide, by simp only; omega⟩
    · rw [if_neg h292]
      have hle : greatest / 10 ^ e ≤ greatest / 10 ^ (t + 1) :=
        Nat.div_le_div_left (Nat.pow_le_pow_right (by decide) (by omega))
          (Nat.pow_pos (by decide))
      rw [Nat.pow_succ, ← Nat.div_div_eq_div_mul, hquot] at hle
      exact ⟨Nat.lt_of_le_of_lt hle (by decide), by rwa [Nat.pow_zero, Nat.mul_one]⟩

theorem isHz_top : Job.isHz ((17976931348623157 : Nat).toUInt64.toFloat *
    Float.ofScientific 1 false 292) = true := by decide +kernel

/-- Digits in range are in range as a float. -/
theorem isHz_scaled {d e : Nat} (hpos : 0 < d) (hd : d ≤ 10 ^ 17) (hmax : d * 10 ^ e ≤ greatest) :
    Job.isHz (d.toUInt64.toFloat * Float.ofScientific 1 false e) = true := by
  by_cases hne : e = 292 ∧ d = 17976931348623157
  · rw [hne.1, hne.2]
    exact isHz_top
  · obtain ⟨hceil, hle⟩ := le_ceiling hd hmax hne
    obtain ⟨n, f, hten, hf, hfit⟩ := tenFits (exponent_le hpos hmax)
    have hw : d.toUInt64.toNat = d := Nat.mod_eq_of_lt (by omega)
    obtain ⟨m, g, hfull, hg, -, hbound⟩ := full_toFloat (w := d.toUInt64) (by omega)
    have hm := hbound _ _ hceil (hw.symm ▸ hle)
    obtain ⟨k, j, hprod, -, -⟩ := hfull.mul hten (by omega) hf (by
      calc m * 2 ^ (g + 52).toNat * (n * 2 ^ (f + 52).toNat)
          ≤ (ceiling e).1 * 2 ^ (ceiling e).2 * 2 ^ 52 * (n * 2 ^ (f + 52).toNat) :=
            Nat.mul_le_mul_right _ hm
        _ = (ceiling e).1 * 2 ^ (ceiling e).2 * (n * 2 ^ (f + 52).toNat) * 2 ^ 52 :=
            Nat.mul_right_comm _ _ _
        _ ≤ greatest * 2 ^ 52 * 2 ^ 52 := Nat.mul_le_mul_right _ hfit
        _ = greatest * 2 ^ 104 := by rw [Nat.mul_assoc, ← Nat.pow_add])
    exact hprod.isHz

theorem isInf_of_isHz {x : Float} (h : Job.isHz x = true) : x.isInf = false := by
  obtain ⟨m, e, hm, hx⟩ := isHz_iff.1 h
  show x.toModel.unpack.isInf = false
  rw [hx]
  rfl

theorem isFinite_of_isHz {x : Float} (h : Job.isHz x = true) : x.isFinite = true :=
  (Bool.and_eq_true_iff.1 h).1

/-! ## Reading back -/

theorem scale_of_isHz {k : Nat} {x : Float} {e : Nat} (he : e ≤ 308)
    (h : Job.isHz (x * Float.ofScientific 1 false e) = true) :
    ∃ y, scale (k + 1) x e = .ok y := by
  unfold scale
  rw [if_pos (by omega), if_pos (by omega), Int.natAbs_natCast]
  simp only [isInf_of_isHz h]
  exact ⟨_, rfl⟩

theorem shortest_greatest : shortest .even (2 ^ 53 - 1) 971 = ⟨17976931348623157, 292⟩ := by
  decide +kernel

/-- The interval of a lesser float ends below the greatest one. -/
theorem high_le_greatest {m : Nat} {q : Int} (hm : m < 2 ^ 53) (hq : q ≤ 971)
    (hne : ¬ (m = 2 ^ 53 - 1 ∧ q = 971)) :
    (Interval.of m q).high ≤ greatest * (Interval.of m q).den := by
  obtain ⟨-, hden, hhigh⟩ := value_of m q
  obtain ⟨t, ht, hgreatest⟩ : ∃ t : Nat, t = 970 ∧ greatest = (2 ^ 53 - 1) * 2 ^ (t + 1) :=
    ⟨970, rfl, by decide +kernel⟩
  have hv := Nat.two_pow_pos (-q).toNat
  rw [hden, hhigh, hgreatest, Nat.pow_succ]
  by_cases htop : q.toNat ≤ t
  · have hu : 2 ^ q.toNat ≤ 2 ^ t := Nat.pow_le_pow_right (by decide) htop
    calc 4 * (m * 2 ^ q.toNat) + 2 * 2 ^ q.toNat = (4 * m + 2) * 2 ^ q.toNat := by
          rw [Nat.add_mul, Nat.mul_assoc]
      _ ≤ (4 * (2 ^ 53 - 1) + 2) * 2 ^ t := Nat.mul_le_mul (by omega) hu
      _ ≤ (2 ^ 53 - 1) * (2 ^ t * 2) * (4 * 1) := by omega
      _ ≤ (2 ^ 53 - 1) * (2 ^ t * 2) * (4 * 2 ^ (-q).toNat) :=
          Nat.mul_le_mul_left _ (Nat.mul_le_mul_left _ hv)
  · have hqt : q.toNat = t + 1 := by omega
    have hq0 : (-q).toNat = 0 := by omega
    rw [hqt, hq0, Nat.pow_zero, Nat.pow_succ]
    have hmm : m * (2 ^ t * 2) ≤ (2 ^ 53 - 2) * (2 ^ t * 2) := Nat.mul_le_mul_right _ (by omega)
    omega

/-- The shortest digits of a float do not go beyond the greatest float. -/
theorem shortest_le_greatest {m : Nat} {q : Int} (hm : 0 < m) (hlt : m < 2 ^ 53)
    (hmin : -1074 ≤ q) (hmax : q ≤ 971) (he : 0 ≤ (shortest .even m q).exponent) :
    (shortest .even m q).digits * 10 ^ (shortest .even m q).exponent.toNat ≤ greatest := by
  by_cases htop : m = 2 ^ 53 - 1 ∧ q = 971
  · obtain ⟨t, ht, hquot⟩ := greatest_div
    have hexp : (292 : Int).toNat = t := by omega
    rw [htop.1, htop.2, shortest_greatest, hexp, ← hquot]
    exact Nat.div_mul_le_self _ _
  · have hden : 0 < (Interval.of m q).den := by
      rw [(value_of m q).2.1]
      exact Nat.mul_pos (by decide) (Nat.two_pow_pos _)
    apply Nat.le_of_mul_le_mul_right ?_ hden
    exact Nat.le_trans ((shortest_spec .even hm hlt hmin hmax).2.2.2 he)
      (high_le_greatest hlt hmax htop)

/-- A finite float in its exact form. -/
theorem isFinite_iff_exact {x : Float} :
    x.isFinite = true ↔ ∃ isNegative m q, Exact.ofFloat x = .finite isNegative m q := by
  rw [isFinite_eq, ofFloat_eq]
  cases x.toModel.unpack with
  | notANumber => simp [UnpackedFloat.isFinite, Exact.ofUnpacked]
  | infinity s => simp [UnpackedFloat.isFinite, Exact.ofUnpacked]
  | zero s => exact ⟨fun _ => ⟨_, _, _, rfl⟩, fun _ => rfl⟩
  | finite s m e h => exact ⟨fun _ => ⟨_, _, _, rfl⟩, fun _ => rfl⟩

/-- The numeral of zero. -/
def zeroNumeral : Numeral := ⟨['0'], ['0'], none⟩

theorem sound_zeroNumeral : zeroNumeral.Sound := by
  have hdigit : ∀ c ∈ ['0'], c.isDigit = true := by
    intro c hc
    rw [List.mem_singleton.1 hc]
    decide
  exact ⟨List.cons_ne_nil _ _, hdigit, hdigit, nofun, by decide, .inl (List.cons_ne_nil _ _),
    nofun⟩

theorem numeral_shortest_zero (q : Int) : (shortest .even 0 q).numeral = zeroNumeral := by
  unfold shortest
  rw [if_pos rfl]
  rfl

section
variable {x : Float} {isNegative : Bool} {m : Nat} {q : Int}

/-- The text of a float in a document. -/
theorem chars_eq (hx : Exact.ofFloat x = .finite isNegative m q) :
    Layout.json.chars x = (shortest .even m q).numeral.signed isNegative := by
  unfold Layout.chars Numeral.signed
  rw [hx]
  simp only [magnitude_eq]

/-- The digits of a float that is not zero. -/
theorem written_of_exact (hm : 0 < m) (hx : Exact.ofFloat x = .finite isNegative m q) :
    (shortest .even m q).Written (shortest .even m q).numeral := by
  obtain ⟨hlt, hmin, hmax, -⟩ := shape_ofFloat hx
  obtain ⟨hpos, hle, hexp, -⟩ := shortest_spec .even hm hlt hmin hmax
  exact written_numeral hpos (Nat.le_trans hle (by decide)) hexp

/-- The digits of a float that is not zero make a float in range. -/
theorem inRange_of_exact (hm : 0 < m) (hx : Exact.ofFloat x = .finite isNegative m q) :
    InRange isNegative (shortest .even m q).numeral.significand
      (shortest .even m q).numeral.exponent := by
  obtain ⟨hlt, hmin, hmax, -⟩ := shape_ofFloat hx
  obtain ⟨hpos, hle, -, -⟩ := shortest_spec .even hm hlt hmin hmax
  intro e he
  refine ofParts_of_scale isNegative ?_
  rcases Int.lt_or_le e 0 with hneg | hnn
  · exact scale_of_neg 4 _ hneg
  · have htop := he.resolve_right (Int.not_lt.2 hnn)
    obtain ⟨hsig, hexp⟩ := (written_of_exact hm hx).value.resolve_left (by omega)
    have hgreatest := shortest_le_greatest hm hlt hmin hmax (by omega)
    have hfit : (shortest .even m q).digits * 10 ^ e.toNat ≤ greatest :=
      Nat.le_trans (Nat.mul_le_mul_left _ (Nat.pow_le_pow_right (by decide) (by omega))) hgreatest
    have hscaled := scale_of_isHz (k := 3) (exponent_le hpos hfit) (isHz_scaled hpos hle hfit)
    rwa [Int.toNat_of_nonneg hnn, ← hsig] at hscaled

/-- The text of a finite float is that of a numeral in range. -/
theorem numeral_of_exact (hx : Exact.ofFloat x = .finite isNegative m q) :
    ∃ n : Numeral, n.Sound ∧ InRange isNegative n.significand n.exponent ∧
      Layout.json.chars x = n.signed isNegative := by
  rcases Nat.eq_zero_or_pos m with rfl | hm
  · -- Zero is written `0.0`, which is below its last place.
    have hplaces : zeroNumeral.exponent < 0 := by decide
    refine ⟨zeroNumeral, sound_zeroNumeral, ?_, ?_⟩
    · intro e he
      exact ofParts_of_scale isNegative (scale_of_neg 4 _ (by omega))
    · rw [chars_eq hx, numeral_shortest_zero]
  · exact ⟨_, (written_of_exact hm hx).sound, inRange_of_exact hm hx, chars_eq hx⟩

/-- The text of a finite float is read as a number. -/
theorem reads_of_exact (hx : Exact.ofFloat x = .finite isNegative m q) :
    ∃ y, Reads Json.float (Layout.json.chars x) y := by
  obtain ⟨n, hsound, hrange, hchars⟩ := numeral_of_exact hx
  obtain ⟨y, hy⟩ := hrange _ (.inl (Int.le_refl _))
  exact ⟨y, hchars ▸ reads_float hsound hy⟩

end

/-- A positive number as a document writes it. -/
def IsPositiveNumber (cs : List Char) : Prop :=
  ∃ n : Numeral, n.Sound ∧ 0 < n.significand ∧ cs = n.text

/-- **Positive numbers in documents.** -/
theorem isPositiveNumber_chars {x : Float} (h : Job.isHz x = true) :
    IsPositiveNumber (Layout.json.chars x) := by
  obtain ⟨m, q, hm, hx⟩ := isHz_iff_exact.1 h
  have hw := written_of_exact hm hx
  exact ⟨_, hw.sound, hw.pos, chars_eq hx⟩

/-- The float that is read from the text of a float. -/
def readBack (x : Float) : Float :=
  match Json.float (Layout.json.chars x) with
  | .ok (y, _) => y
  | .error _ => x

/-- **Reading back.** The text of a finite float is read as a number. -/
theorem reads_readBack {x : Float} (h : x.isFinite = true) :
    Reads Json.float (Layout.json.chars x) (readBack x) := by
  obtain ⟨isNegative, m, q, hx⟩ := isFinite_iff_exact.1 h
  obtain ⟨y, hreads⟩ := reads_of_exact hx
  have hback := hreads.eq [] [] nofun ends_nil
  rw [List.nil_append, List.append_nil] at hback
  unfold readBack
  rwa [hback]

/-- The text of a finite float that is cut short is incomplete or a number itself. -/
theorem halts_chars {x : Float} (h : x.isFinite = true) :
    Halts Json.float (Layout.json.chars x) := by
  obtain ⟨isNegative, m, q, hx⟩ := isFinite_iff_exact.1 h
  obtain ⟨n, hsound, hrange, hchars⟩ := numeral_of_exact hx
  exact hchars ▸ halts_float hsound hrange

end ToneRelay.Decimal
