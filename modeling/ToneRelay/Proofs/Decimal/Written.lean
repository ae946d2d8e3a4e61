import ToneRelay.Decimal.Layout
import ToneRelay.Proofs.Json.Numeral

/-!
# How a positive number is written in a document

`magnitude_eq`: the text of a positive number is a numeral without a sign, with the digits of the
shortest decimal number. Its power of ten is below zero, or it is the one of that decimal number.
-/

namespace ToneRelay.Decimal

open Json

/-! ## The numeral -/

/-- The numeral of `digits · 10 ^ exponent`. -/
def Scaled.numeral (s : Scaled) : Numeral :=
  let ds := Nat.toDigits 10 s.digits
  let exponent := s.exponent + ds.length - 1
  if Layout.json.usesExponent exponent then ⟨ds.take 1, ds.drop 1, some exponent⟩
  else if 0 ≤ s.exponent then ⟨ds ++ List.replicate s.exponent.toNat '0', ['0'], none⟩
  else if (-s.exponent).toNat < ds.length then
    ⟨ds.take (ds.length - (-s.exponent).toNat), ds.drop (ds.length - (-s.exponent).toNat), none⟩
  else ⟨['0'], List.replicate ((-s.exponent).toNat - ds.length) '0' ++ ds, none⟩

theorem pointed_of_ne {places : List Char} (h : places ≠ []) :
    Numeral.pointed places = '.' :: places := by
  cases places with
  | nil => exact absurd rfl h
  | cons c places => rfl

theorem scientific_eq {ds : List Char} (h : ds ≠ []) (e : Int) :
    scientific ds e = (Numeral.mk (ds.take 1) (ds.drop 1) (some e)).text := by
  match ds, h with
  | [d], _ => rfl
  | d :: c :: rest, _ => simp [scientific, Numeral.text, Numeral.pointed, Numeral.powered]

/-- The text of a positive number is that of its numeral. -/
theorem magnitude_eq (m : Nat) (q : Int) :
    Layout.json.magnitude m q = (shortest .even m q).numeral.text := by
  have htie : Layout.json.tie = .even := rfl
  unfold Layout.magnitude Scaled.numeral
  rw [htie]
  generalize shortest .even m q = s
  have hne : Nat.toDigits 10 s.digits ≠ [] := Nat.toDigits_ne_nil
  simp only
  by_cases hexp : Layout.json.usesExponent
      (s.exponent + (Nat.toDigits 10 s.digits).length - 1) = true
  · rw [if_pos hexp, if_pos hexp, scientific_eq hne]
  · rw [if_neg hexp, if_neg hexp]
    unfold positional
    by_cases hwhole : 0 ≤ s.exponent
    · rw [if_pos hwhole, if_pos hwhole]
      simp [Numeral.text, Numeral.pointed, Numeral.powered, Layout.json]
    · rw [if_neg hwhole, if_neg hwhole]
      by_cases hlt : (-s.exponent).toNat < (Nat.toDigits 10 s.digits).length
      · have hdrop : (Nat.toDigits 10 s.digits).drop
            ((Nat.toDigits 10 s.digits).length - (-s.exponent).toNat) ≠ [] := by
          rw [Ne, List.drop_eq_nil_iff]
          omega
        rw [if_pos hlt, if_pos hlt, Numeral.text, pointed_of_ne hdrop]
        simp [Numeral.powered]
      · rw [if_neg hlt, if_neg hlt, Numeral.text, pointed_of_ne (by simp)]
        simp [Numeral.powered]

/-! ## Its digits -/

/-- What a numeral says of a decimal number. -/
structure Scaled.Written (s : Scaled) (n : Numeral) : Prop where
  sound : n.Sound
  pos : 0 < n.significand
  value : n.exponent < 0 ∨ n.significand = s.digits ∧ n.exponent = s.exponent

theorem written_scientific {s : Scaled} {d : Char} {ds : List Char} {e : Int}
    (hds : Nat.toDigits 10 s.digits = d :: ds) (hpos : 0 < s.digits)
    (hfit : s.digits ≤ Text.max64) (he : e.natAbs ≤ maxExponent)
    (hexp : e = s.exponent + ds.length) : s.Written ⟨[d], ds, some e⟩ := by
  have hvalue : Nat.ofDigitChars 10 ([d] ++ ds) 0 = s.digits := by
    rw [List.singleton_append, ← hds, Nat.ofDigitChars_ten_toDigits]
  have hdig : ∀ c ∈ d :: ds, c.isDigit = true := fun c hc => isDigit_toDigits (hds ▸ hc)
  refine ⟨⟨by simp, ?_, ?_, by simp, ?_, .inr rfl, ?_⟩, ?_, .inr ⟨hvalue, ?_⟩⟩
  · intro c hc
    exact hdig c (by simp_all)
  · intro c hc
    exact hdig c (by simp_all)
  · exact Nat.le_trans (Nat.le_of_eq hvalue) hfit
  · rintro _ ⟨⟩
    exact he
  · exact Nat.lt_of_lt_of_eq hpos hvalue.symm
  · simp only [Numeral.exponent, Option.getD_some]
    omega

theorem written_whole {s : Scaled} (hpos : 0 < s.digits) (he : 0 ≤ s.exponent)
    (hlt : s.exponent + (Nat.toDigits 10 s.digits).length ≤ 16) :
    s.Written ⟨Nat.toDigits 10 s.digits ++ List.replicate s.exponent.toNat '0', ['0'], none⟩ := by
  have hvalue : Nat.ofDigitChars 10
      (Nat.toDigits 10 s.digits ++ List.replicate s.exponent.toNat '0' ++ ['0']) 0 =
        10 * (10 ^ s.exponent.toNat * s.digits) := by
    rw [Nat.ofDigitChars_append, Nat.ofDigitChars_append, Nat.ofDigitChars_ten_toDigits,
      Nat.ofDigitChars_replicate_zero, Nat.ofDigitChars_cons, Nat.ofDigitChars_nil]
    simp
  have hfit : 10 ^ s.exponent.toNat * s.digits < 10 ^ 16 := by
    calc 10 ^ s.exponent.toNat * s.digits
        < 10 ^ s.exponent.toNat * 10 ^ (Nat.toDigits 10 s.digits).length :=
          Nat.mul_lt_mul_of_pos_left (toDigits_lt _) (Nat.pow_pos (by decide))
      _ = 10 ^ (s.exponent.toNat + (Nat.toDigits 10 s.digits).length) := (Nat.pow_add ..).symm
      _ ≤ 10 ^ 16 := Nat.pow_le_pow_right (by decide) (by omega)
  have hmul : 0 < 10 ^ s.exponent.toNat * s.digits :=
    Nat.mul_pos (Nat.pow_pos (by decide)) hpos
  obtain ⟨d, ds, hds, hd⟩ := toDigits_eq_cons hpos
  refine ⟨⟨by simp, ?_, ?_, ?_, ?_, .inl (by simp), nofun⟩, ?_, .inl (by simp [Numeral.exponent])⟩
  · intro c hc
    rcases List.mem_append.1 hc with hc | hc
    · exact isDigit_toDigits hc
    · rw [(List.mem_replicate.1 hc).2]
      decide
  · intro c hc
    rw [List.mem_singleton.1 hc]
    decide
  · intro c rest h
    rw [hds] at h
    exact hd (List.cons.inj h).1
  · refine Nat.le_trans (Nat.le_of_eq hvalue) ?_
    simp only [Text.max64]
    omega
  · refine Nat.lt_of_lt_of_eq ?_ hvalue.symm
    omega

theorem written_places {s : Scaled} {k : Nat} (hpos : 0 < s.digits) (hfit : s.digits ≤ Text.max64)
    (hk : 0 < k) (hlen : k < (Nat.toDigits 10 s.digits).length) (he : s.exponent = -k) :
    s.Written ⟨(Nat.toDigits 10 s.digits).take ((Nat.toDigits 10 s.digits).length - k),
      (Nat.toDigits 10 s.digits).drop ((Nat.toDigits 10 s.digits).length - k), none⟩ := by
  have hvalue : Nat.ofDigitChars 10
      ((Nat.toDigits 10 s.digits).take ((Nat.toDigits 10 s.digits).length - k) ++
        (Nat.toDigits 10 s.digits).drop ((Nat.toDigits 10 s.digits).length - k)) 0 = s.digits := by
    rw [List.take_append_drop, Nat.ofDigitChars_ten_toDigits]
  obtain ⟨d, ds, hds, hd⟩ := toDigits_eq_cons hpos
  have hlen' := hlen
  rw [hds, List.length_cons] at hlen'
  refine ⟨⟨?_, ?_, ?_, ?_, ?_, .inl ?_, nofun⟩, ?_, .inr ⟨hvalue, ?_⟩⟩
  · rw [Ne, List.take_eq_nil_iff]
    simp
    omega
  · intro c hc
    exact isDigit_toDigits (List.mem_of_mem_take hc)
  · intro c hc
    exact isDigit_toDigits (List.mem_of_mem_drop hc)
  · intro c rest h
    obtain ⟨j, hj⟩ : ∃ j, ds.length + 1 - k = j + 1 := ⟨ds.length - k, by omega⟩
    rw [hds, List.length_cons, hj, List.take_succ_cons] at h
    exact hd (List.cons.inj h).1
  · exact Nat.le_trans (Nat.le_of_eq hvalue) hfit
  · rw [Ne, List.drop_eq_nil_iff]
    omega
  · exact Nat.lt_of_lt_of_eq hpos hvalue.symm
  · simp only [Numeral.exponent, Option.getD_none, List.length_drop]
    omega

theorem written_small {s : Scaled} {k : Nat} (hpos : 0 < s.digits) (hfit : s.digits ≤ Text.max64)
    (he : s.exponent = -(k + (Nat.toDigits 10 s.digits).length : Nat)) :
    s.Written ⟨['0'], List.replicate k '0' ++ Nat.toDigits 10 s.digits, none⟩ := by
  have hvalue : Nat.ofDigitChars 10
      (['0'] ++ (List.replicate k '0' ++ Nat.toDigits 10 s.digits)) 0 = s.digits := by
    rw [List.singleton_append, Nat.ofDigitChars_cons, Nat.ofDigitChars_append,
      Nat.ofDigitChars_replicate_zero]
    simp
  refine ⟨⟨by simp, ?_, ?_, by simp, ?_, .inl ?_, nofun⟩, ?_, .inr ⟨hvalue, ?_⟩⟩
  · intro c hc
    rw [List.mem_singleton.1 hc]
    decide
  · intro c hc
    rcases List.mem_append.1 hc with hc | hc
    · rw [(List.mem_replicate.1 hc).2]
      decide
    · exact isDigit_toDigits hc
  · exact Nat.le_trans (Nat.le_of_eq hvalue) hfit
  · simp
  · exact Nat.lt_of_lt_of_eq hpos hvalue.symm
  · simp only [Numeral.exponent, Option.getD_none, List.length_append, List.length_replicate]
    omega

/-- **How a positive number is written.** -/
theorem written_numeral {s : Scaled} (hpos : 0 < s.digits) (hfit : s.digits ≤ Text.max64)
    (he : s.exponent.natAbs ≤ 1000) : s.Written s.numeral := by
  have hlen : (Nat.toDigits 10 s.digits).length ≤ 20 := by
    rw [Nat.length_toDigits_le_iff (by decide) (by decide)]
    exact Nat.lt_of_le_of_lt hfit (by decide)
  unfold Scaled.numeral
  simp only
  by_cases hexp : Layout.json.usesExponent
      (s.exponent + (Nat.toDigits 10 s.digits).length - 1) = true
  · rw [if_pos hexp]
    obtain ⟨d, ds, hds, -⟩ := toDigits_eq_cons hpos
    rw [hds, List.length_cons] at hlen ⊢
    show s.Written ⟨[d], ds, some _⟩
    exact written_scientific hds hpos hfit (by unfold maxExponent; omega) (by omega)
  · rw [if_neg hexp]
    by_cases hwhole : 0 ≤ s.exponent
    · rw [if_pos hwhole]
      refine written_whole hpos hwhole ?_
      simp only [Layout.json, Bool.or_eq_true, decide_eq_true_iff] at hexp
      omega
    · rw [if_neg hwhole]
      by_cases hlt : (-s.exponent).toNat < (Nat.toDigits 10 s.digits).length
      · rw [if_pos hlt]
        exact written_places hpos hfit (by omega) hlt (by omega)
      · rw [if_neg hlt]
        exact written_small hpos hfit (by omega)

end ToneRelay.Decimal
