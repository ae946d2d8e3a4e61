import Mathlib.Algebra.Ring.Nat
import ToneRelay.Json.Ignored

/-!
# Numbers as documents write them

A `Numeral` is a number that is written with decimal places, with a power of ten, or with both.
`number?_signed`: the reader takes it, with or without a minus before it, as a float made of all its
digits and of the power of ten of the last one, and leaves what comes after it.
-/

namespace ToneRelay.Json

/-- A number that is no whole number: its digits before and after the point, and its power of ten.
-/
structure Numeral where
  whole : List Char
  places : List Char
  power : Option Int

namespace Numeral

/-- The point and what comes after it. -/
def pointed : List Char → List Char
  | [] => []
  | places => '.' :: places

/-- The power of ten. -/
def powered : Option Int → List Char
  | none => []
  | some e => 'e' :: (if e < 0 then '-' else '+') :: Nat.toDigits 10 e.natAbs

def text (n : Numeral) : List Char := n.whole ++ pointed n.places ++ powered n.power

/-- The text with its sign, which is only written when it is a minus. -/
def signed (n : Numeral) (isNegative : Bool) : List Char :=
  if isNegative then '-' :: n.text else n.text

/-- All digits as one number. -/
def significand (n : Numeral) : Nat := Nat.ofDigitChars 10 (n.whole ++ n.places) 0

/-- The power of ten of the last digit. -/
def exponent (n : Numeral) : Int := n.power.getD 0 - n.places.length

/-- What holds of the digits of a numeral. -/
structure Sound (n : Numeral) : Prop where
  whole_ne : n.whole ≠ []
  whole_digits : ∀ c ∈ n.whole, c.isDigit = true
  places_digits : ∀ c ∈ n.places, c.isDigit = true
  lead : ∀ c rest, n.whole ≠ '0' :: c :: rest
  fits : n.significand ≤ Text.max64
  isFloat : n.places ≠ [] ∨ n.power.isSome = true
  power_le : ∀ e, n.power = some e → e.natAbs ≤ maxExponent

end Numeral

/-- What does not go on a number. -/
def Ends (cs : List Char) : Prop :=
  ∀ c rest, cs = c :: rest → c.isDigit = false ∧ c ≠ '.' ∧ c ≠ 'e' ∧ c ≠ 'E'

theorem ends_nil : Ends [] := nofun

/-- What does not go on with a digit. -/
def NoDigit (cs : List Char) : Prop := ∀ c rest, cs = c :: rest → c.isDigit = false

theorem Ends.noDigit {cs : List Char} (h : Ends cs) : NoDigit cs := fun c rest hc => (h c rest hc).1

theorem noDigit_cons {c : Char} (h : c.isDigit = false) (cs : List Char) : NoDigit (c :: cs) := by
  intro d rest hd
  cases hd
  exact h

theorem takeWhile_digits {ds rest : List Char} (hd : ∀ c ∈ ds, c.isDigit = true)
    (hr : NoDigit rest) : (ds ++ rest).takeWhile Char.isDigit = ds := by
  rw [List.takeWhile_append_of_pos hd]
  cases rest with
  | nil => simp
  | cons c rest => simp [hr c rest rfl]

theorem dropWhile_digits {ds rest : List Char} (hd : ∀ c ∈ ds, c.isDigit = true)
    (hr : NoDigit rest) : (ds ++ rest).dropWhile Char.isDigit = rest := by
  rw [List.dropWhile_append_of_pos hd]
  cases rest with
  | nil => rfl
  | cons c rest => simp [hr c rest rfl]

theorem le_ofDigitChars (cs : List Char) (n : Nat) : n ≤ Nat.ofDigitChars 10 cs n := by
  induction cs generalizing n with
  | nil => simp
  | cons c cs ih =>
    rw [Nat.ofDigitChars_cons]
    have := ih (10 * n + (c.toNat - '0'.toNat))
    omega

/-- Digits that fit are all taken. -/
theorem accumulate_eq {cs : List Char} {n : Nat} (h : Nat.ofDigitChars 10 cs n ≤ Text.max64) :
    accumulate n cs = (Nat.ofDigitChars 10 cs n, []) := by
  induction cs generalizing n with
  | nil => simp [accumulate]
  | cons c cs ih =>
    rw [Nat.ofDigitChars_cons] at h ⊢
    have hle := le_ofDigitChars cs (10 * n + (c.toNat - '0'.toNat))
    have h48 : '0'.toNat = 48 := rfl
    rw [h48] at h hle ⊢
    unfold accumulate
    rw [if_pos (Nat.le_trans hle h)]
    exact ih h

theorem ofDigitChars_whole_le {ds es : List Char}
    (h : Nat.ofDigitChars 10 (ds ++ es) 0 ≤ Text.max64) :
    Nat.ofDigitChars 10 ds 0 ≤ Text.max64 := by
  rw [Nat.ofDigitChars_append] at h
  exact Nat.le_trans (le_ofDigitChars es _) h

/-! ## Digits -/

theorem isDigit_toDigits {n : Nat} {c : Char} (h : c ∈ Nat.toDigits 10 n) : c.isDigit = true :=
  Nat.isDigit_of_mem_toDigits (by decide) (by decide) h

theorem ofDigitChars_lt {cs : List Char} (h : ∀ c ∈ cs, c.isDigit = true) (n : Nat) :
    Nat.ofDigitChars 10 cs n < (n + 1) * 10 ^ cs.length := by
  induction cs generalizing n with
  | nil => simp
  | cons c cs ih =>
    have hc : c.toNat - '0'.toNat ≤ 9 := by
      have hdig := h c (List.mem_cons_self)
      have h48 : '0'.toNat = 48 := rfl
      simp only [Char.isDigit, Bool.and_eq_true, decide_eq_true_iff, UInt32.le_iff_toNat_le] at hdig
      have h57 : c.toNat ≤ 57 := hdig.2
      omega
    rw [Nat.ofDigitChars_cons, List.length_cons]
    calc Nat.ofDigitChars 10 cs (10 * n + (c.toNat - '0'.toNat))
        < (10 * n + (c.toNat - '0'.toNat) + 1) * 10 ^ cs.length :=
          ih (fun d hd => h d (List.mem_cons_of_mem _ hd)) _
      _ ≤ ((n + 1) * 10) * 10 ^ cs.length := Nat.mul_le_mul_right _ (by omega)
      _ = (n + 1) * 10 ^ (cs.length + 1) := by rw [Nat.mul_assoc, Nat.pow_succ, Nat.mul_comm 10]

/-- A positive number does not start with a zero. -/
theorem toDigits_ne_zero_cons {n : Nat} (hn : 0 < n) (rest : List Char) :
    Nat.toDigits 10 n ≠ '0' :: rest := by
  intro h
  have hvalue : Nat.ofDigitChars 10 rest 0 = n := by
    have := Nat.ofDigitChars_ten_toDigits (n := n)
    rw [h, Nat.ofDigitChars_cons] at this
    exact this
  cases rest with
  | nil =>
    rw [Nat.ofDigitChars_nil] at hvalue
    omega
  | cons c cs =>
    have hdig : ∀ d ∈ c :: cs, d.isDigit = true := by
      intro d hd
      exact isDigit_toDigits (n := n) (h ▸ List.mem_cons_of_mem _ hd)
    have hlt := ofDigitChars_lt hdig 0
    rw [hvalue, Nat.zero_add, Nat.one_mul] at hlt
    have hlen := (Nat.length_toDigits_le_iff (b := 10) (n := n) (k := (c :: cs).length)
      (by decide) (by simp)).2 hlt
    rw [h, List.length_cons] at hlen
    omega

theorem toDigits_eq_cons {n : Nat} (hn : 0 < n) :
    ∃ d ds, Nat.toDigits 10 n = d :: ds ∧ d ≠ '0' := by
  obtain ⟨d, ds, hds⟩ := List.exists_cons_of_ne_nil (Nat.toDigits_ne_nil (b := 10) (n := n))
  refine ⟨d, ds, hds, ?_⟩
  rintro rfl
  exact toDigits_ne_zero_cons hn ds hds

/-- The leading digits of a positive number make a positive number. -/
theorem ofDigitChars_pos_of_toDigits {n : Nat} (hn : 0 < n) {ds rest : List Char}
    (h : Nat.toDigits 10 n = ds ++ rest) (hne : ds ≠ []) : 0 < Nat.ofDigitChars 10 ds 0 := by
  obtain ⟨d, es, hcons, hd⟩ := toDigits_eq_cons hn
  obtain ⟨c, ds, rfl⟩ := List.exists_cons_of_ne_nil hne
  rw [h, List.cons_append, List.cons.injEq] at hcons
  obtain ⟨rfl, -⟩ := hcons
  have hdigit : c.isDigit = true := isDigit_toDigits (n := n) (h ▸ by simp)
  have hpos : 0 < c.toNat - '0'.toNat := by
    rcases Nat.eq_zero_or_pos (c.toNat - '0'.toNat) with hzero | hpos
    · have hge : '0'.toNat ≤ c.toNat := by
        simp only [Char.isDigit, Bool.and_eq_true, decide_eq_true_iff,
          UInt32.le_iff_toNat_le] at hdigit
        exact hdigit.1
      exact absurd (Char.toNat_inj.1 (by omega)) hd
    · exact hpos
  rw [Nat.ofDigitChars_cons]
  exact Nat.lt_of_lt_of_le (by omega) (le_ofDigitChars ds _)

theorem toDigits_lt (n : Nat) : n < 10 ^ (Nat.toDigits 10 n).length :=
  (Nat.length_toDigits_le_iff (by decide) Nat.length_toDigits_pos).1 (Nat.le_refl _)

/-! ## Powers of ten -/

/-- A number below one is never out of range. -/
theorem scale_of_neg (fuel : Nat) (x : Float) {e : Int} (he : e < 0) :
    ∃ y, scale fuel x e = .ok y := by
  induction fuel generalizing x e with
  | zero => exact ⟨x, rfl⟩
  | succ fuel ih =>
    unfold scale
    by_cases hsmall : e.natAbs ≤ 308
    · rw [if_pos hsmall, if_neg (by omega)]
      exact ⟨_, rfl⟩
    · rw [if_neg hsmall]
      by_cases hzero : (x == 0.0) = true
      · rw [if_pos hzero]
        exact ⟨_, rfl⟩
      · rw [if_neg hzero, if_neg (by omega)]
        exact ih _ (by omega)

/-- Digits in range make a float, with either sign. -/
theorem ofParts_of_scale (isNegative : Bool) {significand : Nat} {exponent : Int}
    (h : ∃ y, scale 4 significand.toUInt64.toFloat exponent = .ok y) :
    ∃ y, ofParts isNegative significand exponent = .ok y := by
  obtain ⟨y, hy⟩ := h
  unfold ofParts
  rw [hy]
  exact ⟨_, rfl⟩

/-! ## Reading -/

section
variable {rest : List Char} (isNegative : Bool)

theorem exponentPart_digits (down : Bool) {ds : List Char} (hne : ds ≠ [])
    (hd : ∀ c ∈ ds, c.isDigit = true) (hmax : Nat.ofDigitChars 10 ds 0 ≤ maxExponent)
    (significand : Nat) (start : Int) (hr : NoDigit rest) :
    exponentPart isNegative significand start ((if down then '-' else '+') :: (ds ++ rest)) =
      (ofParts isNegative significand (if down then start - (Nat.ofDigitChars 10 ds 0 : Int)
        else start + (Nat.ofDigitChars 10 ds 0 : Int))).map fun x => (.float x, rest) := by
  unfold exponentPart
  cases down with
  | true =>
    simp only [if_true, takeWhile_digits hd hr, dropWhile_digits hd hr]
    rw [if_neg (Nat.not_lt.2 hmax)]
  | false =>
    simp only [Bool.false_eq_true, if_false, takeWhile_digits hd hr, dropWhile_digits hd hr]
    rw [if_neg (Nat.not_lt.2 hmax)]

theorem exponentPart_powered {e : Int} (he : e.natAbs ≤ maxExponent) (significand : Nat)
    (start : Int) (hr : Ends rest) :
    exponentPart isNegative significand start
        ((if e < 0 then '-' else '+') :: Nat.toDigits 10 e.natAbs ++ rest) =
      (ofParts isNegative significand (start + e)).map fun x => (.float x, rest) := by
  have hread := exponentPart_digits isNegative (decide (e < 0))
    (Nat.toDigits_ne_nil (b := 10) (n := e.natAbs)) (fun _ => isDigit_toDigits)
    (by rwa [Nat.ofDigitChars_ten_toDigits]) significand start hr.noDigit
  have hexp : (if e < 0 then start - (e.natAbs : Int) else start + (e.natAbs : Int)) = start + e :=
    by split <;> omega
  simp only [Nat.ofDigitChars_ten_toDigits, decide_eq_true_eq, hexp] at hread
  exact hread

/-- The power of ten, if there is one, and then the end. -/
theorem afterDigits_powered {power : Option Int} (he : ∀ e, power = some e → e.natAbs ≤ maxExponent)
    (significand : Nat) (start : Int) (hr : Ends rest) :
    afterDigits isNegative significand start (Numeral.powered power ++ rest) =
      (ofParts isNegative significand (start + power.getD 0)).map fun x => (.float x, rest) := by
  cases power with
  | none =>
    unfold afterDigits
    rw [Numeral.powered, List.nil_append, Option.getD_none, Int.add_zero]
    split
    · exact absurd rfl (hr _ _ rfl).2.2.1
    · exact absurd rfl (hr _ _ rfl).2.2.2
    · rfl
  | some e => exact exponentPart_powered isNegative (he e rfl) significand start hr

theorem noDigit_powered {power : Option Int} (hr : Ends rest) :
    NoDigit (Numeral.powered power ++ rest) := by
  cases power with
  | none => exact hr.noDigit
  | some e => exact noDigit_cons (by decide) _

theorem placesPart_append {places cs : List Char} {n : Nat} (start : Int)
    (hd : ∀ c ∈ places, c.isDigit = true) (hne : places ≠ [])
    (hfit : Nat.ofDigitChars 10 places n ≤ Text.max64) (hr : NoDigit cs) :
    placesPart isNegative n start (places ++ cs) =
      afterDigits isNegative (Nat.ofDigitChars 10 places n) (start - places.length) cs := by
  unfold placesPart
  simp only [takeWhile_digits hd hr, dropWhile_digits hd hr]
  rw [accumulate_eq hfit]
  rfl

theorem placesPart_eq {places : List Char} {power : Option Int} {n : Nat} (start : Int)
    (hd : ∀ c ∈ places, c.isDigit = true) (hne : places ≠ [])
    (hfit : Nat.ofDigitChars 10 places n ≤ Text.max64)
    (he : ∀ e, power = some e → e.natAbs ≤ maxExponent) (hr : Ends rest) :
    placesPart isNegative n start (places ++ (Numeral.powered power ++ rest)) =
      (ofParts isNegative (Nat.ofDigitChars 10 places n)
        (start - places.length + power.getD 0)).map fun x => (.float x, rest) := by
  rw [placesPart_append isNegative start hd hne hfit (noDigit_powered hr)]
  exact afterDigits_powered isNegative he _ _ hr

/-- The digits of a whole number that fits sixty-four bits. -/
structure IsWhole (ds : List Char) : Prop where
  ne : ds ≠ []
  digits : ∀ c ∈ ds, c.isDigit = true
  lead : ∀ c rest, ds ≠ '0' :: c :: rest
  fits : Nat.ofDigitChars 10 ds 0 ≤ Text.max64

theorem Numeral.Sound.isWhole {n : Numeral} (h : n.Sound) : IsWhole n.whole :=
  ⟨h.whole_ne, h.whole_digits, h.lead, ofDigitChars_whole_le h.fits⟩

section
variable {ds : List Char} (h : IsWhole ds)
include h

theorem unsignedNumber_whole (hr : Ends rest) : unsignedNumber isNegative (ds ++ rest) =
    .ok (wholeNumber isNegative (Nat.ofDigitChars 10 ds 0), rest) := by
  obtain ⟨hne, hd, hlead, hfits⟩ := h
  unfold unsignedNumber
  simp only [takeWhile_digits hd hr.noDigit, dropWhile_digits hd hr.noDigit]
  rw [accumulate_eq hfits]
  cases rest with
  | nil => rfl
  | cons c cs =>
    obtain ⟨-, hdot, he, hE⟩ := hr c cs rfl
    simp only [he, hE, ne_eq, not_true_eq_false, or_self, if_false]

theorem unsignedNumber_point (cs : List Char) : unsignedNumber isNegative (ds ++ '.' :: cs) =
    placesPart isNegative (Nat.ofDigitChars 10 ds 0) 0 cs := by
  obtain ⟨hne, hd, hlead, hfits⟩ := h
  have hpoint : NoDigit ('.' :: cs) := noDigit_cons (by decide) cs
  unfold unsignedNumber
  simp only [takeWhile_digits hd hpoint, dropWhile_digits hd hpoint]
  rw [accumulate_eq hfits]
  rfl

theorem unsignedNumber_power (cs : List Char) : unsignedNumber isNegative (ds ++ 'e' :: cs) =
    exponentPart isNegative (Nat.ofDigitChars 10 ds 0) 0 cs := by
  obtain ⟨hne, hd, hlead, hfits⟩ := h
  have hpower : NoDigit ('e' :: cs) := noDigit_cons (by decide) cs
  unfold unsignedNumber
  simp only [takeWhile_digits hd hpower, dropWhile_digits hd hpower]
  rw [accumulate_eq hfits]
  rfl

end

theorem unsignedNumber_text {n : Numeral} (h : n.Sound) (hr : Ends rest) :
    unsignedNumber isNegative (n.text ++ rest) =
      (ofParts isNegative n.significand n.exponent).map fun x => (.float x, rest) := by
  have hwhole := h.isWhole
  obtain ⟨whole, places, power⟩ := n
  obtain ⟨-, -, hplaces, -, hfit, hfloat, hpower⟩ := h
  simp only [Numeral.significand, Numeral.exponent] at hplaces hfit hfloat hpower hwhole ⊢
  simp only [Numeral.text, List.append_assoc]
  cases places with
  | nil =>
    obtain ⟨e, rfl⟩ := Option.isSome_iff_exists.1 (hfloat.resolve_left (fun hp => hp rfl))
    have hread := exponentPart_powered isNegative (hpower e rfl) (Nat.ofDigitChars 10 whole 0) 0 hr
    rw [List.append_nil, List.length_nil, Int.natCast_zero, Int.sub_zero]
    rw [Int.zero_add] at hread
    exact (unsignedNumber_power isNegative hwhole _).trans hread
  | cons c places =>
    have hread := placesPart_eq isNegative (n := Nat.ofDigitChars 10 whole 0) 0 hplaces
      (List.cons_ne_nil c places) (by rwa [← Nat.ofDigitChars_append]) hpower hr
    rw [Int.zero_sub, Int.add_comm, ← Int.sub_eq_add_neg] at hread
    rw [Nat.ofDigitChars_append]
    exact (unsignedNumber_point isNegative hwhole _).trans hread

theorem number?_of_digits {ds cs : List Char} (hne : ds ≠ []) (hd : ∀ c ∈ ds, c.isDigit = true) :
    number? (ds ++ cs) = some (unsignedNumber false (ds ++ cs)) := by
  obtain ⟨c, ds, rfl⟩ := List.exists_cons_of_ne_nil hne
  have hdig : c.isDigit = true := hd c (by simp)
  unfold number?
  split
  · rename_i heq
    cases heq
    exact absurd hdig (by decide)
  · rename_i heq
    cases heq
    rw [if_pos hdig]
  · rename_i heq
    cases heq

theorem toDigits_lead (n : Nat) (c : Char) (cs : List Char) :
    Nat.toDigits 10 n ≠ '0' :: c :: cs := by
  rcases Nat.eq_zero_or_pos n with rfl | hn
  · rw [Nat.toDigits_zero]
    nofun
  · exact toDigits_ne_zero_cons hn _

theorem isWhole_toDigits {n : Nat} (hn : n ≤ Text.max64) : IsWhole (Nat.toDigits 10 n) where
  ne := Nat.toDigits_ne_nil
  digits _ := isDigit_toDigits
  lead := toDigits_lead n
  fits := by rwa [Nat.ofDigitChars_ten_toDigits]

theorem number?_whole {ds : List Char} (h : IsWhole ds) (hr : Ends rest) :
    number? (ds ++ rest) = some (.ok (.natural (Nat.ofDigitChars 10 ds 0), rest)) := by
  rw [number?_of_digits h.ne h.digits, unsignedNumber_whole false h hr]
  rfl

/-- A whole number that fits is read as it is. -/
theorem number?_toDigits {n : Nat} (hn : n ≤ Text.max64) (hr : Ends rest) :
    number? (Nat.toDigits 10 n ++ rest) = some (.ok (.natural n, rest)) := by
  rw [number?_whole (isWhole_toDigits hn) hr, Nat.ofDigitChars_ten_toDigits]

/-- **Reading a numeral.** -/
theorem number?_signed {n : Numeral} (h : n.Sound) (hr : Ends rest) :
    number? (n.signed isNegative ++ rest) =
      some ((ofParts isNegative n.significand n.exponent).map fun x => (.float x, rest)) := by
  rw [← unsignedNumber_text isNegative h hr]
  cases isNegative with
  | true => rfl
  | false =>
    show number? (n.text ++ rest) = _
    simp only [Numeral.text, List.append_assoc]
    exact number?_of_digits h.whole_ne h.whole_digits

end

end ToneRelay.Json
