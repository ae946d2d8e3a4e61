import Mathlib.Data.List.TakeWhile
import ToneRelay.Proofs.Json.Reading

/-!
# Texts that are cut short

What the readers of texts, names and numbers make of a text that lacks its end (`Cut`).
-/

namespace ToneRelay.Json

/-- The text without its end: at least one character is missing. -/
def Cut (p cs : List Char) : Prop := ∃ c rest, cs = p ++ c :: rest

section
variable {p a b cs : List Char} {c : Char}

theorem cut_iff : Cut p cs ↔ p <+: cs ∧ p ≠ cs := by
  constructor
  · rintro ⟨c, rest, rfl⟩
    exact ⟨List.prefix_append p _, by simp⟩
  · rintro ⟨⟨rest, rfl⟩, hne⟩
    cases rest with
    | nil => exact absurd (List.append_nil p).symm hne
    | cons c rest => exact ⟨c, rest, rfl⟩

theorem not_cut_nil : ¬ Cut p [] := by
  rintro ⟨c, rest, h⟩
  simp at h

theorem Cut.append (h : Cut p (a ++ b)) : Cut p a ∨ ∃ q, p = a ++ q ∧ Cut q b := by
  obtain ⟨c, rest, h⟩ := h
  rcases List.append_eq_append_iff.1 h with ⟨more, rfl, hb⟩ | ⟨more, ha, hmore⟩
  · exact .inr ⟨more, rfl, c, rest, hb⟩
  · cases more with
    | nil =>
      rw [List.append_nil] at ha
      exact .inr ⟨[], by rw [ha, List.append_nil], c, rest, hmore.symm⟩
    | cons d more => exact .inl ⟨d, more, ha⟩

theorem Cut.cons (h : Cut p (c :: cs)) : p = [] ∨ ∃ q, p = c :: q ∧ Cut q cs := by
  obtain ⟨d, rest, h⟩ := h
  cases p with
  | nil => exact .inl rfl
  | cons e p =>
    obtain ⟨rfl, rfl⟩ := List.cons.inj h
    exact .inr ⟨p, rfl, d, rest, rfl⟩

theorem Cut.of_append (h : Cut p b) (a : List Char) : Cut (a ++ p) (a ++ b) := by
  obtain ⟨c, rest, rfl⟩ := h
  exact ⟨c, rest, (List.append_assoc a p _).symm⟩

theorem Cut.singleton (h : Cut p [c]) : p = [] := by
  rcases h.cons with rfl | ⟨q, rfl, hq⟩
  · rfl
  · exact absurd hq not_cut_nil

theorem Ends.cut (h : Ends cs) (hp : Cut p cs) : Ends p := by
  obtain ⟨c, rest, rfl⟩ := hp
  rintro d ds rfl
  exact h d _ rfl

/-- A text that is cut short at a token, or before it, or after it. -/
theorem Cut.token (h : Cut p (a ++ c :: cs)) (hb : Blank a) :
    Blank p ∨ ∃ q, p = a ++ c :: q ∧ Cut q cs := by
  rcases h.append with h | ⟨q, rfl, hq⟩
  · obtain ⟨d, rest, rfl⟩ := h
    exact .inl fun e he => hb e (List.mem_append_left _ he)
  · rcases hq.cons with rfl | ⟨r, rfl, hr⟩
    · rw [List.append_nil]
      exact .inl hb
    · exact .inr ⟨r, rfl, hr⟩

theorem skipSpace_blank (h : Blank p) : skipSpace p = [] :=
  List.dropWhile_eq_nil_iff.2 h

end

/-! ## Quoted texts -/

theorem quotedChar_cut_pair {c : Char} {p : List Char} (h : Cut p ['\\', c]) :
    quotedChar p = .error .incomplete := by
  rcases h.cons with rfl | ⟨q, rfl, hq⟩
  · rfl
  · rw [hq.singleton]
    rfl

/-- Too few digits are too few bytes. -/
theorem quotedChar_cut_number {a b : Char} {p : List Char} (ha : a.utf8Size = 1)
    (h : Cut p ['\\', 'u', '0', '0', a, b]) : quotedChar p = .error .incomplete := by
  rcases h.cons with rfl | ⟨q, rfl, h1⟩
  · rfl
  rcases h1.cons with rfl | ⟨q, rfl, h2⟩
  · rfl
  rcases h2.cons with rfl | ⟨q, rfl, h3⟩
  · rfl
  rcases h3.cons with rfl | ⟨q, rfl, h4⟩
  · rfl
  rcases h4.cons with rfl | ⟨q, rfl, h5⟩
  · rfl
  have h0 : '0'.utf8Size = 1 := rfl
  have hfault : hexFault ['0', '0', a] = .incomplete := by simp [hexFault, bytesUpTo, h0, ha]
  have hnumbered : numbered ['0', '0', a] = .error .incomplete := by
    unfold numbered hex4
    rw [hfault]
  rw [h5.singleton]
  show (numbered ['0', '0', a]).map (fun r => (some r.1, r.2)) = _
  rw [hnumbered]
  rfl

theorem quotedChar_cut {c : Char} {p : List Char} (h : Cut p (escape c)) :
    quotedChar p = .error .incomplete := by
  have hdigit : ∀ n < 2, (hexDigit n).utf8Size = 1 := by decide
  unfold escape at h
  split_ifs at h with _ _ _ _ _ _ _ h32
  any_goals exact quotedChar_cut_pair h
  · exact quotedChar_cut_number (hdigit _ (by omega)) h
  · rw [h.singleton]
    rfl

theorem quotedFrom_cut {cs p : List Char} (h : Cut p (cs.flatMap escape ++ ['"'])) (fuel : Nat)
    (read : List Char) : quotedFrom fuel read p = .error .incomplete := by
  induction fuel generalizing cs p read with
  | zero => rfl
  | succ fuel ih =>
    cases cs with
    | nil =>
      rw [h.singleton]
      rfl
    | cons c cs =>
      rw [List.flatMap_cons, List.append_assoc] at h
      unfold quotedFrom
      rcases h.append with h | ⟨q, rfl, hq⟩
      · rw [quotedChar_cut h]
      · rw [quotedChar_escape]
        exact ih hq _

/-- A quoted text that is cut short is incomplete, wherever the cut is. -/
theorem quoted_cut {cs p : List Char} (h : Cut p (cs.flatMap escape ++ ['"'])) :
    quoted p = .error .incomplete :=
  quotedFrom_cut h _ _

theorem colon_blank {blanks : List Char} (hb : Blank blanks) :
    colon blanks = .error .incomplete := by
  unfold colon
  rw [skipSpace_blank hb]

/-! ## Halting -/

/-- What was read is incomplete, or was read to the end of the text. -/
def Unfinished {α : Type} (r : Reading α) : Prop := r = .error .incomplete ∨ ∃ v, r = .ok (v, [])

theorem Unfinished.map {α β : Type} {r : Reading α} (h : Unfinished r) (f : α → β) :
    Unfinished (r.map fun (v, rest) => (f v, rest)) := by
  rcases h with rfl | ⟨v, rfl⟩
  · exact .inl rfl
  · exact .inr ⟨f v, rfl⟩

/-- A spelling that is cut short is read to its end at most. -/
def Halts {α : Type} (read : List Char → Reading α) (s : List Char) : Prop :=
  ∀ blanks p, Blank blanks → Cut p s → Unfinished (read (blanks ++ p))

theorem halts_text (s : String) : Halts text (quote s.toList) := by
  intro blanks p hb hp
  left
  unfold text
  rcases hp.cons with rfl | ⟨q, rfl, hq⟩
  · rw [List.append_nil, skipSpace_blank hb]
    rfl
  · rw [skipSpace_blanks hb isSpace_quote]
    simp only [quoted_cut hq]
    rfl

theorem halts_variant {α : Type} (names : List (String × α)) (name : String) :
    Halts (variant names) (quote name.toList) := by
  intro blanks p hb hp
  left
  unfold variant
  rcases hp.cons with rfl | ⟨q, rfl, hq⟩
  · rw [List.append_nil, skipSpace_blank hb]
  · rw [skipSpace_blanks hb isSpace_quote]
    simp only [quotedName, quoted_cut hq]
    rfl

/-! ## Numbers -/

theorem IsWhole.cut {ds p : List Char} (h : IsWhole ds) (hp : Cut p ds) (hne : p ≠ []) :
    IsWhole p ∧ Nat.ofDigitChars 10 p 0 ≤ Nat.ofDigitChars 10 ds 0 := by
  obtain ⟨c, rest, rfl⟩ := hp
  have hle : Nat.ofDigitChars 10 p 0 ≤ Nat.ofDigitChars 10 (p ++ c :: rest) 0 := by
    rw [Nat.ofDigitChars_append]
    exact le_ofDigitChars _ _
  refine ⟨⟨hne, ?_, ?_, Nat.le_trans hle h.fits⟩, hle⟩
  · exact fun d hd => h.digits d (List.mem_append_left _ hd)
  · rintro d ds rfl
    exact h.lead d _ rfl

theorem halts_whole {n max : Nat} (hn : n ≤ max) (hmax : max ≤ Text.max64) :
    Halts (whole max) (Nat.toDigits 10 n) := by
  intro blanks p hb hp
  have hwhole := isWhole_toDigits (Nat.le_trans hn hmax)
  unfold whole
  by_cases hne : p = []
  · rw [hne, List.append_nil, skipSpace_blank hb]
    exact .inl rfl
  · obtain ⟨hcut, hle⟩ := hwhole.cut hp hne
    have hskip := skipSpace_digits hb hne hcut.digits []
    have hread := number?_whole hcut ends_nil
    rw [List.append_nil] at hskip hread
    rw [Nat.ofDigitChars_ten_toDigits] at hle
    simp only [hskip, hread, if_pos (Nat.le_trans hle hn)]
    exact .inr ⟨_, rfl⟩

section
variable (isNegative : Bool)

/-- The digits make a float in range at every power of ten up to a given one, and below one. -/
def InRange (significand : Nat) (exponent : Int) : Prop :=
  ∀ e, e ≤ exponent ∨ e < 0 → ∃ x, ofParts isNegative significand e = .ok x

variable {isNegative}

theorem unfinished_ofParts {significand : Nat} {e : Int}
    (h : ∃ x, ofParts isNegative significand e = .ok x) :
    Unfinished ((ofParts isNegative significand e).map fun x => (Number.float x, [])) := by
  obtain ⟨x, hx⟩ := h
  rw [hx]
  exact .inr ⟨_, rfl⟩

theorem exponentPart_cut {significand : Nat} {start e : Int} {p : List Char}
    (hrange : InRange isNegative significand (start + e)) (hstart : start ≤ 0)
    (he : e.natAbs ≤ maxExponent)
    (hp : Cut p ((if e < 0 then '-' else '+') :: Nat.toDigits 10 e.natAbs)) :
    Unfinished (exponentPart isNegative significand start p) := by
  rcases hp.cons with rfl | ⟨ds, rfl, hds⟩
  · exact .inl rfl
  by_cases hne : ds = []
  · rw [hne]
    split <;> exact .inl rfl
  · obtain ⟨c, rest, hc⟩ := hds
    have hdigits : ∀ d ∈ ds, d.isDigit = true := fun d hd =>
      isDigit_toDigits (n := e.natAbs) (hc ▸ List.mem_append_left _ hd)
    have hle : Nat.ofDigitChars 10 ds 0 ≤ e.natAbs := by
      rw [← Nat.ofDigitChars_ten_toDigits (n := e.natAbs), hc, Nat.ofDigitChars_append]
      exact le_ofDigitChars _ _
    have hread := exponentPart_digits isNegative (decide (e < 0)) hne hdigits
      (Nat.le_trans hle he) significand start ends_nil.noDigit
    simp only [decide_eq_true_eq, List.append_nil] at hread
    rw [hread]
    refine unfinished_ofParts (hrange _ ?_)
    by_cases hneg : e < 0
    · have hpos := ofDigitChars_pos_of_toDigits (by omega) hc hne
      rw [if_pos hneg]
      omega
    · rw [if_neg hneg]
      omega

theorem placesPart_digits {ds : List Char} (hne : ds ≠ []) (hd : ∀ c ∈ ds, c.isDigit = true)
    (significand : Nat) (hfits : Nat.ofDigitChars 10 ds significand ≤ Text.max64) :
    Unfinished (placesPart isNegative significand 0 ds) := by
  have hread := placesPart_append isNegative 0 hd hne hfits ends_nil.noDigit
  rw [List.append_nil] at hread
  have hlen := List.length_pos_iff.2 hne
  rw [hread]
  refine unfinished_ofParts (ofParts_of_scale isNegative (scale_of_neg 4 _ ?_))
  omega

theorem placesPart_cut {significand : Nat} {places : List Char} {power : Option Int}
    (hne : places ≠ []) (hd : ∀ c ∈ places, c.isDigit = true)
    (hfit : Nat.ofDigitChars 10 places significand ≤ Text.max64)
    (hpower : ∀ e, power = some e → e.natAbs ≤ maxExponent)
    (hrange : InRange isNegative (Nat.ofDigitChars 10 places significand)
      (power.getD 0 - places.length))
    {p : List Char} (hp : Cut p (places ++ Numeral.powered power)) :
    Unfinished (placesPart isNegative significand 0 p) := by
  rcases hp.append with hp | ⟨q, rfl, hq⟩
  · -- In the decimal places.
    by_cases hnil : p = []
    · rw [hnil]
      exact .inl rfl
    obtain ⟨c, rest, rfl⟩ := hp
    refine placesPart_digits hnil (fun x hx => hd x (List.mem_append_left _ hx)) _ ?_
    rw [Nat.ofDigitChars_append] at hfit
    exact Nat.le_trans (le_ofDigitChars _ _) hfit
  · -- In the power of ten.
    cases power with
    | none => exact absurd hq not_cut_nil
    | some e =>
      rcases hq.cons with rfl | ⟨t, rfl, ht⟩
      · rw [List.append_nil]
        exact placesPart_digits hne hd _ hfit
      · rw [placesPart_append isNegative 0 hd hne hfit (noDigit_cons (by decide) t), Int.zero_sub]
        rw [Option.getD_some, Int.sub_eq_add_neg, Int.add_comm] at hrange
        exact exponentPart_cut hrange (by omega) (hpower e rfl) ht

theorem unsignedNumber_cut {n : Numeral} (h : n.Sound)
    (hrange : InRange isNegative n.significand n.exponent) {p : List Char} (hp : Cut p n.text) :
    Unfinished (unsignedNumber isNegative p) := by
  have hwhole := h.isWhole
  have hread : ∀ ds, IsWhole ds → Unfinished (unsignedNumber isNegative ds) := by
    intro ds hds
    have hread := unsignedNumber_whole isNegative hds ends_nil
    rw [List.append_nil] at hread
    exact .inr ⟨_, hread⟩
  obtain ⟨whole, places, power⟩ := n
  obtain ⟨-, -, hplaces, -, hfit, hfloat, hpower⟩ := h
  simp only [Numeral.significand, Numeral.exponent] at hplaces hfit hfloat hpower hwhole hrange
  simp only [Numeral.text, List.append_assoc] at hp
  rcases hp.append with hp | ⟨q, rfl, hq⟩
  · -- In the whole part.
    by_cases hne : p = []
    · rw [hne]
      exact .inl rfl
    · exact hread p (hwhole.cut hp hne).1
  cases places with
  | nil =>
    obtain ⟨e, rfl⟩ := Option.isSome_iff_exists.1 (hfloat.resolve_left (fun hp => hp rfl))
    rcases hq.cons with rfl | ⟨r, rfl, hr⟩
    · rw [List.append_nil]
      exact hread whole hwhole
    · rw [unsignedNumber_power isNegative hwhole]
      rw [List.append_nil, List.length_nil, Int.natCast_zero, Int.sub_zero] at hrange
      exact exponentPart_cut (by rwa [Int.zero_add]) (Int.le_refl 0) (hpower e rfl) hr
  | cons c places =>
    rcases hq.cons with rfl | ⟨r, rfl, hr⟩
    · rw [List.append_nil]
      exact hread whole hwhole
    rw [unsignedNumber_point isNegative hwhole]
    rw [Nat.ofDigitChars_append] at hfit hrange
    exact placesPart_cut (List.cons_ne_nil c places) hplaces hfit hpower hrange hr

theorem number?_cut {n : Numeral} (h : n.Sound)
    (hrange : InRange isNegative n.significand n.exponent) {p : List Char}
    (hp : Cut p (n.signed isNegative)) (hne : p ≠ []) :
    ∃ r, number? p = some r ∧ Unfinished r := by
  cases isNegative with
  | true =>
    obtain ⟨q, rfl, hq⟩ := hp.cons.resolve_left hne
    exact ⟨_, rfl, unsignedNumber_cut h hrange hq⟩
  | false =>
    obtain ⟨c, ds, hc⟩ := List.exists_cons_of_ne_nil h.whole_ne
    have hdigit : ∀ d ∈ [c], d.isDigit = true := fun d hd =>
      h.whole_digits d (by rw [hc, List.mem_singleton.1 hd]; exact List.mem_cons_self)
    have htext : n.signed false = c :: (ds ++ (Numeral.pointed n.places ++
        Numeral.powered n.power)) := by
      simp [Numeral.signed, Numeral.text, hc]
    have hcut := hp
    rw [htext] at hcut
    obtain ⟨q, rfl, -⟩ := hcut.cons.resolve_left hne
    exact ⟨_, number?_of_digits (List.cons_ne_nil c []) hdigit, unsignedNumber_cut h hrange hp⟩

/-- **Numbers that are cut short.** What is left of a numeral is incomplete or a number itself. -/
theorem halts_float {n : Numeral} (h : n.Sound)
    (hrange : InRange isNegative n.significand n.exponent) :
    Halts float (n.signed isNegative) := by
  intro blanks p hb hp
  unfold float
  by_cases hne : p = []
  · rw [hne, List.append_nil, skipSpace_blank hb]
    exact .inl rfl
  · obtain ⟨r, hr, hunfinished⟩ := number?_cut h hrange hp hne
    obtain ⟨c, cs, hstart, hc, -⟩ := h.starts isNegative
    rw [hstart] at hp
    obtain ⟨q, rfl, -⟩ := hp.cons.resolve_left hne
    simp only [skipSpace_blanks hb hc, hr]
    exact hunfinished.map Number.toFloat

end

end ToneRelay.Json
