import ToneRelay.Json.Record
import ToneRelay.Json.Value
import ToneRelay.Proofs.Json.Numeral

/-!
# Reading what was written

A reader `Reads` a text when it takes it after any blanks, whatever follows that could not go on a
number, and leaves what follows. The written forms of texts, names and numbers are read:
`reads_text`, `reads_variant`, `reads_whole` and `reads_float`.
-/

namespace ToneRelay.Json

/-- Nothing but blanks. -/
def Blank (cs : List Char) : Prop := ∀ c ∈ cs, isSpace c = true

/-- `read` takes `t`, after blanks, as `v`. What `t` starts with is no blank and ends no list. -/
structure Reads {α : Type} (read : List Char → Reading α) (t : List Char) (v : α) : Prop where
  starts : ∃ c cs, t = c :: cs ∧ isSpace c = false ∧ c ≠ ']'
  eq : ∀ blanks rest, Blank blanks → Ends rest → read (blanks ++ (t ++ rest)) = .ok (v, rest)

theorem skipSpace_blanks {blanks : List Char} (h : Blank blanks)
    {c : Char} (hc : isSpace c = false) (cs : List Char) :
    skipSpace (blanks ++ c :: cs) = c :: cs := by
  unfold skipSpace
  rw [List.dropWhile_append_of_pos h, List.dropWhile_cons_of_neg (by simp [hc])]

theorem skipSpace_cons {c : Char} (hc : isSpace c = false) (cs : List Char) :
    skipSpace (c :: cs) = c :: cs := by
  unfold skipSpace
  rw [List.dropWhile_cons_of_neg (by simp [hc])]

/-! ## Texts -/

theorem hexValue?_hexDigit : ∀ n < 16, hexValue? (hexDigit n) = some n := by decide

theorem hex4_escape {n : Nat} (hn : n < 32) (cs : List Char) :
    hex4 ('0' :: '0' :: hexDigit (n / 16) :: hexDigit (n % 16) :: cs) = .ok (n, cs) := by
  have h0 : hexValue? '0' = some 0 := by decide
  have hdiv := hexValue?_hexDigit (n / 16) (by omega)
  have hmod := hexValue?_hexDigit (n % 16) (by omega)
  have hsum : ((0 * 16 + 0) * 16 + n / 16) * 16 + n % 16 = n := by omega
  simp only [hex4, h0, hdiv, hmod, hsum]

theorem quotedChar_control {c : Char} (h : c.toNat < 32) (cs : List Char) :
    quotedChar ('\\' :: 'u' :: '0' :: '0' :: hexDigit (c.toNat / 16) :: hexDigit (c.toNat % 16) ::
      cs) = .ok (some c, cs) := by
  show (numbered ('0' :: '0' :: hexDigit (c.toNat / 16) :: hexDigit (c.toNat % 16) :: cs)).map _ = _
  unfold numbered
  rw [hex4_escape h]
  simp only
  rw [if_neg (by omega), if_neg (by omega), Char.ofNat_toNat]
  rfl

theorem quotedChar_plain {c : Char} (hquote : c ≠ '"') (hback : c ≠ '\\') (h : ¬ c.toNat < 32)
    (cs : List Char) : quotedChar (c :: cs) = .ok (some c, cs) := by
  unfold quotedChar
  split
  · next heq => cases heq
  · next rest heq => exact absurd (List.cons.inj heq).1 hquote
  · next heq => exact absurd (List.cons.inj heq).1 hback
  · next rest heq => exact absurd (List.cons.inj heq).1 hback
  · next c' rest heq => exact absurd (List.cons.inj heq).1 hback
  · next c' rest heq =>
    cases heq
    rw [if_neg h]

/-- An escaped character is read as the character. -/
theorem quotedChar_escape (c : Char) (cs : List Char) :
    quotedChar (escape c ++ cs) = .ok (some c, cs) := by
  unfold escape
  by_cases hquote : c = '"'
  · rw [if_pos hquote, hquote]
    rfl
  rw [if_neg hquote]
  by_cases hback : c = '\\'
  · rw [if_pos hback, hback]
    rfl
  rw [if_neg hback]
  by_cases hn : c = '\n'
  · rw [if_pos hn, hn]
    rfl
  rw [if_neg hn]
  by_cases hr : c = '\r'
  · rw [if_pos hr, hr]
    rfl
  rw [if_neg hr]
  by_cases ht : c = '\t'
  · rw [if_pos ht, ht]
    rfl
  rw [if_neg ht]
  by_cases h8 : c.toNat = 8
  · rw [if_pos h8, ← Char.ofNat_toNat c, h8]
    rfl
  rw [if_neg h8]
  by_cases h12 : c.toNat = 12
  · rw [if_pos h12, ← Char.ofNat_toNat c, h12]
    rfl
  rw [if_neg h12]
  by_cases h32 : c.toNat < 32
  · rw [if_pos h32]
    exact quotedChar_control h32 cs
  · rw [if_neg h32, List.singleton_append]
    exact quotedChar_plain hquote hback h32 cs

theorem length_le_flatMap_escape (cs : List Char) : cs.length ≤ (cs.flatMap escape).length := by
  induction cs with
  | nil => simp
  | cons c cs ih =>
    have := List.length_pos_iff.2 (escape_ne_nil c)
    simp only [List.flatMap_cons, List.length_append, List.length_cons]
    omega

theorem quotedFrom_escape {fuel : Nat} {read cs : List Char} (rest : List Char)
    (hf : cs.length < fuel) :
    quotedFrom fuel read (cs.flatMap escape ++ '"' :: rest) = .ok (read.reverse ++ cs, rest) := by
  induction cs generalizing fuel read with
  | nil =>
    obtain ⟨fuel, rfl⟩ := Nat.exists_eq_succ_of_ne_zero (Nat.ne_of_gt hf)
    simp [quotedFrom, quotedChar]
  | cons c cs ih =>
    rw [List.length_cons] at hf
    obtain ⟨fuel, rfl⟩ := Nat.exists_eq_succ_of_ne_zero (Nat.ne_of_gt (Nat.lt_of_le_of_lt
      (Nat.zero_le _) hf))
    rw [List.flatMap_cons, List.append_assoc]
    unfold quotedFrom
    simp only [quotedChar_escape]
    rw [ih (by omega), List.reverse_cons, List.append_assoc, List.singleton_append]

/-- A quoted text is read back, whatever its characters are. -/
theorem quoted_quote (cs rest : List Char) :
    quoted (cs.flatMap escape ++ '"' :: rest) = .ok (cs, rest) := by
  unfold quoted
  have := length_le_flatMap_escape cs
  rw [quotedFrom_escape rest (by rw [List.length_append]; omega), List.reverse_nil, List.nil_append]

theorem quote_append (cs rest : List Char) :
    quote cs ++ rest = '"' :: (cs.flatMap escape ++ '"' :: rest) := by
  simp [quote]

theorem isSpace_quote : isSpace '"' = false := by decide

theorem starts_quote (cs : List Char) :
    ∃ c cs', quote cs = c :: cs' ∧ isSpace c = false ∧ c ≠ ']' :=
  ⟨_, _, rfl, isSpace_quote, by decide⟩

theorem reads_text (s : String) : Reads text (quote s.toList) s := by
  refine ⟨starts_quote _, ?_⟩
  intro blanks rest hb _
  unfold text
  rw [quote_append, skipSpace_blanks hb isSpace_quote]
  simp only [quoted_quote]
  show Except.ok (String.ofList s.toList, rest) = _
  rw [String.ofList_toList]

theorem quotedName_quote {α : Type} {names : List (String × α)} {name : String} {v : α}
    (h : names.lookup name = some v) (rest : List Char) :
    quotedName names (name.toList.flatMap escape ++ '"' :: rest) = .ok (v, rest) := by
  have hnamed : named names (String.ofList name.toList) = .ok v := by
    rw [String.ofList_toList, named, h]
  unfold quotedName
  rw [quoted_quote]
  show (named names (String.ofList name.toList)).bind _ = _
  rw [hnamed]
  rfl

theorem reads_variant {α : Type} {names : List (String × α)} {name : String} {v : α}
    (h : names.lookup name = some v) : Reads (variant names) (quote name.toList) v := by
  refine ⟨starts_quote _, ?_⟩
  intro blanks rest hb _
  unfold variant
  rw [quote_append, skipSpace_blanks hb isSpace_quote]
  exact quotedName_quote h rest

/-! ## Numbers -/

theorem isSpace_of_isDigit {c : Char} (h : c.isDigit = true) : isSpace c = false := by
  unfold isSpace
  simp only [Bool.or_eq_false_iff, decide_eq_false_iff_not]
  refine ⟨⟨⟨?_, ?_⟩, ?_⟩, ?_⟩ <;> rintro rfl <;> exact absurd h (by decide)

/-- Digits are no blanks. -/
theorem skipSpace_digits {blanks ds : List Char} (hb : Blank blanks)
    (hne : ds ≠ []) (hd : ∀ c ∈ ds, c.isDigit = true) (rest : List Char) :
    skipSpace (blanks ++ (ds ++ rest)) = ds ++ rest := by
  obtain ⟨c, cs, rfl⟩ := List.exists_cons_of_ne_nil hne
  exact skipSpace_blanks hb (isSpace_of_isDigit (hd c (by simp))) _

theorem starts_digits {ds : List Char} (hne : ds ≠ []) (hd : ∀ c ∈ ds, c.isDigit = true)
    (rest : List Char) : ∃ c cs, ds ++ rest = c :: cs ∧ isSpace c = false ∧ c ≠ ']' := by
  obtain ⟨c, cs, rfl⟩ := List.exists_cons_of_ne_nil hne
  have hc : c.isDigit = true := hd c (by simp)
  refine ⟨c, cs ++ rest, rfl, isSpace_of_isDigit hc, ?_⟩
  rintro rfl
  exact absurd hc (by decide)

theorem reads_whole {n max : Nat} (hn : n ≤ max) (hmax : max ≤ Text.max64) :
    Reads (whole max) (Nat.toDigits 10 n) n := by
  refine ⟨by simpa using starts_digits Nat.toDigits_ne_nil (fun _ => isDigit_toDigits) [], ?_⟩
  intro blanks rest hb hr
  unfold whole
  simp only [skipSpace_digits hb Nat.toDigits_ne_nil (fun _ => isDigit_toDigits),
    number?_toDigits (Nat.le_trans hn hmax) hr, if_pos hn]

theorem Numeral.Sound.starts {n : Numeral} (h : n.Sound) (isNegative : Bool) :
    ∃ c cs, n.signed isNegative = c :: cs ∧ isSpace c = false ∧ c ≠ ']' := by
  cases isNegative with
  | true => exact ⟨'-', n.text, rfl, by decide, by decide⟩
  | false =>
    simp only [Numeral.signed, Numeral.text, List.append_assoc]
    exact starts_digits h.whole_ne h.whole_digits _

/-- A numeral is read as the float that its sign, its digits and its power of ten give. -/
theorem reads_float {n : Numeral} {isNegative : Bool} {x : Float} (h : n.Sound)
    (hx : ofParts isNegative n.significand n.exponent = .ok x) :
    Reads float (n.signed isNegative) x := by
  refine ⟨h.starts isNegative, ?_⟩
  intro blanks rest hb hr
  obtain ⟨c, cs, hcs, hc, -⟩ := h.starts isNegative
  have hskip : skipSpace (blanks ++ (n.signed isNegative ++ rest)) =
      n.signed isNegative ++ rest := by
    rw [hcs]
    exact skipSpace_blanks hb hc _
  unfold float
  simp only [hskip, number?_signed isNegative h hr, hx]
  rfl

/-! ## Between the tokens -/

/-- The tokens are set apart by blanks only. -/
structure Spacing.Blanks (sp : Spacing) : Prop where
  line : ∀ depth, Blank (sp.line depth)
  gap : Blank sp.gap

theorem ends_of_isSpace {c : Char} (h : isSpace c = true) (cs : List Char) : Ends (c :: cs) := by
  intro d rest hd
  cases hd
  unfold isSpace at h
  simp only [Bool.or_eq_true, decide_eq_true_iff] at h
  rcases h with ((rfl | rfl) | rfl) | rfl <;> decide

theorem ends_blanks {blanks cs : List Char} (hb : Blank blanks) (h : Ends cs) :
    Ends (blanks ++ cs) := by
  cases blanks with
  | nil => exact h
  | cons c blanks => exact ends_of_isSpace (hb c (by simp)) _

theorem ends_cons {c : Char} (h : c.isDigit = false ∧ c ≠ '.' ∧ c ≠ 'e' ∧ c ≠ 'E')
    (cs : List Char) : Ends (c :: cs) := by
  intro d rest hd
  cases hd
  exact h

end ToneRelay.Json
