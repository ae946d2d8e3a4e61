import ToneRelay.Proofs.Json.Tree

/-!
# Passing over what is well formed

`pass_spaced`: a value that a record does not know is passed over whenever the grammar allows it,
whatever it is and however deep it goes. A character takes two steps of `passFrom` at most
(`passes_of_wellFormed`), so there are always enough of them.
-/

namespace ToneRelay.Json

/-! ## Scalars -/

@[simp] theorem literal_append (word rest : List Char) :
    literal word (word ++ rest) = .ok rest := by
  induction word with
  | nil => rfl
  | cons w word ih => simp [literal, ih]

theorem hexValue?_of_isHex {c : Char} (h : IsHex c) : ∃ n, hexValue? c = some n := by
  have hall : "0123456789abcdefABCDEF".toList.all (fun c => (hexValue? c).isSome) = true := by
    decide
  exact Option.isSome_iff_exists.1 (List.all_eq_true.1 hall c h)

theorem unescape_isSome {c : Char} (h : c ∈ ['"', '\\', '/', 'b', 'f', 'n', 'r', 't']) :
    (unescape c).isSome = true ∧ c ≠ 'u' := by
  have hall : ['"', '\\', '/', 'b', 'f', 'n', 'r', 't'].all
      (fun c => (unescape c).isSome && c != 'u') = true := by decide
  simpa using List.all_eq_true.1 hall c h

theorem passQuoted_plain {c : Char} (hc : 32 ≤ c.toNat) (hq : c ≠ '"') (hs : c ≠ '\\') (fuel : Nat)
    (cs : List Char) : passQuoted (fuel + 1) (c :: cs) = passQuoted fuel cs := by
  rw [passQuoted]
  · rw [if_neg (Nat.not_lt.2 hc)]
  · exact hq
  · exact fun h _ => hs h
  · exact fun _ h _ => hs h
  · exact fun _ _ h _ => hs h

theorem passQuoted_escaped {c : Char} (hc : c ∈ ['"', '\\', '/', 'b', 'f', 'n', 'r', 't'])
    (fuel : Nat) (cs : List Char) :
    passQuoted (fuel + 1) ('\\' :: c :: cs) = passQuoted fuel cs := by
  obtain ⟨hsome, hu⟩ := unescape_isSome hc
  rw [passQuoted]
  · rw [if_pos hsome]
  · exact hu

theorem passQuoted_numbered {a b c d : Char} (ha : IsHex a) (hb : IsHex b) (hc : IsHex c)
    (hd : IsHex d) (fuel : Nat) (cs : List Char) :
    passQuoted (fuel + 1) ('\\' :: 'u' :: a :: b :: c :: d :: cs) = passQuoted fuel cs := by
  obtain ⟨a', ha⟩ := hexValue?_of_isHex ha
  obtain ⟨b', hb⟩ := hexValue?_of_isHex hb
  obtain ⟨c', hc⟩ := hexValue?_of_isHex hc
  obtain ⟨d', hd⟩ := hexValue?_of_isHex hd
  rw [passQuoted]
  simp only [hex4, ha, hb, hc, hd]
  rfl

/-- The spelling of a text is passed over up to and with its quotation mark. -/
theorem passQuoted_spelling {cs : List Char} (h : IsSpelling cs) (rest : List Char) {fuel : Nat}
    (hf : cs.length < fuel) : passQuoted fuel (cs ++ '"' :: rest) = .ok rest := by
  induction h generalizing fuel with
  | nil =>
    obtain ⟨fuel, rfl⟩ := Nat.exists_eq_succ_of_ne_zero (Nat.ne_of_gt hf)
    rfl
  | plain hc hq hs h ih =>
    obtain ⟨fuel, rfl⟩ := Nat.exists_eq_succ_of_ne_zero (Nat.ne_of_gt (Nat.zero_lt_of_lt hf))
    rw [List.length_cons] at hf
    rw [List.cons_append, passQuoted_plain hc hq hs]
    exact ih (by omega)
  | escaped hc h ih =>
    obtain ⟨fuel, rfl⟩ := Nat.exists_eq_succ_of_ne_zero (Nat.ne_of_gt (Nat.zero_lt_of_lt hf))
    simp only [List.length_cons] at hf
    rw [List.cons_append, List.cons_append, passQuoted_escaped hc]
    exact ih (by omega)
  | numbered ha hb hc hd h ih =>
    obtain ⟨fuel, rfl⟩ := Nat.exists_eq_succ_of_ne_zero (Nat.ne_of_gt (Nat.zero_lt_of_lt hf))
    simp only [List.length_cons] at hf
    simp only [List.cons_append]
    rw [passQuoted_numbered ha hb hc hd]
    exact ih (by omega)

theorem IsPower.noDigit {power rest : List Char} (h : IsPower power) (hr : Ends rest) :
    NoDigit (power ++ rest) := by
  cases h with
  | none => exact hr.noDigit
  | some he _ _ =>
    rcases he with rfl | rfl
    · exact noDigit_cons (by decide) _
    · exact noDigit_cons (by decide) _

theorem passExponent_eq {sign ds rest : List Char}
    (hs : sign = [] ∨ sign = ['+'] ∨ sign = ['-']) (h : IsDigits ds) (hr : Ends rest) :
    passExponent (sign ++ (ds ++ rest)) = .ok rest := by
  obtain ⟨hne, hd⟩ := h
  have htake := takeWhile_digits hd hr.noDigit
  have hdrop := dropWhile_digits hd hr.noDigit
  unfold passExponent
  rcases hs with rfl | rfl | rfl
  · obtain ⟨c, ds, rfl⟩ := List.exists_cons_of_ne_nil hne
    have hc : c.isDigit = true := hd c (by simp)
    rw [List.nil_append]
    split
    · rename_i heq
      cases heq
      exact absurd hc (by decide)
    · rename_i heq
      cases heq
      exact absurd hc (by decide)
    · simp only [htake, hdrop]
      rfl
  · simp [htake, hdrop, hne]
  · simp [htake, hdrop, hne]

theorem passAfterDigits_eq {power rest : List Char} (h : IsPower power) (hr : Ends rest) :
    passAfterDigits (power ++ rest) = .ok rest := by
  cases h with
  | none =>
    unfold passAfterDigits
    rw [List.nil_append]
    split
    · exact absurd rfl (hr _ _ rfl).2.2.1
    · exact absurd rfl (hr _ _ rfl).2.2.2
    · rfl
  | some he hs hd =>
    rw [List.append_assoc, List.cons_append]
    rcases he with rfl | rfl
    · exact passExponent_eq hs hd hr
    · exact passExponent_eq hs hd hr

theorem IsPlaces.noDigit {places power rest : List Char} (h : IsPlaces places) (he : IsPower power)
    (hr : Ends rest) : NoDigit (places ++ (power ++ rest)) := by
  cases h with
  | none => exact he.noDigit hr
  | some h => exact noDigit_cons (by decide) _

theorem IsPower.ne_point {power rest : List Char} (h : IsPower power) (hr : Ends rest)
    (cs : List Char) : power ++ rest ≠ '.' :: cs := by
  cases h with
  | none => exact fun heq => (hr _ _ heq).2.1 rfl
  | some he _ _ => rcases he with rfl | rfl <;> exact nofun

theorem passNumber_eq {cs rest : List Char} (h : IsNumber cs) (hr : Ends rest) :
    passNumber (cs ++ rest) = .ok rest := by
  cases h with
  | @mk whole places power hw lead hp he =>
    obtain ⟨hne, hd⟩ := hw
    have hno := hp.noDigit he hr
    unfold passNumber
    simp only [List.append_assoc, takeWhile_digits hd hno, dropWhile_digits hd hno]
    cases hp with
    | none =>
      rw [List.nil_append]
      split
      · rename_i heq
        exact absurd heq (he.ne_point hr _)
      · exact passAfterDigits_eq he hr
    | some hp =>
      obtain ⟨hne, hd⟩ := hp
      have hno := he.noDigit hr
      simp only [List.cons_append, takeWhile_digits hd hno, dropWhile_digits hd hno]
      rw [if_neg (by simpa using hne)]
      exact passAfterDigits_eq he hr

theorem IsNumber.starts {cs : List Char} (h : IsNumber cs) :
    ∃ c ds, cs = c :: ds ∧ c.isDigit = true := by
  obtain ⟨⟨hne, hd⟩, -, -, -⟩ := h
  obtain ⟨c, ds, rfl⟩ := List.exists_cons_of_ne_nil hne
  exact ⟨c, _, rfl, hd c (by simp)⟩

/-- A scalar is passed over, and what comes after it is left. -/
theorem passScalar_scalar {cs rest : List Char} (h : IsScalar cs) (hr : Ends rest) :
    passScalar (cs ++ rest) = some (.ok rest) := by
  cases h with
  | null => exact congrArg some (literal_append "ull".toList rest)
  | true => exact congrArg some (literal_append "rue".toList rest)
  | false => exact congrArg some (literal_append "alse".toList rest)
  | negative h => exact congrArg some (passNumber_eq h hr)
  | @text cs h =>
    show some (passQuoted ((cs ++ ['"'] ++ rest).length + 1) (cs ++ ['"'] ++ rest)) = _
    rw [List.append_assoc, List.singleton_append, passQuoted_spelling h rest]
    simp only [List.length_append]
    omega
  | number h =>
    have hpass := passNumber_eq h hr
    obtain ⟨c, ds, rfl, hc⟩ := h.starts
    unfold passScalar
    rw [List.cons_append] at hpass ⊢
    split
    all_goals rename_i heq; cases heq
    · exact absurd hc (by decide)
    · exact absurd hc (by decide)
    · exact absurd hc (by decide)
    · exact absurd hc (by decide)
    · exact absurd hc (by decide)
    · rw [if_pos hc, hpass]

theorem starts_of_isScalar {cs : List Char} (h : IsScalar cs) : (Tree.scalar cs).Starts := by
  cases h with
  | null | true | false | negative _ | text _ => exact starts_scalar (by decide) (by decide)
  | number h =>
    obtain ⟨c, ds, rfl, hc⟩ := h.starts
    refine starts_scalar (isSpace_of_isDigit hc) ?_
    rintro rfl
    exact absurd hc (by decide)

theorem colon_blanks {blanks : List Char} (hb : Blank blanks) (cs : List Char) :
    colon (blanks ++ ':' :: cs) = .ok cs := by
  unfold colon
  rw [skipSpace_blanks hb (by decide)]
  rfl

theorem passKey_spelling {key blanks : List Char} (h : IsSpelling key) (hb : Blank blanks)
    (cs : List Char) : passKey (key ++ '"' :: (blanks ++ ':' :: cs)) = .ok cs := by
  unfold passKey
  rw [passQuoted_spelling h _ (by simp only [List.length_append]; omega)]
  exact colon_blanks hb cs

/-! ## Steps -/

/-- A place on the way through a text: what is open, what is expected and what is left. -/
structure Place where
  frames : List Frame
  expect : Expect
  left : List Char

/-- So many steps lead from one place to another. -/
def Reaches (n : Nat) (p q : Place) : Prop :=
  ∀ fuel, passFrom (fuel + n) p.frames p.expect p.left = passFrom fuel q.frames q.expect q.left

theorem Reaches.trans {m n : Nat} {p q r : Place} (h : Reaches m p q) (h' : Reaches n q r) :
    Reaches (n + m) p r := by
  intro fuel
  rw [← Nat.add_assoc, h, h']

section
variable {frames : List Frame} {blanks : List Char} (hb : Blank blanks)
include hb

/-- Blanks are skipped wherever something is expected or open. -/
theorem Reaches.spaced {expect : Expect} (h : expect = .next → frames ≠ []) {c : Char}
    (hc : isSpace c = false) {cs : List Char} {q : Place}
    (hreach : Reaches 1 ⟨frames, expect, c :: cs⟩ q) :
    Reaches 1 ⟨frames, expect, blanks ++ c :: cs⟩ q := by
  intro fuel
  have hskip : skipSpace (blanks ++ c :: cs) = skipSpace (c :: cs) := by
    rw [skipSpace_blanks hb hc, skipSpace_cons hc]
  rw [← hreach fuel]
  simp only [passFrom, hskip]
  cases expect with
  | value | firstItem | firstField | field => rfl
  | next =>
    cases frames with
    | nil => exact absurd rfl (h rfl)
    | cons f fs => cases f <;> rfl

theorem reaches_scalar {s rest : List Char} (h : IsScalar s) (hr : Ends rest) :
    Reaches 1 ⟨frames, .value, blanks ++ (s ++ rest)⟩ ⟨frames, .next, rest⟩ := by
  have hpass := passScalar_scalar h hr
  obtain ⟨c, ds, ts, hs, hc, -⟩ := starts_of_isScalar h
  rw [Tree.tokens, List.cons.injEq] at hs
  obtain ⟨rfl, -⟩ := hs
  rw [List.cons_append] at hpass ⊢
  refine .spaced hb (by nofun) hc fun fuel => ?_
  simp only [passFrom, skipSpace_cons hc]
  split
  · rename_i heq
    cases heq
  · rename_i heq
    cases heq
    cases hpass
  · rename_i heq
    cases heq
    cases hpass
  · rw [hpass]
    rfl

theorem reaches_list (cs : List Char) :
    Reaches 1 ⟨frames, .value, blanks ++ '[' :: cs⟩ ⟨.list :: frames, .firstItem, cs⟩ :=
  .spaced hb (by nofun) (by decide) fun _ => rfl

theorem reaches_record (cs : List Char) :
    Reaches 1 ⟨frames, .value, blanks ++ '\x7b' :: cs⟩ ⟨.record :: frames, .firstField, cs⟩ :=
  .spaced hb (by nofun) (by decide) fun _ => rfl

theorem reaches_firstItem {c : Char} (hc : isSpace c = false) (hbracket : c ≠ ']')
    (cs : List Char) :
    Reaches 1 ⟨frames, .firstItem, blanks ++ c :: cs⟩ ⟨frames, .value, c :: cs⟩ := by
  refine .spaced hb (by nofun) hc fun fuel => ?_
  simp only [passFrom, skipSpace_cons hc]
  split
  · rename_i heq
    cases heq
  · rename_i heq
    cases heq
    exact absurd rfl hbracket
  · rfl

theorem reaches_noItem (cs : List Char) :
    Reaches 1 ⟨frames, .firstItem, blanks ++ ']' :: cs⟩ ⟨frames.tail, .next, cs⟩ :=
  .spaced hb (by nofun) (by decide) fun _ => rfl

theorem reaches_noField (cs : List Char) :
    Reaches 1 ⟨frames, .firstField, blanks ++ '\x7d' :: cs⟩ ⟨frames.tail, .next, cs⟩ :=
  .spaced hb (by nofun) (by decide) fun _ => rfl

theorem reaches_item (cs : List Char) :
    Reaches 1 ⟨.list :: frames, .next, blanks ++ ',' :: cs⟩ ⟨.list :: frames, .value, cs⟩ :=
  .spaced hb (by nofun) (by decide) fun _ => rfl

theorem reaches_listEnd (cs : List Char) :
    Reaches 1 ⟨.list :: frames, .next, blanks ++ ']' :: cs⟩ ⟨frames, .next, cs⟩ :=
  .spaced hb (by nofun) (by decide) fun _ => rfl

theorem reaches_field (cs : List Char) :
    Reaches 1 ⟨.record :: frames, .next, blanks ++ ',' :: cs⟩ ⟨.record :: frames, .field, cs⟩ :=
  .spaced hb (by nofun) (by decide) fun _ => rfl

theorem reaches_recordEnd (cs : List Char) :
    Reaches 1 ⟨.record :: frames, .next, blanks ++ '\x7d' :: cs⟩ ⟨frames, .next, cs⟩ :=
  .spaced hb (by nofun) (by decide) fun _ => rfl

theorem reaches_key {expect : Expect} (he : expect = .firstField ∨ expect = .field)
    {key colonBlanks : List Char} (hk : IsSpelling key) (hcolon : Blank colonBlanks)
    (cs : List Char) :
    Reaches 1 ⟨frames, expect, blanks ++ '"' :: (key ++ '"' :: (colonBlanks ++ ':' :: cs))⟩
      ⟨frames, .value, cs⟩ := by
  have hkey (fuel : Nat) : (passKey (key ++ '"' :: (colonBlanks ++ ':' :: cs))).bind
      (passFrom fuel frames .value) = passFrom fuel frames .value cs := by
    rw [passKey_spelling hk hcolon cs]
    rfl
  rcases he with rfl | rfl
  all_goals exact .spaced hb (by nofun) isSpace_quote hkey

end

/-! ## Trees -/

/-- A tree is passed over, and a character of it takes two steps at most. -/
structure Passes (t : Tree) : Prop where
  starts : t.Starts
  reaches : ∀ frames cs rest, Spaced t.tokens cs → Ends rest →
    ∃ n ≤ 2 * cs.length, Reaches n ⟨frames, .value, cs ++ rest⟩ ⟨frames, .next, rest⟩

theorem passes_scalar {s : List Char} (h : IsScalar s) : Passes (.scalar s) := by
  refine ⟨starts_of_isScalar h, ?_⟩
  intro frames cs rest hs hr
  obtain ⟨c, token, ts, htoken, -, -⟩ := starts_of_isScalar h
  rw [Tree.tokens] at hs htoken
  obtain ⟨blanks, more, rfl, hb, hmore⟩ := hs.cons_eq
  obtain ⟨rfl, -⟩ := List.cons.inj htoken
  refine ⟨1, by simp only [List.length_append, List.length_cons]; omega, ?_⟩
  rw [hmore.eq_nil, List.append_nil, List.append_assoc]
  exact reaches_scalar hb h hr

theorem reaches_items {ts : List Tree} (h : ∀ t ∈ ts, Passes t) (frames : List Frame)
    {cs rest : List Char} (hs : Spaced (itemTokens ts) cs) (hr : Ends rest) :
    ∃ n ≤ 2 * cs.length,
      Reaches n ⟨.list :: frames, .next, cs ++ rest⟩ ⟨.list :: frames, .next, rest⟩ := by
  induction ts generalizing cs with
  | nil =>
    rw [itemTokens] at hs
    rw [hs.eq_nil]
    exact ⟨0, Nat.zero_le _, fun _ => rfl⟩
  | cons t ts ih =>
    rw [itemTokens] at hs
    obtain ⟨blanks, more, rfl, hb, hmore⟩ := hs.punctuation
    obtain ⟨a, c, rfl, ha, hc⟩ := hmore.split
    obtain ⟨m, hm, hitem⟩ := (h t (by simp)).reaches (.list :: frames) a _ ha
      (ends_itemTokens hc hr)
    obtain ⟨n, hn, hitems⟩ := ih (fun u hu => h u (by simp [hu])) hc
    refine ⟨n + (m + 1), ?_, ?_⟩
    · simp only [List.length_cons, List.length_append]
      omega
    · rw [List.append_assoc, List.cons_append, List.append_assoc]
      exact ((reaches_item hb _).trans hitem).trans hitems

theorem passes_list {ts : List Tree} (h : ∀ t ∈ ts, Passes t) : Passes (.list ts) := by
  refine ⟨starts_list ts, ?_⟩
  intro frames cs rest hs hr
  cases ts with
  | nil =>
    simp only [Tree.tokens, itemTokens, List.tail_nil, List.nil_append] at hs
    obtain ⟨blanks, more, rfl, hb, hmore⟩ := hs.punctuation
    obtain ⟨inner, more, rfl, hi, hnil⟩ := hmore.punctuation
    refine ⟨2, by simp only [List.length_append, List.length_cons]; omega, ?_⟩
    rw [hnil.eq_nil, List.append_assoc, List.cons_append, List.append_assoc]
    exact (reaches_list hb _).trans (reaches_noItem hi rest)
  | cons t ts =>
    have ht := h t (by simp)
    simp only [Tree.tokens, itemTokens, List.tail_cons, List.append_assoc] at hs
    obtain ⟨blanks, more, rfl, hb, hmore⟩ := hs.punctuation
    obtain ⟨a, c, rfl, ha, hc⟩ := hmore.split
    obtain ⟨b, e, rfl, hitems, he⟩ := hc.split
    obtain ⟨last, more, rfl, hlast, hnil⟩ := he.punctuation
    obtain ⟨first, x, xs, rfl, hfirst, hspace, hbracket, hx⟩ := ht.starts.spaced ha
    have hend : Ends (last ++ ']' :: rest) := ends_blanks hlast (ends_cons (by decide) _)
    obtain ⟨m, hm, hitem⟩ := ht.reaches (.list :: frames) _ _ hx (ends_itemTokens hitems hend)
    obtain ⟨n, hn, hmore⟩ := reaches_items (fun u hu => h u (by simp [hu])) frames hitems hend
    refine ⟨1 + (n + (m + (1 + 1))), ?_, ?_⟩
    · simp only [List.length_cons, List.length_append] at hm ⊢
      omega
    · rw [hnil.eq_nil]
      simp only [List.append_assoc, List.cons_append, List.nil_append] at hitem ⊢
      exact ((((reaches_list hb _).trans (reaches_firstItem hfirst hspace hbracket _)).trans
        hitem).trans hmore).trans (reaches_listEnd hlast rest)

/-- A key, its colon and its value. -/
theorem reaches_member {m : List Char × Tree} (hk : IsSpelling m.1) (h : Passes m.2)
    (frames : List Frame) {expect : Expect} (he : expect = .firstField ∨ expect = .field)
    {cs rest : List Char} (hs : Spaced (('"' :: m.1 ++ ['"']) :: [':'] :: m.2.tokens) cs)
    (hr : Ends rest) :
    ∃ n < 2 * cs.length, Reaches n ⟨frames, expect, cs ++ rest⟩ ⟨frames, .next, rest⟩ := by
  obtain ⟨blanks, colonBlanks, a, rfl, hb, hcolon, ha⟩ := hs.member
  obtain ⟨n, hn, hvalue⟩ := h.reaches frames a rest ha hr
  refine ⟨n + 1, ?_, ?_⟩
  · simp only [List.length_cons, List.length_append]
    omega
  · simp only [List.append_assoc, List.cons_append]
    exact (reaches_key hb he hk hcolon _).trans hvalue

theorem reaches_members {ms : List (List Char × Tree)} (hk : ∀ m ∈ ms, IsSpelling m.1)
    (h : ∀ m ∈ ms, Passes m.2) (frames : List Frame) {cs rest : List Char}
    (hs : Spaced (memberTokens ms) cs) (hr : Ends rest) :
    ∃ n ≤ 2 * cs.length,
      Reaches n ⟨.record :: frames, .next, cs ++ rest⟩ ⟨.record :: frames, .next, rest⟩ := by
  induction ms generalizing cs with
  | nil =>
    rw [memberTokens] at hs
    rw [hs.eq_nil]
    exact ⟨0, Nat.zero_le _, fun _ => rfl⟩
  | cons x ms ih =>
    rw [memberTokens] at hs
    obtain ⟨blanks, more, rfl, hb, hmore⟩ := hs.punctuation
    rw [← List.cons_append, ← List.cons_append] at hmore
    obtain ⟨a, c, rfl, ha, hc⟩ := hmore.split
    obtain ⟨m, hm, hmember⟩ := reaches_member (hk x (by simp)) (h x (by simp)) (.record :: frames)
      (.inr rfl) ha (ends_memberTokens hc hr)
    obtain ⟨n, hn, hmembers⟩ := ih (fun y hy => hk y (by simp [hy]))
      (fun y hy => h y (by simp [hy])) hc
    refine ⟨n + (m + 1), ?_, ?_⟩
    · simp only [List.length_cons, List.length_append]
      omega
    · rw [List.append_assoc, List.cons_append, List.append_assoc]
      exact ((reaches_field hb _).trans hmember).trans hmembers

theorem passes_record {ms : List (List Char × Tree)} (hk : ∀ m ∈ ms, IsSpelling m.1)
    (h : ∀ m ∈ ms, Passes m.2) : Passes (.record ms) := by
  refine ⟨starts_record ms, ?_⟩
  intro frames cs rest hs hr
  cases ms with
  | nil =>
    simp only [Tree.tokens, memberTokens, List.tail_nil, List.nil_append] at hs
    obtain ⟨blanks, more, rfl, hb, hmore⟩ := hs.punctuation
    obtain ⟨inner, more, rfl, hi, hnil⟩ := hmore.punctuation
    refine ⟨2, by simp only [List.length_append, List.length_cons]; omega, ?_⟩
    rw [hnil.eq_nil, List.append_assoc, List.cons_append, List.append_assoc]
    exact (reaches_record hb _).trans (reaches_noField hi rest)
  | cons x ms =>
    simp only [Tree.tokens, memberTokens, List.tail_cons] at hs
    obtain ⟨blanks, more, rfl, hb, hmore⟩ := hs.punctuation
    obtain ⟨d, e, rfl, hd, he⟩ := hmore.split
    rw [← List.cons_append, ← List.cons_append] at hd
    obtain ⟨a, b, rfl, ha, hmembers⟩ := hd.split
    obtain ⟨last, more, rfl, hlast, hnil⟩ := he.punctuation
    have hend : Ends (last ++ '\x7d' :: rest) := ends_blanks hlast (ends_cons (by decide) _)
    obtain ⟨m, hm, hfirst⟩ := reaches_member (hk x (by simp)) (h x (by simp)) (.record :: frames)
      (.inl rfl) ha (ends_memberTokens hmembers hend)
    obtain ⟨n, hn, hmore⟩ := reaches_members (fun y hy => hk y (by simp [hy]))
      (fun y hy => h y (by simp [hy])) frames hmembers hend
    refine ⟨1 + (n + (m + 1)), ?_, ?_⟩
    · simp only [List.length_cons, List.length_append]
      omega
    · rw [hnil.eq_nil]
      simp only [List.append_assoc, List.cons_append, List.nil_append]
      exact (((reaches_record hb _).trans hfirst).trans hmore).trans (reaches_recordEnd hlast rest)

theorem passes_of_wellFormed {t : Tree} (h : t.WellFormed) : Passes t := by
  induction h with
  | scalar h => exact passes_scalar h
  | list _ ih => exact passes_list ih
  | record hk _ ih => exact passes_record hk ih

/-- **Passing over a tree.** Whatever is well formed is passed over, and what follows is left. -/
theorem pass_spaced {t : Tree} (h : t.WellFormed) {cs rest : List Char} (hs : Spaced t.tokens cs)
    (hr : Ends rest) : pass (cs ++ rest) = .ok rest := by
  obtain ⟨n, hn, hreach⟩ := (passes_of_wellFormed h).reaches [] cs rest hs hr
  obtain ⟨fuel, hfuel⟩ : ∃ fuel, 2 * (cs ++ rest).length + 2 = fuel + 1 + n :=
    ⟨2 * (cs ++ rest).length + 1 - n, by rw [List.length_append]; omega⟩
  unfold pass
  rw [hfuel, hreach]
  rfl

end ToneRelay.Json
