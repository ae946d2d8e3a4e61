import Mathlib.Data.List.Forall2
import Mathlib.Data.List.Nodup
import ToneRelay.Proofs.Text.Parts
import ToneRelay.Proofs.Text.Utf8
import ToneRelay.Proofs.Request.Decoding

/-!
# A query string is decoded however it is spelled

A text has many spellings in a query string. Any byte can be written as `%` and two hexadecimal
digits of either case, a blank also as `+`, and the bytes that mean nothing else there also as
themselves. `Spelled` relates bytes to all that may stand for them, and `SpelledQuery` pairs to the
query strings that hold them.

`pairs_spelled`: the pairs are read back from every spelling. With what is known about a list of
pairs, this decides what a request asks for (`Query.decode_spelled`): neither the spelling, nor the
order, nor names that are no field have a part in it, and a field that comes twice is never let
through.
-/

namespace ToneRelay.Request

variable {bytes spelling name segment query : List UInt8} {segments : List (List UInt8)}
  {text : String} {entry : String × String} {entries : List (String × String)}

/-! ## Spellings -/

/-- The lower-case hexadecimal digit of a number below sixteen. -/
def hexLower (n : Nat) : UInt8 := UInt8.ofNat (if n < 10 then 48 + n else 87 + n)

/-- A hexadecimal digit in either case. -/
def IsDigit (n : Nat) (d : UInt8) : Prop := d = hexUpper n ∨ d = hexLower n

/-- The bytes without a meaning of their own: letters, digits, `-`, `.`, `_` and `~`. -/
def isUnreserved (b : UInt8) : Bool :=
  65 ≤ b && b ≤ 90 || 97 ≤ b && b ≤ 122 || 48 ≤ b && b ≤ 57 || [45, 46, 95, 126].contains b

/-- What may stand for some bytes in a name or a value. -/
inductive Spelled : List UInt8 → List UInt8 → Prop
  | nil : Spelled [] []
  | itself {b : UInt8} {bytes spelling : List UInt8} (hb : isUnreserved b)
      (h : Spelled bytes spelling) : Spelled (b :: bytes) (b :: spelling)
  | escaped {b high low : UInt8} {bytes spelling : List UInt8}
      (hhigh : IsDigit (b.toNat / 16) high) (hlow : IsDigit (b.toNat % 16) low)
      (h : Spelled bytes spelling) : Spelled (b :: bytes) (percent :: high :: low :: spelling)
  | plus {bytes spelling : List UInt8} (h : Spelled bytes spelling) :
      Spelled (32 :: bytes) (43 :: spelling)

/-- What may stand for a pair between two `&`. -/
def SpelledPair (entry : String × String) (segment : List UInt8) : Prop :=
  ∃ name value, Spelled (Text.utf8 entry.1) name ∧ Spelled (Text.utf8 entry.2) value ∧
    segment = name ++ 61 :: value

/-- The query string between whose `&` some segments stand. -/
def joined (segments : List (List UInt8)) : List UInt8 := [38].intercalate segments

/-- What may stand for some pairs. -/
def SpelledQuery (entries : List (String × String)) (query : List UInt8) : Prop :=
  ∃ segments, List.Forall₂ SpelledPair entries segments ∧ query = joined segments

/-- All texts can be written. -/
theorem spelled_escape (bytes : List UInt8) : Spelled bytes (bytes.flatMap escape) := by
  induction bytes with
  | nil => exact .nil
  | cons b bytes ih => exact .escaped (.inl rfl) (.inl rfl) ih

theorem exists_spelledQuery (entries : List (String × String)) :
    ∃ query, SpelledQuery entries query := by
  let segment (entry : String × String) : List UInt8 :=
    (Text.utf8 entry.1).flatMap escape ++ 61 :: (Text.utf8 entry.2).flatMap escape
  refine ⟨_, entries.map segment, ?_, rfl⟩
  rw [List.forall₂_map_right_iff, List.forall₂_same]
  exact fun entry _ => ⟨_, _, spelled_escape _, spelled_escape _, rfl⟩

/-! ## Names and values -/

theorem hexValue?_digit {n : Nat} {d : UInt8} (hn : n < 16) (h : IsDigit n d) :
    hexValue? d = some n := by
  have hdigits : ∀ n, n < 16 →
      hexValue? (hexUpper n) = some n ∧ hexValue? (hexLower n) = some n := by decide
  rcases h with rfl | rfl
  · exact (hdigits n hn).1
  · exact (hdigits n hn).2

theorem isUnreserved_digit {n : Nat} {d : UInt8} (hn : n < 16) (h : IsDigit n d) :
    isUnreserved d := by
  have hdigits : ∀ n, n < 16 → isUnreserved (hexUpper n) ∧ isUnreserved (hexLower n) := by decide
  rcases h with rfl | rfl
  · exact (hdigits n hn).1
  · exact (hdigits n hn).2

section Digits

variable {b high low : UInt8} (hhigh : IsDigit (b.toNat / 16) high)
  (hlow : IsDigit (b.toNat % 16) low)

include hhigh hlow

theorem isUnreserved_digits : isUnreserved high ∧ isUnreserved low := by
  have hb : b.toNat < 256 := b.toNat_lt
  exact ⟨isUnreserved_digit (by omega) hhigh, isUnreserved_digit (by omega) hlow⟩

theorem hexByte?_digits : hexByte? high low = some b := by
  have hb : b.toNat < 256 := b.toNat_lt
  unfold hexByte?
  rw [hexValue?_digit (by omega) hhigh, hexValue?_digit (by omega) hlow, Option.bind_some,
    Option.map_some, Nat.div_add_mod, UInt8.ofNat_toNat]

end Digits

theorem ne_of_isUnreserved {b : UInt8} (h : isUnreserved b) :
    b ≠ percent ∧ b ≠ 38 ∧ b ≠ 43 ∧ b ≠ 61 := by
  refine ⟨?_, ?_, ?_, ?_⟩ <;> rintro rfl <;> cases h

/-- No spelling holds a byte that separates names from values or pairs from each other. -/
theorem Spelled.ne_of_mem (h : Spelled bytes spelling) {c : UInt8} (hc : c ∈ spelling) :
    c ≠ 38 ∧ c ≠ 61 := by
  have hplain {d : UInt8} (hd : isUnreserved d) : d ≠ 38 ∧ d ≠ 61 :=
    ⟨(ne_of_isUnreserved hd).2.1, (ne_of_isUnreserved hd).2.2.2⟩
  induction h with
  | nil => cases hc
  | itself hb h ih =>
    rcases List.mem_cons.1 hc with rfl | hc
    · exact hplain hb
    · exact ih hc
  | escaped hhigh hlow h ih =>
    obtain ⟨hfirst, hsecond⟩ := isUnreserved_digits hhigh hlow
    rcases List.mem_cons.1 hc with rfl | hc
    · exact ⟨by decide, by decide⟩
    rcases List.mem_cons.1 hc with rfl | hc
    · exact hplain hfirst
    rcases List.mem_cons.1 hc with rfl | hc
    · exact hplain hsecond
    · exact ih hc
  | plus h ih =>
    rcases List.mem_cons.1 hc with rfl | hc
    · exact ⟨by decide, by decide⟩
    · exact ih hc

theorem unplus_cons {b : UInt8} (hb : b ≠ 43) (rest : List UInt8) :
    unplus (b :: rest) = b :: unplus rest := by
  unfold unplus
  rw [List.map_cons, if_neg hb]

/-- The bytes are read back from any of their spellings. -/
theorem Spelled.unescape_unplus (h : Spelled bytes spelling) :
    unescape (unplus spelling) = bytes := by
  induction h with
  | nil => rfl
  | itself hb h ih =>
    obtain ⟨hpercent, -, hplus, -⟩ := ne_of_isUnreserved hb
    rw [unplus_cons hplus, unescape_cons hpercent, ih]
  | escaped hhigh hlow h ih =>
    -- blanks are read first, and neither `%` nor a digit is taken for one
    obtain ⟨hfirst, hsecond⟩ := isUnreserved_digits hhigh hlow
    rw [unplus_cons (by decide), unplus_cons (ne_of_isUnreserved hfirst).2.2.1,
      unplus_cons (ne_of_isUnreserved hsecond).2.2.1,
      unescape_percent (hexByte?_digits hhigh hlow), ih]
  | plus h ih =>
    unfold unplus at ih ⊢
    rw [List.map_cons, if_pos rfl, unescape_cons (by decide), ih]

theorem component_spelled (h : Spelled (Text.utf8 text) spelling) : component spelling = text := by
  unfold component
  rw [h.unescape_unplus, Text.decodeLossy_utf8]

/-! ## Pairs -/

/-- A segment with a given name, with or without a value. -/
def Names (text : String) (segment : List UInt8) : Prop :=
  ∃ name, Spelled (Text.utf8 text) name ∧
    (segment = name ∨ ∃ rest, segment = name ++ 61 :: rest)

theorem takeWhile_spelled (h : Spelled bytes name) (rest : List UInt8) :
    (name ++ rest).takeWhile (· ≠ 61) = name ++ rest.takeWhile (· ≠ 61) :=
  List.takeWhile_append_of_pos fun _ hc => decide_eq_true (h.ne_of_mem hc).2

theorem dropWhile_spelled (h : Spelled bytes name) (rest : List UInt8) :
    (name ++ rest).dropWhile (· ≠ 61) = rest.dropWhile (· ≠ 61) :=
  List.dropWhile_append_of_pos fun _ hc => decide_eq_true (h.ne_of_mem hc).2

theorem pair_name (h : Names text segment) : (pair segment).1 = text := by
  obtain ⟨name, hname, hsegment⟩ := h
  have htake : segment.takeWhile (· ≠ 61) = name := by
    rcases hsegment with rfl | ⟨rest, rfl⟩
    · simpa using takeWhile_spelled hname []
    · simpa using takeWhile_spelled hname (61 :: rest)
  unfold pair
  dsimp only
  rw [htake, component_spelled hname]

theorem pair_spelled (h : SpelledPair entry segment) : pair segment = entry := by
  obtain ⟨name, value, hname, hvalue, rfl⟩ := h
  have hdrop : ((name ++ 61 :: value).dropWhile (· ≠ 61)).drop 1 = value := by
    rw [dropWhile_spelled hname]
    rfl
  refine Prod.ext (pair_name ⟨name, hname, .inr ⟨value, rfl⟩⟩) ?_
  unfold pair
  dsimp only
  rw [hdrop, component_spelled hvalue]

theorem SpelledPair.ne_of_mem (h : SpelledPair entry segment) {c : UInt8} (hc : c ∈ segment) :
    c ≠ 38 := by
  obtain ⟨name, value, hname, hvalue, rfl⟩ := h
  rw [List.mem_append, List.mem_cons] at hc
  rcases hc with hc | rfl | hc
  · exact (hname.ne_of_mem hc).1
  · decide
  · exact (hvalue.ne_of_mem hc).1

theorem SpelledPair.ne_nil (h : SpelledPair entry segment) : segment ≠ [] := by
  obtain ⟨name, value, -, -, rfl⟩ := h
  simp

/-! ## Query strings -/

theorem pairs_joined (h : ∀ s ∈ segments, 38 ∉ s) :
    pairs (joined segments) = (segments.filter (· ≠ [])).map pair := by
  cases segments with
  | nil => rfl
  | cons s segments =>
    unfold pairs joined
    rw [Text.splitFrom_intercalate (List.cons_ne_nil _ _) h]

theorem not_mem_of_spelled (h : List.Forall₂ SpelledPair entries segments) :
    ∀ s ∈ segments, 38 ∉ s := by
  induction h with
  | nil => exact nofun
  | cons hentry h ih => exact List.forall_mem_cons.2 ⟨fun hmem => hentry.ne_of_mem hmem rfl, ih⟩

theorem map_pair_spelled (h : List.Forall₂ SpelledPair entries segments) :
    (segments.filter (· ≠ [])).map pair = entries := by
  induction h with
  | nil => rfl
  | cons hentry h ih =>
    rw [List.filter_cons_of_pos (by simpa using hentry.ne_nil), List.map_cons, pair_spelled hentry,
      ih]

/-- **The pairs of a query string** are read back from any of their spellings. -/
theorem pairs_spelled (h : SpelledQuery entries query) : pairs query = entries := by
  obtain ⟨segments, hall, rfl⟩ := h
  rw [pairs_joined (not_mem_of_spelled hall), map_pair_spelled hall]

/-! ## What a request asks for -/

namespace Query

variable {q : Query} {extra : List (String × String)}

/-- The texts of a request, each with the name of its field. -/
def texts (q : Query) : List (String × String) :=
  Field.all.filterMap fun f => (q.value f).map fun text => (f.name, text)

theorem mem_texts {f : Field} : (f.name, text) ∈ q.texts ↔ q.value f = some text := by
  have hall : f ∈ Field.all := by cases f <;> decide
  unfold texts
  rw [List.mem_filterMap]
  constructor
  · rintro ⟨g, -, hg⟩
    obtain ⟨given, hgiven, heq⟩ := Option.map_eq_some_iff.1 hg
    obtain ⟨hname, rfl⟩ := Prod.mk.inj heq
    have hfield := Field.named?_name f
    rw [← hname, Field.named?_name] at hfield
    rw [← Option.some.inj hfield, hgiven]
  · intro hvalue
    exact ⟨f, hall, by rw [hvalue]; rfl⟩

theorem nodup_given_texts (q : Query) : (given q.texts).Nodup := by
  unfold given texts
  rw [List.filterMap_filterMap]
  refine List.Nodup.filterMap ?_ (by decide : Field.all.Nodup)
  intro f g field hf hg
  have hsame {f : Field}
      (hf : field ∈ ((q.value f).map fun text => (f.name, text)).bind (Field.named? ·.1)) :
      f = field := by
    obtain ⟨entry, hentry, hnamed⟩ := Option.bind_eq_some_iff.1 hf
    obtain ⟨given, -, rfl⟩ := Option.map_eq_some_iff.1 hentry
    rw [Field.named?_name] at hnamed
    exact Option.some.inj hnamed
  exact (hsame hf).trans (hsame hg).symm

theorem given_others (h : ∀ entry ∈ extra, ∀ f : Field, entry.1 ≠ f.name) : given extra = [] := by
  refine List.filterMap_eq_nil_iff.2 fun entry hentry => List.find?_eq_none.2 fun f _ hf => ?_
  exact h entry hentry f (of_decide_eq_true hf).symm

/-- A name that comes twice is no text for a field. -/
theorem not_nodup_given {f : Field} {s t : List UInt8} (hsegments : ∀ s ∈ segments, 38 ∉ s)
    (htwice : [s, t].Sublist segments) (hs : Names f.name s) (ht : Names f.name t) :
    ¬ (given (pairs (joined segments))).Nodup := by
  have hne {s : List UInt8} (hs : Names f.name s) : s ≠ [] := by
    rintro rfl
    have hempty : (pair []).1 ≠ f.name := by cases f <;> decide
    exact hempty (pair_name hs)
  have hgiven : given (([s, t].filter (· ≠ [])).map pair) = [f, f] := by
    simp [given, hne hs, hne ht, pair_name hs, pair_name ht, Field.named?_name]
  intro hnodup
  rw [pairs_joined hsegments] at hnodup
  have hsublist := ((htwice.filter (· ≠ [])).map pair).filterMap fun entry => Field.named? entry.1
  exact List.nodup_iff_sublist.1 hnodup f (hgiven ▸ hsublist)

/-- **Decoding a query string.** However the pairs are spelled, in whatever order they come and
whatever pairs that are no field come with them, each field has the text that is given for it and
no other has one. A field that is named twice is refused, whatever else there is. And there is a
spelling of any pairs. -/
theorem decode_spelled :
    (∀ (q : Query) (extra entries : List (String × String)) (query : List UInt8),
      (∀ entry ∈ extra, ∀ f : Field, entry.1 ≠ f.name) → entries.Perm (q.texts ++ extra) →
      SpelledQuery entries query → decode query = .ok q) ∧
    (∀ (f : Field) (segments : List (List UInt8)) (s t : List UInt8),
      (∀ s ∈ segments, 38 ∉ s) → [s, t].Sublist segments → Names f.name s → Names f.name t →
      ∃ g, decode (joined segments) = .error g ∧
        2 ≤ (given (pairs (joined segments))).count g) ∧
    ∀ entries, ∃ query, SpelledQuery entries query := by
  refine ⟨fun q extra entries query hextra hperm hspelled => ?_, ?_, exists_spelledQuery⟩
  · have hpairs : pairs query = entries := pairs_spelled hspelled
    have hgiven : (given entries).Perm (given q.texts) := by
      have h := hperm.filterMap fun entry => Field.named? entry.1
      rwa [List.filterMap_append, show List.filterMap _ extra = [] from given_others hextra,
        List.append_nil] at h
    refine decode_eq_ok ?_ fun f text => ?_
    · rw [hpairs]
      exact hgiven.nodup_iff.2 (nodup_given_texts q)
    · rw [hpairs, hperm.mem_iff, List.mem_append, mem_texts]
      exact (or_iff_left fun hmem => hextra _ hmem f rfl).symm
  · intro f segments s t hsegments htwice hs ht
    exact decode_refused (not_nodup_given hsegments htwice hs ht)

/-- The query strings `x=1&freq=%C3%a9+%2B&x=` and `freq&x=1&%66req=%zz`, in which every kind of
spelling occurs. -/
theorem decode_spelled_sample :
    decode [120, 61, 49, 38, 102, 114, 101, 113, 61, 37, 67, 51, 37, 97, 57, 43, 37, 50, 66, 38,
        120, 61] = .ok (empty.set .freq "é +") ∧
      ∃ g, decode (joined [[102, 114, 101, 113], [120, 61, 49],
          [37, 54, 54, 114, 101, 113, 61, 37, 122, 122]]) = .error g ∧
        2 ≤ (given (pairs (joined [[102, 114, 101, 113], [120, 61, 49],
          [37, 54, 54, 114, 101, 113, 61, 37, 122, 122]]))).count g := by
  have hx : Spelled (Text.utf8 "x") [120] := .itself (by decide) .nil
  have hreq : Spelled [114, 101, 113] [114, 101, 113] :=
    .itself (by decide) (.itself (by decide) (.itself (by decide) .nil))
  have hfreq : Spelled (Text.utf8 "freq") [102, 114, 101, 113] := .itself (by decide) hreq
  have htext : Spelled (Text.utf8 "é +") [37, 67, 51, 37, 97, 57, 43, 37, 50, 66] :=
    .escaped (.inl rfl) (.inl rfl) (.escaped (.inr rfl) (.inl rfl)
      (.plus (.escaped (.inl rfl) (.inl rfl) .nil)))
  have hone : Spelled (Text.utf8 "1") [49] := .itself (by decide) .nil
  have hothers : ∀ entry ∈ [("x", "1"), ("x", "")], ∀ f : Field, entry.1 ≠ f.name := by
    simp only [List.forall_mem_cons]
    refine ⟨fun f => ?_, fun f => ?_, nofun⟩ <;> cases f <;> decide
  constructor
  · exact decode_spelled.1 (empty.set .freq "é +") [("x", "1"), ("x", "")]
      [("x", "1"), ("freq", "é +"), ("x", "")] _ hothers (by decide)
      ⟨[[120, 61, 49], [102, 114, 101, 113, 61, 37, 67, 51, 37, 97, 57, 43, 37, 50, 66], [120, 61]],
        .cons ⟨_, _, hx, hone, rfl⟩ (.cons ⟨_, _, hfreq, htext, rfl⟩
          (.cons ⟨_, _, hx, .nil, rfl⟩ .nil)), rfl⟩
  · exact decode_spelled.2.1 .freq _ [102, 114, 101, 113]
      [37, 54, 54, 114, 101, 113, 61, 37, 122, 122] (by decide) (by decide)
      ⟨_, hfreq, .inl rfl⟩ ⟨_, .escaped (.inl rfl) (.inl rfl) hreq, .inr ⟨[37, 122, 122], rfl⟩⟩

end Query

end ToneRelay.Request
