import Mathlib.Data.List.DropRight
import Mathlib.Data.List.Forall2
import ToneRelay.Text.Blank
import ToneRelay.Text.Numeral

/-!
# The parts of a text

What is left when a text is trimmed, which words and pieces it has, and which number it stands for.
A text is related to its parts by how it may be written, with blanks wherever they do not matter:
`words_sentence` and `natural?_eq_some_iff`.
-/

namespace ToneRelay.Text

/-- Nothing but blanks. -/
def Blanks (cs : List Char) : Prop := ∀ c ∈ cs, isBlank c = true

/-- Nothing that is blank. -/
def Solid (cs : List Char) : Prop := ∀ c ∈ cs, isBlank c = false

instance (cs : List Char) : Decidable (Blanks cs) :=
  decidable_of_iff (cs.all isBlank = true) List.all_eq_true

instance (cs : List Char) : Decidable (Solid cs) :=
  decidable_of_iff (cs.all (!isBlank ·) = true) (by simp [Solid])

/-- The second text is the first one with any blanks around it. -/
def Surrounded (inner outer : List Char) : Prop :=
  ∃ front back, Blanks front ∧ Blanks back ∧ outer = front ++ (inner ++ back)

variable {front back cs : List Char}

/-! ## Trimming -/

theorem trimEnd_append (hb : Blanks back) (cs : List Char) : trimEnd (cs ++ back) = trimEnd cs := by
  unfold trimEnd
  rw [List.reverse_append, List.dropWhile_append_of_pos]
  intro c hc
  exact hb c (List.mem_reverse.1 hc)

theorem trimEnd_solid (h : Solid cs) : trimEnd cs = cs := by
  refine List.rdropWhile_eq_self_iff.2 ?_
  intro hne
  rw [h _ (List.getLast_mem hne)]
  decide

theorem dropWhile_blanks (hb : Blanks cs) : cs.dropWhile isBlank = [] :=
  List.dropWhile_eq_nil_iff.2 hb

/-- Blanks around a text do not matter. -/
theorem Surrounded.trimChars_eq {inner outer : List Char} (h : Surrounded inner outer) :
    trimChars outer = trimChars inner := by
  obtain ⟨front, back, hf, hb, rfl⟩ := h
  unfold trimChars
  rw [List.dropWhile_append_of_pos hf, List.dropWhile_append]
  split
  · next hempty =>
    rw [dropWhile_blanks hb, List.isEmpty_iff.1 hempty]
  · exact trimEnd_append hb _

theorem trimChars_solid (h : Solid cs) : trimChars cs = cs := by
  have hstart : cs.dropWhile isBlank = cs := by
    refine List.dropWhile_eq_self_iff.2 ?_
    intro hne
    rw [h _ (List.getElem_mem hne)]
    decide
  unfold trimChars
  rw [hstart, trimEnd_solid h]

/-- A text is what is left when it is trimmed, with blanks around it. -/
theorem surrounded_trimChars (cs : List Char) : Surrounded (trimChars cs) cs := by
  refine ⟨cs.takeWhile isBlank, (cs.dropWhile isBlank).rtakeWhile isBlank, ?_, ?_, ?_⟩
  · intro c hc
    exact List.mem_takeWhile_imp hc
  · intro c hc
    exact List.mem_rtakeWhile_imp hc
  · have hback : trimChars cs ++ (cs.dropWhile isBlank).rtakeWhile isBlank = cs.dropWhile isBlank :=
      List.rdropWhile_append_rtakeWhile
    rw [hback, List.takeWhile_append_dropWhile]

theorem trim_eq_empty_iff {text : String} : trim text = "" ↔ trimChars text.toList = [] := by
  rw [← String.toList_inj, trim, String.toList_ofList]
  rfl

/-- Only blanks are trimmed away altogether. -/
theorem trimChars_eq_nil_iff : trimChars cs = [] ↔ Blanks cs := by
  constructor
  · intro h
    have hrest : Blanks (cs.dropWhile isBlank) := List.rdropWhile_eq_nil_iff.1 h
    have hnone : cs.dropWhile isBlank = [] := by
      by_contra hne
      have hhead := List.head_dropWhile_not isBlank hne
      rw [hrest _ (List.head_mem hne)] at hhead
      cases hhead
    exact List.dropWhile_eq_nil_iff.1 hnone
  · intro h
    unfold trimChars
    rw [dropWhile_blanks h]
    rfl

/-! ## Words -/

/-- Words, each of them followed by blanks, of which there are some before another word. -/
inductive Phrase : List String → List Char → Prop
  | nil : Phrase [] []
  | cons {w : String} {ws : List String} {gap cs : List Char} (hg : Blanks gap)
      (hn : ws ≠ [] → gap ≠ []) (h : Phrase ws cs) : Phrase (w :: ws) (w.toList ++ (gap ++ cs))

/-- A text that holds some words, with blanks between them and any blanks at its ends. -/
def Sentence (ws : List String) (text : String) : Prop :=
  ∃ front cs, Blanks front ∧ Phrase ws cs ∧ text = String.ofList (front ++ cs)

/-- Words with a blank after each of them. -/
theorem sentence_flatMap (ws : List String) :
    Sentence ws (String.ofList (ws.flatMap fun w => w.toList ++ [' '])) := by
  refine ⟨[], ws.flatMap fun w => w.toList ++ [' '], nofun, ?_, rfl⟩
  induction ws with
  | nil => exact .nil
  | cons w ws ih =>
    have hgap : Blanks [' '] := by decide
    rw [List.flatMap_cons, List.append_assoc]
    exact .cons hgap nofun ih

/-- Every text is a sentence. -/
theorem sentence_self (text : String) : Sentence [text] text := by
  refine ⟨[], text.toList ++ ([] ++ []), nofun, .cons nofun (absurd rfl) .nil, ?_⟩
  simp

theorem wordsFrom_blanks (hf : Blanks front) (cs : List Char) :
    wordsFrom [] (front ++ cs) = wordsFrom [] cs := by
  induction front with
  | nil => rfl
  | cons c front ih =>
    obtain ⟨hc, hfront⟩ := List.forall_mem_cons.1 hf
    rw [List.cons_append, wordsFrom, if_pos hc]
    exact ih hfront

theorem wordsFrom_solid {w : List Char} (h : Solid w) (word cs : List Char) :
    wordsFrom word (w ++ cs) = wordsFrom (w.reverse ++ word) cs := by
  induction w generalizing word with
  | nil => rfl
  | cons c w ih =>
    obtain ⟨hc, hw⟩ := List.forall_mem_cons.1 h
    rw [List.cons_append, wordsFrom, if_neg (by rw [hc]; decide), ih hw, List.reverse_cons,
      List.append_assoc, List.singleton_append]

/-- A word ends where blanks come or the text ends. -/
theorem wordsFrom_end {word gap : List Char} (hword : word ≠ []) (hg : Blanks gap) (cs : List Char)
    (h : gap = [] → cs = []) : wordsFrom word (gap ++ cs) = word.reverse :: wordsFrom [] cs := by
  cases gap with
  | nil =>
    rw [h rfl]
    simp [wordsFrom, hword]
  | cons c gap =>
    obtain ⟨hc, hgap⟩ := List.forall_mem_cons.1 hg
    rw [List.cons_append, wordsFrom, if_pos hc, if_neg (by simp [hword]), wordsFrom_blanks hgap]

theorem wordsFrom_phrase {ws : List String} (h : Phrase ws cs)
    (hws : ∀ w ∈ ws, w ≠ "" ∧ Solid w.toList) : wordsFrom [] cs = ws.map String.toList := by
  induction h with
  | nil => rfl
  | @cons w ws gap cs hg hn h ih =>
    obtain ⟨⟨hne, hsolid⟩, hws⟩ := List.forall_mem_cons.1 hws
    have hword : w.toList.reverse ≠ [] := by
      simp [hne]
    -- Only the last word may go without blanks after it.
    have hlast : gap = [] → cs = [] := by
      intro hgap
      cases h with
      | nil => rfl
      | cons _ _ _ => exact absurd hgap (hn (List.cons_ne_nil _ _))
    rw [wordsFrom_solid hsolid, List.append_nil, wordsFrom_end hword hg cs hlast, ih hws,
      List.reverse_reverse, List.map_cons]

/-- The words of a sentence are read back. -/
theorem words_sentence {ws : List String} {text : String} (h : Sentence ws text)
    (hws : ∀ w ∈ ws, w ≠ "" ∧ Solid w.toList) : words text = ws := by
  obtain ⟨front, cs, hf, hcs, rfl⟩ := h
  rw [words, String.toList_ofList, wordsFrom_blanks hf, wordsFrom_phrase hcs hws, List.map_map]
  simp

/-! ## Pieces -/

section
variable {α : Type}

theorem modifyHead_nil_append (xss : List (List α)) : xss.modifyHead ([] ++ ·) = xss := by
  cases xss <;> rfl

variable [DecidableEq α]

theorem splitFrom_eq (sep : α) (piece xs : List α) :
    splitFrom sep piece xs = (xs.splitOn sep).modifyHead (piece.reverse ++ ·) := by
  induction xs generalizing piece with
  | nil => simp [splitFrom]
  | cons x xs ih =>
    rw [splitFrom, List.splitOn_cons_eq_if_modifyHead, ih, ih]
    by_cases hx : x = sep
    · rw [if_pos hx, if_pos (beq_iff_eq.2 hx), List.modifyHead_cons, List.append_nil,
        List.reverse_nil, modifyHead_nil_append]
    · rw [if_neg hx, if_neg (by simpa using hx), List.modifyHead_modifyHead, List.reverse_cons]
      simp [Function.comp_def]

/-- Pieces without the separator are read back. -/
theorem splitFrom_intercalate {sep : α} {pieces : List (List α)} (hne : pieces ≠ [])
    (h : ∀ p ∈ pieces, sep ∉ p) : splitFrom sep [] ([sep].intercalate pieces) = pieces := by
  rw [splitFrom_eq, List.splitOn_intercalate sep h hne, List.reverse_nil, modifyHead_nil_append]

end

/-- A text that lists some items with a separator between them and any blanks around each. -/
def Listing (sep : Char) (items : List String) (text : String) : Prop :=
  ∃ pieces, List.Forall₂ (fun item piece => Surrounded item.toList piece) items pieces ∧
    text.toList = [sep].intercalate pieces

/-- Items with nothing but separators between them. -/
theorem listing_intercalate (sep : Char) (items : List String) :
    Listing sep items (String.ofList ([sep].intercalate (items.map String.toList))) := by
  refine ⟨items.map String.toList, ?_, String.toList_ofList⟩
  rw [List.forall₂_map_right_iff, List.forall₂_same]
  intro item _
  exact ⟨[], [], nofun, nofun, by rw [List.nil_append, List.append_nil]⟩

/-- Every text is a list. -/
theorem listing_self (sep : Char) (text : String) : Listing sep [text] text := by
  have h := listing_intercalate sep [text]
  rwa [List.map_singleton, List.intercalate_singleton, String.ofList_toList] at h

theorem Surrounded.not_mem {inner outer : List Char} (h : Surrounded inner outer) {c : Char}
    (hc : isBlank c = false) (hinner : c ∉ inner) : c ∉ outer := by
  obtain ⟨front, back, hf, hb, rfl⟩ := h
  intro hmem
  rcases List.mem_append.1 hmem with hfront | hmem
  · rw [hf c hfront] at hc
    cases hc
  · rcases List.mem_append.1 hmem with hmem | hback
    · exact hinner hmem
    · rw [hb c hback] at hc
      cases hc

/-- Listed items are read back, if they hold no separator and no blanks at their ends. -/
theorem pieces_listing {sep : Char} (hsep : isBlank sep = false) {items : List String}
    {text : String} (h : Listing sep items text) (hne : items ≠ [])
    (hitems : ∀ item ∈ items, trim item = item ∧ sep ∉ item.toList) :
    (pieces sep text).map trim = items := by
  obtain ⟨ps, hps, htext⟩ := h
  have hnone : ps ≠ [] := by
    rintro rfl
    cases hps
    exact hne rfl
  have hclear : ∀ p ∈ ps, sep ∉ p := by
    clear htext hne hnone
    induction hps with
    | nil => nofun
    | cons hp _ ih =>
      obtain ⟨hitem, hitems⟩ := List.forall_mem_cons.1 hitems
      exact List.forall_mem_cons.2 ⟨hp.not_mem hsep hitem.2, ih hitems⟩
  have htrim : ps.map (trim ∘ String.ofList) = items := by
    clear htext hne hnone hclear
    induction hps with
    | nil => rfl
    | @cons item p _ _ hp _ ih =>
      obtain ⟨hitem, hitems⟩ := List.forall_mem_cons.1 hitems
      have hpiece : trim (String.ofList p) = item := by
        rw [← hitem.1, trim, trim, String.toList_ofList, hp.trimChars_eq]
      rw [List.map_cons, ih hitems, Function.comp_apply, hpiece]
  unfold pieces
  rw [htext, splitFrom_intercalate hnone hclear, List.map_map, htrim]

/-! ## Numerals -/

/-- What a whole number may be written as: at least one digit, or a plus sign before them. -/
inductive IsNumeral : List Char → Nat → Prop
  | plain {ds : List Char} (hne : ds ≠ []) (hd : ∀ c ∈ ds, c.isDigit = true) :
      IsNumeral ds (Nat.ofDigitChars 10 ds 0)
  | plus {ds : List Char} (hne : ds ≠ []) (hd : ∀ c ∈ ds, c.isDigit = true) :
      IsNumeral ('+' :: ds) (Nat.ofDigitChars 10 ds 0)

theorem digits?_eq_some_iff {n : Nat} : digits? cs = some n ↔
    cs ≠ [] ∧ (∀ c ∈ cs, c.isDigit = true) ∧ Nat.ofDigitChars 10 cs 0 = n := by
  unfold digits?
  simp only [List.all_eq_true]
  split
  · next h =>
    rw [Option.some_inj]
    exact ⟨fun hn => ⟨h.1, h.2, hn⟩, fun hcs => hcs.2.2⟩
  · next h => exact ⟨nofun, fun hcs => absurd ⟨hcs.1, hcs.2.1⟩ h⟩

/-- Digits in the range of a type. -/
theorem digits?_bind_eq_some_iff {max n : Nat} :
    ((digits? cs).bind fun n => if n ≤ max then some n else none) = some n ↔
      (cs ≠ [] ∧ (∀ c ∈ cs, c.isDigit = true) ∧ Nat.ofDigitChars 10 cs 0 = n) ∧ n ≤ max := by
  rw [Option.bind_eq_some_iff]
  constructor
  · rintro ⟨k, hk, hle⟩
    split at hle
    · next hmax =>
      cases hle
      exact ⟨digits?_eq_some_iff.1 hk, hmax⟩
    · cases hle
  · rintro ⟨h, hle⟩
    exact ⟨n, digits?_eq_some_iff.2 h, if_pos hle⟩

/-- A numeral of a type is one of a number in its range. -/
theorem natural?_eq_some_iff {max n : Nat} :
    natural? max cs = some n ↔ IsNumeral cs n ∧ n ≤ max := by
  unfold natural?
  rw [digits?_bind_eq_some_iff]
  refine and_congr_left fun _ => ?_
  split
  · next ds =>
    constructor
    · rintro ⟨hne, hd, rfl⟩
      exact .plus hne hd
    · intro h
      cases h with
      | plain _ hd => exact absurd (hd '+' List.mem_cons_self) (by decide)
      | plus hne hd => exact ⟨hne, hd, rfl⟩
  · next hplus =>
    constructor
    · rintro ⟨hne, hd, rfl⟩
      exact .plain hne hd
    · intro h
      cases h with
      | plain hne hd => exact ⟨hne, hd, rfl⟩
      | plus _ _ => exact absurd rfl (hplus _)

theorem isNumeral_decimal (n : Nat) : IsNumeral (decimal n) n := by
  obtain ⟨hne, hd, heq⟩ := digits?_eq_some_iff.1 (digits?_decimal n)
  have h : IsNumeral (decimal n) (Nat.ofDigitChars 10 (decimal n) 0) := .plain hne hd
  rwa [heq] at h

theorem isBlank_of_isDigit {c : Char} (h : c.isDigit = true) : isBlank c = false := by
  have hrange : 48 ≤ c.toNat ∧ c.toNat ≤ 57 := by
    simpa [Char.isDigit, UInt32.le_iff_toNat_le] using h
  simp only [isBlank, Bool.or_eq_false_iff, Bool.and_eq_false_iff, decide_eq_false_iff_not,
    beq_eq_false_iff_ne]
  omega

theorem IsNumeral.solid {n : Nat} (h : IsNumeral cs n) : Solid cs := by
  cases h with
  | plain _ hd => exact fun c hc => isBlank_of_isDigit (hd c hc)
  | plus _ hd =>
    exact List.forall_mem_cons.2 ⟨by decide, fun c hc => isBlank_of_isDigit (hd c hc)⟩

/-- A text of a number up to `max`: a numeral with any blanks around it. -/
def NumeralText (max n : Nat) (text : String) : Prop :=
  ∃ ds, Surrounded ds text.toList ∧ IsNumeral ds n ∧ n ≤ max

theorem NumeralText.le {max n : Nat} {text : String} (h : NumeralText max n text) : n ≤ max := by
  obtain ⟨ds, -, -, hle⟩ := h
  exact hle

theorem numeralText_decimal {max n : Nat} (h : n ≤ max) :
    NumeralText max n (String.ofList (decimal n)) := by
  refine ⟨decimal n, ⟨[], [], nofun, nofun, ?_⟩, isNumeral_decimal n, h⟩
  simp

theorem natural?_trimChars_eq_some_iff {max n : Nat} {text : String} :
    natural? max (trimChars text.toList) = some n ↔ NumeralText max n text := by
  rw [natural?_eq_some_iff]
  constructor
  · rintro ⟨h, hle⟩
    exact ⟨_, surrounded_trimChars _, h, hle⟩
  · rintro ⟨ds, hds, h, hle⟩
    rw [hds.trimChars_eq, trimChars_solid h.solid]
    exact ⟨h, hle⟩

end ToneRelay.Text
