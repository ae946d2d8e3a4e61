import ToneRelay.Text.Utf8

/-!
# Text is read from its bytes

`run_utf8`: the machine that reads UTF-8 comes from the bytes of a text to its characters, and
replaces none. So a reader that replaces what is no text, and one that refuses it, both read any
text back (`decodeLossy_utf8`, `decode?_utf8`), and what is read has the bytes it was read from just
if these are the bytes of a text (`utf8_decodeLossy_eq_iff`).

The bytes of a character are a first byte, which tells how many follow (`lead_two` and the next
two), and six bits in each of the others (`feed_more`, `feed_last`).
-/

namespace ToneRelay.Text

/-! ## First bytes -/

theorem utf8EncodeChar_ascii {c : Char} (h : c.toNat < 128) :
    String.utf8EncodeChar c = [UInt8.ofNat c.toNat] := by
  have hle : c.val.toNat ≤ 0x7f := Nat.le_of_lt_succ h
  unfold String.utf8EncodeChar
  rw [if_pos hle]
  rfl

theorem lead_one {c : Char} (h : c.toNat < 128) : lead (UInt8.ofNat c.toNat) = .whole c := by
  have hnat : (UInt8.ofNat c.toNat).toNat = c.toNat := Nat.mod_eq_of_lt (by omega)
  have hlt : UInt8.ofNat c.toNat < 0x80 := by
    rw [UInt8.lt_iff_toNat_lt, hnat]
    exact h
  unfold lead
  rw [if_pos hlt, hnat, Char.ofNat_toNat]

theorem lead_two : ∀ n, n < 32 → 2 ≤ n →
    lead (.ofNat (n + 192)) = .begun ⟨1, 0x80, 0xBF, n⟩ := by decide

theorem lead_three : ∀ n, n < 16 → lead (.ofNat (n + 224)) =
    .begun ⟨2, if n = 0 then 0xA0 else 0x80, if n = 13 then 0x9F else 0xBF, n⟩ := by decide

theorem lead_four : ∀ n, n < 5 → lead (.ofNat (n + 240)) =
    .begun ⟨3, if n = 0 then 0x90 else 0x80, if n = 4 then 0x8F else 0xBF, n⟩ := by decide

/-! ## The other bytes -/

namespace Decoder

variable {d : Decoder} {low high : UInt8} {n : Nat}

theorem feed_first {b : UInt8} {p : Begun} (hd : d.begun = none) (hb : lead b = .begun p) :
    d.feed b = { d with begun := some p } := by
  unfold feed first
  rw [hd]
  dsimp only
  rw [hb]

theorem feed_whole {b : UInt8} {c : Char} (hd : d.begun = none) (hb : lead b = .whole c) :
    d.feed b = { d with read := c :: d.read } := by
  unfold feed first
  rw [hd]
  dsimp only
  rw [hb, ← hd]

theorem toNat_follow (hn : n < 64) : (UInt8.ofNat (n + 128)).toNat = n + 128 :=
  Nat.mod_eq_of_lt (by omega)

/-- A byte that is not the last one of a character brings six bits. -/
theorem feed_more {need : Nat} (value : Nat) (hn : n < 64) (hneed : 1 < need)
    (hlow : low.toNat ≤ n + 128) (hhigh : n + 128 ≤ high.toNat) :
    ({ d with begun := some ⟨need, low, high, value⟩ } : Decoder).feed (.ofNat (n + 128)) =
      { d with begun := some ⟨need - 1, 0x80, 0xBF, value * 64 + n⟩ } := by
  have hrange : low ≤ UInt8.ofNat (n + 128) ∧ UInt8.ofNat (n + 128) ≤ high := by
    rw [UInt8.le_iff_toNat_le, UInt8.le_iff_toNat_le, toNat_follow hn]
    exact ⟨hlow, hhigh⟩
  rw [feed_of_begun rfl hrange hneed, toNat_follow hn, Nat.add_sub_cancel]

/-- So does one between the second and the last, which can be any that brings bits. -/
theorem feed_inner {need : Nat} (value : Nat) (hn : n < 64) (hneed : 1 < need) :
    ({ d with begun := some ⟨need, 0x80, 0xBF, value⟩ } : Decoder).feed (.ofNat (n + 128)) =
      { d with begun := some ⟨need - 1, 0x80, 0xBF, value * 64 + n⟩ } :=
  feed_more value hn hneed (Nat.le_add_left _ _) (by show _ ≤ 191; omega)

/-- The last byte of a character brings six bits and ends it. -/
theorem feed_last (value : Nat) (hn : n < 64) :
    ({ d with begun := some ⟨1, 0x80, 0xBF, value⟩ } : Decoder).feed (.ofNat (n + 128)) =
      { d with read := Char.ofNat (value * 64 + n) :: d.read, begun := none } := by
  have hrange : 0x80 ≤ UInt8.ofNat (n + 128) ∧ UInt8.ofNat (n + 128) ≤ 0xBF := by
    rw [UInt8.le_iff_toNat_le, UInt8.le_iff_toNat_le, toNat_follow hn]
    exact ⟨Nat.le_add_left _ _, by show _ ≤ 191; omega⟩
  rw [feed_of_last rfl hrange (Nat.le_refl 1), toNat_follow hn, Nat.add_sub_cancel]

/-! ## Characters -/

variable {v : Nat}

theorem foldl_two (hd : d.begun = none) (hlow : 0x80 ≤ v) (hhigh : v < 0x800) :
    [UInt8.ofNat (v / 64 % 32 + 192), UInt8.ofNat (v % 64 + 128)].foldl feed d =
      { d with read := Char.ofNat v :: d.read, begun := none } := by
  have hlead := feed_first hd (lead_two (v / 64 % 32) (by omega) (by omega))
  have hlast := feed_last (d := d) (n := v % 64) (v / 64 % 32) (by omega)
  rw [List.foldl_cons, List.foldl_cons, List.foldl_nil, hlead, hlast,
    show v / 64 % 32 * 64 + v % 64 = v by omega]

theorem foldl_three (hd : d.begun = none) (hlow : 0x800 ≤ v) (hhigh : v < 0x10000)
    (hvalid : v < 0xD800 ∨ 0xDFFF < v) :
    [UInt8.ofNat (v / 4096 % 16 + 224), UInt8.ofNat (v / 64 % 64 + 128),
      UInt8.ofNat (v % 64 + 128)].foldl feed d =
      { d with read := Char.ofNat v :: d.read, begun := none } := by
  have hlead := feed_first hd (lead_three (v / 4096 % 16) (by omega))
  -- what the range of the second byte leaves out are overlong forms and surrogates
  have hleast : (if v / 4096 % 16 = 0 then 0xA0 else 0x80 : UInt8).toNat ≤ v / 64 % 64 + 128 := by
    split
    · show 160 ≤ _
      omega
    · exact Nat.le_add_left _ _
  have hmost : v / 64 % 64 + 128 ≤ (if v / 4096 % 16 = 13 then 0x9F else 0xBF : UInt8).toNat := by
    split
    · show _ ≤ 159
      omega
    · show _ ≤ 191
      omega
  have hmore := feed_more (d := d) (v / 4096 % 16) (by omega) (by decide : 1 < 2) hleast hmost
  have hlast := feed_last (d := d) (n := v % 64) (v / 4096 % 16 * 64 + v / 64 % 64) (by omega)
  rw [List.foldl_cons, List.foldl_cons, List.foldl_cons, List.foldl_nil, hlead, hmore, hlast,
    show (v / 4096 % 16 * 64 + v / 64 % 64) * 64 + v % 64 = v by omega]

theorem foldl_four (hd : d.begun = none) (hlow : 0x10000 ≤ v) (hhigh : v < 0x110000) :
    [UInt8.ofNat (v / 262144 % 8 + 240), UInt8.ofNat (v / 4096 % 64 + 128),
      UInt8.ofNat (v / 64 % 64 + 128), UInt8.ofNat (v % 64 + 128)].foldl feed d =
      { d with read := Char.ofNat v :: d.read, begun := none } := by
  have hlead := feed_first hd (lead_four (v / 262144 % 8) (by omega))
  -- what the range of the second byte leaves out are overlong forms and values that are too great
  have hleast : (if v / 262144 % 8 = 0 then 0x90 else 0x80 : UInt8).toNat ≤
      v / 4096 % 64 + 128 := by
    split
    · show 144 ≤ _
      omega
    · exact Nat.le_add_left _ _
  have hmost : v / 4096 % 64 + 128 ≤ (if v / 262144 % 8 = 4 then 0x8F else 0xBF : UInt8).toNat := by
    split
    · show _ ≤ 143
      omega
    · show _ ≤ 191
      omega
  have hsecond := feed_more (d := d) (v / 262144 % 8) (by omega) (by decide : 1 < 3) hleast hmost
  have hthird := feed_inner (d := d) (n := v / 64 % 64) (v / 262144 % 8 * 64 + v / 4096 % 64)
    (by omega) (by decide : 1 < 2)
  have hlast := feed_last (d := d) (n := v % 64)
    ((v / 262144 % 8 * 64 + v / 4096 % 64) * 64 + v / 64 % 64) (by omega)
  rw [List.foldl_cons, List.foldl_cons, List.foldl_cons, List.foldl_cons, List.foldl_nil, hlead,
    hsecond, hthird, hlast,
    show ((v / 262144 % 8 * 64 + v / 4096 % 64) * 64 + v / 64 % 64) * 64 + v % 64 = v by omega]

/-- **The bytes of a character** are read as that character. -/
theorem foldl_feed_char (hd : d.begun = none) (c : Char) :
    (String.utf8EncodeChar c).foldl feed d = { d with read := c :: d.read } := by
  have hvalid : c.toNat < 0xD800 ∨ 0xDFFF < c.toNat ∧ c.toNat < 0x110000 := c.valid
  have hread : ({ d with read := Char.ofNat c.toNat :: d.read, begun := none } : Decoder) =
      { d with read := c :: d.read } := by
    rw [Char.ofNat_toNat, ← hd]
  unfold String.utf8EncodeChar
  change List.foldl feed d (if c.toNat ≤ 0x7f then _ else if c.toNat ≤ 0x7ff then _ else
    if c.toNat ≤ 0xffff then _ else _) = _
  split
  · next hone => exact feed_whole hd (lead_one (Nat.lt_succ_of_le hone))
  split
  · next hone htwo =>
    exact (foldl_two hd (Nat.lt_of_not_le hone) (Nat.lt_succ_of_le htwo)).trans hread
  split
  · next hone htwo hthree =>
    exact (foldl_three hd (Nat.lt_of_not_le htwo) (Nat.lt_succ_of_le hthree)
      (hvalid.imp_right And.left)).trans hread
  · next hone htwo hthree =>
    exact (foldl_four hd (Nat.lt_of_not_le hthree) (by omega)).trans hread

theorem foldl_feed (hd : d.begun = none) (cs : List Char) :
    (cs.flatMap String.utf8EncodeChar).foldl feed d = { d with read := cs.reverse ++ d.read } := by
  induction cs generalizing d with
  | nil => rfl
  | cons c cs ih =>
    rw [List.flatMap_cons, List.foldl_append, foldl_feed_char hd,
      ih (d := { d with read := c :: d.read }) hd, List.reverse_cons, List.append_assoc,
      List.singleton_append]

/-- **Reading a text** from its bytes. -/
theorem run_utf8 (s : String) : run (utf8 s) = { read := s.toList.reverse } := by
  unfold run utf8
  rw [foldl_feed rfl, List.append_nil]
  rfl

end Decoder

theorem decodeLossy_utf8 (s : String) : decodeLossy (utf8 s) = s := by
  unfold decodeLossy decodeLossyChars
  rw [Decoder.run_utf8, List.reverse_reverse, String.ofList_toList]

theorem decode?_utf8 (s : String) : decode? (utf8 s) = some s := by
  unfold decode?
  rw [Decoder.run_utf8]
  dsimp only
  rw [if_pos rfl, List.reverse_reverse, String.ofList_toList]

/-! ## Bytes of a text -/

/-- Bytes that are those of some text. -/
def IsText (bytes : List UInt8) : Prop := ∃ s, utf8 s = bytes

theorem isText_utf8 (s : String) : IsText (utf8 s) := ⟨s, rfl⟩

/-- The text that is read from some bytes has these bytes just if any text has. -/
theorem utf8_decodeLossy_eq_iff {bytes : List UInt8} :
    utf8 (decodeLossy bytes) = bytes ↔ IsText bytes := by
  constructor
  · exact fun h => ⟨_, h⟩
  · rintro ⟨s, rfl⟩
    rw [decodeLossy_utf8]

instance (bytes : List UInt8) : Decidable (IsText bytes) :=
  decidable_of_iff _ utf8_decodeLossy_eq_iff

/-- Reading takes the bytes of two texts apart. -/
theorem decodeLossy_inj {p q : List UInt8} (hp : IsText p) (hq : IsText q) :
    decodeLossy p = decodeLossy q ↔ p = q := by
  constructor
  · intro h
    rw [← utf8_decodeLossy_eq_iff.2 hp, ← utf8_decodeLossy_eq_iff.2 hq, h]
  · exact congrArg decodeLossy

end ToneRelay.Text
