import Mathlib.Data.List.Forall2
import ToneRelay.Proofs.Json.Reading

/-!
# Documents without their layout

A `Tree` is a document with its scalars and keys as they are spelled and without the blanks between
its tokens. `Tree.Rendered` gives the blanks back, any of them at any place. Beside it stand the
grammar (`Tree.WellFormed`) and two relations between trees: in an arrangement of a tree
(`Arranged`) the members of each record have changed places, and others have come in between; a
flawed arrangement (`Flawed`) lacks one member of the tree, or has it twice.
-/

namespace ToneRelay.Json

/-- A document without its layout. -/
inductive Tree
  | scalar (spelling : List Char)
  | list (items : List Tree)
  | record (members : List (List Char × Tree))

/-- A key as it is spelled between its quotation marks. -/
def spell (key : String) : List Char := key.toList.flatMap escape

/-! ## Tokens -/

mutual

def Tree.tokens : Tree → List (List Char)
  | .scalar spelling => [spelling]
  | .list ts => ['['] :: ((itemTokens ts).tail ++ [[']']])
  | .record ms => ['\x7b'] :: ((memberTokens ms).tail ++ [['\x7d']])

/-- Each item with a comma before it. -/
def itemTokens : List Tree → List (List Char)
  | [] => []
  | t :: ts => [','] :: (t.tokens ++ itemTokens ts)

/-- Each member with a comma before it. -/
def memberTokens : List (List Char × Tree) → List (List Char)
  | [] => []
  | (k, t) :: ms => [','] :: ('"' :: k ++ ['"']) :: [':'] :: (t.tokens ++ memberTokens ms)

end

/-- The tokens one after another, with blanks before each of them. -/
inductive Spaced : List (List Char) → List Char → Prop
  | nil : Spaced [] []
  | cons {blanks token cs : List Char} {tokens : List (List Char)} (hb : Blank blanks)
      (h : Spaced tokens cs) : Spaced (token :: tokens) (blanks ++ (token ++ cs))

/-- A text of a tree, with any blanks between the tokens and at both ends. -/
def Tree.Rendered (t : Tree) (text : String) : Prop :=
  ∃ cs blanks, Spaced t.tokens cs ∧ Blank blanks ∧ text = String.ofList (cs ++ blanks)

mutual

/-- The tree of a value. -/
def Value.tree : Value → Tree
  | .null => .scalar "null".toList
  | .bool true => .scalar "true".toList
  | .bool false => .scalar "false".toList
  | .whole n => .scalar (Nat.toDigits 10 n)
  | .float x => .scalar (Decimal.Layout.json.chars x)
  | .text s => .scalar (quote s.toList)
  | .list vs => .list (trees vs)
  | .record fs => .record (memberTrees fs)

def trees : List Value → List Tree
  | [] => []
  | v :: vs => v.tree :: trees vs

def memberTrees : List (String × Value) → List (List Char × Tree)
  | [] => []
  | (k, v) :: fs => (spell k, v.tree) :: memberTrees fs

end

@[simp] theorem trees_eq_map (vs : List Value) : trees vs = vs.map Value.tree := by
  induction vs with
  | nil => rfl
  | cons v vs ih => simp [trees, ih]

@[simp] theorem memberTrees_eq_map (fs : List (String × Value)) :
    memberTrees fs = fs.map fun m => (spell m.1, m.2.tree) := by
  induction fs with
  | nil => rfl
  | cons f fs ih => simp [memberTrees, ih]

/-! ## The grammar -/

/-- Digits, and at least one. -/
def IsDigits (ds : List Char) : Prop := ds ≠ [] ∧ ∀ c ∈ ds, c.isDigit = true

/-- The decimal places of a number, if it has any. -/
inductive IsPlaces : List Char → Prop
  | none : IsPlaces []
  | some {ds : List Char} (h : IsDigits ds) : IsPlaces ('.' :: ds)

/-- The power of ten of a number, if it has one. -/
inductive IsPower : List Char → Prop
  | none : IsPower []
  | some {e : Char} {sign ds : List Char} (he : e = 'e' ∨ e = 'E')
      (hs : sign = [] ∨ sign = ['+'] ∨ sign = ['-']) (h : IsDigits ds) : IsPower (e :: sign ++ ds)

/-- A number without its sign. -/
inductive IsNumber : List Char → Prop
  | mk {whole places power : List Char} (hw : IsDigits whole)
      (lead : ∀ c rest, whole ≠ '0' :: c :: rest) (hp : IsPlaces places) (he : IsPower power) :
      IsNumber (whole ++ (places ++ power))

/-- A digit to the base sixteen. -/
def IsHex (c : Char) : Prop := c ∈ "0123456789abcdefABCDEF".toList

/-- The spelling of a text between its quotation marks. -/
inductive IsSpelling : List Char → Prop
  | nil : IsSpelling []
  | plain {c : Char} {cs : List Char} (hc : 32 ≤ c.toNat) (hq : c ≠ '"') (hs : c ≠ '\\')
      (h : IsSpelling cs) : IsSpelling (c :: cs)
  | escaped {c : Char} {cs : List Char} (hc : c ∈ ['"', '\\', '/', 'b', 'f', 'n', 'r', 't'])
      (h : IsSpelling cs) : IsSpelling ('\\' :: c :: cs)
  | numbered {a b c d : Char} {cs : List Char} (ha : IsHex a) (hb : IsHex b) (hc : IsHex c)
      (hd : IsHex d) (h : IsSpelling cs) : IsSpelling ('\\' :: 'u' :: a :: b :: c :: d :: cs)

/-- The spelling of a scalar. -/
inductive IsScalar : List Char → Prop
  | null : IsScalar "null".toList
  | true : IsScalar "true".toList
  | false : IsScalar "false".toList
  | number {cs : List Char} (h : IsNumber cs) : IsScalar cs
  | negative {cs : List Char} (h : IsNumber cs) : IsScalar ('-' :: cs)
  | text {cs : List Char} (h : IsSpelling cs) : IsScalar ('"' :: cs ++ ['"'])

/-- All scalars and keys are spelled by the grammar. -/
inductive Tree.WellFormed : Tree → Prop
  | scalar {cs : List Char} (h : IsScalar cs) : Tree.WellFormed (.scalar cs)
  | list {ts : List Tree} (h : ∀ t ∈ ts, t.WellFormed) : Tree.WellFormed (.list ts)
  | record {ms : List (List Char × Tree)} (hk : ∀ m ∈ ms, IsSpelling m.1)
      (h : ∀ m ∈ ms, m.2.WellFormed) : Tree.WellFormed (.record ms)

/-! ## Arrangements -/

/-- A member that a record does not know. -/
structure Foreign (keys : List (List Char)) (m : List Char × Tree) : Prop where
  spelled : ∃ k, m.1 = spell k
  unknown : m.1 ∉ keys
  wellFormed : m.2.WellFormed

/-- The second tree is the first one with the members of its records in any order and with members
between them that these records do not know. -/
inductive Arranged : Tree → Tree → Prop
  | scalar (spelling : List Char) : Arranged (.scalar spelling) (.scalar spelling)
  | list {ts us : List Tree} (h : List.Forall₂ Arranged ts us) : Arranged (.list ts) (.list us)
  | record {ms own foreign ns : List (List Char × Tree)}
      (hk : own.map (·.1) = ms.map (·.1))
      (h : List.Forall₂ (fun m n => Arranged m.2 n.2) ms own)
      (hf : ∀ m ∈ foreign, Foreign (ms.map (·.1)) m) (hp : ns.Perm (own ++ foreign)) :
      Arranged (.record ms) (.record ns)

/-- The second tree is an arrangement of the first one but for one record in it, which lacks one of
its members or has it twice. -/
inductive Flawed : Tree → Tree → Prop
  | missing {ms front back : List (List Char × Tree)} {m : List Char × Tree}
      (h : Arranged (.record ms) (.record (front ++ m :: back))) (hm : m.1 ∈ ms.map (·.1)) :
      Flawed (.record ms) (.record (front ++ back))
  | twice {ms front back : List (List Char × Tree)} {m : List Char × Tree}
      (h : Arranged (.record ms) (.record (front ++ back))) (hm : m.1 ∈ ms.map (·.1))
      (hfront : m.1 ∈ front.map (·.1)) : Flawed (.record ms) (.record (front ++ m :: back))
  | member {ms front back : List (List Char × Tree)} {k : List Char} {s t u : Tree}
      (h : Arranged (.record ms) (.record (front ++ (k, t) :: back))) (hm : (k, s) ∈ ms)
      (hu : Flawed s u) : Flawed (.record ms) (.record (front ++ (k, u) :: back))
  | item {ts ts' us us' : List Tree} {s u : Tree} (h : List.Forall₂ Arranged ts us)
      (hu : Flawed s u) (h' : List.Forall₂ Arranged ts' us') :
      Flawed (.list (ts ++ s :: ts')) (.list (us ++ u :: us'))

mutual

/-- A tree is an arrangement of itself. -/
theorem Arranged.refl (t : Tree) : Arranged t t := by
  match t with
  | .scalar spelling => exact .scalar spelling
  | .list ts => exact .list (forall₂_arranged_refl ts)
  | .record ms =>
    have hforeign : ∀ m ∈ ([] : List (List Char × Tree)), Foreign (ms.map (·.1)) m := nofun
    exact .record rfl (forall₂_arranged_snd_refl ms) hforeign (.of_eq (List.append_nil ms).symm)

theorem forall₂_arranged_refl (ts : List Tree) : List.Forall₂ Arranged ts ts := by
  match ts with
  | [] => exact .nil
  | t :: ts => exact .cons (Arranged.refl t) (forall₂_arranged_refl ts)

theorem forall₂_arranged_snd_refl (ms : List (List Char × Tree)) :
    List.Forall₂ (fun m n => Arranged m.2 n.2) ms ms := by
  match ms with
  | [] => exact .nil
  | (_, t) :: ms => exact .cons (Arranged.refl t) (forall₂_arranged_snd_refl ms)

end

/-! ## Texts of tokens -/

section
variable {blanks token cs ds : List Char} {ts us : List (List Char)}

theorem Spaced.append (h : Spaced ts cs) (h' : Spaced us ds) : Spaced (ts ++ us) (cs ++ ds) := by
  induction h with
  | nil => exact h'
  | cons hb _ ih =>
    rw [List.cons_append, List.append_assoc, List.append_assoc]
    exact .cons hb ih

theorem Spaced.split (h : Spaced (ts ++ us) cs) :
    ∃ a b, cs = a ++ b ∧ Spaced ts a ∧ Spaced us b := by
  induction ts generalizing cs with
  | nil => exact ⟨[], cs, rfl, .nil, h⟩
  | cons t ts ih =>
    cases h with
    | cons hb h =>
      obtain ⟨a, b, rfl, ha, hu⟩ := ih h
      exact ⟨_, b, by simp only [List.append_assoc], .cons hb ha, hu⟩

theorem spaced_singleton (token : List Char) : Spaced [token] token := by
  have hblank : Blank [] := nofun
  have h : Spaced [token] ([] ++ (token ++ [])) := .cons hblank .nil
  rwa [List.nil_append, List.append_nil] at h

theorem spaced_flatten (ts : List (List Char)) : Spaced ts ts.flatten := by
  induction ts with
  | nil => exact .nil
  | cons t ts ih => exact (spaced_singleton t).append ih

theorem Spaced.after (h : Spaced (token :: ts) cs) (hb : Blank blanks) :
    Spaced (token :: ts) (blanks ++ cs) := by
  cases h with
  | @cons inner _ cs _ hi h =>
    rw [← List.append_assoc]
    refine .cons ?_ h
    intro c hc
    exact (List.mem_append.1 hc).elim (hb c) (hi c)

end

/-- What a text of tokens starts with. -/
theorem Spaced.cons_eq {token cs : List Char} {ts : List (List Char)}
    (h : Spaced (token :: ts) cs) :
    ∃ blanks rest, cs = blanks ++ (token ++ rest) ∧ Blank blanks ∧ Spaced ts rest := by
  cases h with
  | cons hb h => exact ⟨_, _, rfl, hb, h⟩

theorem tokens_ne_nil (t : Tree) : ∃ token ts, t.tokens = token :: ts := by
  cases t with
  | scalar s => exact ⟨_, _, Tree.tokens.eq_1 s⟩
  | list ts => exact ⟨_, _, Tree.tokens.eq_2 ts⟩
  | record ms => exact ⟨_, _, Tree.tokens.eq_3 ms⟩

/-- The first token starts with what is no blank and ends no list. -/
def Tree.Starts (t : Tree) : Prop :=
  ∃ c token ts, t.tokens = (c :: token) :: ts ∧ isSpace c = false ∧ c ≠ ']'

theorem starts_list (ts : List Tree) : (Tree.list ts).Starts :=
  ⟨'[', [], _, Tree.tokens.eq_2 ts, by decide, by decide⟩

theorem starts_record (ms : List (List Char × Tree)) : (Tree.record ms).Starts :=
  ⟨'\x7b', [], _, Tree.tokens.eq_3 ms, by decide, by decide⟩

theorem starts_scalar {c : Char} {cs : List Char} (hc : isSpace c = false) (hb : c ≠ ']') :
    (Tree.scalar (c :: cs)).Starts :=
  ⟨c, cs, [], Tree.tokens.eq_1 _, hc, hb⟩

theorem Tree.Starts.spaced {t : Tree} {cs : List Char} (h : t.Starts) (hs : Spaced t.tokens cs) :
    ∃ blanks c ds, cs = blanks ++ c :: ds ∧ Blank blanks ∧ isSpace c = false ∧ c ≠ ']' ∧
      Spaced t.tokens (c :: ds) := by
  obtain ⟨c, token, ts, ht, hc, hb⟩ := h
  rw [ht] at hs ⊢
  obtain ⟨blanks, rest, rfl, hblank, hrest⟩ := hs.cons_eq
  exact ⟨blanks, c, token ++ rest, rfl, hblank, hc, hb,
    (spaced_singleton (c :: token)).append hrest⟩

theorem Arranged.starts {t u : Tree} (h : Arranged t u) (ht : t.Starts) : u.Starts := by
  cases h with
  | scalar => exact ht
  | list _ => exact starts_list _
  | record _ _ _ _ => exact starts_record _

theorem Flawed.starts {t u : Tree} (h : Flawed t u) : u.Starts := by
  cases h with
  | missing _ _ | twice _ _ _ | member _ _ _ => exact starts_record _
  | item _ _ _ => exact starts_list _

theorem Spaced.after_tree {blanks cs : List Char} {t : Tree} (h : Spaced t.tokens cs)
    (hb : Blank blanks) : Spaced t.tokens (blanks ++ cs) := by
  obtain ⟨token, ts, ht⟩ := tokens_ne_nil t
  rw [ht] at h ⊢
  exact h.after hb

theorem Spaced.punctuation {p : Char} {cs : List Char} {ts : List (List Char)}
    (h : Spaced ([p] :: ts) cs) :
    ∃ blanks rest, cs = blanks ++ p :: rest ∧ Blank blanks ∧ Spaced ts rest := h.cons_eq

/-- A key, its colon and what comes after it. -/
theorem Spaced.member {key cs : List Char} {ts : List (List Char)}
    (h : Spaced (('"' :: key ++ ['"']) :: [':'] :: ts) cs) :
    ∃ blanks colonBlanks rest, cs = blanks ++ '"' :: (key ++ '"' :: (colonBlanks ++ ':' :: rest)) ∧
      Blank blanks ∧ Blank colonBlanks ∧ Spaced ts rest := by
  obtain ⟨blanks, more, rfl, hb, hmore⟩ := h.cons_eq
  obtain ⟨colonBlanks, rest, rfl, hcolon, hrest⟩ := hmore.punctuation
  exact ⟨blanks, colonBlanks, rest, by simp, hb, hcolon, hrest⟩

theorem Spaced.eq_nil {cs : List Char} (h : Spaced [] cs) : cs = [] := by
  cases h
  rfl

/-- What comes after an item does not go on it. -/
theorem ends_itemTokens {ts : List Tree} {cs rest : List Char} (h : Spaced (itemTokens ts) cs)
    (hr : Ends rest) : Ends (cs ++ rest) := by
  cases ts with
  | nil =>
    rw [itemTokens] at h
    rwa [h.eq_nil]
  | cons t ts =>
    rw [itemTokens] at h
    obtain ⟨blanks, more, rfl, hb, -⟩ := h.punctuation
    rw [List.append_assoc]
    exact ends_blanks hb (ends_cons (by decide) _)

/-- What comes after a member does not go on it. -/
theorem ends_memberTokens {ms : List (List Char × Tree)} {cs rest : List Char}
    (h : Spaced (memberTokens ms) cs) (hr : Ends rest) : Ends (cs ++ rest) := by
  match ms with
  | [] =>
    rw [memberTokens] at h
    rwa [h.eq_nil]
  | (k, t) :: ms =>
    rw [memberTokens] at h
    obtain ⟨blanks, more, rfl, hb, -⟩ := h.punctuation
    rw [List.append_assoc]
    exact ends_blanks hb (ends_cons (by decide) _)

section
variable {sp : Spacing} (hsp : sp.Blanks)
include hsp

mutual

/-- A value is written as its tokens with blanks between them. -/
theorem spaced_write (depth : Nat) (v : Value) : Spaced v.tree.tokens (v.write sp depth) := by
  match v with
  | .null | .bool true | .bool false | .whole n | .float x | .text s =>
    rw [Value.tree, Tree.tokens, Value.write]
    exact spaced_singleton _
  | .list [] =>
    simp only [Value.tree, trees, Tree.tokens, itemTokens, Value.write]
    exact (spaced_singleton ['[']).append (spaced_singleton [']'])
  | .list (v :: vs) =>
    have hv := (spaced_write (depth + 1) v).after_tree (hsp.line (depth + 1))
    have hvs := spaced_writeItems (depth + 1) vs
    have hend := (spaced_singleton [']']).after (hsp.line depth)
    have h := (spaced_singleton ['[']).append ((hv.append hvs).append hend)
    simpa [Value.tree, trees, Tree.tokens, itemTokens, Value.write] using h
  | .record [] =>
    simp only [Value.tree, memberTrees, Tree.tokens, memberTokens, Value.write]
    exact (spaced_singleton ['\x7b']).append (spaced_singleton ['\x7d'])
  | .record ((k, v) :: fs) =>
    have hk := (spaced_singleton (quote k.toList)).after (hsp.line (depth + 1))
    have hv := (spaced_write (depth + 1) v).after_tree hsp.gap
    have hfs := spaced_writeFields (depth + 1) fs
    have hend := (spaced_singleton ['\x7d']).after (hsp.line depth)
    have h := (spaced_singleton ['\x7b']).append
      ((((hk.append (spaced_singleton [':'])).append hv).append hfs).append hend)
    simpa [Value.tree, memberTrees, Tree.tokens, memberTokens, Value.write, quote, spell] using h

theorem spaced_writeItems (depth : Nat) (vs : List Value) :
    Spaced (itemTokens (trees vs)) (writeItems sp depth vs) := by
  match vs with
  | [] => exact .nil
  | v :: vs =>
    have hv := (spaced_write depth v).after_tree (hsp.line depth)
    have h := (spaced_singleton [',']).append (hv.append (spaced_writeItems depth vs))
    simpa [trees, itemTokens, writeItems] using h

theorem spaced_writeFields (depth : Nat) (fs : List (String × Value)) :
    Spaced (memberTokens (memberTrees fs)) (writeFields sp depth fs) := by
  match fs with
  | [] => exact .nil
  | (k, v) :: fs =>
    have hk := (spaced_singleton (quote k.toList)).after (hsp.line depth)
    have hv := (spaced_write depth v).after_tree hsp.gap
    have h := (spaced_singleton [',']).append ((hk.append (spaced_singleton [':'])).append
      (hv.append (spaced_writeFields depth fs)))
    simpa [memberTrees, memberTokens, writeFields, quote, spell] using h

end

end

end ToneRelay.Json
