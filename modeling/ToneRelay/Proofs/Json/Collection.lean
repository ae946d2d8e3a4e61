import Mathlib.Data.List.Nodup
import ToneRelay.Proofs.Json.Legible

/-!
# Records in any order

The reader of a record collects the values of its fields in a state. When that state only says which
of the fields have been read (`Collects`), their order does not matter, members that are no fields
leave no trace, and a field that is missing or given twice is found out: `legible_record`. A record
is complete at its last brace only: `record_cut`.
-/

namespace ToneRelay.Json

/-- The members with their keys spelled. -/
def spelled (fs : List (String × Tree)) : List (List Char × Tree) :=
  fs.map fun m => (spell m.1, m.2)

theorem spell_injective {a b : String} (h : spell a = spell b) : a = b := by
  have ha := quoted_quote a.toList []
  have hb := quoted_quote b.toList []
  unfold spell at h
  rw [h, hb, Except.ok.injEq, Prod.mk.injEq] at ha
  exact (String.toList_inj.1 ha.1).symm

theorem tree_record (fs : List (String × Value)) :
    (Value.record fs).tree = .record (spelled (fs.map fun m => (m.1, m.2.tree))) := by
  rw [Value.tree, memberTrees_eq_map, spelled, List.map_map]
  rfl

theorem mem_keys_spelled {fs : List (String × Tree)} {key : List Char} :
    key ∈ (spelled fs).map (·.1) ↔ ∃ m ∈ fs, key = spell m.1 := by
  simp only [spelled, List.map_map, List.mem_map, Function.comp, eq_comm]

section
variable {σ α : Type}

/-- The field reads the member with its key, and the state says whether it has been read. -/
structure Keeps (state : List String → σ) (f : Field σ) (m : String × Tree) : Prop where
  name : f.name = m.1
  isSet : ∀ ks, f.isSet (state ks) = decide (m.1 ∈ ks)
  read : ∀ ks, Legible (f.read (state ks)) m.2 (state (m.1 :: ks))

/-- The fields read the members of a record, and `state` is what has been read after some keys. The
record is `a` when all of them have been read. -/
structure Collects (fields : List (Field σ)) (finish : σ → Option α) (state : List String → σ)
    (fs : List (String × Tree)) (a : α) : Prop where
  keeps : List.Forall₂ (Keeps state) fields fs
  nodup : (fs.map (·.1)).Nodup
  complete : ∀ ks, (∀ m ∈ fs, m.1 ∈ ks) → finish (state ks) = some a
  lacking : ∀ ks, ∀ m ∈ fs, m.1 ∉ ks → finish (state ks) = none

/-- A value once its key has been read. -/
def given {β : Type} (ks : List String) (k : String) (v : β) : Option β :=
  if k ∈ ks then some v else none

section
variable {β : Type} {ks : List String} {k : String} {v w : β}

@[simp] theorem given_eq_some : given ks k v = some w ↔ k ∈ ks ∧ v = w := by
  simp [given]

theorem given_of_mem (h : k ∈ ks) : given ks k v = some v := if_pos h

@[simp] theorem given_cons_self : given (k :: ks) k v = some v := given_of_mem List.mem_cons_self

@[simp] theorem given_cons_of_ne {j : String} (h : k ≠ j) : given (j :: ks) k v = given ks k v := by
  simp [given, h]

theorem keeps_of {state : List String → σ} {get : σ → Option β} {set : σ → β → σ}
    {read : List Char → Reading β} {t : Tree} (hget : ∀ ks, get (state ks) = given ks k v)
    (hset : ∀ ks, set (state ks) v = state (k :: ks)) (h : Legible read t v) :
    Keeps state (.of k get set read) (k, t) where
  name := rfl
  isSet ks := by
    show (get (state ks)).isSome = _
    rw [hget, given]
    split <;> simp_all
  read ks := hset ks ▸ h.map (set (state ks))

end

section
variable {state : List String → σ} {fields : List (Field σ)} {fs : List (String × Tree)}

theorem find?_of_keeps (h : List.Forall₂ (Keeps state) fields fs) (hnd : (fs.map (·.1)).Nodup)
    {m : String × Tree} (hm : m ∈ fs) :
    ∃ f, fields.find? (·.name == m.1) = some f ∧ Keeps state f m := by
  induction h with
  | nil => cases hm
  | @cons f n fields fs hf _ ih =>
    rw [List.map_cons, List.nodup_cons] at hnd
    rcases List.mem_cons.1 hm with rfl | hm
    · exact ⟨f, List.find?_cons_of_pos (by simp [hf.name]), hf⟩
    · have hne : n.1 ≠ m.1 := fun heq => hnd.1 (heq ▸ List.mem_map_of_mem hm)
      rw [List.find?_cons_of_neg (by simp [hf.name, hne])]
      exact ih hnd.2 hm

theorem find?_eq_none_of_keeps (h : List.Forall₂ (Keeps state) fields fs) {k : String}
    (hk : ∀ m ∈ fs, m.1 ≠ k) : fields.find? (·.name == k) = none := by
  induction h with
  | nil => rfl
  | @cons f n fields fs hf _ ih =>
    have hne := hk n (by simp)
    rw [List.find?_cons_of_neg (by simp [hf.name, hne])]
    exact ih fun m hm => hk m (by simp [hm])

end

/-! ## One member -/

section
variable {fields : List (Field σ)} {s : σ} {k : String} {f : Field σ}

theorem member_known (find : fields.find? (·.name == k) = some f) (unset : f.isSet s = false)
    (cs : List Char) :
    member fields s (spell k ++ '"' :: cs) = (colon cs).bind (f.read s) := by
  unfold member spell
  rw [quoted_quote]
  simp only [bind, Except.bind, String.ofList_toList, find, unset, Bool.false_eq_true, if_false]

theorem member_cut {p : List Char} (h : Cut p (spell k ++ ['"'])) :
    member fields s p = .error .incomplete := by
  unfold member
  rw [quoted_cut h]
  rfl

theorem member_again (find : fields.find? (·.name == k) = some f) (set : f.isSet s = true)
    (cs : List Char) : member fields s (spell k ++ '"' :: cs) = .error .mismatch := by
  unfold member spell
  rw [quoted_quote]
  simp only [bind, Except.bind, String.ofList_toList, find, set, if_true]

theorem member_unknown (find : fields.find? (·.name == k) = none) {blanks : List Char}
    (hb : Blank blanks) {cs rest : List Char} (hpass : pass cs = .ok rest) :
    member fields s (spell k ++ '"' :: (blanks ++ ':' :: cs)) = .ok (s, rest) := by
  unfold member spell
  rw [quoted_quote]
  simp only [bind, Except.bind, String.ofList_toList, find, colon_blanks hb, hpass]
  rfl

/-- A member that is cut short halts if its value does. -/
theorem member_unfinished (find : fields.find? (·.name == k) = some f) (unset : f.isSet s = false)
    {t : Tree} {v : σ} (ht : Legible (f.read s) t v) {blanks cs p : List Char} (hb : Blank blanks)
    (hs : Spaced t.tokens cs) (hp : Cut p (spell k ++ '"' :: (blanks ++ ':' :: cs))) :
    Unfinished (member fields s p) := by
  rw [← List.singleton_append, ← List.append_assoc] at hp
  rcases hp.append with hkey | ⟨q, rfl, hq⟩
  · exact .inl (member_cut hkey)
  rw [List.append_assoc, List.singleton_append, member_known find unset]
  rcases hq.token hb with hblank | ⟨r, rfl, hr⟩
  · left
    rw [colon_blank hblank]
    rfl
  · rw [colon_blanks hb]
    exact ht.unfinished cs r hs hr

end

/-! ## Members in a row -/

section
variable {fields : List (Field σ)}

theorem membersFrom_blanks {blanks : List Char} (hb : Blank blanks) (fuel : Nat) (first : Bool)
    (s : σ) (cs : List Char) :
    membersFrom fields fuel first s (blanks ++ cs) = membersFrom fields fuel first s cs := by
  cases fuel with
  | zero => rfl
  | succ fuel =>
    unfold membersFrom
    rw [skipSpace_append hb]

theorem membersFrom_nil (fuel : Nat) (first : Bool) (s : σ) :
    membersFrom fields fuel first s [] = .error .incomplete := by
  cases fuel <;> rfl

theorem membersFrom_blank {blanks : List Char} (hb : Blank blanks) (fuel : Nat) (first : Bool)
    (s : σ) : membersFrom fields fuel first s blanks = .error .incomplete := by
  rw [← List.append_nil blanks, membersFrom_blanks hb, membersFrom_nil]

theorem membersFrom_first {fuel : Nat} {s : σ} {blanks : List Char} (hb : Blank blanks)
    (cs : List Char) : membersFrom fields (fuel + 1) true s (blanks ++ '"' :: cs) =
      (member fields s cs).bind fun (s, rest) => membersFrom fields fuel false s rest := by
  conv =>
    lhs
    unfold membersFrom
  rw [skipSpace_blanks hb isSpace_quote]
  rfl

theorem membersFrom_next {fuel : Nat} {s : σ} {blanks : List Char} (hb : Blank blanks)
    (cs : List Char) : membersFrom fields (fuel + 1) false s (',' :: (blanks ++ '"' :: cs)) =
      (member fields s cs).bind fun (s, rest) => membersFrom fields fuel false s rest := by
  have hcomma : isSpace ',' = false := by decide
  conv =>
    lhs
    unfold membersFrom
  rw [skipSpace_cons hcomma]
  split
  · rename_i heq
    cases heq
  · rename_i heq
    simp at heq
  · rename_i heq
    cases heq
    rw [if_neg (by decide), if_pos rfl, skipSpace_blanks hb isSpace_quote]
    rfl

/-- The first member is read as if a comma stood before it. -/
theorem membersFrom_comma {blanks : List Char} (hb : Blank blanks) (fuel : Nat) (s : σ)
    (cs : List Char) : membersFrom fields fuel true s (blanks ++ '"' :: cs) =
      membersFrom fields fuel false s (',' :: (blanks ++ '"' :: cs)) := by
  cases fuel with
  | zero => rfl
  | succ fuel => rw [membersFrom_first hb, membersFrom_next hb]

theorem membersFrom_commaBlank {blanks : List Char} (hb : Blank blanks) (fuel : Nat) (s : σ) :
    membersFrom fields (fuel + 1) false s (',' :: blanks) = .error .incomplete := by
  have hcomma : isSpace ',' = false := by decide
  unfold membersFrom
  rw [skipSpace_cons hcomma]
  split
  · rfl
  · rename_i heq
    simp at heq
  · rename_i heq
    cases heq
    rw [if_neg (by decide), if_pos rfl, skipSpace_blank hb]

/-- A member after its comma. -/
theorem membersFrom_member {blanks inner : List Char} (hb : Blank blanks) (hi : Blank inner)
    (fuel : Nat) (s : σ) (cs : List Char) :
    membersFrom fields (fuel + 1) false s (blanks ++ ',' :: (inner ++ '"' :: cs)) =
      (member fields s cs).bind fun (s, rest) => membersFrom fields fuel false s rest := by
  rw [membersFrom_blanks hb, membersFrom_next hi]

theorem membersFrom_end {blanks : List Char} (hb : Blank blanks) (fuel : Nat) (first : Bool)
    (s : σ) (rest : List Char) :
    membersFrom fields (fuel + 1) first s (blanks ++ '\x7d' :: rest) = .ok (s, rest) := by
  have hbrace : isSpace '\x7d' = false := by decide
  unfold membersFrom
  rw [skipSpace_blanks hb hbrace]
  rfl

end

/-! ## Arrangements of a record -/

/-- What may stand in a record: its own members, none of them twice, and foreign ones. -/
structure Admits (fs : List (String × Tree)) (ns : List (List Char × Tree)) : Prop where
  each : ∀ n ∈ ns, (∃ m ∈ fs, n.1 = spell m.1 ∧ Arranged m.2 n.2) ∨
    Foreign ((spelled fs).map (·.1)) n
  once : ns.Pairwise fun n n' => n.1 = n'.1 → n.1 ∉ (spelled fs).map (·.1)

theorem Admits.sublist {fs : List (String × Tree)} {ns ns' : List (List Char × Tree)}
    (h : Admits fs ns) (hs : ns'.Sublist ns) : Admits fs ns' :=
  ⟨fun n hn => h.each n (hs.subset hn), h.once.sublist hs⟩

theorem own_of_forall₂ {ms own : List (List Char × Tree)} (hk : own.map (·.1) = ms.map (·.1))
    (h : List.Forall₂ (fun m n => Arranged m.2 n.2) ms own) :
    ∀ n ∈ own, ∃ m ∈ ms, n.1 = m.1 ∧ Arranged m.2 n.2 := by
  induction h with
  | nil =>
    intro x hx
    exact absurd hx List.not_mem_nil
  | @cons m n ms own hm _ ih =>
    rw [List.map_cons, List.map_cons, List.cons.injEq] at hk
    intro x hx
    rcases List.mem_cons.1 hx with rfl | hx
    · exact ⟨m, by simp, hk.1, hm⟩
    · obtain ⟨y, hy, hkey, harranged⟩ := ih hk.2 x hx
      exact ⟨y, by simp [hy], hkey, harranged⟩

section
variable {fs : List (String × Tree)} {ns : List (List Char × Tree)}

/-- An arrangement of a record holds all its members. -/
theorem admits_of_arranged (hnd : (fs.map (·.1)).Nodup)
    (h : Arranged (.record (spelled fs)) (.record ns)) :
    Admits fs ns ∧ ∀ m ∈ fs, spell m.1 ∈ ns.map (·.1) := by
  cases h with
  | @record _ own foreign _ hk h hf hp =>
    have hkeys : (own.map (·.1)).Nodup := by
      have hmap : (spelled fs).map (·.1) = (fs.map (·.1)).map spell := by simp [spelled]
      rw [hk, hmap]
      exact List.Nodup.map (fun _ _ => spell_injective) hnd
    refine ⟨⟨?_, ?_⟩, ?_⟩
    · intro n hn
      rcases List.mem_append.1 (hp.mem_iff.1 hn) with hn | hn
      · obtain ⟨m, hm, hkey, harranged⟩ := own_of_forall₂ hk h n hn
        obtain ⟨x, hx, rfl⟩ := List.mem_map.1 hm
        exact .inl ⟨x, hx, hkey, harranged⟩
      · exact .inr (hf n hn)
    · refine (hp.pairwise_iff ?_).2 (List.pairwise_append.2 ⟨?_, ?_, ?_⟩)
      · intro n n' himp heq
        exact heq ▸ himp heq.symm
      · exact (List.pairwise_map.1 hkeys).imp fun hne heq => absurd heq hne
      · exact List.pairwise_of_forall_mem_list fun n hn n' _ _ => (hf n hn).unknown
      · intro n _ n' hn' heq
        exact heq ▸ (hf n' hn').unknown
    · intro m hm
      have hown : spell m.1 ∈ own.map (·.1) := by
        rw [hk]
        exact mem_keys_spelled.2 ⟨m, hm, rfl⟩
      obtain ⟨n, hn, hkey⟩ := List.mem_map.1 hown
      exact List.mem_map.2 ⟨n, hp.mem_iff.2 (List.mem_append_left _ hn), hkey⟩

theorem Admits.not_mem_before {front back : List (List Char × Tree)} {n : List Char × Tree}
    (h : Admits fs (front ++ n :: back)) (hn : n.1 ∈ (spelled fs).map (·.1)) :
    n.1 ∉ front.map (·.1) := by
  intro hmem
  obtain ⟨x, hx, heq⟩ := List.mem_map.1 hmem
  have hnot := (List.pairwise_append.1 h.once).2.2 x hx n (by simp) heq
  exact hnot (heq ▸ hn)

theorem Admits.not_mem_tail {n : List Char × Tree} (h : Admits fs (n :: ns))
    (hn : n.1 ∈ (spelled fs).map (·.1)) : n.1 ∉ ns.map (·.1) := by
  intro hmem
  obtain ⟨x, hx, heq⟩ := List.mem_map.1 hmem
  exact (List.pairwise_cons.1 h.once).1 x hx heq.symm hn

theorem Admits.not_mem_after {front back : List (List Char × Tree)} {n : List Char × Tree}
    (h : Admits fs (front ++ n :: back)) (hn : n.1 ∈ (spelled fs).map (·.1)) :
    n.1 ∉ back.map (·.1) :=
  (h.sublist (List.sublist_append_right front _)).not_mem_tail hn

end

/-! ## Walking over members -/

section
variable {fields : List (Field σ)} {finish : σ → Option α} {state : List String → σ}
  {fs : List (String × Tree)} {a : α}

section
variable {blanks inner colonBlanks cs rest : List Char} (hb : Blank blanks) (hi : Blank inner)
  (hcolon : Blank colonBlanks) (hr : Ends rest)
include hb hi hcolon hr

/-- A member of its own that has not been read yet is read. -/
theorem membersFrom_own (hc : Collects fields finish state fs a) {m : String × Tree} (hm : m ∈ fs)
    {ks : List String} (hfresh : m.1 ∉ ks) {t : Tree} (ht : Arranged m.2 t)
    (hs : Spaced t.tokens cs) (fuel : Nat) :
    membersFrom fields (fuel + 1) false (state ks) (blanks ++ ',' :: (inner ++ '"' ::
        (spell m.1 ++ '"' :: (colonBlanks ++ ':' :: (cs ++ rest))))) =
      membersFrom fields fuel false (state (m.1 :: ks)) rest := by
  obtain ⟨f, hfind, hkeeps⟩ := find?_of_keeps hc.keeps hc.nodup hm
  have hunset : f.isSet (state ks) = false := by simp [hkeeps.isSet, hfresh]
  rw [membersFrom_member hb hi, member_known hfind hunset, colon_blanks hcolon]
  show (f.read (state ks) _).bind _ = _
  rw [(hkeeps.read ks).takes t ht cs rest hs hr]
  rfl

/-- A member that is none of its own leaves no trace. -/
theorem membersFrom_foreign (hc : Collects fields finish state fs a) {n : List Char × Tree}
    (hn : Foreign ((spelled fs).map (·.1)) n) (hs : Spaced n.2.tokens cs) (fuel : Nat) (s : σ) :
    membersFrom fields (fuel + 1) false s (blanks ++ ',' :: (inner ++ '"' ::
        (n.1 ++ '"' :: (colonBlanks ++ ':' :: (cs ++ rest))))) =
      membersFrom fields fuel false s rest := by
  obtain ⟨k, hkey⟩ := hn.spelled
  have hunknown : ∀ m ∈ fs, m.1 ≠ k := by
    rintro m hm rfl
    exact hn.unknown (mem_keys_spelled.2 ⟨m, hm, hkey⟩)
  rw [membersFrom_member hb hi, hkey,
    member_unknown (find?_eq_none_of_keeps hc.keeps hunknown) hcolon
      (pass_spaced hn.wellFormed hs hr)]
  rfl

end

/-- Members that a record admits are read, and the state says which of its own were among them. -/
theorem membersFrom_admits (hc : Collects fields finish state fs a)
    {ns : List (List Char × Tree)} (hn : Admits fs ns) {cs rest : List Char}
    (hs : Spaced (memberTokens ns) cs) (hr : Ends rest) {ks : List String}
    (hks : ∀ k ∈ ks, spell k ∉ ns.map (·.1)) (fuel : Nat) :
    ∃ ks', (∀ m ∈ fs, m.1 ∈ ks' ↔ m.1 ∈ ks ∨ spell m.1 ∈ ns.map (·.1)) ∧
      membersFrom fields (fuel + ns.length) false (state ks) (cs ++ rest) =
        membersFrom fields fuel false (state ks') rest := by
  induction ns generalizing cs ks with
  | nil =>
    rw [memberTokens] at hs
    rw [hs.eq_nil]
    exact ⟨ks, by simp, rfl⟩
  | cons n ns ih =>
    obtain ⟨key, t⟩ := n
    rw [memberTokens] at hs
    obtain ⟨blanks, more, rfl, hb, hmore⟩ := hs.punctuation
    obtain ⟨inner, colonBlanks, text, rfl, hi, hcolon, htext⟩ := hmore.member
    obtain ⟨b, c, rfl, hvalue, hmembers⟩ := htext.split
    have hends := ends_memberTokens hmembers hr
    have hrest : Admits fs ns := hn.sublist (List.sublist_cons_self _ _)
    have hlater : ∀ k ∈ ks, spell k ∉ ns.map (·.1) := fun k hk hmem =>
      hks k hk (by simp only [List.map_cons, List.mem_cons, hmem, or_true])
    simp only [List.append_assoc, List.cons_append]
    rw [List.length_cons, ← Nat.add_assoc]
    rcases hn.each (key, t) (by simp) with ⟨m, hm, hkey, harranged⟩ | hforeign
    · -- One of its own.
      obtain rfl : key = spell m.1 := hkey
      have hfresh : m.1 ∉ ks := fun hmem => hks m.1 hmem (by simp)
      have hnext : ∀ k ∈ m.1 :: ks, spell k ∉ ns.map (·.1) :=
        List.forall_mem_cons.2 ⟨hn.not_mem_tail (mem_keys_spelled.2 ⟨m, hm, rfl⟩), hlater⟩
      obtain ⟨ks', hks', hread⟩ := ih hrest hmembers hnext
      refine ⟨ks', ?_, (membersFrom_own hb hi hcolon hends hc hm hfresh harranged hvalue _).trans
        hread⟩
      intro x hx
      have hinj : spell x.1 = spell m.1 ↔ x.1 = m.1 := ⟨spell_injective, congrArg spell⟩
      rw [hks' x hx, List.map_cons, List.mem_cons, List.mem_cons, hinj]
      tauto
    · -- One it does not know.
      obtain ⟨ks', hks', hread⟩ := ih hrest hmembers hlater
      refine ⟨ks', ?_, (membersFrom_foreign hb hi hcolon hends hc hforeign hvalue _ _).trans hread⟩
      intro x hx
      have hne : spell x.1 ≠ key := fun heq =>
        hforeign.unknown (mem_keys_spelled.2 ⟨x, hx, heq.symm⟩)
      rw [hks' x hx, List.map_cons, List.mem_cons]
      simp only [hne, false_or]

theorem ends_members {ns : List (List Char × Tree)} {cs : List Char}
    (h : Spaced (memberTokens ns ++ [['\x7d']]) cs) (rest : List Char) : Ends (cs ++ rest) := by
  obtain ⟨a, b, rfl, ha, hb⟩ := h.split
  obtain ⟨last, more, rfl, hlast, -⟩ := hb.punctuation
  rw [List.append_assoc, List.append_assoc]
  exact ends_memberTokens ha (ends_blanks hlast (ends_cons (by decide) _))

theorem memberTokens_append (ms ns : List (List Char × Tree)) :
    memberTokens (ms ++ ns) = memberTokens ms ++ memberTokens ns := by
  induction ms with
  | nil => rfl
  | cons m ms ih =>
    obtain ⟨k, t⟩ := m
    simp only [List.cons_append, memberTokens, ih, List.append_assoc]

theorem length_lt_memberTokens {ns : List (List Char × Tree)} {cs : List Char}
    (h : Spaced (memberTokens ns ++ [['\x7d']]) cs) : ns.length < cs.length := by
  induction ns generalizing cs with
  | nil =>
    obtain ⟨blanks, more, rfl, -, -⟩ := Spaced.punctuation h
    simp only [List.length_append, List.length_cons, List.length_nil]
    omega
  | cons n ns ih =>
    obtain ⟨k, t⟩ := n
    simp only [memberTokens, List.cons_append, List.append_assoc] at h
    obtain ⟨blanks, more, rfl, -, hmore⟩ := h.punctuation
    obtain ⟨inner, colonBlanks, text, rfl, -, -, htext⟩ := Spaced.member hmore
    obtain ⟨a, b, rfl, -, hb⟩ := htext.split
    have := ih hb
    simp only [List.length_append, List.length_cons]
    omega

/-- What comes after the brace of a record is read as a text with a comma before each member, and
what is left of it when it is cut short as what is left of that text. -/
theorem membersFrom_open (fields : List (Field σ)) {ns : List (List Char × Tree)} {cs : List Char}
    (hs : Spaced ((memberTokens ns).tail ++ [['\x7d']]) cs) (s : σ) :
    ∃ text, Spaced (memberTokens ns ++ [['\x7d']]) text ∧ text.length ≤ cs.length + 1 ∧
      (∀ fuel rest, membersFrom fields (fuel + 1) true s (cs ++ rest) =
        membersFrom fields (fuel + 1) false s (text ++ rest)) ∧
      ∀ p, Cut p cs → ∃ q, Cut q text ∧
        ∀ fuel, membersFrom fields fuel true s p = membersFrom fields fuel false s q := by
  cases ns with
  | nil =>
    obtain ⟨last, more, rfl, hlast, hnil⟩ := Spaced.punctuation hs
    refine ⟨_, hs, Nat.le_succ _, ?_, ?_⟩
    · intro fuel rest
      rw [List.append_assoc, List.cons_append, membersFrom_end hlast, membersFrom_end hlast]
    · intro p hp
      rcases hp.token hlast with hblank | ⟨q, rfl, hq⟩
      · exact ⟨p, hp, fun fuel => by rw [membersFrom_blank hblank, membersFrom_blank hblank]⟩
      · rw [hnil.eq_nil] at hq
        exact absurd hq not_cut_nil
  | cons n ns =>
    obtain ⟨k, t⟩ := n
    have htext : Spaced (memberTokens ((k, t) :: ns) ++ [['\x7d']]) (',' :: cs) := by
      rw [memberTokens]
      rw [memberTokens, List.tail_cons] at hs
      exact (spaced_singleton [',']).append hs
    refine ⟨',' :: cs, htext, Nat.le_refl _, ?_⟩
    rw [memberTokens, List.tail_cons] at hs
    obtain ⟨inner, colonBlanks, text, rfl, hi, -, -⟩ := Spaced.member hs
    constructor
    · intro fuel rest
      simp only [List.append_assoc, List.cons_append]
      exact membersFrom_comma hi _ _ _
    · intro p hp
      rcases hp.token hi with hblank | ⟨q, rfl, -⟩
      · exact ⟨[], ⟨',', _, rfl⟩, fun fuel => by rw [membersFrom_blank hblank, membersFrom_nil]⟩
      · exact ⟨_, hp.of_append [','], fun fuel => membersFrom_comma hi _ _ _⟩

/-! ## The whole record -/

variable {empty : σ}

theorem record_open {blanks : List Char} (hb : Blank blanks) (cs : List Char) :
    record fields empty finish (blanks ++ '\x7b' :: cs) =
      (membersFrom fields (cs.length + 1) true empty cs).bind fun (s, rest) =>
        match finish s with
        | some v => .ok (v, rest)
        | none => .error .mismatch := by
  unfold record
  rw [skipSpace_blanks hb (by decide)]
  rfl

/-- A record is read as if a comma stood before each member. -/
theorem record_spaced (fields : List (Field σ)) (finish : σ → Option α) (empty : σ)
    {ns : List (List Char × Tree)} {cs : List Char}
    (hs : Spaced (Tree.record ns).tokens cs) (rest : List Char) :
    ∃ fuel text, Spaced (memberTokens ns ++ [['\x7d']]) text ∧
      record fields empty finish (cs ++ rest) =
        (membersFrom fields (fuel + 1 + ns.length) false empty (text ++ rest)).bind
          fun (s, rest) => match finish s with
            | some v => .ok (v, rest)
            | none => .error .mismatch := by
  rw [Tree.tokens] at hs
  obtain ⟨blanks, more, rfl, hb, hmore⟩ := hs.punctuation
  obtain ⟨text, htext, hlen, hread, -⟩ := membersFrom_open fields hmore empty
  have hlt := length_lt_memberTokens htext
  obtain ⟨fuel, hfuel⟩ : ∃ fuel, (more ++ rest).length + 1 = fuel + 1 + ns.length :=
    ⟨(more ++ rest).length - ns.length, by rw [List.length_append]; omega⟩
  refine ⟨fuel, text, htext, ?_⟩
  rw [List.append_assoc, List.cons_append, record_open hb, hread, hfuel]

theorem unread {ns : List (List Char × Tree)} : ∀ k ∈ ([] : List String), spell k ∉ ns.map (·.1) :=
  nofun

/-- The members that are admitted decide what becomes of the record. -/
theorem record_admits (hc : Collects fields finish state fs a) {ns : List (List Char × Tree)}
    (hn : Admits fs ns) {cs : List Char} (hs : Spaced (Tree.record ns).tokens cs)
    (rest : List Char) :
    ∃ ks, (∀ m ∈ fs, m.1 ∈ ks ↔ spell m.1 ∈ ns.map (·.1)) ∧
      record fields (state []) finish (cs ++ rest) =
        match finish (state ks) with
        | some v => .ok (v, rest)
        | none => .error .mismatch := by
  obtain ⟨fuel, text, htext, hread⟩ := record_spaced fields finish (state []) hs rest
  obtain ⟨b, c, rfl, hmembers, hc'⟩ := htext.split
  obtain ⟨last, more, rfl, hlast, hnil⟩ := hc'.punctuation
  have hends : Ends (last ++ '\x7d' :: rest) := ends_blanks hlast (ends_cons (by decide) _)
  obtain ⟨ks, hks, hwalk⟩ := membersFrom_admits hc hn hmembers hends unread (fuel + 1)
  refine ⟨ks, fun m hm => by simpa using hks m hm, ?_⟩
  rw [hread, hnil.eq_nil, List.append_assoc, List.append_assoc, List.singleton_append, hwalk,
    membersFrom_end hlast]
  rfl

/-- A record with a member that is a mismatch is one itself. -/
theorem record_mismatch (hc : Collects fields finish state fs a)
    {front back : List (List Char × Tree)} {key : List Char} {t : Tree} (hn : Admits fs front)
    {cs : List Char} (hs : Spaced (Tree.record (front ++ (key, t) :: back)).tokens cs)
    (rest : List Char)
    (h : ∀ ks, (∀ m ∈ fs, m.1 ∈ ks ↔ spell m.1 ∈ front.map (·.1)) →
      ∀ colonBlanks value more, Blank colonBlanks → Spaced t.tokens value →
        member fields (state ks) (key ++ '"' :: (colonBlanks ++ ':' :: (value ++ more))) =
          .error .mismatch) :
    record fields (state []) finish (cs ++ rest) = .error .mismatch := by
  obtain ⟨fuel, text, htext, hread⟩ := record_spaced fields finish (state []) hs rest
  simp only [memberTokens_append, memberTokens, List.append_assoc, List.cons_append] at htext
  obtain ⟨b, c, rfl, hfront, hc'⟩ := htext.split
  obtain ⟨blanks, more, rfl, hb, hmore⟩ := hc'.punctuation
  obtain ⟨inner, colonBlanks, text, rfl, hi, hcolon, htext⟩ := Spaced.member hmore
  obtain ⟨value, d, rfl, hvalue, -⟩ := htext.split
  have hends : Ends (blanks ++ ',' :: (inner ++ '"' :: (key ++ '"' :: (colonBlanks ++ ':' ::
      (value ++ (d ++ rest)))))) := ends_blanks hb (ends_cons (by decide) _)
  obtain ⟨ks, hks, hwalk⟩ := membersFrom_admits hc hn hfront hends unread
    (fuel + 1 + back.length + 1)
  have hmember := h ks (fun m hm => by simpa using hks m hm) colonBlanks value (d ++ rest) hcolon
    hvalue
  have hfuel : fuel + 1 + (front ++ (key, t) :: back).length =
      fuel + 1 + back.length + 1 + front.length := by
    rw [List.length_append, List.length_cons]
    omega
  simp only [List.append_assoc, List.cons_append] at hread
  rw [hread, hfuel, hwalk, membersFrom_member hb hi, hmember]
  rfl

theorem takes_record (hc : Collects fields finish state fs a) {u : Tree}
    (hu : Arranged (.record (spelled fs)) u) : Takes (record fields (state []) finish) u a := by
  obtain ⟨ns, rfl⟩ : ∃ ns, u = .record ns := by
    cases hu
    exact ⟨_, rfl⟩
  obtain ⟨hn, hall⟩ := admits_of_arranged hc.nodup hu
  intro cs rest hs _
  obtain ⟨ks, hks, hread⟩ := record_admits hc hn hs rest
  rw [hread, hc.complete ks fun m hm => (hks m hm).2 (hall m hm)]

theorem refuses_record (hc : Collects fields finish state fs a) {u : Tree}
    (hu : Flawed (.record (spelled fs)) u) : Refuses (record fields (state []) finish) u := by
  intro cs rest hs
  cases hu with
  | @missing _ front back n h hkey =>
    obtain ⟨m, hm, hspell⟩ := mem_keys_spelled.1 hkey
    obtain ⟨hn, -⟩ := admits_of_arranged hc.nodup h
    have hrest : Admits fs (front ++ back) := hn.sublist
      (List.Sublist.append_left (List.sublist_cons_self n back) front)
    obtain ⟨ks, hks, hread⟩ := record_admits hc hrest hs rest
    have hmissing : m.1 ∉ ks := by
      rw [hks m hm, ← hspell, List.map_append, List.mem_append]
      exact not_or.2 ⟨hn.not_mem_before hkey, hn.not_mem_after hkey⟩
    rw [hread, hc.lacking ks m hm hmissing]
  | @twice _ front back n h hkey hfront =>
    obtain ⟨m, hm, hspell⟩ := mem_keys_spelled.1 hkey
    obtain ⟨hn, -⟩ := admits_of_arranged hc.nodup h
    obtain ⟨f, hfind, hkeeps⟩ := find?_of_keeps hc.keeps hc.nodup hm
    obtain ⟨key, t⟩ := n
    refine record_mismatch hc (hn.sublist (List.sublist_append_left front back)) hs rest ?_
    intro ks hks colonBlanks value more _ _
    have hset : f.isSet (state ks) = true := by
      rw [hkeeps.isSet, decide_eq_true_iff, hks m hm, ← hspell]
      exact hfront
    rw [show key = spell m.1 from hspell]
    exact member_again hfind hset _
  | @member _ front back key s t u h hkey hu =>
    obtain ⟨m, hm, heq⟩ := List.mem_map.1 hkey
    obtain ⟨rfl, rfl⟩ := Prod.mk.inj heq
    obtain ⟨hn, -⟩ := admits_of_arranged hc.nodup h
    obtain ⟨f, hfind, hkeeps⟩ := find?_of_keeps hc.keeps hc.nodup hm
    refine record_mismatch hc (hn.sublist (List.sublist_append_left front _)) hs rest ?_
    intro ks hks colonBlanks value more hcolon hvalue
    have hunset : f.isSet (state ks) = false := by
      rw [hkeeps.isSet, decide_eq_false_iff_not, hks m hm]
      exact hn.not_mem_before (mem_keys_spelled.2 ⟨m, hm, rfl⟩)
    rw [member_known hfind hunset, colon_blanks hcolon]
    exact (hkeeps.read ks).refuses u hu value more hvalue

/-! ## Records that are cut short -/

/-- Members that are cut short are incomplete. -/
theorem membersFrom_cut (hc : Collects fields finish state fs a) {ms : List (String × Tree)}
    (hsub : ∀ m ∈ ms, m ∈ fs) (hnd : (ms.map (·.1)).Nodup) {ks : List String}
    (hks : ∀ m ∈ ms, m.1 ∉ ks) {cs p : List Char}
    (hs : Spaced (memberTokens (spelled ms) ++ [['\x7d']]) cs) (hp : Cut p cs) (fuel : Nat) :
    membersFrom fields fuel false (state ks) p = .error .incomplete := by
  induction ms generalizing ks cs p fuel with
  | nil =>
    obtain ⟨last, more, rfl, hlast, hnil⟩ := Spaced.punctuation hs
    rcases hp.token hlast with hblank | ⟨q, rfl, hq⟩
    · exact membersFrom_blank hblank fuel false _
    · rw [hnil.eq_nil] at hq
      exact absurd hq not_cut_nil
  | cons m ms ih =>
    cases fuel with
    | zero => rfl
    | succ fuel =>
      rw [List.map_cons, List.nodup_cons] at hnd
      obtain ⟨f, hfind, hkeeps⟩ := find?_of_keeps hc.keeps hc.nodup (hsub m (by simp))
      have hunset : f.isSet (state ks) = false := by simp [hkeeps.isSet, hks m (by simp)]
      simp only [spelled, List.map_cons, memberTokens, List.append_assoc, List.cons_append] at hs
      obtain ⟨blanks, more, rfl, hb, hmore⟩ := hs.punctuation
      obtain ⟨inner, colonBlanks, text, rfl, hi, hcolon, htext⟩ := Spaced.member hmore
      obtain ⟨b, c, rfl, hvalue, hmembers⟩ := htext.split
      rcases hp.token hb with hblank | ⟨q, rfl, hq⟩
      · exact membersFrom_blank hblank _ _ _
      rw [membersFrom_blanks hb]
      rcases hq.token hi with hblank | ⟨r, rfl, hr⟩
      · exact membersFrom_commaBlank hblank fuel _
      have hmember : Cut r ((spell m.1 ++ '"' :: (colonBlanks ++ ':' :: b)) ++ c) := by
        simpa only [List.append_assoc, List.cons_append] using hr
      rcases hmember.append with hmember | ⟨w, rfl, hw⟩
      · -- In the member.
        rw [membersFrom_next hi]
        rcases member_unfinished hfind hunset (hkeeps.read ks) hcolon hvalue hmember with
          hread | ⟨s, hread⟩
        · rw [hread]
          rfl
        · rw [hread]
          exact membersFrom_nil fuel false s
      · -- After it.
        have hends := ends_members hmembers []
        rw [List.append_nil] at hends
        simp only [List.append_assoc, List.cons_append]
        have hnone : Blank [] := nofun
        rw [← List.nil_append (',' :: _), membersFrom_own hnone hi hcolon (hends.cut hw) hc
          (hsub m (by simp)) (hks m (by simp)) (.refl m.2) hvalue]
        refine ih (fun x hx => hsub x (by simp [hx])) hnd.2 ?_ hmembers hw fuel
        intro x hx hmem
        rcases List.mem_cons.1 hmem with heq | hmem
        · exact hnd.1 (heq ▸ List.mem_map_of_mem hx)
        · exact hks x (by simp [hx]) hmem

/-- A record is incomplete wherever it is cut short. -/
theorem record_cut (hc : Collects fields finish state fs a) {cs p : List Char}
    (hs : Spaced (Tree.record (spelled fs)).tokens cs) (hp : Cut p cs) :
    record fields (state []) finish p = .error .incomplete := by
  rw [Tree.tokens] at hs
  obtain ⟨blanks, more, rfl, hb, hmore⟩ := hs.punctuation
  rcases hp.token hb with hblank | ⟨q, rfl, hq⟩
  · unfold record
    rw [skipSpace_blank hblank]
    rfl
  · obtain ⟨text, htext, -, -, hcut⟩ := membersFrom_open fields hmore (state [])
    obtain ⟨p, hp, hread⟩ := hcut q hq
    rw [record_open hb, hread, membersFrom_cut hc (fun _ hm => hm) hc.nodup
      (fun _ _ => List.not_mem_nil) htext hp]
    rfl

/-- **Records.** -/
theorem legible_record (hc : Collects fields finish state fs a) :
    Legible (record fields (state []) finish) (.record (spelled fs)) a where
  starts := starts_record _
  takes _ hu := takes_record hc hu
  refuses _ hu := refuses_record hc hu
  unfinished _ _ hs hp := .inl (record_cut hc hs hp)

end

end

end ToneRelay.Json
