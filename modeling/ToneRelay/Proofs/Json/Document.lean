import ToneRelay.Json.Document
import ToneRelay.Proofs.Json.Collection

/-!
# Documents are read back

A value is `Exact` when it holds no float and no whole number above sixty-four bits. Every text of
an exact value, in any layout, is read as that value and nothing else: `ofText_rendered`. Two exact
values with one text are therefore the same.
-/

namespace ToneRelay.Json

/-! ## Fields in a row -/

section
variable {α : Type} {value : List Char → Reading α}

theorem field_takes (k : String) {t : Tree} {a : α} (ht : Takes value t a)
    {blanks colonBlanks cs rest : List Char} (hb : Blank blanks) (hc : Blank colonBlanks)
    (hs : Spaced t.tokens cs) (hr : Ends rest) :
    field value (blanks ++ '"' :: (spell k ++ '"' :: (colonBlanks ++ ':' :: (cs ++ rest)))) =
      .ok ((k, a), rest) := by
  have hkey := (reads_text k).eq blanks (colonBlanks ++ ':' :: (cs ++ rest)) hb
    (ends_blanks hc (ends_cons (by decide) _))
  rw [quote_append] at hkey
  unfold field
  rw [spell, hkey]
  show (colon _).bind _ = _
  rw [colon_blanks hc]
  show (value _).bind _ = _
  rw [ht cs rest hs hr]
  rfl

theorem fieldsFrom_blanks {blanks : List Char} (hb : Blank blanks) (fuel : Nat) (first : Bool)
    (read : List (String × α)) (cs : List Char) :
    fieldsFrom value fuel first read (blanks ++ cs) = fieldsFrom value fuel first read cs := by
  cases fuel with
  | zero => rfl
  | succ fuel =>
    unfold fieldsFrom
    rw [skipSpace_append hb]

theorem fieldsFrom_end {blanks : List Char} (hb : Blank blanks) (fuel : Nat) (first : Bool)
    (read : List (String × α)) (rest : List Char) :
    fieldsFrom value (fuel + 1) first read (blanks ++ '\x7d' :: rest) =
      .ok (read.reverse, rest) := by
  have hbrace : isSpace '\x7d' = false := by decide
  rw [fieldsFrom_blanks hb]
  unfold fieldsFrom
  rw [skipSpace_cons hbrace]
  rfl

theorem fieldsFrom_next (fuel : Nat) (read : List (String × α)) (cs : List Char) :
    fieldsFrom value (fuel + 1) false read (',' :: cs) =
      (field value cs).bind fun (m, rest) => fieldsFrom value fuel false (m :: read) rest := by
  have hcomma : isSpace ',' = false := by decide
  conv =>
    lhs
    unfold fieldsFrom
  rw [skipSpace_cons hcomma]
  rfl

theorem fieldsFrom_first {blanks : List Char} (hb : Blank blanks) (fuel : Nat)
    (read : List (String × α)) (cs : List Char) :
    fieldsFrom value fuel true read (blanks ++ '"' :: cs) =
      fieldsFrom value fuel false read (',' :: (blanks ++ '"' :: cs)) := by
  cases fuel with
  | zero => rfl
  | succ fuel =>
    rw [fieldsFrom_next, fieldsFrom_blanks hb]
    have hfield : field value (blanks ++ '"' :: cs) = field value ('"' :: cs) := by
      unfold field text
      rw [skipSpace_append hb]
    rw [hfield]
    conv =>
      lhs
      unfold fieldsFrom
    rw [skipSpace_cons isSpace_quote]
    rfl

/-- Fields that are taken, each after a comma. -/
theorem fieldsFrom_takes {ms : List (String × Tree)} {as : List (String × α)}
    (h : List.Forall₂ (fun m a => m.1 = a.1 ∧ Takes value m.2 a.2) ms as) {cs rest : List Char}
    (hs : Spaced (memberTokens (spelled ms)) cs) (hr : Ends rest) (fuel : Nat)
    (read : List (String × α)) :
    fieldsFrom value (fuel + ms.length) false read (cs ++ rest) =
      fieldsFrom value fuel false (as.reverse ++ read) rest := by
  induction h generalizing cs read with
  | nil =>
    rw [spelled, List.map_nil, memberTokens] at hs
    rw [hs.eq_nil]
    rfl
  | @cons m a ms as hm _ ih =>
    rw [spelled, List.map_cons, memberTokens] at hs
    obtain ⟨blanks, more, rfl, hb, hmore⟩ := hs.punctuation
    obtain ⟨inner, colonBlanks, text, rfl, hi, hcolon, htext⟩ := Spaced.member hmore
    obtain ⟨b, c, rfl, hb', hc⟩ := htext.split
    have hread := field_takes m.1 hm.2 hi hcolon hb' (ends_memberTokens hc hr)
    simp only [List.append_assoc, List.cons_append, List.length_cons, ← Nat.add_assoc]
    rw [fieldsFrom_blanks hb, fieldsFrom_next, hread]
    show fieldsFrom value _ false ((m.1, a.2) :: read) _ = _
    rw [ih hc, List.reverse_cons, List.append_assoc, hm.1]
    rfl

/-- What comes after the brace of a record is read as a text with a comma before each field. -/
theorem fieldsFrom_open (value : List Char → Reading α) {ns : List (List Char × Tree)}
    {cs : List Char} (hs : Spaced ((memberTokens ns).tail ++ [['\x7d']]) cs)
    (read : List (String × α)) :
    ∃ text, Spaced (memberTokens ns ++ [['\x7d']]) text ∧ text.length ≤ cs.length + 1 ∧
      ∀ fuel rest, fieldsFrom value (fuel + 1) true read (cs ++ rest) =
        fieldsFrom value (fuel + 1) false read (text ++ rest) := by
  match ns with
  | [] =>
    obtain ⟨last, more, rfl, hlast, hnil⟩ := Spaced.punctuation hs
    refine ⟨_, hs, Nat.le_succ _, ?_⟩
    intro fuel rest
    rw [List.append_assoc, List.cons_append, fieldsFrom_end hlast, fieldsFrom_end hlast]
  | (k, t) :: ns =>
    rw [memberTokens, List.tail_cons] at hs
    have htext : Spaced (memberTokens ((k, t) :: ns) ++ [['\x7d']]) (',' :: cs) := by
      rw [memberTokens]
      exact (spaced_singleton [',']).append hs
    obtain ⟨inner, colonBlanks, more, rfl, hi, -, -⟩ := Spaced.member hs
    refine ⟨_, htext, Nat.le_refl _, ?_⟩
    intro fuel rest
    simp only [List.append_assoc, List.cons_append]
    exact fieldsFrom_first hi _ _ _

theorem takes_fields {ms : List (String × Tree)} {as : List (String × α)}
    (h : List.Forall₂ (fun m a => m.1 = a.1 ∧ Takes value m.2 a.2) ms as) :
    Takes (fields value) (.record (spelled ms)) as := by
  intro cs rest hs _
  rw [Tree.tokens] at hs
  obtain ⟨blanks, more, rfl, hb, hmore⟩ := hs.punctuation
  obtain ⟨text, htext, hlen, hread⟩ := fieldsFrom_open value hmore []
  have hlt := length_lt_memberTokens htext
  rw [spelled, List.length_map] at hlt
  obtain ⟨fuel, hfuel⟩ : ∃ fuel, (more ++ rest).length = fuel + ms.length :=
    ⟨(more ++ rest).length - ms.length, by rw [List.length_append]; omega⟩
  obtain ⟨a, b, rfl, ha, hb'⟩ := htext.split
  obtain ⟨last, others, rfl, hlast, hnil⟩ := hb'.punctuation
  have hends : Ends (last ++ '\x7d' :: rest) := ends_blanks hlast (ends_cons (by decide) _)
  unfold fields
  rw [List.append_assoc, skipSpace_append hb, List.cons_append, skipSpace_cons (by decide)]
  show fieldsFrom value ((more ++ rest).length + 1) true [] (more ++ rest) = _
  rw [hread, hfuel, Nat.add_right_comm, hnil.eq_nil, List.append_assoc, List.append_assoc,
    List.singleton_append, fieldsFrom_takes h ha hends, fieldsFrom_end hlast, List.append_nil,
    List.reverse_reverse]

end

/-! ## What is nested -/

/-- Tokens within others have a text within theirs. -/
theorem Spaced.within {ts us : List (List Char)} {cs : List Char} (h : Spaced ts cs)
    (hu : us <:+: ts) : ∃ text, Spaced us text ∧ text.length ≤ cs.length := by
  obtain ⟨front, back, rfl⟩ := hu
  obtain ⟨a, b, rfl, ha, -⟩ := h.split
  obtain ⟨c, text, rfl, -, htext⟩ := ha.split
  refine ⟨text, htext, ?_⟩
  simp only [List.length_append]
  omega

theorem tokens_item {ts : List Tree} {t : Tree} (ht : t ∈ ts) :
    t.tokens <:+: (itemTokens ts).tail := by
  obtain ⟨front, back, rfl⟩ := List.append_of_mem ht
  rw [itemTokens_append, itemTokens]
  cases front with
  | nil => exact ⟨[], itemTokens back, rfl⟩
  | cons u front =>
    refine ⟨(itemTokens (u :: front)).tail ++ [[',']], itemTokens back, ?_⟩
    simp [itemTokens]

theorem tokens_member {ms : List (List Char × Tree)} {m : List Char × Tree} (hm : m ∈ ms) :
    m.2.tokens <:+: (memberTokens ms).tail := by
  obtain ⟨front, back, rfl⟩ := List.append_of_mem hm
  obtain ⟨k, t⟩ := m
  rw [memberTokens_append, memberTokens]
  match front with
  | [] => exact ⟨['"' :: k ++ ['"'], [':']], memberTokens back, by simp [memberTokens]⟩
  | (j, u) :: front =>
    refine ⟨(memberTokens ((j, u) :: front)).tail ++ [[','], '"' :: k ++ ['"'], [':']],
      memberTokens back, ?_⟩
    simp [memberTokens]

/-- What is nested between two brackets has a text that is shorter than the whole. -/
theorem nested_spaced {p : Char} {last : List Char} {ts us : List (List Char)} {cs : List Char}
    (hs : Spaced ([p] :: (ts ++ [last])) cs) (hu : us <:+: ts) :
    ∃ text, Spaced us text ∧ text.length < cs.length := by
  obtain ⟨blanks, more, rfl, -, hmore⟩ := hs.punctuation
  obtain ⟨text, htext, hlen⟩ := hmore.within (hu.trans (List.prefix_append _ _).isInfix)
  refine ⟨text, htext, ?_⟩
  simp only [List.length_append, List.length_cons]
  omega

/-- What opens with a bracket may be read from its bracket on. -/
theorem Spaced.from_bracket {p : Char} {ts : List (List Char)} {cs : List Char}
    (h : Spaced ([p] :: ts) cs) :
    ∃ blanks more, cs = blanks ++ p :: more ∧ Blank blanks ∧ Spaced ([p] :: ts) (p :: more) := by
  obtain ⟨blanks, more, rfl, hb, hmore⟩ := h.punctuation
  exact ⟨blanks, more, rfl, hb, (spaced_singleton [p]).append hmore⟩

/-! ## Values -/

namespace Value

/-- A value without floats, whose whole numbers fit sixty-four bits. -/
inductive Exact : Value → Prop
  | null : Exact .null
  | bool (b : Bool) : Exact (.bool b)
  | whole {n : Nat} (h : n ≤ Text.max64) : Exact (.whole n)
  | text (s : String) : Exact (.text s)
  | list {vs : List Value} (h : ∀ v ∈ vs, v.Exact) : Exact (.list vs)
  | record {fs : List (String × Value)} (h : ∀ m ∈ fs, m.2.Exact) : Exact (.record fs)

section
variable (depth : Nat)

theorem read_blanks {blanks : List Char} (hb : Blank blanks) (cs : List Char) :
    read (depth + 1) (blanks ++ cs) = read (depth + 1) cs := by
  unfold read
  rw [skipSpace_append hb]

/-- A word is read where its first letter calls for the others. -/
theorem reads_literal {c : Char} {word : List Char} {v : Value} (hc : isSpace c = false)
    (hb : c ≠ ']') (hread : ∀ cs, read (depth + 1) (c :: cs) =
      (literal word cs).map fun rest => (v, rest)) :
    Reads (read (depth + 1)) (c :: word) v := by
  refine ⟨⟨c, word, rfl, hc, hb⟩, ?_⟩
  intro blanks rest hblanks _
  rw [read_blanks depth hblanks, List.cons_append, hread, literal_append]
  rfl

theorem reads_quote (s : String) : Reads (read (depth + 1)) (quote s.toList) (.text s) := by
  refine ⟨starts_quote _, ?_⟩
  intro blanks rest hb hr
  have hblank : Blank [] := nofun
  have htext : Json.text (quote s.toList ++ rest) = .ok (s, rest) :=
    (reads_text s).eq [] rest hblank hr
  rw [read_blanks depth hb]
  show (Json.text (quote s.toList ++ rest)).map _ = _
  rw [htext]
  rfl

theorem reads_digits {n : Nat} (hn : n ≤ Text.max64) :
    Reads (read (depth + 1)) (Nat.toDigits 10 n) (.whole n) := by
  refine ⟨(reads_whole hn (Nat.le_refl _)).starts, ?_⟩
  intro blanks rest hb hr
  have hnumber := number?_toDigits hn hr
  obtain ⟨c, cs, hcs⟩ := List.exists_cons_of_ne_nil (Nat.toDigits_ne_nil (b := 10) (n := n))
  have hc : c.isDigit = true := isDigit_toDigits (n := n) (hcs ▸ List.mem_cons_self)
  rw [read_blanks depth hb]
  rw [hcs, List.cons_append] at hnumber ⊢
  unfold read
  rw [skipSpace_cons (isSpace_of_isDigit hc)]
  split
  case h_8 =>
    rw [hnumber]
    rfl
  -- The other cases start with a letter, a quotation mark or a bracket.
  all_goals
    rename_i heq
    cases heq
    try exact absurd hc (by decide)

/-- A value that holds no others is one token, and is read from it. -/
theorem Exact.reads {v : Value} (h : v.Exact) (hlist : ∀ vs, v ≠ .list vs)
    (hrecord : ∀ fs, v ≠ .record fs) :
    ∃ token, v.tree = .scalar token ∧ Reads (read (depth + 1)) token v := by
  cases h with
  | null => exact ⟨_, rfl, reads_literal depth (by decide) (by decide) fun _ => rfl⟩
  | bool b =>
    cases b with
    | true => exact ⟨_, rfl, reads_literal depth (by decide) (by decide) fun _ => rfl⟩
    | false => exact ⟨_, rfl, reads_literal depth (by decide) (by decide) fun _ => rfl⟩
  | whole hn => exact ⟨_, by rw [tree], reads_digits depth hn⟩
  | text s => exact ⟨_, by rw [tree], reads_quote depth s⟩
  | list _ => exact absurd rfl (hlist _)
  | record _ => exact absurd rfl (hrecord _)

theorem Exact.takes_scalar {v : Value} (h : v.Exact) (hlist : ∀ vs, v ≠ .list vs)
    (hrecord : ∀ fs, v ≠ .record fs) : Takes (read (depth + 1)) v.tree v := by
  obtain ⟨token, htree, hreads⟩ := h.reads depth hlist hrecord
  rw [htree]
  exact hreads.takes

theorem takes_list {vs : List Value}
    (h : ∀ v ∈ vs, v.tree.Starts ∧ Takes (read depth) v.tree v) :
    Takes (read (depth + 1)) (Value.list vs).tree (.list vs) := by
  have hitems : List.Forall₂ (fun t a => t.Starts ∧ Takes (read depth) t a) (vs.map tree) vs := by
    rw [List.forall₂_map_left_iff, List.forall₂_same]
    exact h
  rw [tree, trees_eq_map]
  intro cs rest hs hr
  rw [Tree.tokens] at hs
  obtain ⟨blanks, more, rfl, hb, hs⟩ := hs.from_bracket
  rw [← Tree.tokens] at hs
  have hread : items (read depth) ('[' :: more ++ rest) = .ok (vs, rest) :=
    items_takes hitems _ _ hs hr
  rw [List.append_assoc, read_blanks depth hb]
  show (items (read depth) ('[' :: more ++ rest)).map _ = _
  rw [hread]
  rfl

theorem takes_record {fs : List (String × Value)} (h : ∀ m ∈ fs, Takes (read depth) m.2.tree m.2) :
    Takes (read (depth + 1)) (Value.record fs).tree (.record fs) := by
  have hfields : List.Forall₂ (fun m a => m.1 = a.1 ∧ Takes (read depth) m.2 a.2)
      (fs.map fun m => (m.1, m.2.tree)) fs := by
    rw [List.forall₂_map_left_iff, List.forall₂_same]
    exact fun m hm => ⟨rfl, h m hm⟩
  rw [tree_record]
  intro cs rest hs hr
  rw [Tree.tokens] at hs
  obtain ⟨blanks, more, rfl, hb, hs⟩ := hs.from_bracket
  rw [← Tree.tokens] at hs
  have hread : fields (read depth) ('\x7b' :: more ++ rest) = .ok (fs, rest) :=
    takes_fields hfields _ _ hs hr
  rw [List.append_assoc, read_blanks depth hb]
  show (fields (read depth) ('\x7b' :: more ++ rest)).map _ = _
  rw [hread]
  rfl

end

theorem Exact.starts {v : Value} (h : v.Exact) : v.tree.Starts := by
  have hscalar : (∀ vs, v ≠ .list vs) → (∀ fs, v ≠ .record fs) → v.tree.Starts := by
    intro hlist hrecord
    obtain ⟨token, htree, hreads⟩ := h.reads 0 hlist hrecord
    rw [htree]
    exact hreads.tree_starts
  cases h with
  | list _ => exact starts_list _
  | record _ => exact starts_record _
  | _ => exact hscalar nofun nofun

/-- A text of a value is not empty. -/
theorem Exact.length_pos {v : Value} (h : v.Exact) {cs : List Char} (hs : Spaced v.tree.tokens cs) :
    0 < cs.length := by
  obtain ⟨blanks, c, ds, rfl, -, -, -, -⟩ := h.starts.spaced hs
  simp only [List.length_append, List.length_cons]
  omega

/-- **Reading a value.** A reader takes every text of a value that has a text as short as the reader
is deep. -/
theorem Exact.takes {v : Value} (h : v.Exact) {depth : Nat} {cs : List Char}
    (hs : Spaced v.tree.tokens cs) (hd : cs.length ≤ depth) : Takes (read depth) v.tree v := by
  have hpos := h.length_pos hs
  obtain ⟨depth, rfl⟩ := Nat.exists_eq_succ_of_ne_zero (n := depth) (by omega)
  -- A value that is nested has a text that is shorter than this one, so that the depth suffices.
  induction h generalizing cs depth with
  | null => exact Exact.null.takes_scalar depth nofun nofun
  | bool b => exact (Exact.bool b).takes_scalar depth nofun nofun
  | whole hn => exact (Exact.whole hn).takes_scalar depth nofun nofun
  | text s => exact (Exact.text s).takes_scalar depth nofun nofun
  | @list vs hvs ih =>
    apply takes_list
    intro v hv
    rw [tree, Tree.tokens, trees_eq_map] at hs
    obtain ⟨text, htext, hlen⟩ := nested_spaced hs (tokens_item (List.mem_map_of_mem hv))
    have hpos := (hvs v hv).length_pos htext
    obtain ⟨depth, rfl⟩ := Nat.exists_eq_succ_of_ne_zero (n := depth) (by omega)
    exact ⟨(hvs v hv).starts, ih v hv htext hpos depth (by omega)⟩
  | @record fs hfs ih =>
    apply takes_record
    intro m hm
    rw [tree, Tree.tokens, memberTrees_eq_map] at hs
    obtain ⟨text, htext, hlen⟩ := nested_spaced hs (tokens_member (List.mem_map_of_mem hm))
    have hpos := (hfs m hm).length_pos htext
    obtain ⟨depth, rfl⟩ := Nat.exists_eq_succ_of_ne_zero (n := depth) (by omega)
    exact ih m hm htext hpos depth (by omega)

/-- **A document is read back.** -/
theorem ofText_rendered {v : Value} (h : v.Exact) {s : String} (hs : v.tree.Rendered s) :
    ofText s = .ok v := by
  obtain ⟨cs, blanks, hcs, hb, rfl⟩ := hs
  have hends : Ends blanks := by
    rw [← List.append_nil blanks]
    exact ends_blanks hb ends_nil
  unfold ofText whole?
  rw [String.toList_ofList, h.takes hcs (by simp) cs blanks hcs hends]
  show (if (skipSpace blanks).isEmpty then _ else _) = _
  rw [skipSpace_blank hb]
  rfl

theorem blanks_none : Spacing.none.Blanks := ⟨fun _ => nofun, nofun⟩

theorem rendered_compact (v : Value) : v.tree.Rendered v.compact :=
  ⟨_, [], spaced_write blanks_none 0 v, nofun, by rw [List.append_nil]; rfl⟩

theorem ofText_compact {v : Value} (h : v.Exact) : ofText v.compact = .ok v :=
  ofText_rendered h (rendered_compact v)

/-- Nothing comes after a document, and no comma before the end of a list. -/
example : (ofText "[null] null").isOk = false ∧ (ofText "[null,]").isOk = false := by
  decide +kernel

/-- The text of a value tells which value it is. -/
theorem compact_injective {v w : Value} (hv : v.Exact) (hw : w.Exact) (h : v.compact = w.compact) :
    v = w := by
  have hread := ofText_compact hv
  rw [h, ofText_compact hw] at hread
  exact (Except.ok.inj hread).symm

end Value

end ToneRelay.Json
