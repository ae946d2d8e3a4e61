import ToneRelay.Proofs.Json.Passing
import ToneRelay.Proofs.Json.Truncation

/-!
# Readers that see through the layout

A value is `Legible` to a reader as `a` when the reader takes every arrangement of its tree as `a`,
in any layout, refuses every flawed arrangement as a mismatch, and finds no fault in a text of it
that is cut short. Scalars are legible when they are read and halt. Lists of what is legible are
legible: `legible_items`.
-/

namespace ToneRelay.Json

section
variable {α β : Type}

/-- The reader takes every text of the tree as `a` and leaves what follows. -/
def Takes (read : List Char → Reading α) (t : Tree) (a : α) : Prop :=
  ∀ cs rest, Spaced t.tokens cs → Ends rest → read (cs ++ rest) = .ok (a, rest)

/-- The reader finds the shape of the tree wrong, whatever follows its text. -/
def Refuses (read : List Char → Reading α) (t : Tree) : Prop :=
  ∀ cs rest, Spaced t.tokens cs → read (cs ++ rest) = .error .mismatch

/-- `read` reads the tree as `a` in any arrangement and layout. -/
structure Legible (read : List Char → Reading α) (t : Tree) (a : α) : Prop where
  starts : t.Starts
  takes : ∀ u, Arranged t u → Takes read u a
  refuses : ∀ u, Flawed t u → Refuses read u
  unfinished : ∀ cs p, Spaced t.tokens cs → Cut p cs → Unfinished (read p)

theorem Legible.map {read : List Char → Reading α} {t : Tree} {a : α} (h : Legible read t a)
    (f : α → β) : Legible (fun cs => (read cs).map fun (v, rest) => (f v, rest)) t (f a) where
  starts := h.starts
  takes u hu cs rest hs hr := by
    simp only [h.takes u hu cs rest hs hr]
    rfl
  refuses u hu cs rest hs := by
    simp only [h.refuses u hu cs rest hs]
    rfl
  unfinished cs p hs hp := (h.unfinished cs p hs hp).map f

theorem spaced_scalar {s cs : List Char} (h : Spaced (Tree.scalar s).tokens cs) :
    ∃ blanks, Blank blanks ∧ cs = blanks ++ s := by
  rw [Tree.tokens] at h
  obtain ⟨blanks, rest, rfl, hb, hrest⟩ := h.cons_eq
  exact ⟨blanks, hb, by rw [hrest.eq_nil, List.append_nil]⟩

theorem Reads.tree_starts {read : List Char → Reading α} {a : α} {s : List Char}
    (h : Reads read s a) : (Tree.scalar s).Starts := by
  obtain ⟨c, cs, rfl, hc, hbracket⟩ := h.starts
  exact starts_scalar hc hbracket

theorem Reads.takes {read : List Char → Reading α} {a : α} {s : List Char} (h : Reads read s a) :
    Takes read (.scalar s) a := by
  intro cs rest hs hends
  obtain ⟨blanks, hb, rfl⟩ := spaced_scalar hs
  rw [List.append_assoc]
  exact h.eq blanks rest hb hends

/-- A scalar has one arrangement only, and nothing in it that could be missing. -/
theorem legible_scalar {read : List Char → Reading α} {a : α} {s : List Char}
    (hr : Reads read s a) (hh : Halts read s) : Legible read (.scalar s) a where
  starts := hr.tree_starts
  takes u hu := by
    cases hu
    exact hr.takes
  refuses u hu := nomatch hu
  unfinished cs p hs hp := by
    obtain ⟨blanks, hb, rfl⟩ := spaced_scalar hs
    rcases hp.append with ⟨c, more, rfl⟩ | ⟨q, rfl, hq⟩
    · obtain ⟨d, ds, rfl, -, -⟩ := hr.starts
      have h := hh p [] (fun e he => hb e (List.mem_append_left _ he)) ⟨d, ds, rfl⟩
      rwa [List.append_nil] at h
    · exact hh blanks q hb hq

theorem legible_text (s : String) : Legible text (Value.text s).tree s := by
  rw [Value.tree]
  exact legible_scalar (reads_text s) (halts_text s)

theorem legible_variant {names : List (String × α)} {name : String} {v : α}
    (h : names.lookup name = some v) : Legible (variant names) (Value.text name).tree v := by
  rw [Value.tree]
  exact legible_scalar (reads_variant h) (halts_variant names name)

theorem legible_whole {n max : Nat} (hn : n ≤ max) (hmax : max ≤ Text.max64) :
    Legible (whole max) (Value.whole n).tree n := by
  rw [Value.tree]
  exact legible_scalar (reads_whole hn hmax) (halts_whole hn hmax)

/-! ## Lists -/

section
variable {item : List Char → Reading α}

theorem skipSpace_append {blanks : List Char} (h : Blank blanks) (cs : List Char) :
    skipSpace (blanks ++ cs) = skipSpace cs :=
  List.dropWhile_append_of_pos h

theorem itemsFrom_blanks {blanks : List Char} (hb : Blank blanks) (fuel : Nat) (first : Bool)
    (read : List α) (cs : List Char) :
    itemsFrom item fuel first read (blanks ++ cs) = itemsFrom item fuel first read cs := by
  cases fuel with
  | zero => rfl
  | succ fuel =>
    unfold itemsFrom
    rw [skipSpace_append hb]

theorem itemsFrom_nil (fuel : Nat) (first : Bool) (read : List α) :
    itemsFrom item fuel first read [] = .error .incomplete := by
  cases fuel <;> rfl

theorem itemsFrom_blank {blanks : List Char} (hb : Blank blanks) (fuel : Nat) (first : Bool)
    (read : List α) : itemsFrom item fuel first read blanks = .error .incomplete := by
  rw [← List.append_nil blanks, itemsFrom_blanks hb, itemsFrom_nil]

theorem itemsFrom_first {fuel : Nat} {read : List α} {blanks : List Char} (hb : Blank blanks)
    {c : Char} (hspace : isSpace c = false) (hbracket : c ≠ ']') (cs : List Char) :
    itemsFrom item (fuel + 1) true read (blanks ++ c :: cs) =
      (item (c :: cs)).bind fun (v, rest) => itemsFrom item fuel false (v :: read) rest := by
  conv =>
    lhs
    unfold itemsFrom
  rw [skipSpace_blanks hb hspace]
  split
  · rename_i heq
    cases heq
  · rename_i heq
    cases heq
    exact absurd rfl hbracket
  · rename_i heq
    cases heq
    rfl

theorem itemsFrom_next {fuel : Nat} {read : List α} {blanks : List Char} (hb : Blank blanks)
    {c : Char} (hspace : isSpace c = false) (hbracket : c ≠ ']') (cs : List Char) :
    itemsFrom item (fuel + 1) false read (',' :: (blanks ++ c :: cs)) =
      (item (c :: cs)).bind fun (v, rest) => itemsFrom item fuel false (v :: read) rest := by
  have hcomma : isSpace ',' = false := by decide
  conv =>
    lhs
    unfold itemsFrom
  rw [skipSpace_cons hcomma]
  split
  · rename_i heq
    cases heq
  · rename_i heq
    simp at heq
  · rename_i heq
    cases heq
    rw [if_neg (by decide), if_pos rfl, skipSpace_blanks hb hspace]
    split
    · rename_i heq
      cases heq
    · rename_i heq
      cases heq
      exact absurd rfl hbracket
    · rfl

/-- The first item is read as if a comma stood before it. -/
theorem itemsFrom_comma {blanks : List Char} (hb : Blank blanks) {c : Char}
    (hspace : isSpace c = false) (hbracket : c ≠ ']') (fuel : Nat) (read : List α)
    (cs : List Char) : itemsFrom item fuel true read (blanks ++ c :: cs) =
      itemsFrom item fuel false read (',' :: (blanks ++ c :: cs)) := by
  cases fuel with
  | zero => rfl
  | succ fuel => rw [itemsFrom_first hb hspace hbracket, itemsFrom_next hb hspace hbracket]

theorem itemsFrom_commaBlank {blanks : List Char} (hb : Blank blanks) (fuel : Nat)
    (read : List α) :
    itemsFrom item (fuel + 1) false read (',' :: blanks) = .error .incomplete := by
  have hcomma : isSpace ',' = false := by decide
  unfold itemsFrom
  rw [skipSpace_cons hcomma]
  split
  · rfl
  · rename_i heq
    simp at heq
  · rename_i heq
    cases heq
    rw [if_neg (by decide), if_pos rfl, skipSpace_blank hb]

/-- An item after its comma. -/
theorem itemsFrom_item (item : List Char → Reading α) {t : Tree} (ht : t.Starts)
    {blanks cs : List Char} (hb : Blank blanks)
    (hs : Spaced t.tokens cs) (fuel : Nat) (read : List α) (rest : List Char) :
    ∃ text, Spaced t.tokens text ∧
      itemsFrom item (fuel + 1) false read (blanks ++ ',' :: (cs ++ rest)) =
        (item (text ++ rest)).bind fun (v, rest) => itemsFrom item fuel false (v :: read) rest := by
  obtain ⟨first, c, ds, rfl, hfirst, hspace, hbracket, htext⟩ := ht.spaced hs
  refine ⟨c :: ds, htext, ?_⟩
  rw [itemsFrom_blanks hb, List.append_assoc, List.cons_append,
    itemsFrom_next hfirst hspace hbracket]

theorem itemsFrom_end {blanks : List Char} (hb : Blank blanks) (fuel : Nat) (first : Bool)
    (read : List α) (rest : List Char) :
    itemsFrom item (fuel + 1) first read (blanks ++ ']' :: rest) = .ok (read.reverse, rest) := by
  have hbracket : isSpace ']' = false := by decide
  unfold itemsFrom
  rw [skipSpace_blanks hb hbracket]
  rfl

/-- Items that are taken, each after a comma. -/
theorem itemsFrom_takes {ts : List Tree} {as : List α}
    (h : List.Forall₂ (fun t a => t.Starts ∧ Takes item t a) ts as) {cs rest : List Char}
    (hs : Spaced (itemTokens ts) cs) (hr : Ends rest) (fuel : Nat) (read : List α) :
    itemsFrom item (fuel + ts.length) false read (cs ++ rest) =
      itemsFrom item fuel false (as.reverse ++ read) rest := by
  induction h generalizing cs read with
  | nil =>
    rw [itemTokens] at hs
    rw [hs.eq_nil]
    rfl
  | @cons t a ts as ht _ ih =>
    rw [itemTokens] at hs
    obtain ⟨blanks, more, rfl, hb, hmore⟩ := hs.punctuation
    obtain ⟨b, c, rfl, htext, hc⟩ := hmore.split
    obtain ⟨text, htext, hstep⟩ := itemsFrom_item item ht.1 hb htext (fuel + ts.length)
      read (c ++ rest)
    rw [List.append_assoc, List.cons_append, List.append_assoc, List.length_cons, ← Nat.add_assoc,
      hstep, ht.2 text _ htext (ends_itemTokens hc hr)]
    show itemsFrom item _ false (a :: read) _ = _
    rw [ih hc, List.reverse_cons, List.append_assoc]
    rfl

/-! ### The whole list -/

theorem itemTokens_append (ts us : List Tree) :
    itemTokens (ts ++ us) = itemTokens ts ++ itemTokens us := by
  induction ts with
  | nil => rfl
  | cons t ts ih => simp only [List.cons_append, itemTokens, ih, List.append_assoc]

theorem length_lt_itemTokens {ts : List Tree} {cs : List Char}
    (h : Spaced (itemTokens ts ++ [[']']]) cs) : ts.length < cs.length := by
  induction ts generalizing cs with
  | nil =>
    obtain ⟨blanks, more, rfl, -, -⟩ := Spaced.punctuation h
    simp only [List.length_append, List.length_cons, List.length_nil]
    omega
  | cons t ts ih =>
    rw [itemTokens, List.cons_append, List.append_assoc] at h
    obtain ⟨blanks, more, rfl, -, hmore⟩ := h.punctuation
    obtain ⟨a, b, rfl, -, hb⟩ := hmore.split
    have := ih hb
    simp only [List.length_append, List.length_cons]
    omega

/-- What comes after the bracket of a list is read as a text with a comma before each item, and
what is left of it when it is cut short as what is left of that text. -/
theorem itemsFrom_open (item : List Char → Reading α) {ts : List Tree}
    (hstart : ∀ t ∈ ts, t.Starts) {cs : List Char}
    (hs : Spaced ((itemTokens ts).tail ++ [[']']]) cs) (read : List α) :
    ∃ text, Spaced (itemTokens ts ++ [[']']]) text ∧ text.length ≤ cs.length + 1 ∧
      (∀ fuel rest, itemsFrom item (fuel + 1) true read (cs ++ rest) =
        itemsFrom item (fuel + 1) false read (text ++ rest)) ∧
      ∀ p, Cut p cs → ∃ q, Cut q text ∧
        ∀ fuel, itemsFrom item fuel true read p = itemsFrom item fuel false read q := by
  cases ts with
  | nil =>
    obtain ⟨last, more, rfl, hlast, hnil⟩ := Spaced.punctuation hs
    refine ⟨_, hs, Nat.le_succ _, ?_, ?_⟩
    · intro fuel rest
      rw [List.append_assoc, List.cons_append, itemsFrom_end hlast, itemsFrom_end hlast]
    · intro p hp
      rcases hp.token hlast with hblank | ⟨q, rfl, hq⟩
      · exact ⟨p, hp, fun fuel => by rw [itemsFrom_blank hblank, itemsFrom_blank hblank]⟩
      · rw [hnil.eq_nil] at hq
        exact absurd hq not_cut_nil
  | cons t ts =>
    have htext : Spaced (itemTokens (t :: ts) ++ [[']']]) (',' :: cs) := by
      rw [itemTokens]
      rw [itemTokens, List.tail_cons] at hs
      exact (spaced_singleton [',']).append hs
    refine ⟨',' :: cs, htext, Nat.le_refl _, ?_⟩
    rw [itemTokens, List.tail_cons, List.append_assoc] at hs
    obtain ⟨a, b, rfl, ha, -⟩ := hs.split
    obtain ⟨first, c, ds, rfl, hfirst, hspace, hbracket, -⟩ := (hstart t (by simp)).spaced ha
    constructor
    · intro fuel rest
      simp only [List.append_assoc, List.cons_append]
      exact itemsFrom_comma hfirst hspace hbracket _ _ _
    · intro p hp
      have hcut := hp
      rw [List.append_assoc, List.cons_append] at hcut
      rcases hcut.token hfirst with hblank | ⟨q, rfl, -⟩
      · exact ⟨[], ⟨',', _, rfl⟩, fun fuel => by rw [itemsFrom_blank hblank, itemsFrom_nil]⟩
      · exact ⟨_, hp.of_append [','], fun fuel => itemsFrom_comma hfirst hspace hbracket _ _ _⟩

theorem items_open {blanks : List Char} (hb : Blank blanks) (cs : List Char) :
    items item (blanks ++ '[' :: cs) = itemsFrom item (cs.length + 1) true [] cs := by
  unfold items
  rw [skipSpace_blanks hb (by decide)]
  rfl

/-- A list is read as if a comma stood before each item. -/
theorem items_spaced (item : List Char → Reading α) {ts : List Tree}
    (hstart : ∀ t ∈ ts, t.Starts) {cs : List Char}
    (hs : Spaced (Tree.list ts).tokens cs) (rest : List Char) :
    ∃ fuel text, Spaced (itemTokens ts ++ [[']']]) text ∧
      items item (cs ++ rest) = itemsFrom item (fuel + 1 + ts.length) false [] (text ++ rest) := by
  rw [Tree.tokens] at hs
  obtain ⟨blanks, more, rfl, hb, hmore⟩ := hs.punctuation
  obtain ⟨text, htext, hlen, hread, -⟩ := itemsFrom_open item hstart hmore []
  have hlt := length_lt_itemTokens htext
  obtain ⟨fuel, hfuel⟩ : ∃ fuel, (more ++ rest).length + 1 = fuel + 1 + ts.length :=
    ⟨(more ++ rest).length - ts.length, by rw [List.length_append]; omega⟩
  refine ⟨fuel, text, htext, ?_⟩
  rw [List.append_assoc, List.cons_append, items_open hb, hread, hfuel]

theorem takes_items {ts us : List Tree} {as : List α} (h : List.Forall₂ (Legible item) ts as)
    (hu : List.Forall₂ Arranged ts us) :
    List.Forall₂ (fun t a => t.Starts ∧ Takes item t a) us as := by
  induction h generalizing us with
  | nil =>
    cases hu
    exact .nil
  | cons ht _ ih =>
    cases hu with
    | cons hx hxs => exact .cons ⟨hx.starts ht.starts, ht.takes _ hx⟩ (ih hxs)

theorem starts_items {ts us : List Tree} {as : List α} (h : List.Forall₂ (Legible item) ts as)
    (hu : List.Forall₂ Arranged ts us) : ∀ u ∈ us, u.Starts :=
  ((List.forall₂_and_left _ _).1 (takes_items h hu)).1

theorem ends_items {ts : List Tree} {cs : List Char} (h : Spaced (itemTokens ts ++ [[']']]) cs)
    (rest : List Char) : Ends (cs ++ rest) := by
  obtain ⟨a, b, rfl, ha, hb⟩ := h.split
  obtain ⟨last, more, rfl, hlast, -⟩ := hb.punctuation
  rw [List.append_assoc, List.append_assoc]
  exact ends_itemTokens ha (ends_blanks hlast (ends_cons (by decide) _))

/-- A list is incomplete wherever it is cut short. -/
theorem itemsFrom_cut {ts : List Tree} {as : List α} (h : List.Forall₂ (Legible item) ts as)
    {cs p : List Char} (hs : Spaced (itemTokens ts ++ [[']']]) cs) (hp : Cut p cs) (fuel : Nat)
    (read : List α) : itemsFrom item fuel false read p = .error .incomplete := by
  induction h generalizing cs p fuel read with
  | nil =>
    obtain ⟨last, more, rfl, hlast, hnil⟩ := Spaced.punctuation hs
    rcases hp.token hlast with hblank | ⟨q, rfl, hq⟩
    · exact itemsFrom_blank hblank fuel false read
    · rw [hnil.eq_nil] at hq
      exact absurd hq not_cut_nil
  | @cons t a ts as ht hts ih =>
    cases fuel with
    | zero => rfl
    | succ fuel =>
      rw [itemTokens, List.cons_append, List.append_assoc] at hs
      obtain ⟨blanks, more, rfl, hb, hmore⟩ := hs.punctuation
      rcases hp.token hb with hblank | ⟨q, rfl, hq⟩
      · exact itemsFrom_blank hblank _ _ _
      obtain ⟨b, c, rfl, htext, hc⟩ := hmore.split
      rcases hq.append with hq | ⟨r, rfl, hr⟩
      · -- In the item.
        obtain ⟨first, x, xs, rfl, hfirst, hspace, hbracket, htext⟩ := ht.starts.spaced htext
        rw [itemsFrom_blanks hb]
        rcases hq.token hfirst with hblank | ⟨r, rfl, hr⟩
        · exact itemsFrom_commaBlank hblank fuel read
        · rw [itemsFrom_next hfirst hspace hbracket]
          rcases ht.unfinished _ _ htext (hr.of_append [x]) with hitem | ⟨v, hitem⟩
          · rw [List.singleton_append] at hitem
            rw [hitem]
            rfl
          · rw [List.singleton_append] at hitem
            rw [hitem]
            exact itemsFrom_nil fuel false (v :: read)
      · -- After the item.
        obtain ⟨text, htext, hstep⟩ := itemsFrom_item item ht.starts hb htext fuel read r
        have hends := ends_items hc []
        rw [List.append_nil] at hends
        rw [hstep, ht.takes t (.refl t) text r htext (hends.cut hr)]
        exact ih hc hr fuel (a :: read)

/-- A list of items that are taken is taken. -/
theorem items_takes {us : List Tree} {as : List α}
    (h : List.Forall₂ (fun t a => t.Starts ∧ Takes item t a) us as) :
    Takes (items item) (.list us) as := by
  have hstarts : ∀ u ∈ us, u.Starts := ((List.forall₂_and_left _ _).1 h).1
  intro cs rest hs _
  obtain ⟨fuel, text, htext, hread⟩ := items_spaced item hstarts hs rest
  obtain ⟨a, b, rfl, ha, hb⟩ := htext.split
  obtain ⟨last, more, rfl, hlast, hnil⟩ := hb.punctuation
  have hends : Ends (last ++ ']' :: rest) := ends_blanks hlast (ends_cons (by decide) _)
  rw [hread, hnil.eq_nil, List.append_assoc, List.append_assoc, List.singleton_append,
    itemsFrom_takes h ha hends, itemsFrom_end hlast, List.append_nil, List.reverse_reverse]

theorem takes_list {ts : List Tree} {as : List α} (h : List.Forall₂ (Legible item) ts as)
    {u : Tree} (hu : Arranged (.list ts) u) : Takes (items item) u as := by
  cases hu with
  | list hus => exact items_takes (takes_items h hus)

/-- The items before the flawed one are read, and then it is refused. -/
theorem refuses_list {ts : List Tree} {as : List α} (h : List.Forall₂ (Legible item) ts as)
    {u : Tree} (hu : Flawed (.list ts) u) : Refuses (items item) u := by
  cases hu with
  | @item ts ts' us us' s u hus hu hus' =>
    intro cs rest hs
    have hfront := (List.forall₂_take_append _ ts _ h.flip).flip
    have hback := (List.forall₂_drop_append _ ts _ h.flip).flip
    obtain ⟨a, as', ha, hback, -⟩ := List.forall₂_cons_left_iff.1 hback
    have hstarts : ∀ t ∈ us ++ u :: us', t.Starts := List.forall_mem_append.2
      ⟨starts_items hfront hus, List.forall_mem_cons.2 ⟨hu.starts, starts_items hback hus'⟩⟩
    obtain ⟨fuel, text, htext, hread⟩ := items_spaced item hstarts hs rest
    rw [itemTokens_append, itemTokens, List.append_assoc, List.cons_append,
      List.append_assoc] at htext
    obtain ⟨b, c, rfl, hb, hc⟩ := htext.split
    obtain ⟨blanks, more, rfl, hblanks, hmore⟩ := hc.punctuation
    obtain ⟨d, e, rfl, hd, he⟩ := hmore.split
    have hends : Ends (blanks ++ ',' :: (d ++ e) ++ rest) := by
      rw [List.append_assoc]
      exact ends_blanks hblanks (ends_cons (by decide) _)
    obtain ⟨text, htext, hstep⟩ := itemsFrom_item item hu.starts hblanks hd
      (fuel + 1 + us'.length) ((as.take ts.length).reverse ++ []) (e ++ rest)
    have hfuel : fuel + 1 + (us ++ u :: us').length = fuel + 1 + us'.length + 1 + us.length := by
      rw [List.length_append, List.length_cons]
      omega
    rw [hread, hfuel, List.append_assoc, itemsFrom_takes (takes_items hfront hus) hb hends,
      List.append_assoc, List.cons_append, List.append_assoc, hstep,
      ha.refuses u hu text _ htext]
    rfl

theorem list_cut {ts : List Tree} {as : List α} (h : List.Forall₂ (Legible item) ts as)
    {cs p : List Char} (hs : Spaced (Tree.list ts).tokens cs) (hp : Cut p cs) :
    items item p = .error .incomplete := by
  rw [Tree.tokens] at hs
  obtain ⟨blanks, more, rfl, hb, hmore⟩ := hs.punctuation
  rcases hp.token hb with hblank | ⟨q, rfl, hq⟩
  · unfold items
    rw [skipSpace_blank hblank]
    rfl
  · obtain ⟨text, htext, -, -, hcut⟩ := itemsFrom_open item
      (starts_items h (forall₂_arranged_refl ts)) hmore []
    obtain ⟨p, hp, hread⟩ := hcut q hq
    rw [items_open hb, hread]
    exact itemsFrom_cut h htext hp _ []

/-- **Lists.** -/
theorem legible_items {ts : List Tree} {as : List α} (h : List.Forall₂ (Legible item) ts as) :
    Legible (items item) (.list ts) as where
  starts := starts_list ts
  takes _ hu := takes_list h hu
  refuses _ hu := refuses_list h hu
  unfinished _ _ hs hp := .inl (list_cut h hs hp)

end

/-- A list of values that are legible one by one. -/
theorem legible_map {item : List Char → Reading α} {xs : List β} {f : β → Value} {g : β → α}
    (h : ∀ x ∈ xs, Legible item (f x).tree (g x)) :
    Legible (items item) (Value.list (xs.map f)).tree (xs.map g) := by
  rw [Value.tree, trees_eq_map, List.map_map]
  refine legible_items ?_
  rw [List.forall₂_map_left_iff, List.forall₂_map_right_iff, List.forall₂_same]
  exact h

end

end ToneRelay.Json
