import ToneRelay.Proofs.Job.RoundTrip

/-!
# Descriptions in any layout

`read_arranged`: neither the order of the members nor the blanks between the tokens change what is
read, and members that no part of a description knows are passed over; a member that is missing, or
given twice, is noticed wherever it is. `read_truncated`: the text of a description says nothing
before its last character, wherever it is cut short.
-/

namespace ToneRelay.Job

open Json Decimal

variable {d : Description}

/-- **Descriptions in any layout.** A description whose floats survive is read from every rendering
of every arrangement of its tree. Where a member is missing or given twice, the text is refused. -/
theorem read_arranged (h : d.ForAllFloats Survives) :
    (∀ t text, Arranged d.toJson.tree t → t.Rendered text → Description.read text = .ok d) ∧
      ∀ t text, Flawed d.toJson.tree t → t.Rendered text →
        Description.read text = .error .mismatch := by
  have hfinite := h.imp fun _ hx => hx.finite
  have hcollects := collects_description hfinite
  rw [(mapFloats_readBack_iff hfinite).2 h] at hcollects
  rw [tree_description]
  constructor
  · intro t text ht hr
    exact read_of_takes (takes_record hcollects ht) hr
  · intro t text ht hr
    exact read_of_refuses (refuses_record hcollects ht) hr

/-- A section with one tone. -/
def humming : Section := ⟨0, .steady, ⟨[], [⟨.binaural, 220.5, 4.5, 70, .sine⟩]⟩⟩

/-- A description of one section. -/
def hum : Description := ⟨["\"hum\""], ⟨44100, 100⟩, [humming]⟩

theorem survives_hum : hum.ForAllFloats Survives := by
  have hcarrier : Survives 220.5 := ⟨by decide +kernel, by decide +kernel⟩
  have hresonance : Survives 4.5 := ⟨by decide +kernel, by decide +kernel⟩
  exact List.forall_mem_singleton.2 (List.forall_mem_singleton.2 ⟨hcarrier, hresonance⟩)

/-- A member that no part of a description knows, with a number that is out of range. -/
def note : List Char × Tree :=
  (spell "note", .list [.scalar "null".toList, .scalar ['1', 'e', '9', '9', '9']])

theorem foreign_note {keys : List (List Char)} (h : spell "note" ∉ keys) : Foreign keys note where
  spelled := ⟨"note", rfl⟩
  unknown := h
  wellFormed := by
    have hpower : IsPower ('e' :: [] ++ ['9', '9', '9']) :=
      .some (.inl rfl) (.inl rfl) ⟨by simp, by simp⟩
    have hnumber : IsNumber (['1'] ++ ([] ++ ('e' :: [] ++ ['9', '9', '9']))) :=
      .mk ⟨by simp, by simp⟩ nofun .none hpower
    refine .list (List.forall_mem_cons.2 ⟨.scalar .null, List.forall_mem_singleton.2 ?_⟩)
    exact .scalar (.number hnumber)

/-- The document of the description with a tree in place of its section. -/
def hum.around (t : Tree) : List (List Char × Tree) :=
  spelled [("description", (Value.list [.text "\"hum\""]).tree),
    ("options", hum.options.toJson.tree), ("sequence", .list [t])]

/-- All members the other way round, and a note among those of the section and of the whole. -/
def hum.turned : Tree :=
  .record (hum.around (.record (spelled humming.members ++ [note]).reverse) ++ [note]).reverse

/-- The section lacks its first member, the time. -/
def hum.untimed : Tree := .record (hum.around (.record (spelled humming.members).tail))

/-- The section ends with a second time. -/
def hum.timedTwice : Tree :=
  .record (hum.around (.record (spelled humming.members ++ [(spell "time", .scalar ['0'])])))

theorem arranged_reverse {ms own : List (List Char × Tree)} {n : List Char × Tree}
    (hk : own.map (·.1) = ms.map (·.1))
    (h : List.Forall₂ (fun m n => Arranged m.2 n.2) ms own) (hn : Foreign (ms.map (·.1)) n) :
    Arranged (.record ms) (.record (own ++ [n]).reverse) :=
  .record hk h (List.forall_mem_singleton.2 hn) (List.reverse_perm _)

theorem arranged_turned : Arranged hum.toJson.tree hum.turned := by
  have hsection : Arranged (.record (spelled humming.members))
      (.record (spelled humming.members ++ [note]).reverse) :=
    arranged_reverse rfl (forall₂_arranged_snd_refl _) (foreign_note (by decide))
  have hmembers : List.Forall₂ (fun m n => Arranged m.2 n.2)
      (hum.around (.record (spelled humming.members)))
      (hum.around (.record (spelled humming.members ++ [note]).reverse)) :=
    .cons (.refl _) (.cons (.refl _) (.cons (.list (.cons hsection .nil)) .nil))
  exact arranged_reverse rfl hmembers (foreign_note (by decide))

/-- A flaw of the section is one of the whole. -/
theorem flawed_around {t : Tree} (h : Flawed (.record (spelled humming.members)) t) :
    Flawed hum.toJson.tree (.record (hum.around t)) := by
  have hlist : Flawed (.list ([] ++ .record (spelled humming.members) :: []))
      (.list ([] ++ t :: [])) := .item .nil h .nil
  have hfront : hum.around t = (hum.around t).take 2 ++ (spell "sequence", .list [t]) :: [] := rfl
  rw [hfront]
  exact .member (.refl hum.toJson.tree) (List.mem_of_getLast? rfl) hlist

theorem flawed_untimed : Flawed hum.toJson.tree hum.untimed :=
  flawed_around (.missing (.refl (.record ([] ++ spelled humming.members))) List.mem_cons_self)

theorem flawed_timedTwice : Flawed hum.toJson.tree hum.timedTwice :=
  flawed_around (.twice (.refl (.record (spelled humming.members ++ []))) List.mem_cons_self
    List.mem_cons_self)

/-- A text of a tree without any blanks. -/
def tight (t : Tree) : String := String.ofList t.tokens.flatten

theorem rendered_tight (t : Tree) : t.Rendered (tight t) :=
  ⟨t.tokens.flatten, [], spaced_flatten t.tokens, nofun, by rw [List.append_nil, tight]⟩

theorem read_arranged_hum : hum.ForAllFloats Survives ∧
    Description.read (tight hum.turned) = .ok hum ∧
      Description.read (tight hum.untimed) = .error .mismatch ∧
        Description.read (tight hum.timedTwice) = .error .mismatch := by
  obtain ⟨hread, hrefused⟩ := read_arranged survives_hum
  exact ⟨survives_hum, hread _ _ arranged_turned (rendered_tight _),
    hrefused _ _ flawed_untimed (rendered_tight _),
    hrefused _ _ flawed_timedTwice (rendered_tight _)⟩

/-- **Descriptions cut short.** What is left of the text of a description is never another one, and
is never taken for a text with a fault: it is found to be incomplete. -/
theorem read_truncated (h : d.ForAllFloats fun x => x.isFinite = true) {text : String}
    (hp : text.toList <+: d.toText.toList) (hne : text ≠ d.toText) :
    Description.read text = .error .incomplete := by
  have hcut : Cut text.toList d.toText.toList :=
    cut_iff.2 ⟨hp, fun heq => hne (String.toList_inj.1 heq)⟩
  have hs := spaced_toText d
  rw [tree_description] at hs
  unfold Description.read whole?
  rw [show record Description.fields {} Description.Draft.finish text.toList = .error .incomplete
    from record_cut (collects_description h) hs hcut]
  rfl

/-- What is left of the text that is cut short inside its first escaped quotation mark. -/
def hum.start : String := "\x7b\n  \"description\": [\n    \"\\"

theorem read_truncated_hum : (hum.ForAllFloats fun x => x.isFinite = true) ∧
    hum.start.toList <+: hum.toText.toList ∧ hum.start ≠ hum.toText ∧
      Description.read hum.start = .error .incomplete := by
  have hfinite := survives_hum.imp fun _ hx => hx.finite
  have hchars : hum.toText.toList = hum.toJson.write .lines 0 := by
    rw [Description.toText, Value.pretty, String.toList_ofList]
  have hp : hum.start.toList <+: hum.toText.toList := by
    rw [hchars]
    decide
  have hne : hum.start ≠ hum.toText := by
    intro heq
    rw [← heq] at hchars
    exact absurd hchars (by decide)
  exact ⟨hfinite, hp, hne, read_truncated hfinite hp hne⟩

end ToneRelay.Job
