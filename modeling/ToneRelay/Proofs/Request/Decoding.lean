import ToneRelay.Request.Query

/-!
# Which query strings can be decoded

`decode_eq_ok_iff`: those that give no field twice. Names that are no field may come as often as
they like, and no text is looked at. What is decoded has the texts that were given and no others
(`decode_eq_ok`), and what is refused names a field that was given twice (`decode_refused`).
-/

namespace ToneRelay.Request.Query

/-- The fields that are given in a list of pairs, in order. -/
def given (entries : List (String × String)) : List Field :=
  entries.filterMap fun entry => Field.named? entry.1

theorem given_other {entry : String × String} (entries : List (String × String))
    (h : Field.named? entry.1 = none) : given (entry :: entries) = given entries :=
  List.filterMap_cons_none h

theorem given_field {entry : String × String} {f : Field} (entries : List (String × String))
    (h : Field.named? entry.1 = some f) : given (entry :: entries) = f :: given entries :=
  List.filterMap_cons_some h

/-- Pairs can be added as long as each gives a field that has no text yet. -/
theorem foldlM_add_eq_ok_iff (q : Query) (entries : List (String × String)) :
    (∃ r, entries.foldlM add q = .ok r) ↔
      (given entries).Nodup ∧ ∀ f ∈ given entries, q.value f = none := by
  induction entries generalizing q with
  | nil => exact ⟨fun _ => ⟨List.nodup_nil, nofun⟩, fun _ => ⟨q, rfl⟩⟩
  | cons entry entries ih =>
    rw [List.foldlM_cons]
    cases hname : Field.named? entry.1 with
    | none =>
      have hadd : q.add entry = .ok q := add_other q hname
      rw [hadd, given_other entries hname]
      exact ih q
    | some f =>
      rw [given_field entries hname, List.nodup_cons, List.forall_mem_cons]
      by_cases hf : (q.value f).isSome
      · have hadd : q.add entry = .error f := by simp [add, hname, hf]
        rw [hadd]
        constructor
        · rintro ⟨r, hr⟩
          cases hr
        · rintro ⟨-, hnone, -⟩
          rw [hnone] at hf
          cases hf
      · have hadd : q.add entry = .ok (q.set f entry.2) := by simp [add, hname, hf]
        have hnone : q.value f = none := Option.not_isSome_iff_eq_none.1 hf
        rw [hadd]
        refine (ih (q.set f entry.2)).trans ?_
        constructor
        · rintro ⟨hnodup, hvalues⟩
          have hnot : f ∉ given entries := by
            intro hmem
            have hvalue := hvalues f hmem
            rw [set_value_self] at hvalue
            cases hvalue
          refine ⟨⟨hnot, hnodup⟩, hnone, fun g hg => ?_⟩
          rw [← set_value_other q entry.2 (ne_of_mem_of_not_mem hg hnot)]
          exact hvalues g hg
        · rintro ⟨⟨hnot, hnodup⟩, -, hvalues⟩
          refine ⟨hnodup, fun g hg => ?_⟩
          rw [set_value_other q entry.2 (ne_of_mem_of_not_mem hg hnot)]
          exact hvalues g hg

/-- **Decoding** succeeds exactly if no field is given twice. -/
theorem decode_eq_ok_iff (query : List UInt8) :
    (∃ q, decode query = .ok q) ↔ (given (pairs query)).Nodup := by
  refine (foldlM_add_eq_ok_iff empty (pairs query)).trans ?_
  exact ⟨And.left, fun h => ⟨h, fun _ _ => rfl⟩⟩

/-! ## The texts -/

theorem add_value {q r : Query} {entry : String × String} (h : q.add entry = .ok r) (f : Field)
    (text : String) : r.value f = some text ↔ q.value f = some text ∨ (f.name, text) = entry := by
  obtain ⟨name, given⟩ := entry
  cases hname : Field.named? name with
  | none =>
    have hne : (f.name, text) ≠ (name, given) := by
      rintro heq
      rw [← (Prod.mk.inj heq).1, Field.named?_name] at hname
      cases hname
    rw [add_other q hname] at h
    cases h
    exact (or_iff_left hne).symm
  | some g =>
    have hg : g.name = name := by simpa using List.find?_some hname
    subst hg
    cases hvalue : q.value g with
    | some before =>
      rw [add_again q given (by rw [hvalue]; rfl)] at h
      cases h
    | none =>
      rw [add_new q given hvalue] at h
      cases h
      by_cases hfg : f = g
      · subst hfg
        rw [set_value_self, hvalue]
        simp [eq_comm]
      · have hne : (f.name, text) ≠ (g.name, given) := by
          intro heq
          have hnamed := Field.named?_name f
          rw [(Prod.mk.inj heq).1, Field.named?_name] at hnamed
          exact hfg (Option.some.inj hnamed).symm
        rw [set_value_other q given hfg]
        exact (or_iff_left hne).symm

theorem foldlM_add_value {q r : Query} {entries : List (String × String)}
    (h : entries.foldlM add q = .ok r) (f : Field) (text : String) :
    r.value f = some text ↔ q.value f = some text ∨ (f.name, text) ∈ entries := by
  induction entries generalizing q with
  | nil =>
    cases h
    exact (or_iff_left List.not_mem_nil).symm
  | cons entry entries ih =>
    rw [List.foldlM_cons] at h
    cases hadd : q.add entry with
    | error g =>
      rw [hadd] at h
      cases h
    | ok t =>
      rw [hadd] at h
      rw [ih h, add_value hadd, List.mem_cons, or_assoc]

/-- A query string is decoded to the texts that it gives. -/
theorem decode_eq_ok {query : List UInt8} {q : Query} (hnodup : (given (pairs query)).Nodup)
    (hvalue : ∀ f text, q.value f = some text ↔ (f.name, text) ∈ pairs query) :
    decode query = .ok q := by
  obtain ⟨r, hr⟩ := (decode_eq_ok_iff query).2 hnodup
  have hsame : ∀ f, r.value f = q.value f := by
    intro f
    refine Option.ext fun text => ?_
    rw [foldlM_add_value hr, hvalue]
    exact or_iff_right nofun
  obtain ⟨value⟩ := r
  obtain rfl : value = q.value := funext hsame
  exact hr

/-! ## The refusal -/

theorem foldlM_add_refused {q : Query} {g : Field} {entries : List (String × String)}
    (h : entries.foldlM add q = .error g) :
    (q.value g).isSome ∧ g ∈ given entries ∨ 2 ≤ (given entries).count g := by
  induction entries generalizing q with
  | nil => cases h
  | cons entry entries ih =>
    rw [List.foldlM_cons] at h
    cases hname : Field.named? entry.1 with
    | none =>
      have hadd : q.add entry = .ok q := add_other q hname
      rw [hadd] at h
      rw [given_other entries hname]
      exact ih h
    | some f =>
      rw [given_field entries hname]
      by_cases hf : (q.value f).isSome
      · have hadd : q.add entry = .error f := by simp [add, hname, hf]
        rw [hadd] at h
        cases h
        exact .inl ⟨hf, List.mem_cons_self⟩
      · have hadd : q.add entry = .ok (q.set f entry.2) := by simp [add, hname, hf]
        rw [hadd] at h
        obtain ⟨hsome, hmem⟩ | hcount := ih h
        · by_cases hgf : g = f
          · -- the text that stands in the way came with this pair
            subst hgf
            have hpos : 0 < (given entries).count g := List.count_pos_iff.2 hmem
            rw [List.count_cons_self]
            exact .inr (Nat.succ_le_succ hpos)
          · rw [set_value_other q entry.2 hgf] at hsome
            exact .inl ⟨hsome, List.mem_cons_of_mem f hmem⟩
        · exact .inr (Nat.le_trans hcount List.count_le_count_cons)

/-- A query string is refused for a field that it gives twice. -/
theorem decode_refused {query : List UInt8} (h : ¬ (given (pairs query)).Nodup) :
    ∃ g, decode query = .error g ∧ 2 ≤ (given (pairs query)).count g := by
  cases hdecode : decode query with
  | ok q => exact absurd ((decode_eq_ok_iff query).1 ⟨q, hdecode⟩) h
  | error g =>
    refine ⟨g, rfl, (foldlM_add_refused hdecode).resolve_left ?_⟩
    rintro ⟨hempty, -⟩
    cases hempty

end ToneRelay.Request.Query
