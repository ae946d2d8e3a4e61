import Mathlib.Data.List.TakeWhile
import ToneRelay.Proofs.Stream.Slots
import ToneRelay.Proofs.Text.Utf8
import ToneRelay.Service.App

/-!
# Looking a session up

A session is looked up under a path that ends with its identifier. `handle_lookup`: such a request
is answered with the report that the history has. `report_of_handle`: no other request is answered
with a report, and that report is always the one of the session that was asked for.
-/

namespace ToneRelay.Service

open ToneRelay.Stream (Report)

/-! ## Identifiers in a path -/

/-- A character that stands for itself in a path. -/
def IsPlain (c : Char) : Prop :=
  c.toNat < 128 ∧ c ≠ '%' ∧ c ≠ '/' ∧ c ≠ '?' ∧ c ≠ '#'

theorem mem_hyphenate {ns : List Nat} {cs : List Char} {c : Char}
    (h : c ∈ Text.Uuid.hyphenate ns cs) : c = '-' ∨ c ∈ cs := by
  fun_induction Text.Uuid.hyphenate ns cs with
  | case1 => exact .inr h
  | case2 => exact .inr h
  | case3 n ns cs hne ih =>
    rw [List.mem_append, List.mem_cons] at h
    rcases h with h | h | h
    · exact .inr (List.mem_of_mem_take h)
    · exact .inl h
    · exact (ih h).imp_right List.mem_of_mem_drop

theorem isPlain_digitChar : ∀ d, IsPlain (Text.Uuid.digitChar d) := by
  unfold IsPlain
  decide

theorem isPlain_text {id : Text.Uuid} {c : Char} (h : c ∈ id.text.toList) : IsPlain c := by
  unfold Text.Uuid.text at h
  rw [String.toList_ofList] at h
  rcases mem_hyphenate h with rfl | h
  · unfold IsPlain
    decide
  · obtain ⟨d, -, rfl⟩ := List.mem_map.1 h
    exact isPlain_digitChar d

theorem text_ne_nil (id : Text.Uuid) : id.text.toList ≠ [] := by
  intro h
  have hlength := Text.Uuid.length_hyphenate_groups id.length_chars
  unfold Text.Uuid.text at h
  rw [String.toList_ofList] at h
  rw [h] at hlength
  cases hlength

theorem unescape_of_ne {bytes : List UInt8} (h : ∀ b ∈ bytes, b ≠ Request.percent) :
    Request.unescape bytes = bytes := by
  fun_induction Request.unescape bytes with
  | case1 => rfl
  | case2 => rfl
  | case3 => rfl
  | case4 b c rest byte hbyte ih => exact absurd rfl (h _ List.mem_cons_self)
  | case5 b c rest hnone ih => rw [ih fun d hd => h d (List.mem_cons_of_mem _ hd)]
  | case6 a b c rest hne ih => rw [ih fun d hd => h d (List.mem_cons_of_mem _ hd)]

/-- The path under which a session is looked up. -/
def lookupPath (id : Text.Uuid) : String := "/streams/" ++ id.text

theorem toList_lookupPath (id : Text.Uuid) :
    (lookupPath id).toList = Route.sessions ++ id.text.toList := by
  unfold lookupPath
  rw [String.toList_append]
  rfl

theorem parse_lookupPath (id : Text.Uuid) :
    Target.parse (lookupPath id) = { path := lookupPath id, query := [] } := by
  have hsessions : ∀ c ∈ Route.sessions, c ≠ '#' ∧ c ≠ '?' := by
    have hlist : Route.sessions = ['/', 's', 't', 'r', 'e', 'a', 'm', 's', '/'] := rfl
    simp [hlist]
  have hchars : ∀ c ∈ Route.sessions ++ id.text.toList, c ≠ '#' ∧ c ≠ '?' := by
    intro c hc
    rcases List.mem_append.1 hc with hc | hc
    · exact hsessions c hc
    · exact ⟨(isPlain_text hc).2.2.2.2, (isPlain_text hc).2.2.2.1⟩
  have hhash : (Route.sessions ++ id.text.toList).takeWhile (· ≠ '#') =
      Route.sessions ++ id.text.toList := by
    rw [List.takeWhile_eq_self_iff]
    intro c hc
    simpa using (hchars c hc).1
  have hmark : (Route.sessions ++ id.text.toList).takeWhile (· ≠ '?') =
      Route.sessions ++ id.text.toList := by
    rw [List.takeWhile_eq_self_iff]
    intro c hc
    simpa using (hchars c hc).2
  have hrest : (Route.sessions ++ id.text.toList).dropWhile (· ≠ '?') = [] := by
    rw [List.dropWhile_eq_nil_iff]
    intro c hc
    simpa using (hchars c hc).2
  have hpath : lookupPath id = String.ofList (Route.sessions ++ id.text.toList) := by
    rw [← toList_lookupPath, String.ofList_toList]
  rw [hpath]
  show Target.parse (String.ofList ('/' :: _)) = _
  rw [Target.parse_slash]
  show Target.cut (Route.sessions ++ id.text.toList) = _
  unfold Target.cut
  dsimp only
  rw [hhash, hmark, hrest]
  rfl

theorem ofPath_lookupPath (id : Text.Uuid) :
    Route.ofPath (lookupPath id) = some (.session id.text) := by
  have hpart : '/' ∉ id.text.toList := fun h => (isPlain_text h).2.2.1 rfl
  have hunder := Route.Under.session (text_ne_nil id) hpart
  rw [String.ofList_toList, ← toList_lookupPath] at hunder
  exact Route.ofPath_eq_some_iff.2 (.inl hunder)

theorem sessionName?_text (id : Text.Uuid) : Route.sessionName? id.text = some id.text := by
  have hascii : ∀ c ∈ id.text.toList, c.toNat < 128 := fun c hc => (isPlain_text hc).1
  unfold Route.sessionName?
  rw [unescape_of_ne, Text.decode?_utf8]
  intro b hb
  obtain ⟨c, hc, hcb⟩ := List.mem_flatMap.1 hb
  rw [Text.utf8EncodeChar_ascii (hascii c hc), List.mem_singleton] at hcb
  rintro rfl
  have hnat : c.toNat = 37 := by
    have h := congrArg UInt8.toNat hcb
    rw [UInt8.toNat_ofNat', Nat.mod_eq_of_lt (Nat.lt_trans (hascii c hc) (by decide))] at h
    exact h.symm
  exact (isPlain_text hc).2.1 (Char.toNat_inj.1 hnat)

/-! ## Answers -/

namespace App

variable {a : App} {i : Incoming} {c : Circumstances} {bucket : Bucket} {r : Report}

theorem session_found {id : Text.Uuid} (hfind : a.shared.history.find id = some r) :
    (a.session id.text).2 = .ofBody 200 Refusal.contentType (.report r) := by
  unfold session
  rw [sessionName?_text]
  dsimp only
  rw [Text.Uuid.parse?_text]
  dsimp only
  rw [Shared.lookup_fst, hfind]

@[simp] theorem origins_session (name : String) : (a.session name).1.origins = a.origins := by
  unfold session
  split
  · rfl
  · dsimp only
    split <;> rfl

/-- **A session is looked up** and found, as long as there is a token. -/
theorem handle_lookup {id : Text.Uuid} (hget : i.method = "GET")
    (htarget : i.target = lookupPath id) (htoken : a.bucket.take c.now = some bucket)
    (hfind : a.shared.history.find id = some r) : (a.handle i c).2.response =
      (Response.ofBody 200 Refusal.contentType (.report r)).adding
        (Response.common a.origins (i.header? "origin") c.requestId) := by
  have hhead : i.method ≠ "HEAD" := by simp [hget]
  have hoptions : i.method ≠ "OPTIONS" := by simp [hget]
  have hallow : allowHeader i (Target.parse i.target) = [] := by
    have hread : i.isRead = true := by simp [Incoming.isRead, hget]
    unfold allowHeader
    rw [hread, Bool.not_true, Bool.and_false]
    rfl
  have hanswer : { a with bucket := bucket }.answer i (Target.parse i.target) c =
      { a with bucket := bucket }.serve (.session id.text) [] c c.listener := by
    unfold answer
    rw [htarget, parse_lookupPath, ofPath_lookupPath]
    dsimp only
    rw [if_pos hget]
  unfold handle
  dsimp only
  rw [htoken]
  dsimp only
  rw [if_neg hoptions, if_neg hhead, hanswer, hallow, List.append_nil]
  unfold serve
  dsimp only
  rw [session_found (a := { a with bucket := bucket }) hfind, origins_session]

/-! ## Answers with a report -/

/-- A request for this path asks for the session of the report, which the history has. -/
def Holds (a : App) (path : String) (r : Report) : Prop :=
  r ∈ a.shared.history.reports ∧ ∃ name text, Route.ofPath path = some (.session name) ∧
    Route.sessionName? name = some text ∧ Text.Uuid.parse? text = some r.id

theorem report_of_session {name path : String} (hroute : Route.ofPath path = some (.session name))
    (h : (a.session name).2.body = .report r) : a.Holds path r := by
  unfold session at h
  split at h
  · cases h
  · next text hname =>
    dsimp only at h
    split at h
    · cases h
    · next id hid =>
      dsimp only at h
      rw [Shared.lookup_fst] at h
      cases hfind : a.shared.history.find id with
      | none =>
        rw [hfind] at h
        cases h
      | some q =>
        rw [hfind] at h
        obtain rfl : q = r := Body.report.inj h
        obtain ⟨hmem, rfl⟩ := Stream.History.find_spec hfind
        exact ⟨hmem, name, text, hroute, hname, hid⟩

theorem body_stream (query : List UInt8) (l : Stream.Transfer.Listener) :
    (a.stream query c l).2.response.body ≠ .report r := by
  unfold stream
  split
  · nofun
  · dsimp only
    unfold Exchange.response?
    split
    · nofun
    · cases Exchange.transfer? _ <;> nofun

theorem report_of_answer {target : Target}
    (h : (a.answer i target c).2.response.body = .report r) : a.Holds target.path r := by
  have hserve : ∀ route l, Route.ofPath target.path = some route →
      (a.serve route target.query c l).2.response.body = .report r → a.Holds target.path r := by
    intro route l hroute hbody
    cases route with
    | session name => exact report_of_session hroute hbody
    | stream => exact absurd hbody (body_stream _ _)
    | _ => cases hbody
  unfold answer at h
  split at h
  · cases h
  · next route hroute =>
    split at h
    · exact hserve route _ hroute h
    · split at h
      · exact hserve route _ hroute h
      · cases h

/-- **Only a question for a session** is answered with a report, and that is its own. -/
theorem report_of_handle (h : (a.handle i c).2.response.body = .report r) :
    a.Holds (Target.parse i.target).path r := by
  unfold handle at h
  dsimp only at h
  split at h
  · cases h
  · next bucket htoken =>
    split at h
    · cases h
    · dsimp only at h
      split at h
      · cases h
      · exact report_of_answer (a := { a with bucket := bucket }) h

end App

end ToneRelay.Service
