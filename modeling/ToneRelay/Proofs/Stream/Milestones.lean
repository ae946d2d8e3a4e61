import Mathlib.Data.Nat.Basic
import ToneRelay.Proofs.Job.Timeline
import ToneRelay.Proofs.Stream.Dialogue

/-!
# Reports of progress

`run_milestones`: a relay reports its total after a chunk just when the chunk has taken the total
into another interval, and then once, whatever the chunks are and however many intervals they cross.
As long as the total and an interval fit in a word together, it counts in words as it does in
numbers: the loop that finds the next mark ends, and no sum is cut.

The mark at which progress is reported next is the end of the interval of the total (`nextMark`);
the loop takes it from one such end to the other (`catchUp_eq`). One accepted chunk keeps it there
(`advance_eq`), hence a run (`sequel_run`).
-/

namespace ToneRelay.Stream

open Job (plus? plus?_ofNat)

/-! ## Marks -/

/-- The end of the interval that a total lies in. -/
def nextMark (interval total : Nat) : Nat := interval * (total / interval + 1)

/-- What is reported after a chunk: the total, if the chunk has taken it into another interval. -/
def milestone (interval total size : Nat) : Option Nat :=
  if total / interval < (total + size) / interval then some (total + size) else none

/-- What is reported after each of the chunks that follow a total. -/
def milestones (interval : Nat) : Nat → List Nat → List (Option Nat)
  | _, [] => []
  | total, size :: sizes =>
    milestone interval total size :: milestones interval (total + size) sizes

/-- A mark is reached with another interval, if there are marks at all. -/
theorem reached_iff {interval total sum : Nat} :
    0 < interval ∧ nextMark interval total ≤ sum ↔ total / interval < sum / interval := by
  unfold nextMark
  rcases Nat.eq_zero_or_pos interval with rfl | hpos
  · simp
  · rw [Nat.mul_comm, ← Nat.le_div_iff_mul_le hpos, Nat.succ_le_iff]
    exact and_iff_right hpos

theorem nextMark_zero (interval : Nat) : nextMark interval 0 = interval := by
  unfold nextMark
  rw [Nat.zero_div, Nat.zero_add, Nat.mul_one]

/-- The mark stays as long as it is not reached. -/
theorem nextMark_of_not_reached {interval total sum : Nat} (hle : total ≤ sum)
    (h : ¬ total / interval < sum / interval) :
    nextMark interval total = nextMark interval sum := by
  unfold nextMark
  rw [Nat.le_antisymm (Nat.div_le_div_right hle) (Nat.le_of_not_lt h)]

theorem nextMark_le_add (interval total : Nat) : nextMark interval total ≤ total + interval := by
  unfold nextMark
  rw [Nat.mul_succ]
  exact Nat.add_le_add_right (Nat.mul_div_le total interval) interval

/-- The loop goes from the end of an interval to that of the interval of the total. -/
theorem catchUp_eq {interval total k : Nat} (hpos : 0 < interval) (hk : k ≤ total / interval + 1) :
    catchUp interval total (interval * k) = nextMark interval total := by
  generalize hnext : interval * k = next
  fun_induction catchUp interval total next generalizing k with
  | case1 next h ih =>
    have hle : k ≤ total / interval := by
      rw [Nat.le_div_iff_mul_le hpos, Nat.mul_comm, hnext]
      exact h.2
    exact ih (k := k + 1) (Nat.succ_le_succ hle) (by rw [Nat.mul_succ, hnext])
  | case2 next h =>
    have hlt : total / interval < k := by
      rw [Nat.div_lt_iff_lt_mul hpos, Nat.mul_comm, hnext]
      exact Nat.lt_of_not_le fun hle => h ⟨hpos, hle⟩
    rw [← hnext, Nat.le_antisymm hk hlt]
    rfl

theorem milestones_of_no_interval (total : Nat) (sizes : List Nat) {sum : Nat} :
    some sum ∉ milestones 0 total sizes := by
  induction sizes generalizing total with
  | nil => exact List.not_mem_nil
  | cons size sizes ih =>
    have hnone : milestone 0 total size = none := by
      unfold milestone
      rw [Nat.div_zero, Nat.div_zero, if_neg (Nat.lt_irrefl 0)]
    rw [milestones, hnone, List.mem_cons, not_or]
    exact ⟨nofun, ih _⟩

/-! ## The same in words -/

/-- The loop that raises a mark above a total, in words: it ends, and no sum is cut. -/
inductive Climbs (interval total : UInt64) : UInt64 → UInt64 → Prop
  | above {next : UInt64} (h : ¬ next ≤ total) : Climbs interval total next next
  | raise {next sum last : UInt64} (h : next ≤ total) (hsum : plus? next interval = some sum)
      (hrest : Climbs interval total sum last) : Climbs interval total next last

/-- What a relay counts in words. -/
structure Meter where
  total : UInt64
  /-- The total at which progress is reported next. -/
  next : UInt64

namespace Meter

/-- Counts an accepted chunk, and reports the total if it has reached the mark. -/
inductive Counts (interval : UInt64) (m : Meter) (size : UInt64) : Option UInt64 → Meter → Prop
  | silent {total : UInt64} (htotal : plus? m.total size = some total)
      (h : ¬ (0 < interval ∧ m.next ≤ total)) : Counts interval m size none ⟨total, m.next⟩
  | report {total last : UInt64} (htotal : plus? m.total size = some total)
      (h : 0 < interval ∧ m.next ≤ total) (hclimbs : Climbs interval total m.next last) :
      Counts interval m size (some total) ⟨total, last⟩

/-- Counts chunks one after another, with what is reported after each. -/
inductive Runs (interval : UInt64) : Meter → List UInt64 → List (Option UInt64) → Meter → Prop
  | nil (m : Meter) : Runs interval m [] [] m
  | cons {m m' last : Meter} {size : UInt64} {mark : Option UInt64} {sizes : List UInt64}
      {marks : List (Option UInt64)} (hcount : Counts interval m size mark m')
      (hrest : Runs interval m' sizes marks last) :
      Runs interval m (size :: sizes) (mark :: marks) last

end Meter

theorem ofNat_le_iff {a b : Nat} (ha : a < UInt64.size) (hb : b < UInt64.size) :
    UInt64.ofNat a ≤ .ofNat b ↔ a ≤ b := by
  rw [UInt64.le_iff_toNat_le, UInt64.toNat_ofNat_of_lt' ha, UInt64.toNat_ofNat_of_lt' hb]

theorem ofNat_pos_iff {a : Nat} (ha : a < UInt64.size) : 0 < UInt64.ofNat a ↔ 0 < a := by
  rw [UInt64.lt_iff_toNat_lt, UInt64.toNat_ofNat_of_lt' ha]
  rfl

/-- The loop ends in words where it ends in numbers. -/
theorem climbs_catchUp {interval total next : Nat} (hpos : 0 < interval)
    (hfits : total + interval < UInt64.size) (hnext : next ≤ total + interval) :
    Climbs (.ofNat interval) (.ofNat total) (.ofNat next)
      (.ofNat (catchUp interval total next)) := by
  fun_induction catchUp interval total next with
  | case1 next h ih =>
    have hsum := plus?_ofNat (a := next) (b := interval) (by omega)
    exact .raise ((ofNat_le_iff (by omega) (by omega)).2 h.2) hsum (ih (by omega))
  | case2 next h =>
    refine .above fun hle => h ⟨hpos, ?_⟩
    exact (ofNat_le_iff (by omega) (by omega)).1 hle

/-- A chunk is counted in words as it is in numbers. -/
theorem counts_milestone {interval total size : Nat}
    (hfits : total + size + interval < UInt64.size) :
    Meter.Counts (.ofNat interval) ⟨.ofNat total, .ofNat (nextMark interval total)⟩ (.ofNat size)
      ((milestone interval total size).map .ofNat)
      ⟨.ofNat (total + size), .ofNat (nextMark interval (total + size))⟩ := by
  have htotal := plus?_ofNat (a := total) (b := size) (by omega)
  have hmark : nextMark interval total ≤ total + interval := nextMark_le_add interval total
  have hreached : 0 < UInt64.ofNat interval ∧
      UInt64.ofNat (nextMark interval total) ≤ .ofNat (total + size) ↔
        total / interval < (total + size) / interval := by
    rw [ofNat_pos_iff (by omega), ofNat_le_iff (by omega) (by omega), reached_iff]
  unfold milestone
  by_cases h : total / interval < (total + size) / interval
  · rw [if_pos h]
    have hpos : 0 < interval := (reached_iff.2 h).1
    have hclimbs := climbs_catchUp hpos hfits
      (by omega : nextMark interval total ≤ total + size + interval)
    rw [nextMark, catchUp_eq hpos (by omega)] at hclimbs
    exact .report htotal (hreached.2 h) hclimbs
  · rw [if_neg h, ← nextMark_of_not_reached (Nat.le_add_right _ _) h]
    exact .silent htotal (mt hreached.1 h)

theorem runs_milestones {interval total : Nat} {sizes : List Nat}
    (hfits : total + sizes.foldr (· + ·) 0 + interval < UInt64.size) :
    Meter.Runs (.ofNat interval) ⟨.ofNat total, .ofNat (nextMark interval total)⟩
      (sizes.map .ofNat) ((milestones interval total sizes).map (·.map .ofNat))
      ⟨.ofNat (total + sizes.foldr (· + ·) 0),
        .ofNat (nextMark interval (total + sizes.foldr (· + ·) 0))⟩ := by
  induction sizes generalizing total with
  | nil => exact .nil _
  | cons size sizes ih =>
    rw [List.foldr_cons, ← Nat.add_assoc] at hfits ⊢
    exact .cons (counts_milestone (by omega)) (ih hfits)

/-! ## The relay -/

/-- Whether an event is an accepted chunk or a report. -/
def Event.isAccount {α : Type} : Event α → Bool
  | .send _ accepted => accepted
  | .progress _ => true
  | .read _ | .terminate | .stopFailed _ _ => false

/-- The events of rounds in which chunks are handed on, with what is reported after each. -/
def account {α : Type} (o : RelayOptions) (chunks : List α) (marks : List (Option Nat)) :
    List (Event α) :=
  (chunks.zip marks).flatMap fun (chunk, mark) =>
    [.read (max o.chunkSize 1), .send chunk true] ++ mark.toList.map .progress

theorem account_cons {α : Type} (o : RelayOptions) (chunk : α) (chunks : List α)
    (mark : Option Nat) (marks : List (Option Nat)) :
    account o (chunk :: chunks) (mark :: marks) =
      [.read (max o.chunkSize 1), .send chunk true] ++ mark.toList.map .progress ++
        account o chunks marks := by
  unfold account
  rw [List.zip_cons_cons, List.flatMap_cons]

/-- Only what is reported after a chunk is reported. -/
theorem mem_account {α : Type} {o : RelayOptions} {chunks : List α} {marks : List (Option Nat)}
    {total : Nat} (h : .progress total ∈ account o chunks marks) : some total ∈ marks := by
  obtain ⟨⟨chunk, mark⟩, hzip, hmem⟩ := List.mem_flatMap.1 h
  have hmark : mark = some total := by simpa using hmem
  exact hmark ▸ (List.of_mem_zip hzip).2

namespace Pump

variable {α : Type} {p : Pump α}

/-- The mark is the end of the interval of the total. -/
def Marked (p : Pump α) : Prop := p.nextReport = nextMark p.options.progressInterval p.total

theorem marked_start (o : RelayOptions) : (start o : Pump α).Marked :=
  (nextMark_zero o.progressInterval).symm

/-- The call of the round under way. -/
def lead (p : Pump α) : List (Event α) :=
  match p.phase with
  | .reading | .sending _ => [.read (max p.options.chunkSize 1)]
  | .checking | .stopping _ | .done _ => []

theorem plain_lead (p : Pump α) : ∀ e ∈ p.lead, e.isAccount = false := by
  unfold lead
  split <;> simp [Event.isAccount]

/-- The relay hands on no other chunk. -/
def Leaving (p : Pump α) : Prop := (∃ e, p.phase = .stopping e) ∨ ∃ e, p.phase = .done e

variable [Piece α]

/-- The relay after an accepted chunk: the mark is the end of the interval of the new total. -/
def handedOn (p : Pump α) (chunk : α) : Pump α where
  options := p.options
  total := p.total + Piece.size chunk
  nextReport := nextMark p.options.progressInterval (p.total + Piece.size chunk)

/-- **An accepted chunk** is counted, and reported if it takes the total into another interval. -/
theorem advance_eq (hm : p.Marked) (chunk : α) :
    p.advance chunk = (p.handedOn chunk,
      (milestone p.options.progressInterval p.total (Piece.size chunk)).toList.map .progress) := by
  have hdue : (0 < p.options.progressInterval && p.nextReport ≤ p.total + Piece.size chunk) =
      decide (p.total / p.options.progressInterval <
        (p.total + Piece.size chunk) / p.options.progressInterval) := by
    rw [Bool.eq_iff_iff, Bool.and_eq_true, decide_eq_true_iff, decide_eq_true_iff,
      decide_eq_true_iff, hm, reached_iff]
  unfold advance due milestone handedOn
  dsimp only
  rw [hdue]
  by_cases h : p.total / p.options.progressInterval <
      (p.total + Piece.size chunk) / p.options.progressInterval
  · rw [if_pos (decide_eq_true h), if_pos h, hm, nextMark,
      catchUp_eq (reached_iff.2 h).1 (by omega)]
    rfl
  · rw [if_neg (by simpa using h), if_neg h, ← nextMark_of_not_reached (Nat.le_add_right _ _) h,
      ← hm]
    rfl

/-! ## Runs -/

/-- What a relay does from one state to another: it hands on chunks, with what is reported after
each, and at the end does something else. -/
structure Sequel (p q : Pump α) (events : List (Event α)) (chunks : List α)
    (tail : List (Event α)) : Prop where
  events_eq : p.lead ++ events = account p.options chunks
    (milestones p.options.progressInterval p.total (chunks.map Piece.size)) ++ tail
  plain : ∀ e ∈ tail, e.isAccount = false
  total_eq : q.total = p.total + Piece.total chunks
  marked : q.Marked
  options_eq : q.options = p.options

variable {q r : Pump α} {events tail : List (Event α)} {chunks : List α} {chunk : α}

theorem Sequel.refl (hm : p.Marked) : Sequel p p [] [] p.lead where
  events_eq := List.append_nil _
  plain := p.plain_lead
  total_eq := rfl
  marked := hm
  options_eq := rfl

/-- A step within a round. -/
theorem Sequel.within (h : Sequel q r events chunks tail) {more : List (Event α)}
    (hlead : p.lead ++ more = q.lead) (htotal : q.total = p.total) (ho : q.options = p.options) :
    Sequel p r (more ++ events) chunks tail where
  events_eq := by rw [← List.append_assoc, hlead, h.events_eq, htotal, ho]
  plain := h.plain
  total_eq := by rw [h.total_eq, htotal]
  marked := h.marked
  options_eq := h.options_eq.trans ho

/-- The step that ends a round with an accepted chunk. -/
theorem Sequel.handed (h : Sequel (p.handedOn chunk) r events chunks tail)
    (hp : p.phase = .sending chunk) :
    Sequel p r (.send chunk true ::
      (milestone p.options.progressInterval p.total (Piece.size chunk)).toList.map .progress ++
        events) (chunk :: chunks) tail where
  events_eq := by
    have hlead : p.lead = [.read (max p.options.chunkSize 1)] := by
      unfold lead
      rw [hp]
    have hevents : events = _ := h.events_eq
    rw [hlead, hevents, List.map_cons, milestones, account_cons, List.append_assoc]
    rfl
  plain := h.plain
  total_eq := h.total_eq.trans (Nat.add_assoc _ _ _)
  marked := h.marked
  options_eq := h.options_eq

/-- A relay that is leaving neither counts nor reports. -/
theorem leaving_step (hp : p.Leaving) (a : Answer α) :
    ∃ phase, (p.step a).1 = { p with phase := phase } ∧ (p.step a).1.Leaving ∧
      ∀ e ∈ (p.step a).2, e.isAccount = false := by
  by_cases ha : p.asks a = true
  · obtain ⟨o, phase, total, next⟩ := p
    rcases hp with ⟨e, rfl⟩ | ⟨e, rfl⟩
    · cases a with
      | stopped fault =>
        cases fault with
        | none => exact ⟨.done e, rfl, .inr ⟨e, rfl⟩, List.forall_mem_nil _⟩
        | some fault => exact ⟨.done e, rfl, .inr ⟨e, rfl⟩, by simp [step, Event.isAccount]⟩
      | _ => cases ha
    · cases ha
  · rw [step_of_not_asks (Bool.eq_false_iff.2 ha)]
    exact ⟨p.phase, rfl, hp, List.forall_mem_nil _⟩

theorem leaving_run (hp : p.Leaving) (as : List (Answer α)) :
    (∃ phase, (p.run as).1 = { p with phase := phase }) ∧
      ∀ e ∈ (p.run as).2, e.isAccount = false := by
  induction as generalizing p with
  | nil => exact ⟨⟨p.phase, rfl⟩, List.forall_mem_nil _⟩
  | cons a as ih =>
    obtain ⟨phase, hstep, hleaving, hplain⟩ := leaving_step hp a
    obtain ⟨⟨last, hrun⟩, hrest⟩ := ih hleaving
    rw [run_cons]
    refine ⟨⟨last, ?_⟩, List.forall_mem_append.2 ⟨hplain, hrest⟩⟩
    rw [hrun, hstep]

/-- A step with which the relay leaves, and all that comes after. -/
theorem sequel_leaving (hm : p.Marked) {phase : Phase α}
    (hq : ({ p with phase := phase } : Pump α).Leaving) {more : List (Event α)}
    (hmore : ∀ e ∈ more, e.isAccount = false) (as : List (Answer α)) :
    Sequel p (({ p with phase := phase } : Pump α).run as).1
      (more ++ (({ p with phase := phase } : Pump α).run as).2) []
      (p.lead ++ (more ++ (({ p with phase := phase } : Pump α).run as).2)) := by
  obtain ⟨⟨last, hrun⟩, hplain⟩ := leaving_run hq as
  rw [hrun]
  exact ⟨rfl, List.forall_mem_append.2 ⟨p.plain_lead, List.forall_mem_append.2 ⟨hmore, hplain⟩⟩,
    rfl, hm, rfl⟩

/-- **A run** of a relay. -/
theorem sequel_run (hm : p.Marked) (as : List (Answer α)) :
    ∃ chunks tail, Sequel p (p.run as).1 (p.run as).2 chunks tail := by
  induction as generalizing p with
  | nil => exact ⟨[], p.lead, .refl hm⟩
  | cons a as ih =>
    rw [run_cons]
    by_cases ha : p.asks a = true
    · obtain ⟨o, phase, total, next⟩ := p
      cases phase with
      | checking =>
        cases a with
        | consumerPresent =>
          obtain ⟨chunks, tail, h⟩ := ih (p := ⟨o, .reading, total, next⟩) hm
          exact ⟨chunks, tail, h.within rfl rfl rfl⟩
        | consumerGone =>
          exact ⟨[], _, sequel_leaving hm (.inl ⟨_, rfl⟩) (by simp [step, Event.isAccount]) as⟩
        | _ => cases ha
      | reading =>
        cases a with
        | consumerGone =>
          exact ⟨[], _, sequel_leaving hm (.inl ⟨_, rfl⟩) (by simp [step, Event.isAccount]) as⟩
        | read result =>
          cases result with
          | data chunk =>
            obtain ⟨chunks, tail, h⟩ := ih (p := ⟨o, .sending chunk, total, next⟩) hm
            exact ⟨chunks, tail, h.within rfl rfl rfl⟩
          | eof => exact ⟨[], _, sequel_leaving hm (.inr ⟨_, rfl⟩) (by simp [step]) as⟩
          | failed fault =>
            exact ⟨[], _, sequel_leaving hm (.inl ⟨_, rfl⟩) (by simp [step, Event.isAccount]) as⟩
        | _ => cases ha
      | sending chunk =>
        cases a with
        | accepted =>
          have hadvance := advance_eq hm chunk
          obtain ⟨chunks, tail, h⟩ := ih (p := handedOn ⟨o, .sending chunk, total, next⟩ chunk) rfl
          simp only [step]
          rw [hadvance]
          exact ⟨chunk :: chunks, tail, h.handed rfl⟩
        | refused =>
          exact ⟨[], _, sequel_leaving hm (.inl ⟨_, rfl⟩) (by simp [step, Event.isAccount]) as⟩
        | _ => cases ha
      | stopping e =>
        exact ⟨[], _, sequel_leaving hm (.inl ⟨e, rfl⟩) (List.forall_mem_nil _) (a :: as)⟩
      | done e => cases ha
    · rw [step_of_not_asks (Bool.eq_false_iff.2 ha)]
      exact ih hm

/-- A relay that is answered as it asks hands on all chunks. -/
theorem run_handing (hp : p.phase = .checking) (hm : p.Marked) (chunks : List α) :
    (p.run (chunks.flatMap fun c => [.consumerPresent, .read (.data c), .accepted])).2 =
      account p.options chunks
        (milestones p.options.progressInterval p.total (chunks.map Piece.size)) := by
  induction chunks generalizing p with
  | nil => rfl
  | cons chunk chunks ih =>
    obtain ⟨o, phase, total, next⟩ := p
    subst hp
    have hadvance := advance_eq (p := ⟨o, .sending chunk, total, next⟩) hm chunk
    have hrest := ih (p := handedOn ⟨o, .sending chunk, total, next⟩ chunk) rfl rfl
    rw [List.flatMap_cons, List.map_cons, milestones, account_cons]
    simp only [List.cons_append, List.nil_append, run_cons, step, hadvance, hrest]
    rfl

/-- **Reports of progress.** The events of any run are those of rounds in which chunks are handed
on, each with the report of the total if it lies in another interval than the total before, and then
events that are neither. In words the relay counts the same, as long as the sums fit. All chunks
occur in a run, and without an interval there is no report. -/
theorem run_milestones (o : RelayOptions) :
    (∀ as : List (Answer α), ∃ (chunks : List α) (tail : List (Event α)),
      ((start o).run as).2 =
        account o chunks (milestones o.progressInterval 0 (chunks.map Piece.size)) ++ tail ∧
      (∀ e ∈ tail, e.isAccount = false) ∧
      ((start o).run as).1.total = Piece.total chunks ∧
      (Piece.total chunks + o.progressInterval < UInt64.size →
        Meter.Runs (.ofNat o.progressInterval) ⟨0, .ofNat o.progressInterval⟩
          (chunks.map fun c => .ofNat (Piece.size c))
          ((milestones o.progressInterval 0 (chunks.map Piece.size)).map (·.map .ofNat))
          ⟨.ofNat ((start o).run as).1.total, .ofNat ((start o).run as).1.nextReport⟩)) ∧
    (∀ chunks : List α, ∃ as, ((start o).run as).2 =
      account o chunks (milestones o.progressInterval 0 (chunks.map Piece.size))) ∧
    (o.progressInterval = 0 → ∀ (as : List (Answer α)) (total : Nat),
      .progress total ∉ ((start o).run as).2) := by
  refine ⟨fun as => ?_, fun chunks => ⟨_, run_handing rfl (marked_start o) chunks⟩, ?_⟩
  · obtain ⟨chunks, tail, h⟩ := sequel_run (marked_start (α := α) o) as
    have htotal : ((start o).run as).1.total = Piece.total chunks :=
      h.total_eq.trans (Nat.zero_add _)
    refine ⟨chunks, tail, h.events_eq, h.plain, htotal, fun hfits => ?_⟩
    have hsums :
        0 + (chunks.map Piece.size).foldr (· + ·) 0 + o.progressInterval < UInt64.size := by
      rwa [Nat.zero_add]
    have hruns := runs_milestones hsums
    have hmark : ((start o).run as).1.nextReport =
        nextMark o.progressInterval ((start o).run as).1.total := by
      rw [h.marked, h.options_eq]
      rfl
    rw [nextMark_zero, Nat.zero_add, List.map_map] at hruns
    rw [hmark, htotal]
    exact hruns
  · intro hzero as total hmem
    obtain ⟨chunks, tail, h⟩ := sequel_run (marked_start (α := α) o) as
    rw [show ((start o).run as).2 = _ from h.events_eq, List.mem_append] at hmem
    rcases hmem with hmem | hmem
    · have hmark := mem_account hmem
      rw [show (start o : Pump α).options.progressInterval = 0 from hzero] at hmark
      exact absurd hmark (milestones_of_no_interval _ _)
    · exact absurd (h.plain _ hmem) Bool.noConfusion

/-- Of five chunks with an interval of four bytes, the third crosses three marks and is reported
once, the fifth reaches one, and the others are not reported. -/
theorem run_milestones_crossing :
    let as : List (Answer (List UInt8)) :=
      [[1, 2, 3], [], List.replicate 11 7, [0], [0]].flatMap
        fun c => [.consumerPresent, .read (.data c), .accepted]
    let p := (start ⟨8, 4⟩).run as
    p.2.filter Event.isAccount = [.send [1, 2, 3] true, .send [] true,
      .send (List.replicate 11 7) true, .progress 14, .send [0] true, .send [0] true,
      .progress 16] ∧
    (∃ (chunks : List (List UInt8)) (tail : List (Event (List UInt8))),
      p.2 = account ⟨8, 4⟩ chunks (milestones 4 0 (chunks.map Piece.size)) ++ tail ∧
      (∀ e ∈ tail, e.isAccount = false) ∧ Piece.total chunks + 4 < UInt64.size ∧
      Meter.Runs 4 ⟨0, 4⟩ (chunks.map fun c => .ofNat (Piece.size c))
        ((milestones 4 0 (chunks.map Piece.size)).map (·.map .ofNat)) ⟨16, 20⟩) ∧
    ∀ total, .progress total ∉ ((start ⟨8, 0⟩).run as).2 := by
  intro as p
  have htotal : p.1.total = 16 := by decide +kernel
  have hnext : p.1.nextReport = 20 := by decide +kernel
  obtain ⟨chunks, tail, hevents, hplain, hsum, hwords⟩ := (run_milestones ⟨8, 4⟩).1 as
  have hfits : Piece.total chunks + 4 < UInt64.size := by
    rw [← hsum, htotal]
    decide
  have hruns := hwords hfits
  rw [htotal, hnext] at hruns
  exact ⟨by decide +kernel, ⟨chunks, tail, hevents, hplain, hfits, hruns⟩,
    (run_milestones ⟨8, 0⟩).2.2 rfl as⟩

end Pump

end ToneRelay.Stream
