import ToneRelay.Generator.Process

/-!
# What a process writes

`act_spec`: the bytes that a process writes at its next action, followed by those that it writes
later, are those that it had to write before. So the output of a process is known from its actions,
and no byte of it depends on when it is written or read; only a signal from outside cuts it short
(`unwritten_receive`).
-/

namespace ToneRelay.Generator

/-- The bytes that a list of actions writes to an output that is open, up to where it ends: the
process exits, closes its output, is killed by itself or does nothing for ever. -/
def speech (term : Disposition) : List Action → List UInt8
  | [] | .hang :: _ | .closeOut :: _ | .exit _ :: _ => []
  | .out bytes :: later => bytes ++ speech term later
  | .onTerm d :: later => speech d later
  | .signal n :: later => if n = sigTerm ∧ term = .ignored then speech term later else []
  | .err _ :: later | .rest _ :: later | .failRead _ :: later | .failWait _ :: later =>
    speech term later

namespace Process

/-- The bytes that a process will write to its output if no one stops it. -/
def unwritten (p : Process) : List UInt8 :=
  if p.exit.isSome ∨ p.outputOpen = false then [] else speech p.term p.todo

/-- The bytes that the next action of a process writes to its output. -/
def emits (p : Process) (now : Nat) : List UInt8 :=
  if p.exit.isSome ∨ now < p.ready ∨ p.outputOpen = false then []
  else match p.todo with
    | .out bytes :: _ => p.output.accepted bytes
    | _ => []

theorem unwritten_of_closed {p : Process} (h : p.outputOpen = false) : p.unwritten = [] :=
  if_pos (.inr h)

theorem emits_of_closed {p : Process} (h : p.outputOpen = false) (now : Nat) : p.emits now = [] :=
  if_pos (.inr (.inr h))

theorem unwritten_finish (p : Process) (s : Status) : (p.finish s).unwritten = [] :=
  unwritten_of_closed rfl

theorem unwritten_of_open {p : Process} (hx : p.exit.isSome = false) (ho : p.outputOpen = true) :
    p.unwritten = speech p.term p.todo := by
  unfold unwritten
  rw [if_neg]
  simp [hx, ho]

theorem unwritten_todo {p : Process} (hx : p.exit.isSome = false) (ho : p.outputOpen = true)
    (later : List Action) : { p with todo := later }.unwritten = speech p.term later :=
  unwritten_of_open (p := { p with todo := later }) hx ho

theorem emits_of_open {p : Process} {now : Nat} (hx : p.exit.isSome = false)
    (hr : ¬ now < p.ready) (ho : p.outputOpen = true) :
    p.emits now = match p.todo with
      | .out bytes :: _ => p.output.accepted bytes
      | _ => [] := by
  unfold emits
  rw [if_neg]
  simp [hx, hr, ho]

/-! ## Actions -/

/-- A write puts into the pipe what there is room for and leaves the rest to be written. -/
theorem write_spec {p q : Process} {bytes : List UInt8} {later : List Action}
    (hx : p.exit.isSome = false) (ho : p.outputOpen = true) (h : p.write bytes later = some q) :
    q.output.bytes = p.output.bytes ++ p.output.accepted bytes ∧
      p.output.accepted bytes ++ q.unwritten = bytes ++ speech p.term later := by
  unfold write at h
  split at h
  · next hb =>
    obtain rfl : bytes = [] := by simpa [ho] using hb
    obtain rfl := Option.some.inj h
    have hacc : p.output.accepted [] = [] := by simp [Pipe.accepted]
    rw [unwritten_todo hx ho, hacc, List.append_nil]
    exact ⟨rfl, rfl⟩
  · split at h
    · cases h
    · obtain rfl := Option.some.inj h
      have hrest := unwritten_todo (p := { p with output := p.output.write bytes }) hx ho
      refine ⟨rfl, ?_⟩
      rw [hrest]
      have hleft : speech p.term (if p.output.rejected bytes = [] then later
          else .out (p.output.rejected bytes) :: later) =
            p.output.rejected bytes ++ speech p.term later := by
        split
        · next hr => rw [hr, List.nil_append]
        · rfl
      rw [hleft, ← List.append_assoc, Pipe.accepted_append_rejected]

theorem receive_spec (p : Process) (n : Nat) :
    (p.receive n).output = p.output ∧
      ((p.receive n).outputOpen = true → p.outputOpen = true) := by
  unfold receive
  split
  · exact ⟨rfl, id⟩
  · split
    · cases p.term with
      | dies => exact ⟨rfl, fun h => nomatch h⟩
      | ignored => exact ⟨rfl, id⟩
      | exits code => exact ⟨rfl, fun h => nomatch h⟩
    · exact ⟨rfl, fun h => nomatch h⟩

/-- An output that is closed is not written to and stays closed. -/
theorem act_of_closed {p q : Process} {now : Nat} (ho : p.outputOpen = false)
    (h : p.act now = some q) : q.output = p.output ∧ q.outputOpen = false := by
  unfold act at h
  split at h
  · cases h
  · split at h
    case h_2 =>
      unfold write at h
      rw [if_pos (.inr (by rw [ho]; rfl))] at h
      obtain rfl := Option.some.inj h
      exact ⟨rfl, ho⟩
    case h_9 =>
      obtain rfl := Option.some.inj h
      obtain ⟨hout, hopen⟩ := receive_spec { p with todo := _ } _
      refine ⟨hout, Bool.eq_false_iff.2 ?_⟩
      intro hq
      exact absurd (hopen hq) (by rw [ho]; decide)
    case h_5 => cases h
    all_goals
      obtain rfl := Option.some.inj h
      first | exact ⟨rfl, ho⟩ | exact ⟨rfl, rfl⟩

/-- A process that signals itself goes on only if it ignores the signal. -/
theorem unwritten_receive_self {p : Process} (hx : p.exit.isSome = false) (ho : p.outputOpen = true)
    (n : Nat) (later : List Action) :
    ({ p with todo := later }.receive n).unwritten =
      if n = sigTerm ∧ p.term = .ignored then speech p.term later else [] := by
  unfold receive
  rw [if_neg (by simp [hx])]
  by_cases hn : n = sigTerm
  · rw [if_pos hn]
    cases ht : p.term with
    | dies =>
      rw [if_neg (by simp)]
      exact unwritten_finish _ _
    | ignored =>
      have hrest := unwritten_todo hx ho later
      rw [ht] at hrest
      rw [if_pos ⟨hn, rfl⟩]
      exact hrest
    | exits code =>
      rw [if_neg (by simp)]
      exact unwritten_finish _ _
  · rw [if_neg hn, if_neg (fun h => hn h.1)]
    exact unwritten_finish _ _

/-- **What is written.** An action writes the first of the bytes that were to be written. -/
theorem act_spec {p q : Process} {now : Nat} (h : p.act now = some q) :
    q.output.bytes = p.output.bytes ++ p.emits now ∧
      p.emits now ++ q.unwritten = p.unwritten := by
  by_cases ho : p.outputOpen = true
  · unfold act at h
    split at h
    · cases h
    next hgo =>
    simp only [not_or, Bool.not_eq_true] at hgo
    obtain ⟨hx, hr⟩ := hgo
    rw [emits_of_open hx hr ho, unwritten_of_open hx ho]
    cases htodo : p.todo with
    | nil =>
      rw [htodo] at h
      obtain rfl := Option.some.inj h
      rw [unwritten_finish]
      exact ⟨(List.append_nil _).symm, rfl⟩
    | cons a later =>
      rw [htodo] at h
      cases a with
      | out bytes => exact write_spec hx ho h
      | hang => cases h
      | closeOut =>
        obtain rfl := Option.some.inj h
        exact ⟨(List.append_nil _).symm, unwritten_of_closed rfl⟩
      | exit code =>
        obtain rfl := Option.some.inj h
        exact ⟨(List.append_nil _).symm, unwritten_finish p (.code code)⟩
      | signal n =>
        obtain rfl := Option.some.inj h
        refine ⟨?_, unwritten_receive_self hx ho n later⟩
        rw [(receive_spec _ n).1, List.append_nil]
      | _ =>
        obtain rfl := Option.some.inj h
        exact ⟨(List.append_nil _).symm, unwritten_of_open hx ho⟩
  · have ho := Bool.eq_false_iff.2 ho
    obtain ⟨hout, hq⟩ := act_of_closed ho h
    rw [emits_of_closed ho, unwritten_of_closed ho, unwritten_of_closed hq, hout, List.append_nil]
    exact ⟨rfl, rfl⟩

/-- An action that cannot be performed writes nothing. -/
theorem emits_of_stuck {p : Process} {now : Nat} (h : p.act now = none) : p.emits now = [] := by
  unfold emits
  split
  · rfl
  next hgo =>
  simp only [not_or, Bool.not_eq_true, Bool.not_eq_false] at hgo
  obtain ⟨hx, hr, ho⟩ := hgo
  unfold act at h
  rw [if_neg (by simp [hx, hr])] at h
  cases htodo : p.todo with
  | nil => rfl
  | cons a later =>
    rw [htodo] at h
    cases a with
    | out bytes =>
      by_cases hacc : p.output.accepted bytes = []
      · exact hacc
      · simp only [write, hacc, if_false] at h
        split at h <;> cases h
    | _ => rfl

/-- A process that has ended has closed its output. -/
def Shut (p : Process) : Prop := p.exit.isSome → p.outputOpen = false

theorem shut_finish (p : Process) (s : Status) : (p.finish s).Shut := fun _ => rfl

theorem shut_receive {p : Process} (h : p.Shut) (n : Nat) : (p.receive n).Shut := by
  unfold receive
  split
  · exact h
  · split
    · cases p.term with
      | dies => exact p.shut_finish _
      | ignored => exact h
      | exits code => exact p.shut_finish _
    · exact p.shut_finish _

theorem exit_write {p q : Process} {bytes : List UInt8} {later : List Action}
    (h : p.write bytes later = some q) : q.exit = p.exit := by
  unfold write at h
  split at h
  · obtain rfl := Option.some.inj h
    rfl
  · split at h
    · cases h
    · obtain rfl := Option.some.inj h
      rfl

theorem shut_act {p q : Process} {now : Nat} (h : p.Shut) (ha : p.act now = some q) : q.Shut := by
  unfold act at ha
  split at ha
  · cases ha
  cases htodo : p.todo with
  | nil =>
    rw [htodo] at ha
    obtain rfl := Option.some.inj ha
    exact p.shut_finish _
  | cons a later =>
    rw [htodo] at ha
    cases a with
    | out bytes =>
      intro hexit
      rw [exit_write ha] at hexit
      next hgo => exact absurd (.inl hexit) hgo
    | hang => cases ha
    | closeOut =>
      obtain rfl := Option.some.inj ha
      exact fun _ => rfl
    | exit code =>
      obtain rfl := Option.some.inj ha
      exact p.shut_finish _
    | signal n =>
      obtain rfl := Option.some.inj ha
      exact shut_receive (p := { p with todo := later }) h n
    | _ =>
      obtain rfl := Option.some.inj ha
      exact h

/-! ## What the owner does -/

/-- A signal from outside leaves what is in the pipe and may cut short what was to come. -/
theorem unwritten_receive (p : Process) (n : Nat) : (p.receive n).unwritten <+: p.unwritten := by
  have hfinish : ∀ s, (p.finish s).unwritten <+: p.unwritten := by
    intro s
    rw [unwritten_finish]
    exact List.nil_prefix
  unfold receive
  split
  · exact List.prefix_refl _
  · split
    · cases p.term with
      | dies => exact hfinish _
      | ignored => exact List.prefix_refl _
      | exits code => exact hfinish _
    · exact hfinish _

/-- A process has been given nothing more to write, and does not write again once it has closed its
output. -/
structure Curbed (p q : Process) : Prop where
  unwritten : q.unwritten <+: p.unwritten
  closed : p.outputOpen = false → q.outputOpen = false

theorem Curbed.refl (p : Process) : p.Curbed p := ⟨List.prefix_refl _, id⟩

theorem Curbed.trans {p q r : Process} (hpq : p.Curbed q) (hqr : q.Curbed r) : p.Curbed r :=
  ⟨hqr.unwritten.trans hpq.unwritten, hqr.closed ∘ hpq.closed⟩

theorem curbed_receive (p : Process) (n : Nat) : p.Curbed (p.receive n) := by
  constructor
  · exact p.unwritten_receive n
  · intro h
    apply Bool.eq_false_iff.2
    intro ho
    exact absurd ((p.receive_spec n).2 ho) (Bool.eq_false_iff.1 h)

/-- A read takes from the pipe and changes nothing of the process. -/
theorem read_spec (p : Process) (max : Nat) :
    (p.read max).2.unwritten = p.unwritten ∧ (p.read max).2.exit = p.exit ∧
      (p.read max).2.outputOpen = p.outputOpen := by
  unfold read
  split
  · exact ⟨rfl, rfl, rfl⟩
  · split <;> exact ⟨rfl, rfl, rfl⟩

theorem shut_read {p : Process} (h : p.Shut) (max : Nat) : (p.read max).2.Shut := by
  obtain ⟨-, hexit, hopen⟩ := p.read_spec max
  unfold Shut
  rw [hexit, hopen]
  exact h

/-- A chunk that was read has a byte at least. -/
theorem read_ne_nil {p : Process} {max : Nat} {chunk : List UInt8} (hmax : 0 < max)
    (h : (p.read max).1 = .bytes chunk) : chunk ≠ [] := by
  unfold read at h
  split at h
  · next hb =>
    obtain rfl := Taken.bytes.inj h
    rw [Ne, List.take_eq_nil_iff, not_or]
    exact ⟨Nat.ne_of_gt hmax, hb⟩
  · split at h
    · cases h
    · split at h <;> cases h

/-- The end of the output shows when the pipe is empty and nothing more can be written. -/
theorem read_closed {p : Process} {max : Nat} (h : (p.read max).1 = .closed) :
    p.output.bytes = [] ∧ p.outputOpen = false := by
  unfold read at h
  split at h
  · cases h
  · next he =>
    refine ⟨Decidable.not_not.1 he, ?_⟩
    split at h
    · cases h
    · split at h
      · cases h
      · next ho => exact Bool.eq_false_iff.2 ho

/-- A read waits only as long as something can be written. -/
theorem outputOpen_of_read {p : Process} {max : Nat} (h : (p.read max).1 = .nothing) :
    p.outputOpen = true := by
  unfold read at h
  split at h
  · cases h
  · split at h
    · cases h
    · split at h
      · next ho => exact ho
      · cases h

theorem output_read_failed {p : Process} {max : Nat} {reason : String}
    (h : (p.read max).1 = .failed reason) : (p.read max).2.output = p.output := by
  unfold read at h ⊢
  split
  · next hb => rw [if_pos hb] at h; cases h
  · split <;> rfl

/-- Waiting for the end of a process changes nothing of its output. -/
theorem wait_spec (p : Process) :
    p.wait.2.output = p.output ∧ p.wait.2.unwritten = p.unwritten ∧
      p.wait.2.outputOpen = p.outputOpen ∧ p.wait.2.exit = p.exit := by
  unfold wait
  split
  · exact ⟨rfl, rfl, rfl, rfl⟩
  · split <;> exact ⟨rfl, rfl, rfl, rfl⟩

/-- Waiting for a process that has ended has an answer. -/
theorem wait_of_exit {p : Process} (h : p.exit.isSome) : p.wait.1 ≠ .nothing := by
  unfold wait
  split
  · nofun
  · split
    · nofun
    · next hx => rw [hx] at h; cases h

theorem curbed_wait (p : Process) : p.Curbed p.wait.2 := by
  obtain ⟨-, hun, hopen, -⟩ := p.wait_spec
  exact ⟨⟨[], (List.append_nil _).trans hun⟩, hopen.trans⟩

end Process

end ToneRelay.Generator
