import ToneRelay.Stream.Relay

/-!
# The dialogue of a relay

`run_done`: whatever a source and a consumer answer, a relay that has ended has gone through a
number of rounds, in each of which a chunk was read and accepted, and then through one of five
exits. It stops the source once unless the output has ended, and its total counts the chunks of the
rounds.

1. The `dialogue` of a relay pairs each answer that was asked for with the calls it led to.
2. `Stands` says what the dialogue is in each phase. One step preserves it (`told_step`), hence a
   run (`told_run`).
-/

namespace ToneRelay.Stream

open Generator (Fault)

variable {α : Type}

/-! ## Calls and answers -/

/-- The events that are calls on the source or the consumer, and not lines of the log. -/
def Event.isCall : Event α → Bool
  | .read _ | .send _ _ | .terminate => true
  | .progress _ | .stopFailed _ _ => false

/-- An answer, and the calls that it led to. -/
abbrev Turn (α : Type) := Answer α × List (Event α)

/-- The turns of a round in which a chunk is handed on. -/
def round (o : RelayOptions) (chunk : α) : List (Turn α) :=
  [(.consumerPresent, [.read (max o.chunkSize 1)]), (.read (.data chunk), []),
    (.accepted, [.send chunk true])]

/-- The ways in which a relay leaves its last round. -/
inductive Exit (α : Type)
  | eof
  /-- The consumer had gone before the round started. -/
  | goneBefore
  /-- The consumer went while a read was under way. -/
  | goneDuring
  | refused (chunk : α)
  | failed (fault : Fault)

namespace Exit

/-- The turns of the last round, up to the call that stops the source. -/
def turns (o : RelayOptions) : Exit α → List (Turn α)
  | .eof => [(.consumerPresent, [.read (max o.chunkSize 1)]), (.read .eof, [])]
  | .goneBefore => [(.consumerGone, [.terminate])]
  | .goneDuring =>
    [(.consumerPresent, [.read (max o.chunkSize 1)]), (.consumerGone, [.terminate])]
  | .refused chunk =>
    [(.consumerPresent, [.read (max o.chunkSize 1)]), (.read (.data chunk), []),
      (.refused, [.send chunk false, .terminate])]
  | .failed fault =>
    [(.consumerPresent, [.read (max o.chunkSize 1)]), (.read (.failed fault), [.terminate])]

/-- The answer to the call that stops the source, where there is one. -/
def stopped (stop : Option Fault) : Exit α → List (Turn α)
  | .eof => []
  | _ => [(.stopped stop, [])]

/-- The calls of the last round. -/
def calls (o : RelayOptions) : Exit α → List (Event α)
  | .eof => [.read (max o.chunkSize 1)]
  | .goneBefore => [.terminate]
  | .goneDuring => [.read (max o.chunkSize 1), .terminate]
  | .refused chunk => [.read (max o.chunkSize 1), .send chunk false, .terminate]
  | .failed _ => [.read (max o.chunkSize 1), .terminate]

/-- How the relay has ended, with the bytes that were accepted before. -/
def ending (total : Nat) : Exit α → Ending
  | .eof => .finished total
  | .goneBefore | .goneDuring | .refused _ => .consumerGone total
  | .failed fault => .sourceFailed total fault

theorem flatMap_turns (o : RelayOptions) (e : Exit α) :
    (e.turns o).flatMap (·.2) = e.calls o := by
  cases e <;> rfl

theorem flatMap_stopped (stop : Option Fault) (e : Exit α) :
    (e.stopped stop).flatMap (·.2) = [] := by
  cases e <;> rfl

end Exit

/-- The bytes of chunks. -/
def Piece.total [Piece α] (chunks : List α) : Nat := (chunks.map size).foldr (· + ·) 0

theorem Piece.total_concat [Piece α] (chunks : List α) (chunk : α) :
    total (chunks ++ [chunk]) = total chunks + size chunk := by
  unfold total
  induction chunks with
  | nil => simp
  | cons c cs ih =>
    simp only [List.cons_append, List.map_cons, List.foldr_cons, ih]
    omega

namespace Pump

/-- Whether an answer is one to what the relay waits for. -/
def asks (p : Pump α) (a : Answer α) : Bool :=
  match p.phase, a with
  | .checking, .consumerPresent | .checking, .consumerGone => true
  | .reading, .consumerGone | .reading, .read _ => true
  | .sending _, .accepted | .sending _, .refused => true
  | .stopping _, .stopped _ => true
  | _, _ => false

variable [Piece α]

/-- The answers that were asked for, each with the calls it led to. -/
def dialogue (p : Pump α) : List (Answer α) → List (Turn α)
  | [] => []
  | a :: as =>
    let turn := if p.asks a then [(a, (p.step a).2.filter Event.isCall)] else []
    turn ++ (p.step a).1.dialogue as

theorem step_of_not_asks {p : Pump α} {a : Answer α} (h : p.asks a = false) :
    p.step a = (p, []) := by
  unfold asks at h
  unfold step
  split <;> simp_all

/-- An accepted chunk is counted and starts a round; reports are no calls. -/
theorem advance_spec (p : Pump α) (chunk : α) :
    (p.advance chunk).1.phase = .checking ∧ (p.advance chunk).1.options = p.options ∧
      (p.advance chunk).1.total = p.total + Piece.size chunk ∧
        (p.advance chunk).2.filter Event.isCall = [] := by
  unfold advance
  dsimp only
  split <;> exact ⟨rfl, rfl, rfl, rfl⟩

theorem filter_step_accepted {p : Pump α} {chunk : α} (hp : p.phase = .sending chunk) :
    (p.step .accepted).2.filter Event.isCall = [.send chunk true] := by
  simp only [step, hp]
  rw [List.filter_cons_of_pos rfl, (p.advance_spec chunk).2.2.2]

@[simp] theorem options_step (p : Pump α) (a : Answer α) : (p.step a).1.options = p.options := by
  unfold step
  split
  case h_7 => exact (p.advance_spec _).2.1
  all_goals rfl

@[simp] theorem options_run (p : Pump α) (as : List (Answer α)) :
    (p.run as).1.options = p.options := by
  induction as generalizing p with
  | nil => rfl
  | cons a as ih => simp [ih]

/-- The calls of a run are those of its dialogue. -/
theorem filter_run (p : Pump α) (as : List (Answer α)) :
    (p.run as).2.filter Event.isCall = (p.dialogue as).flatMap (·.2) := by
  induction as generalizing p with
  | nil => rfl
  | cons a as ih =>
    rw [run_cons, List.filter_append, ih, dialogue]
    by_cases h : p.asks a = true
    · rw [if_pos h, List.flatMap_append, List.flatMap_singleton]
    · rw [if_neg h, step_of_not_asks (Bool.eq_false_iff.2 h)]
      rfl

/-! ## What the dialogue is in each phase -/

/-- The dialogue of a relay that has handed on `chunks` and is now in a phase. -/
def Stands (o : RelayOptions) (chunks : List α) (d : List (Turn α)) : Phase α → Prop
  | .checking => d = chunks.flatMap (round o)
  | .reading =>
    d = chunks.flatMap (round o) ++ [(.consumerPresent, [.read (max o.chunkSize 1)])]
  | .sending chunk =>
    d = chunks.flatMap (round o) ++
      [(.consumerPresent, [.read (max o.chunkSize 1)]), (.read (.data chunk), [])]
  | .stopping e => ∃ exit : Exit α, e = exit.ending (Piece.total chunks) ∧
      (∀ stop, exit.stopped stop = [(.stopped stop, [])]) ∧
        d = chunks.flatMap (round o) ++ exit.turns o
  | .done e => ∃ (exit : Exit α) (stop : Option Fault), e = exit.ending (Piece.total chunks) ∧
      d = chunks.flatMap (round o) ++ exit.turns o ++ exit.stopped stop

/-- The dialogue so far, whose chunks make up the total. -/
def Told (p : Pump α) (d : List (Turn α)) : Prop :=
  ∃ chunks, p.total = Piece.total chunks ∧ Stands p.options chunks d p.phase

theorem told_start (o : RelayOptions) : (start o : Pump α).Told [] := ⟨[], rfl, rfl⟩

/-- An accepted chunk makes a round. -/
theorem told_advance {p : Pump α} {d : List (Turn α)} {chunks : List α} {chunk : α}
    (ht : p.total = Piece.total chunks)
    (hd : d = chunks.flatMap (round p.options) ++
      [(.consumerPresent, [.read (max p.options.chunkSize 1)]), (.read (.data chunk), [])]) :
    (p.advance chunk).1.Told (d ++ [(.accepted, [.send chunk true])]) := by
  have hround : d ++ [(.accepted, [.send chunk true])] =
      (chunks ++ [chunk]).flatMap (round p.options) := by
    rw [hd, List.flatMap_append, List.flatMap_singleton, List.append_assoc]
    rfl
  obtain ⟨hphase, ho, htotal, -⟩ := p.advance_spec chunk
  refine ⟨chunks ++ [chunk], by rw [htotal, ht, Piece.total_concat], ?_⟩
  rw [hphase, ho]
  exact hround

/-- The relay stops the source and has left its last round. -/
theorem told_stop {p : Pump α} {d turns : List (Turn α)} {chunks : List α} (exit : Exit α)
    (ht : p.total = Piece.total chunks) (hexit : ∀ stop, exit.stopped stop = [(.stopped stop, [])])
    (hd : d ++ turns = chunks.flatMap (round p.options) ++ exit.turns p.options) :
    (p.stop (exit.ending p.total)).Told (d ++ turns) :=
  ⟨chunks, ht, exit, by rw [ht], hexit, hd⟩

/-- One answer that was asked for adds one turn. -/
theorem told_step {p : Pump α} {d : List (Turn α)} {a : Answer α} (h : p.Told d)
    (ha : p.asks a = true) :
    (p.step a).1.Told (d ++ [(a, (p.step a).2.filter Event.isCall)]) := by
  obtain ⟨chunks, ht, hs⟩ := h
  cases hp : p.phase with
  | checking =>
    rw [hp] at hs
    cases a with
    | consumerPresent =>
      simp only [step, hp]
      exact ⟨chunks, ht, by rw [hs]; rfl⟩
    | consumerGone =>
      simp only [step, hp]
      exact told_stop .goneBefore ht (fun _ => rfl) (by rw [hs]; rfl)
    | _ => simp [asks, hp] at ha
  | reading =>
    rw [hp] at hs
    cases a with
    | consumerGone =>
      simp only [step, hp]
      exact told_stop .goneDuring ht (fun _ => rfl) (by rw [hs, List.append_assoc]; rfl)
    | read result =>
      cases result with
      | data chunk =>
        simp only [step, hp]
        exact ⟨chunks, ht, by rw [hs, List.append_assoc]; rfl⟩
      | eof =>
        simp only [step, hp]
        refine ⟨chunks, ht, .eof, none, by rw [ht]; rfl, ?_⟩
        rw [hs, List.append_assoc, List.append_assoc]
        rfl
      | failed fault =>
        simp only [step, hp]
        exact told_stop (.failed fault) ht (fun _ => rfl) (by rw [hs, List.append_assoc]; rfl)
    | _ => simp [asks, hp] at ha
  | sending chunk =>
    rw [hp] at hs
    cases a with
    | accepted =>
      rw [filter_step_accepted hp]
      simp only [step, hp]
      exact told_advance ht hs
    | refused =>
      simp only [step, hp]
      exact told_stop (.refused chunk) ht (fun _ => rfl) (by rw [hs, List.append_assoc]; rfl)
    | _ => simp [asks, hp] at ha
  | stopping e =>
    rw [hp] at hs
    obtain ⟨exit, he, hexit, hd⟩ := hs
    cases a with
    | stopped fault =>
      cases fault <;> simp only [step, hp]
      all_goals exact ⟨chunks, ht, exit, _, he, by rw [hd, hexit]; rfl⟩
    | _ => simp [asks, hp] at ha
  | done e => simp [asks, hp] at ha

theorem told_run {p : Pump α} {d : List (Turn α)} (h : p.Told d) (as : List (Answer α)) :
    (p.run as).1.Told (d ++ p.dialogue as) := by
  induction as generalizing p d with
  | nil => simpa [dialogue] using h
  | cons a as ih =>
    rw [run_cons, dialogue]
    by_cases ha : p.asks a = true
    · rw [if_pos ha, ← List.append_assoc]
      exact ih (told_step h ha)
    · rw [if_neg ha, step_of_not_asks (Bool.eq_false_iff.2 ha), List.nil_append]
      exact ih h

/-! ## Every such dialogue occurs -/

@[simp] theorem dialogue_append (p : Pump α) (as bs : List (Answer α)) :
    p.dialogue (as ++ bs) = p.dialogue as ++ (p.run as).1.dialogue bs := by
  induction as generalizing p with
  | nil => rfl
  | cons a as ih => simp [dialogue, ih]

theorem run_round {p : Pump α} (hp : p.phase = .checking) (chunk : α) :
    ∃ q : Pump α, (p.run ((round p.options chunk).map (·.1))).1 = q ∧ q.phase = .checking ∧
      q.options = p.options ∧ q.total = p.total + Piece.size chunk ∧
        p.dialogue ((round p.options chunk).map (·.1)) = round p.options chunk := by
  obtain ⟨o, phase, total, next⟩ := p
  subst hp
  obtain ⟨hphase, ho, ht, -⟩ := advance_spec ⟨o, .sending chunk, total, next⟩ chunk
  refine ⟨_, rfl, hphase, ho, ht, ?_⟩
  show [_, (_, []), (_, ((step ⟨o, .sending chunk, total, next⟩ .accepted).2).filter _)] = _
  rw [filter_step_accepted rfl]
  rfl

theorem run_exit {p : Pump α} (hp : p.phase = .checking) (exit : Exit α) (stop : Option Fault) :
    (p.run ((exit.turns p.options ++ exit.stopped stop).map (·.1))).1.phase =
        .done (exit.ending p.total) ∧
      p.dialogue ((exit.turns p.options ++ exit.stopped stop).map (·.1)) =
        exit.turns p.options ++ exit.stopped stop := by
  obtain ⟨o, phase, total, next⟩ := p
  subst hp
  cases exit <;> cases stop <;> exact ⟨rfl, rfl⟩

theorem run_rounds {p : Pump α} (hp : p.phase = .checking) (chunks : List α) (exit : Exit α)
    (stop : Option Fault) :
    ∃ as, (p.run as).1.phase = .done (exit.ending (p.total + Piece.total chunks)) ∧
      p.dialogue as =
        chunks.flatMap (round p.options) ++ exit.turns p.options ++ exit.stopped stop := by
  induction chunks generalizing p with
  | nil =>
    obtain ⟨hrun, hd⟩ := run_exit hp exit stop
    exact ⟨_, hrun, hd⟩
  | cons chunk chunks ih =>
    obtain ⟨q, hq, hphase, ho, ht, hd⟩ := run_round hp chunk
    obtain ⟨as, hrun, hdas⟩ := ih hphase
    refine ⟨(round p.options chunk).map (·.1) ++ as, ?_, ?_⟩
    · rw [run_append, hq, hrun, ht, Nat.add_assoc]
      rfl
    · rw [dialogue_append, hd, hq, hdas, ho, List.flatMap_cons, List.append_assoc,
        List.append_assoc, List.append_assoc]

/-- **The protocol of a relay.** A relay that has ended has gone through rounds and one exit, its
calls are those of the rounds and of the exit, and its ending tells the bytes of the rounds. Every
number of rounds with every exit occurs. -/
theorem run_done (o : RelayOptions) :
    (∀ (as : List (Answer α)) (e : Ending), ((start o).run as).1.phase = .done e →
      ∃ (chunks : List α) (exit : Exit α) (stop : Option Fault),
        (start o).dialogue as =
          chunks.flatMap (round o) ++ exit.turns o ++ exit.stopped stop ∧
        ((start o).run as).2.filter Event.isCall =
          chunks.flatMap (fun c => [.read (max o.chunkSize 1), .send c true]) ++ exit.calls o ∧
        e = exit.ending (Piece.total chunks)) ∧
    ∀ (chunks : List α) (exit : Exit α) (stop : Option Fault), ∃ as,
      ((start o).run as).1.phase = .done (exit.ending (Piece.total chunks)) ∧
      (start o).dialogue as =
        chunks.flatMap (round o) ++ exit.turns o ++ exit.stopped stop := by
  constructor
  · intro as e h
    obtain ⟨chunks, -, hs⟩ := told_run (told_start (α := α) o) as
    rw [h, List.nil_append] at hs
    obtain ⟨exit, stop, he, hd⟩ := hs
    rw [options_run] at hd
    refine ⟨chunks, exit, stop, hd, ?_, he⟩
    rw [filter_run, hd, List.flatMap_append, List.flatMap_append, exit.flatMap_turns,
      exit.flatMap_stopped, List.append_nil, List.flatMap_assoc]
    rfl
  · intro chunks exit stop
    obtain ⟨as, hrun, hd⟩ := run_rounds (p := start o) rfl chunks exit stop
    refine ⟨as, ?_, hd⟩
    rw [hrun, total_start, Nat.zero_add]

/-- The consumer goes away while the relay waits for its second chunk, and the source cannot be
stopped. -/
theorem run_done_disconnect :
    ((start ⟨0, 0⟩ : Pump (List UInt8)).run
        [.consumerPresent, .read (.data [7]), .accepted, .consumerPresent, .consumerGone,
          .stopped (some .stillRunning)]).1.phase = .done (.consumerGone 1) ∧
      ∃ (chunks : List (List UInt8)) (exit : Exit (List UInt8)) (stop : Option Fault),
        (start ⟨0, 0⟩).dialogue
            [.consumerPresent, .read (.data [7]), .accepted, .consumerPresent, .consumerGone,
              .stopped (some .stillRunning)] =
          chunks.flatMap (round ⟨0, 0⟩) ++ exit.turns ⟨0, 0⟩ ++ exit.stopped stop ∧
        ((start ⟨0, 0⟩).run
            [.consumerPresent, .read (.data [7]), .accepted, .consumerPresent, .consumerGone,
              .stopped (some .stillRunning)]).2.filter Event.isCall =
          chunks.flatMap (fun c => [.read (max 0 1), .send c true]) ++ exit.calls ⟨0, 0⟩ ∧
        Ending.consumerGone 1 = exit.ending (Piece.total chunks) :=
  ⟨rfl, (run_done ⟨0, 0⟩).1 _ _ rfl⟩

end Pump

end ToneRelay.Stream
