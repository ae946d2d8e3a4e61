import ToneRelay.Proofs.Service.Availability
import ToneRelay.Proofs.Service.Replay

/-!
# Independence of streams

Streams that run at the same time share the counters and the history, but nothing of these comes
back to a stream. `streams_indistinct`: in two runs of the service in which a stream has the same
query, the same generator and the same dealings with its listener, it is answered and reported
alike, whatever else is asked for and in whatever order all of it happens.

1. A stream has run on its own since it arrived (`run_of_absent`), and its own run is told by its
   story (`run_alike`).
2. What can be seen of a stream is seen without names and clocks, too (`response?_anonymous`,
   `transfer?_anonymous`).
3. The report that is found under a name which one exchange has alone is the one that this exchange
   has recorded (`recorded_of_find`).
-/

namespace ToneRelay.Service

open Generator (Launcher)
open ToneRelay.Stream (Report Transfer)

/-! ## What can be seen of a stream -/

namespace Response

/-- The headers that tell names drawn at random. -/
def tellsName (header : String) : Bool := header = "x-stream-id" || header = "x-request-id"

/-- A header without such a name. -/
def unnamed (h : String × String) : String × String := if tellsName h.1 then (h.1, "") else h

/-- A response without these names. -/
def anonymous (r : Response) : Response := { r with headers := r.headers.map unnamed }

theorem anonymous_adding (r : Response) (headers : List (String × String)) :
    (r.adding headers).anonymous = r.anonymous.adding (headers.map unnamed) := by
  unfold anonymous adding
  rw [List.map_append]

/-- A stream is not told by its name. -/
theorem anonymous_audio (id id' : Text.Uuid) : (audio id).anonymous = (audio id').anonymous := rfl

/-- An answer is not told by the name of its request. -/
theorem anonymous_common {r s : Response} (h : r.anonymous = s.anonymous) (o : Origins)
    (origin : Option String) (a b : Text.Uuid) :
    (r.adding (common o origin a)).anonymous = (s.adding (common o origin b)).anonymous := by
  rw [anonymous_adding, anonymous_adding, h]
  unfold common
  rw [List.map_append, List.map_append]
  rfl

end Response

theorem reports_anonymous (es : List Effect) :
    reports (es.map Effect.anonymous) = (reports es).map Report.anonymous := by
  induction es with
  | nil => rfl
  | cons e es ih =>
    have hone : reports [e.anonymous] = (reports [e]).map Report.anonymous := by
      cases e <;> rfl
    rw [List.map_cons, ← List.singleton_append, reports_append, ih, hone, ← List.map_append,
      ← reports_append]
    rfl

namespace Exchange

variable {l : Launcher} {x y : Exchange}

theorem transfer?_anonymous (l : Launcher) (x : Exchange) :
    (x.anonymous l).transfer? = x.transfer?.map Transfer.timeless := by
  obtain ⟨settings, launcher, query, id, phase⟩ := x
  cases phase <;> rfl

theorem response?_anonymous (l : Launcher) (x : Exchange) :
    (x.anonymous l).response?.map Response.anonymous = x.response?.map Response.anonymous := by
  have haudio := congrArg some (Response.anonymous_audio (.ofNat 0) x.id)
  obtain ⟨settings, launcher, query, id, phase⟩ := x
  cases phase with
  | settling us s t => exact haudio
  | relaying s t | closing s t | recording s t | ending s t | «over» s t => exact haudio
  | _ => rfl

theorem recorded?_anonymous (l : Launcher) (x : Exchange) :
    (x.anonymous l).recorded? = x.recorded?.map Report.anonymous := by
  obtain ⟨settings, launcher, query, id, phase⟩ := x
  cases phase <;> rfl

/-- What the listener sees of a transfer has nothing to do with clocks. -/
theorem seen_of_anonymous {α : Type} {f : Transfer → α} (hf : ∀ t : Transfer, f t.timeless = f t)
    (h : x.anonymous l = y.anonymous l) : x.transfer?.map f = y.transfer?.map f := by
  have htimeless : f ∘ Transfer.timeless = f := funext hf
  have hsame := congrArg (fun z : Exchange => z.transfer?.map f) h
  rwa [transfer?_anonymous, transfer?_anonymous, Option.map_map, Option.map_map, htimeless]
    at hsame

/-- How the request is answered has nothing to do with names and clocks. -/
theorem answered_of_anonymous (h : x.anonymous l = y.anonymous l) (o : Origins)
    (origin : Option String) (a b : Text.Uuid) :
    x.response?.map (fun r => (r.adding (Response.common o origin a)).anonymous) =
      y.response?.map fun r => (r.adding (Response.common o origin b)).anonymous := by
  have hsame := congrArg (fun z : Exchange => z.response?.map Response.anonymous) h
  rw [response?_anonymous, response?_anonymous] at hsame
  cases hx : x.response? with
  | none =>
    cases hy : y.response? with
    | none => rfl
    | some s =>
      rw [hx, hy] at hsame
      cases hsame
  | some r =>
    cases hy : y.response? with
    | none =>
      rw [hx, hy] at hsame
      cases hsame
    | some s =>
      rw [hx, hy] at hsame
      exact congrArg some (Response.anonymous_common (Option.some.inj hsame) o origin a b)

end Exchange

namespace Traffic

variable {n : Nat} {ms ns : List Move} {i j : Nat} {x y : Exchange}

/-- An exchange goes on with the same query. -/
theorem exists_run_part {t : Traffic} (hi : t.exchanges[i]? = some x) (ms : List Move) :
    ∃ p, (t.run ms).exchanges[i]? = some { x with phase := p } := by
  obtain ⟨p, hp⟩ := x.run_eq (t.movesIn i ms)
  exact ⟨p, hp ▸ (run_part hi ms).1⟩

/-! ## What is found of a stream -/

/-- No other exchange goes by the name of this one. -/
def Alone (t : Traffic) (x : Exchange) : Prop := (t.exchanges.map (·.id)).count x.id = 1

theorem eq_of_alone {t : Traffic} (hi : t.exchanges[i]? = some x) (halone : t.Alone x)
    (hj : t.exchanges[j]? = some y) (hid : y.id = x.id) : y = x := by
  obtain ⟨before, after, hsplit⟩ := List.append_of_mem (List.mem_of_getElem? hi)
  have hy := List.mem_of_getElem? hj
  unfold Alone at halone
  rw [hsplit, List.map_append, List.map_cons, List.count_append, List.count_cons_self] at halone
  have hnone : ∀ zs : List Exchange, (zs.map (·.id)).count x.id = 0 → y ∉ zs := fun zs hzs hy =>
    List.count_eq_zero.1 hzs (List.mem_map.2 ⟨y, hy, hid⟩)
  rw [hsplit, List.mem_append, List.mem_cons] at hy
  rcases hy with hy | rfl | hy
  · exact absurd hy (hnone before (by omega))
  · rfl
  · exact absurd hy (hnone after (by omega))

/-- A report that is found has been recorded by the exchange with this name. -/
theorem recorded_of_find (hi : ((fresh n).run ms).exchanges[i]? = some x)
    (halone : ((fresh n).run ms).Alone x) {r : Report}
    (hr : ((fresh n).run ms).shared.history.find x.id = some r) : x.recorded? = some r := by
  have haccounted := accounted_run (accounted_fresh n) ms
  obtain ⟨hfound, hid⟩ := Stream.History.find_spec hr
  have hmem := haccounted.told.slots r hfound
  obtain ⟨y, hy, hrecorded⟩ := List.mem_filterMap.1 (haccounted.shares.reports.mem_iff.1 hmem)
  obtain ⟨j, hj⟩ := List.mem_iff_getElem?.1 hy
  obtain ⟨y₀, hy₀, moves, hrun⟩ := leads_fresh hj
  have hnamed := Exchange.named_run (Exchange.named_of_arrived hy₀) moves
  rw [hrun] at hnamed
  rw [← eq_of_alone hi halone hj ((Exchange.id_recorded hnamed hrecorded).symm.trans hid)]
  exact hrecorded

/-! ## Two runs -/

/-- The story of the exchange `i`, which has come to `x`, since it arrived. -/
def storyIn (n : Nat) (ms : List Move) (i : Nat) (x : Exchange) : List Exchange.Deed :=
  { x with phase := .arrived }.story ((fresh n).movesIn i ms)

/-- What two runs have in common as to one stream, which is the exchange `i` of the one and the
exchange `j` of the other. Nothing is said of other exchanges, of names, of times and of how often
somebody waits in vain, nor of the order of what the generator and the listener do between two steps
of the relay. -/
structure Concur (n : Nat) (ms ns : List Move) (i j : Nat) (x y : Exchange) : Prop where
  here : ((fresh n).run ms).exchanges[i]? = some x
  there : ((fresh n).run ns).exchanges[j]? = some y
  settings : x.settings = y.settings
  query : x.query = y.query
  generator : ∀ job, x.launcher.launch job = y.launcher.launch job
  /-- What the generator does comes between the same steps of the relay. -/
  source : (storyIn n ms i x).filter Exchange.Deed.atSource =
    (storyIn n ns j y).filter Exchange.Deed.atSource
  /-- What the listener does comes between the same steps of the relay. -/
  listener : (storyIn n ms i x).filter Exchange.Deed.atListener =
    (storyIn n ns j y).filter Exchange.Deed.atListener

/-- A stream and its session look the same in two runs. -/
structure Indistinct (n : Nat) (ms ns : List Move) (i j : Nat) (x y : Exchange) : Prop where
  /-- The status, the headers, and a body that is known beforehand. -/
  answer : ∀ (o : Origins) (origin : Option String) (a b : Text.Uuid),
    x.response?.map (fun r => (r.adding (Response.common o origin a)).anonymous) =
      y.response?.map fun r => (r.adding (Response.common o origin b)).anonymous
  /-- The bytes that the listener has received. -/
  body : x.transfer?.map Transfer.received = y.transfer?.map Transfer.received
  /-- What the listener meets with next: a chunk, the end, or nothing as yet. -/
  next : x.transfer?.map (·.channel.receive.1) = y.transfer?.map (·.channel.receive.1)
  /-- What is counted, and the report that is recorded. -/
  effects : ((fresh n).logIn i ms).map Effect.anonymous =
    ((fresh n).logIn j ns).map Effect.anonymous
  report : (reports ((fresh n).logIn i ms)).map Report.anonymous =
    (reports ((fresh n).logIn j ns)).map Report.anonymous
  /-- The report that is found by those who ask for it. -/
  found : ((fresh n).run ms).Alone x → ((fresh n).run ns).Alone y → ∀ r s,
    (((fresh n).run ms).step (.lookup x.id)).2 = some r →
      (((fresh n).run ns).step (.lookup y.id)).2 = some s → r.anonymous = s.anonymous

theorem find_of_lookup {t : Traffic} {id : Text.Uuid} {r : Report}
    (h : (t.step (.lookup id)).2 = some r) : t.shared.history.find id = some r := by
  rwa [step_lookup, Shared.lookup_fst] at h

/-- The stream comes to the same in both runs, but for names and clocks. -/
theorem Concur.alike (h : Concur n ms ns i j x y) :
    x.anonymous y.launcher = y.anonymous y.launcher ∧
      ((fresh n).logIn i ms).map Effect.anonymous =
        ((fresh n).logIn j ns).map Effect.anonymous := by
  have harrived : ({ x with phase := .arrived } : Exchange).anonymous y.launcher =
      ({ y with phase := .arrived } : Exchange).anonymous y.launcher := by
    unfold Exchange.anonymous
    rw [h.settings, h.query]
  have hrun := Exchange.run_alike (y := { y with phase := .arrived }) harrived h.generator h.source
    h.listener
  rwa [run_of_absent rfl h.here, run_of_absent rfl h.there] at hrun

/-- **Independence.** A stream with the same query, the same generator and the same listener is the
same in two runs of the service, up to names and times. -/
theorem streams_indistinct (h : Concur n ms ns i j x y) : Indistinct n ms ns i j x y := by
  obtain ⟨hend, heffects⟩ := h.alike
  constructor
  · exact Exchange.answered_of_anonymous hend
  · exact Exchange.seen_of_anonymous (fun _ => rfl) hend
  · exact Exchange.seen_of_anonymous (fun _ => rfl) hend
  · exact heffects
  · rw [← reports_anonymous, ← reports_anonymous, heffects]
  · intro hhere hthere r s hr hs
    have hrecorded := congrArg Exchange.recorded? hend
    rw [Exchange.recorded?_anonymous, Exchange.recorded?_anonymous,
      recorded_of_find h.here hhere (find_of_lookup hr),
      recorded_of_find h.there hthere (find_of_lookup hs)] at hrecorded
    exact Option.some.inj hrecorded

/-- A stream up to its end. Its handler waits for output a number of times, and some of its moves
are made when the chunk is there. -/
def streamMoves (waits : Nat) (meeting : List Exchange.Move) : List Exchange.Move :=
  let proceed : Exchange.Move := .proceed ⟨"2024-01-02T00:00:00Z"⟩
  List.replicate (3 + waits) proceed ++ [.pass 1000000, .act] ++ List.replicate 6 proceed ++
    meeting ++ List.replicate 11 proceed

/-- The stream alone. Its chunk is taken before its generator exits. -/
def aloneMoves : List Move := (streamMoves 0 [.take, .act, .drain]).map (.exchange 0)

/-- The same request under another name. -/
def renamed : Exchange := { Exchange.sample with
  id := .ofNat 1
  launcher := { Exchange.sample.launcher with jobPath := [47] } }

/-- The stream after one whose listener goes away, with questions all the time. Its chunk is taken
when its generator has exited. -/
def amongMoves : List Move :=
  (streamMoves 2 [.act, .drain, .pass 5, .take]).flatMap fun m => [
    .exchange 1 m, .exchange 0 (.proceed ⟨"2024-01-03T00:00:00Z"⟩), .exchange 0 .leave,
    .lookup (.ofNat 0)]

/-- The stream is the same alone and among others, with its three bytes. -/
theorem streams_indistinct_two :
    let alone := .arrive Exchange.sample :: aloneMoves
    let among := .arrive Exchange.sample :: .arrive renamed :: amongMoves
    ∃ x y : Exchange, x.id ≠ y.id ∧ Concur 4 alone among 0 1 x y ∧
      Indistinct 4 alone among 0 1 x y ∧ y.transfer?.map Transfer.received = some [1, 2, 3] := by
  intro alone among
  obtain ⟨p, hx⟩ : ∃ p, ((fresh 4).run alone).exchanges[0]? =
      some { Exchange.sample with phase := p } := by
    dsimp only [alone]
    rw [run_cons]
    exact exists_run_part rfl aloneMoves
  obtain ⟨q, hy⟩ : ∃ q, ((fresh 4).run among).exchanges[1]? =
      some { renamed with phase := q } := by
    dsimp only [among]
    rw [run_cons, run_cons]
    exact exists_run_part rfl amongMoves
  have hconcur : Concur 4 alone among 0 1 { Exchange.sample with phase := p }
      { renamed with phase := q } := {
    here := hx
    there := hy
    settings := rfl
    query := rfl
    generator := fun _ => by
      dsimp only [renamed, Exchange.sample, Launcher.launch, List.map, Generator.Step.action]
    source := by
      unfold storyIn
      dsimp only
      decide +kernel
    listener := by
      unfold storyIn
      dsimp only
      decide +kernel }
  have hindistinct := streams_indistinct hconcur
  have hnames : Exchange.sample.id ≠ renamed.id := by decide
  refine ⟨{ Exchange.sample with phase := p }, { renamed with phase := q }, hnames, hconcur,
    hindistinct, ?_⟩
  rw [← hindistinct.body]
  have hbytes : ((fresh 4).run alone).exchanges[0]?.map (fun x =>
      x.transfer?.map Transfer.received) = some (some [1, 2, 3]) := by decide +kernel
  rw [hx] at hbytes
  exact Option.some.inj hbytes

end Traffic

end ToneRelay.Service
