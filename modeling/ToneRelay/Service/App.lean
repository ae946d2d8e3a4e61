import ToneRelay.Service.Bucket
import ToneRelay.Service.Response
import ToneRelay.Service.Route
import ToneRelay.Service.Shared
import ToneRelay.Service.Target

/-!
# The service

Requests are answered one after another here, each stream as promptly as it can be. A request first
takes a token from the rate limit; a question about access is answered on every path; what is left
is answered by its route, with the headers that every answer has. Main statements: `create_wildcard`
and `handle_limited`.
-/

namespace ToneRelay.Service

open ToneRelay.Stream (History Moment Transfer)
open ToneRelay.Stream.Transfer (Listener)

namespace Exchange

/-- The answer to the request, once there is one. -/
def response? (x : Exchange) : Option Response :=
  match x.phase with
  | .refused why _ => some (.ofRefusal why)
  | _ => x.transfer?.map fun _ => .audio x.id

/-- Whether the next step of the exchange changes nothing. -/
def waits (x : Exchange) : Bool :=
  let idle (g : Generator.Supervised) : Bool := g.poll.2.isNone && g.poll.1.stage = g.stage
  match x.phase with
  | .awaiting _ g => idle g
  | .clearing g _ => idle g
  | .relaying _ t => t.pump.ending?.isNone && t.relay.isNone
  | .closing _ t => idle t.source
  | _ => x.isOver

/-- The listener comes, if there is a body. -/
def listen (x : Exchange) (l : Listener) : Exchange × Listener :=
  match x.transfer? with
  | some t =>
    let (t, l) := t.listen l
    (x.mapTransfer fun _ => t, l)
  | none => (x, l)

/-- At most `fuel` steps of an exchange in which everyone does at once what it can. -/
def carryFor (fuel : Nat) (x : Exchange) (now : Moment) (l : Listener) : Exchange × List Effect :=
  match fuel with
  | 0 => (x, [])
  | fuel + 1 =>
    let x := x.mapSource (·.work)
    if x.waits then
      match x.source?.bind (·.nextTime) with
      | some time =>
        if x.isOver then (x, [])
        else carryFor fuel (x.mapSource fun g => { g with now := time }) now l
      | none => (x, [])
    else
      let (x, e) := x.proceed now
      let (x, l) := x.listen l
      let (x, es) := carryFor fuel x now l
      (x, e.toList ++ es)

/-- A number of steps in which an exchange with a generator ends, if it ever does. -/
def patience (x : Exchange) : Nat :=
  match x.source? with
  | some g => 4 * g.outstanding + 4 * g.process.todo.length + 64
  | none => 8

/-- The steps up to the launch of a generator. -/
def stepsToLaunch : Nat := 3

/-- The exchange up to its end. -/
def carry (x : Exchange) (now : Moment) (l : Listener) : Exchange × List Effect :=
  let (x, es) := x.carryFor stepsToLaunch now l
  let (x, more) := x.carryFor x.patience now l
  (x, es ++ more)

end Exchange

/-- The service. -/
structure App where
  settings : Settings
  origins : Origins
  bucket : Bucket
  shared : Shared

/-- A request as it comes in. -/
structure Incoming where
  method : String
  target : String
  headers : List (String × String)
deriving DecidableEq, Repr

/-- What a request meets with. -/
structure Circumstances where
  /-- The time, in nanoseconds. -/
  now : Nat
  moment : Moment
  requestId : Text.Uuid
  streamId : Text.Uuid
  vitals : Vitals
  launcher : Generator.Launcher
  listener : Listener

/-- An answer, and the bytes of audio that the listener took. -/
structure Served where
  response : Response
  audio : Option (List UInt8) := none

/-- The value of a header, whose name is not told apart by case. -/
def Incoming.header? (i : Incoming) (name : String) : Option String :=
  (i.headers.find? fun h => h.1.toLower = name).map (·.2)

/-- The methods that routes answer. -/
def Incoming.isRead (i : Incoming) : Bool := i.method = "GET" || i.method = "HEAD"

namespace App

/-- The service with some settings. -/
def create (s : Settings) : Except WildcardListed App :=
  match Origins.ofEntries s.origins with
  | .error e => .error e
  | .ok origins => .ok {
      settings := s
      origins := origins
      bucket := .ofLimit s.rateLimit
      shared := { history := .empty s.history.toNat } }

/-- The answer to a request for which there is no token. -/
def limited : Response := ⟨429, [], .empty⟩

/-- The answer to a path without a route. -/
def noRoute (path : String) : Response := .ofRefusal (.missing ("No route for " ++ path))

/-- The answer to a name that is no text. -/
def badName : Response :=
  .ofBody 400 Response.plain (.text "Invalid URL: Invalid UTF-8 in `id`")

/-- The answer to a question for a session. -/
def session (a : App) (name : String) : App × Response :=
  match Route.sessionName? name with
  | none => (a, badName)
  | some name =>
    let missing : Response := .ofRefusal (.missing ("No recent stream with id " ++ name))
    match Text.Uuid.parse? name with
    | none => (a, missing)
    | some id =>
      let (r, shared) := a.shared.lookup id
      let response := match r with
        | some r => .ofBody 200 Refusal.contentType (.report r)
        | none => missing
      ({ a with shared := shared }, response)

/-- A stream, carried on up to its end. -/
def stream (a : App) (query : List UInt8) (c : Circumstances) (l : Listener) : App × Served :=
  match Request.Query.decode query with
  | .error f => (a, { response := .ofBody 400 Response.plain (.text (Request.repeatedMessage f)) })
  | .ok q =>
    let x : Exchange := {
      settings := a.settings
      launcher := { c.launcher with grace := a.settings.terminateGrace }
      query := q
      id := c.streamId }
    let (x, es) := x.carry c.moment l
    let a := { a with shared := a.shared.applyAll es }
    (a, {
      response := x.response?.getD (.bare 500 [])
      audio := x.transfer?.map Transfer.received })

/-- The answer of a route. -/
def serve (a : App) (r : Route) (query : List UInt8) (c : Circumstances) (l : Listener) :
    App × Served :=
  match r with
  | .page => (a, { response := .page })
  | .health => (a, { response := .health })
  | .measures =>
    let body : Body := .measures c.moment c.vitals a.shared.counters
    (a, { response := .ofBody 200 Refusal.contentType body })
  | .session name =>
    let (a, response) := a.session name
    (a, { response := response })
  | .stream => a.stream query c l

/-- The answer to a request that is not a question about access. -/
def answer (a : App) (i : Incoming) (target : Target) (c : Circumstances) : App × Served :=
  match Route.ofPath target.path with
  | none => (a, { response := noRoute target.path })
  | some r =>
    if i.method = "GET" then a.serve r target.query c c.listener
    else if i.method = "HEAD" then a.serve r target.query c .absent
    else (a, { response := .bare 405 [] })

/-- The header with the methods of a route, where a request has another method. -/
def allowHeader (i : Incoming) (target : Target) : List (String × String) :=
  if (Route.ofPath target.path).isSome && !i.isRead then [Response.allow] else []

/-- The answer to a request. -/
def handle (a : App) (i : Incoming) (c : Circumstances) : App × Served :=
  let target := Target.parse i.target
  let allow := allowHeader i target
  let origin := i.header? "origin"
  match a.bucket.take c.now with
  | none => (a, { response := limited.adding allow })
  | some bucket =>
    let a := { a with bucket := bucket }
    if i.method = "OPTIONS" then
      (a, { response := (Response.preflight a.origins origin).adding allow })
    else
      let (a, served) := a.answer i target c
      let response := served.response.adding (Response.common a.origins origin c.requestId ++ allow)
      let response := if i.method = "HEAD" then response.withoutBody else response
      (a, { served with response := response })

theorem create_wildcard {s : Settings} (h : Origins.wildcard ∈ Origins.usable (s.origins.getD [])) :
    create s = .error {} := by
  have hne : Origins.usable (s.origins.getD []) ≠ [] := by
    intro h0; rw [h0] at h; cases h
  simp [create, Origins.ofEntries, h, hne]

theorem handle_limited {a : App} {i : Incoming} {c : Circumstances}
    (h : a.bucket.take c.now = none) : (a.handle i c).2.response.status = 429 := by
  simp [handle, h, Response.adding, limited]

end App

end ToneRelay.Service
