import ToneRelay.Pcm
import ToneRelay.Service.Origins
import ToneRelay.Service.Page
import ToneRelay.Service.Refusal
import ToneRelay.Stream.Counters

/-!
# Responses

What is sent back: a status, headers, and a body that is text, a document, or the audio itself. Main
statement: `status_ofRefusal`.
-/

namespace ToneRelay.Service

open ToneRelay.Stream (Counters Moment Report)

/-- What is measured of the machine. -/
structure Vitals where
  cpuUsagePercent : Float
  memoryUsedMegabytes : Nat
  memoryTotalMegabytes : Nat
  memoryUsagePercent : Float
  uptimeSeconds : Nat
  systemLoad : Option Float

def Vitals.toJson (v : Vitals) : List (String × Json.Value) := [
  ("cpu_usage_percent", .float v.cpuUsagePercent),
  ("memory_used_mb", .whole v.memoryUsedMegabytes),
  ("memory_total_mb", .whole v.memoryTotalMegabytes),
  ("memory_usage_percent", .float v.memoryUsagePercent),
  ("uptime_seconds", .whole v.uptimeSeconds),
  ("system_load", (v.systemLoad.map .float).getD .null)]

/-- A body. -/
inductive Body
  | empty
  | text (s : String)
  | report (r : Report)
  | measures (now : Moment) (v : Vitals) (c : Counters)
  /-- The output of a generator, whose end is not known beforehand. -/
  | audio

/-- The text of a body that is known beforehand. -/
def Body.text? : Body → Option String
  | .empty => some ""
  | .text s => some s
  | .report r => some r.toJson.compact
  | .measures now v c =>
    some (Json.Value.record [
      ("timestamp", .text now.text), ("system", .record v.toJson), ("streams", c.toJson)]).compact
  | .audio => none

structure Response where
  status : Nat
  headers : List (String × String)
  body : Body

namespace Response

/-- Plain text. -/
def plain : String := "text/plain; charset=utf-8"

/-- The headers of a body of some type. -/
def typed (contentType : String) (body : Body) : List (String × String) :=
  let length := match body.text? with
    | some s => [("content-length", s.utf8ByteSize.repr)]
    | none => []
  ("content-type", contentType) :: length

/-- An answer with a body of some type. -/
def ofBody (status : Nat) (contentType : String) (body : Body) : Response :=
  ⟨status, typed contentType body, body⟩

/-- An answer without a body. -/
def bare (status : Nat) (headers : List (String × String)) : Response :=
  ⟨status, ("content-length", "0") :: headers, .empty⟩

/-- The answer that tells a refusal. -/
def ofRefusal (r : Refusal) : Response := ofBody r.status Refusal.contentType (.text r.body)

/-- The headers of a stream, which tell its format and its session. -/
def audioHeaders (id : Text.Uuid) : List (String × String) := [
  ("content-type", Pcm.contentType),
  ("cache-control", "no-cache"),
  ("x-audio-format", "raw"),
  ("x-audio-samplerate", Pcm.sampleRate.repr),
  ("x-audio-bitdepth", Pcm.bitDepth.repr),
  ("x-audio-channels", Pcm.channels.repr),
  ("x-audio-encoding", Pcm.encoding),
  ("x-audio-endianness", Pcm.endianness),
  ("x-stream-id", id.text)]

/-- The answer that is a stream. -/
def audio (id : Text.Uuid) : Response := ⟨200, audioHeaders id, .audio⟩

/-- The page. -/
def page : Response := ofBody 200 "text/html; charset=utf-8" (.text Page.html)

/-- The sign of life. -/
def health : Response := ofBody 200 plain (.text "ok")

/-- The answer without its body, which leaves its headers as they are. -/
def withoutBody (r : Response) : Response := { r with body := .empty }

/-- More headers. -/
def adding (r : Response) (headers : List (String × String)) : Response :=
  { r with headers := r.headers ++ headers }

theorem status_ofRefusal (r : Refusal) : (ofRefusal r).status = r.status := rfl

/-! ## Headers that do not depend on what is asked -/

/-- The request headers on which an answer depends. -/
def vary : String × String :=
  ("vary", "origin, access-control-request-method, access-control-request-headers")

/-- The header that allows an origin. -/
def allowOrigin (o : Origins) (origin : Option String) : List (String × String) :=
  match o.allowed origin with
  | some value => [("access-control-allow-origin", value)]
  | none => []

/-- The headers of every answer to a request that is not a question about access. -/
def common (o : Origins) (origin : Option String) (requestId : Text.Uuid) :
    List (String × String) :=
  allowOrigin o origin ++
    [("access-control-expose-headers", "*"), vary, ("x-request-id", requestId.text)]

/-- The answer to a question about access. -/
def preflight (o : Origins) (origin : Option String) : Response :=
  bare 200 (allowOrigin o origin ++
    [("access-control-allow-headers", "*"), ("access-control-allow-methods", "GET,OPTIONS"), vary])

/-- The methods of a route. -/
def allow : String × String := ("allow", "GET,HEAD")

end Response

end ToneRelay.Service
