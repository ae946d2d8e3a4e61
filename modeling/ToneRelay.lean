import ToneRelay.Pcm
import ToneRelay.Duration
import ToneRelay.Text.Blank
import ToneRelay.Text.Utf8
import ToneRelay.Text.Numeral
import ToneRelay.Decimal.Exact
import ToneRelay.Decimal.Shortest
import ToneRelay.Decimal.Layout
import ToneRelay.Decimal.Reading
import ToneRelay.Json.Quoted
import ToneRelay.Json.Value
import ToneRelay.Json.Reader
import ToneRelay.Json.Ignored
import ToneRelay.Json.Record
import ToneRelay.Json.Document
import ToneRelay.Job.Parameters
import ToneRelay.Job.Timeline
import ToneRelay.Job.Description
import ToneRelay.Job.Document
import ToneRelay.Text.Uuid
import ToneRelay.Request.Form
import ToneRelay.Request.Query
import ToneRelay.Request.Admission
import ToneRelay.Generator.Fault
import ToneRelay.Generator.Command
import ToneRelay.Generator.Pipe
import ToneRelay.Generator.Process
import ToneRelay.Generator.Drain
import ToneRelay.Generator.Handle
import ToneRelay.Generator.Supervised
import ToneRelay.Generator.Prompt
import ToneRelay.Generator.Place
import ToneRelay.Generator.Obstacle
import ToneRelay.Generator.Launch
import ToneRelay.Stream.Session
import ToneRelay.Stream.Counters
import ToneRelay.Stream.Handles
import ToneRelay.Stream.History
import ToneRelay.Stream.Channel
import ToneRelay.Stream.Relay
import ToneRelay.Stream.Rehearsal
import ToneRelay.Stream.Transfer
import ToneRelay.Service.Refusal
import ToneRelay.Service.Settings
import ToneRelay.Service.Bucket
import ToneRelay.Service.Origins
import ToneRelay.Service.Page
import ToneRelay.Service.Response
import ToneRelay.Service.Target
import ToneRelay.Service.Route
import ToneRelay.Service.Exchange
import ToneRelay.Service.Shared
import ToneRelay.Service.App
import ToneRelay.Proofs.Text.Utf8
import ToneRelay.Proofs.Text.Parts
import ToneRelay.Proofs.Job.Timeline
import ToneRelay.Proofs.Stream.Dialogue
import ToneRelay.Proofs.Generator.Speech
import ToneRelay.Proofs.Generator.Custody
import ToneRelay.Proofs.Generator.Patience
import ToneRelay.Proofs.Stream.Steps
import ToneRelay.Proofs.Stream.Delivery
import ToneRelay.Proofs.Stream.Progress
import ToneRelay.Proofs.Stream.Slots
import ToneRelay.Proofs.Stream.Tally
import ToneRelay.Proofs.Service.Course
import ToneRelay.Proofs.Service.Fidelity
import ToneRelay.Proofs.Service.Schedule
import ToneRelay.Proofs.Service.Outcome
import ToneRelay.Proofs.Generator.Conversation
import ToneRelay.Proofs.Service.Accounts
import ToneRelay.Proofs.Service.Reconciliation
import ToneRelay.Proofs.Service.Prompt
import ToneRelay.Proofs.Request.Decoding
import ToneRelay.Proofs.Service.Uniformity
import ToneRelay.Proofs.Decimal.Rounding
import ToneRelay.Proofs.Decimal.Hundredths
import ToneRelay.Proofs.Json.Numeral
import ToneRelay.Proofs.Decimal.Written
import ToneRelay.Proofs.Decimal.Shortest
import ToneRelay.Proofs.Json.Reading
import ToneRelay.Proofs.Json.Truncation
import ToneRelay.Proofs.Json.Tree
import ToneRelay.Proofs.Json.Passing
import ToneRelay.Proofs.Json.Legible
import ToneRelay.Proofs.Json.Collection
import ToneRelay.Proofs.Decimal.ReadBack
import ToneRelay.Proofs.Job.Document
import ToneRelay.Proofs.Job.Resonance
import ToneRelay.Proofs.Job.RoundTrip
import ToneRelay.Proofs.Job.Rendering
import ToneRelay.Proofs.Job.Progression
import ToneRelay.Proofs.Job.Interpolation
import ToneRelay.Proofs.Job.Sizes
import ToneRelay.Proofs.Request.Admission
import ToneRelay.Proofs.Stream.Recency
import ToneRelay.Proofs.Service.Parts
import ToneRelay.Proofs.Service.Lookup
import ToneRelay.Proofs.Service.Availability
import ToneRelay.Proofs.Generator.Release
import ToneRelay.Proofs.Stream.Orders
import ToneRelay.Proofs.Service.Release
import ToneRelay.Proofs.Stream.Walk
import ToneRelay.Proofs.Stream.Census
import ToneRelay.Proofs.Stream.Backpressure
import ToneRelay.Proofs.Generator.Timing
import ToneRelay.Proofs.Stream.Anonymity
import ToneRelay.Proofs.Service.Replay
import ToneRelay.Proofs.Service.Independence
import ToneRelay.Proofs.Stream.Eviction
import ToneRelay.Proofs.Generator.Passage
import ToneRelay.Proofs.Generator.Records
import ToneRelay.Proofs.Generator.Finality
import ToneRelay.Proofs.Generator.Diagnostics
import ToneRelay.Proofs.Generator.Startup
import ToneRelay.Proofs.Generator.Limits
import ToneRelay.Proofs.Generator.Dropping
import ToneRelay.Proofs.Generator.Arguments
import ToneRelay.Proofs.Stream.Fifo
import ToneRelay.Proofs.Stream.Inclusion
import ToneRelay.Proofs.Stream.Refusals
import ToneRelay.Proofs.Stream.Milestones
import ToneRelay.Proofs.Request.Spelling
import ToneRelay.Proofs.Stream.Totals
import ToneRelay.Proofs.Stream.Sharing
import ToneRelay.Proofs.Json.Document
import ToneRelay.Proofs.Service.Telling
import ToneRelay.Proofs.Service.Openness
import ToneRelay.Proofs.Service.Allowance
import ToneRelay.Proofs.Service.Settings
