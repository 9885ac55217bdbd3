import SessionReplay.Table
import SessionReplay.Text.Basic
import SessionReplay.Decimal.Binary64
import SessionReplay.Decimal.Shortest
import SessionReplay.Decimal.Whole
import SessionReplay.Instant.Basic
import SessionReplay.Instant.Rfc3339
import SessionReplay.Json.Value
import SessionReplay.Json.Printer
import SessionReplay.Json.Token
import SessionReplay.Json.Tree
import SessionReplay.Json.Record
import SessionReplay.Event.Basic
import SessionReplay.Event.Wire
import SessionReplay.Fault
import SessionReplay.Log
import SessionReplay.Options
import SessionReplay.Timeline
import SessionReplay.EventStore
import SessionReplay.Transcript
import SessionReplay.Delegation.Basic
import SessionReplay.Delegation.Tracker
import SessionReplay.Row.Basic
import SessionReplay.Row.Builder
import SessionReplay.Activity
import SessionReplay.Timer
import SessionReplay.Turn
import SessionReplay.View
import SessionReplay.Report.Record
import SessionReplay.Report.Duration
import SessionReplay.Report.Text
import SessionReplay.Report.Basic
import SessionReplay.SessionChoice
import SessionReplay.Toml.Datetime
import SessionReplay.Toml.Value
import SessionReplay.Toml.Scalar
import SessionReplay.Toml.Document
import SessionReplay.Toml.Printer
import SessionReplay.Settings
import SessionReplay.Command.Arguments
import SessionReplay.Command.Failure
import SessionReplay.Command.Run
import SessionReplay.Main
import SessionReplay.Proofs.EventStore
import SessionReplay.Proofs.Delivery
import SessionReplay.Proofs.Delegation.Evolution
import SessionReplay.Proofs.Delegation.Waiting
import SessionReplay.Proofs.Growth
import SessionReplay.Proofs.Transcript.Growth
import SessionReplay.Proofs.Row.Growth
import SessionReplay.Proofs.View
import SessionReplay.Proofs.Row.Nesting
import SessionReplay.Proofs.Transcript.Loss
import SessionReplay.Proofs.Transcript.Streams
import SessionReplay.Proofs.Delegation.Settling
import SessionReplay.Proofs.Row.Identity
import SessionReplay.Proofs.Delegation.FirstCome
import SessionReplay.Proofs.Row.Step
import SessionReplay.Proofs.Row.Inventory
import SessionReplay.Proofs.Filing
import SessionReplay.Proofs.Row.Borders
import SessionReplay.Proofs.EventStore.Search
import SessionReplay.Proofs.EventStore.Upkeep
import SessionReplay.Proofs.Delegation.Forks
import SessionReplay.Proofs.EventStore.Batch
import SessionReplay.Proofs.Firsts
import SessionReplay.Proofs.Transcript.ByStream
import SessionReplay.Proofs.Row.Conservation
import SessionReplay.Proofs.Json.Words
import SessionReplay.Proofs.Json.OneLine
import SessionReplay.Proofs.Json.Kept
import SessionReplay.Proofs.Json.Documents
import SessionReplay.Proofs.Event
import SessionReplay.Proofs.Log
import SessionReplay.Proofs.Tree.Visits
import SessionReplay.Proofs.Tree.Hydration
import SessionReplay.Proofs.Tree.Reach
import SessionReplay.Proofs.Tree.Walk
import SessionReplay.Proofs.Timer.Signals
import SessionReplay.Proofs.Timer.Ticking
import SessionReplay.Proofs.Timer.Thinking
import SessionReplay.Proofs.Delegation.Routing
import SessionReplay.Proofs.Row.Routing
import SessionReplay.Proofs.Log.Local
import SessionReplay.Proofs.Row.Names
import SessionReplay.Proofs.Row.Parts
import SessionReplay.Proofs.Row.Openings
import SessionReplay.Proofs.Tree.Namesakes
import SessionReplay.Proofs.Transcript.Spelling
import SessionReplay.Proofs.Delegation.Outline
import SessionReplay.Proofs.Row.Spelling
import SessionReplay.Proofs.Row.Blanks
import SessionReplay.Proofs.Delegation.Parts
import SessionReplay.Proofs.Delegation.Endings
import SessionReplay.Proofs.Delegation.Latest
import SessionReplay.Proofs.Row.Stacks
import SessionReplay.Proofs.Row.Anchors
import SessionReplay.Proofs.Timeline.Gaps
import SessionReplay.Proofs.Row.Starts
import SessionReplay.Proofs.Transcript.Latest
import SessionReplay.Proofs.Transcript.Segments
import SessionReplay.Proofs.Turn.Models
import SessionReplay.Proofs.Turn.Outline
import SessionReplay.Proofs.Turn.Assembly
import SessionReplay.Proofs.Timer.Periods
import SessionReplay.Proofs.Timer.Releases
import SessionReplay.Proofs.Timer.DelegatedTime
import SessionReplay.Proofs.Timer.Owners
import SessionReplay.Proofs.Timer.Total
import SessionReplay.Proofs.Activity
import SessionReplay.Proofs.EventStore.Memo
import SessionReplay.Proofs.Text.ByteOrder
import SessionReplay.Proofs.SessionChoice
import SessionReplay.Proofs.Settings.Names
import SessionReplay.Proofs.Settings.Repair
import SessionReplay.Proofs.Report.Lines
import SessionReplay.Proofs.Report.Durations
