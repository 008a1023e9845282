import Haruspex.Library.AdmissionScan
import Haruspex.InferenceQueue.Model
import Haruspex.InferenceQueue.Pump
import Haruspex.InferenceQueue.Sound
import Haruspex.InferenceQueue.Capacity
import Haruspex.InferenceQueue.Priority
import Haruspex.InferenceQueue.Lanes
import Haruspex.InferenceQueue.Order
import Haruspex.InferenceQueue.Independence
import Haruspex.InferenceSlot.Cleanup
import Haruspex.SlotLender.Model
import Haruspex.SlotLender.Progress
import Haruspex.SlotLender.Deadlock
import Haruspex.JavaScript.Text
import Haruspex.JavaScript.Json
import Haruspex.ContextBudget.Model
import Haruspex.Library.LargestFirst
import Haruspex.ContextBudget.ForceFit
import Haruspex.ContextBudget.Note
import Haruspex.ContextBudget.Edits
import Haruspex.ContextBudget.Conversation
import Haruspex.ContextBudget.Drop
import Haruspex.ContextBudget.WellFormed
import Haruspex.ContextBudget.Split
import Haruspex.ToolBatches.Model
import Haruspex.ToolBatches.Batch
import Haruspex.ToolBatches.Order
import Haruspex.ToolBatches.Loop
import Haruspex.Library.WriteBehind
import Haruspex.Tasks.Entries
import Haruspex.Tasks.Ended
import Haruspex.Tasks.Registry
import Haruspex.Tasks.Agree
import Haruspex.Tasks.Relaunch
import Haruspex.Library.KeyedMap
import Haruspex.Relay.Client
import Haruspex.Rust.Text
import Haruspex.Relay.Model
import Haruspex.Relay.Turns
import Haruspex.Relay.LifeCycle
import Haruspex.Relay.Listeners
import Haruspex.Library.Replicas
import Haruspex.Relay.Feed
import Haruspex.Relay.Converges
import Haruspex.Rust.Utf8
import Haruspex.Shell.Chunks
import Haruspex.Shell.Markers
import Haruspex.Library.FileSystem
import Haruspex.Library.PathWalks
import Haruspex.FsTools.Containment
import Haruspex.Kdenlive.Groups
import Haruspex.Kdenlive.Doc
import Haruspex.Kdenlive.Layout
import Haruspex.Kdenlive.Laying
import Haruspex.Kdenlive.Playlists
import Haruspex.Kdenlive.Timeline
import Haruspex.Kdenlive.Valid
import Haruspex.Kdenlive.Current
import Haruspex.Kdenlive.NoOp
import Haruspex.Kdenlive.Timecode
import Haruspex.Shell.Capture
import Haruspex.Library.Ring
import Haruspex.Shell.Ring
import Haruspex.Shell.Watermark
import Haruspex.CodeFolders.Leases
import Haruspex.CodeFolders.World
import Haruspex.CodeFolders.Heard
import Haruspex.Owner.AllOrNothing
import Haruspex.Memory.Passes
import Haruspex.Library.Marks
import Haruspex.ThinkStream.Model
import Haruspex.ThinkStream.Channels
import Haruspex.ThinkStream.Interleaved
import Haruspex.Rust.Net
import Haruspex.SandboxFetch.Proxy
import Haruspex.SandboxFetch.Fetch
import Haruspex.SandboxFetch.Confined
import Haruspex.AgentLoop.Model
import Haruspex.Library.Actions
import Haruspex.AgentLoop.Calls
import Haruspex.AgentLoop.Loop
import Haruspex.AgentLoop.Steering
import Haruspex.AgentLoop.Accounts
import Haruspex.Library.Patterns
import Haruspex.ToolCalls.Blocks
import Haruspex.ToolCalls.Model
import Haruspex.ToolCalls.Readings
import Haruspex.ToolCalls.Taken
import Haruspex.FsTools.Fuzzy
import Haruspex.FsTools.Edits
import Haruspex.ContextBudget.Trim
import Haruspex.Compaction.Model
import Haruspex.Compaction.Thread
import Haruspex.Editor.Document
import Haruspex.Editor.Interleavings
import Haruspex.CodingLoop.Plan
import Haruspex.CodingLoop.Todo
import Haruspex.CodingLoop.TodoLines
import Haruspex.CodingLoop.TodoRead
import Haruspex.CodingLoop.RoundTrip
import Haruspex.CodingLoop.Guided
import Haruspex.CodingLoop.Checklist
import Haruspex.CodingLoop.Loop
import Haruspex.CodingLoop.LoopEnds
import Haruspex.CodingLoop.LoopKeeps
import Haruspex.CodingLoop.LoopSettles
import Haruspex.Sandbox.SyncBody
import Haruspex.Sandbox.WorkdirSync
import Haruspex.Sandbox.FolderSeen
import Haruspex.Sandbox.SyncRuns
import Haruspex.Sandbox.PythonSees
import Haruspex.FsTools.TextRead
import Haruspex.Kdenlive.Cut
import Haruspex.Video.Captions
import Haruspex.Shell.Stream
import Haruspex.Shell.Cycles
import Haruspex.Shell.Cursor
import Haruspex.Shell.Retype
import Haruspex.AgentLoop.Ledger
import Haruspex.AgentLoop.Budget
import Haruspex.ThinkStream.Remembered
import Haruspex.ThinkStream.Readings
import Haruspex.Wsl.PgidReader
import Haruspex.Calendar.Duration
import Haruspex.Calendar.Events
import Haruspex.Calendar.Window
import Haruspex.Diff.Model
import Haruspex.Diff.Hunks
import Haruspex.Vcard.Contact
import Haruspex.Vcard.Slices
import Haruspex.Vcard.Decode
import Haruspex.Vcard.Safety
import Haruspex.Vcard.Fold
import Haruspex.Vcard.Heads
import Haruspex.Vcard.Unfold
import Haruspex.Vcard.Printable
import Haruspex.Vcard.SoftBreaks
import Haruspex.SandboxFetch.Redirects
import Haruspex.Library.Masking
import Haruspex.Redaction.Model
import Haruspex.Redaction.Words
import Haruspex.Redaction.InPlace
import Haruspex.Calendar.Shown
import Haruspex.ToolCalls.Split
import Haruspex.ToolCalls.Alike
import Haruspex.ImageGen.Texture
import Haruspex.Video.Silence
import Haruspex.ImageGen.Islands
import Haruspex.Library.Forest
import Haruspex.ImageGen.Pieces
import Haruspex.CodingLoop.Steps
import Haruspex.Documents.Inline
import Haruspex.Documents.Wrap
import Haruspex.Documents.Blocks
import Haruspex.Shell.Boundary
import Haruspex.Shell.Expansion
import Haruspex.Shell.Guards
import Haruspex.JobRuns.Admission
import Haruspex.JobRuns.Queue
import Haruspex.JobRuns.View
import Haruspex.Sandbox.CallsCovered
import Haruspex.Kdenlive.Kept
import Haruspex.Editor.Watches
import Haruspex.ReadOnlyCommand.Split
import Haruspex.ReadOnlyCommand.Reads
import Haruspex.Engine.Sessions
import Haruspex.Wsl.Background
import Haruspex.ImageGen.Transition
