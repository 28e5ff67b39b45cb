import OpenCms.Lib.CString
import OpenCms.Lib.Scan
import OpenCms.Lib.Base64
import OpenCms.Lib.Runs
import OpenCms.Lib.ExchangeSort
import OpenCms.Lib.Ring
import OpenCms.Lib.OpenAddressing
import OpenCms.Lib.FileTree
import OpenCms.Lib.Schema
import OpenCms.Lib.StableSort
import OpenCms.Lib.Stringify
import OpenCms.Lib.Table
import OpenCms.Lib.RootedTree
import OpenCms.Lib.Brackets
import OpenCms.Lib.Script
import OpenCms.Lib.Object
import OpenCms.Gateway.Extract
import OpenCms.Gateway.Http
import OpenCms.Gateway.Token
import OpenCms.Gateway.WebRoutes
import OpenCms.Gateway.Ctl
import OpenCms.Gateway.Throttle
import OpenCms.Gateway.AuthQueue
import OpenCms.Gateway.Connections
import OpenCms.Gateway.Route
import OpenCms.Gateway.Segments
import OpenCms.Gateway.WebProxy
import OpenCms.Gateway.OAuth
import OpenCms.Gateway.Server
import OpenCms.Gateway.Daemons
import OpenCms.Util.Wildcard
import OpenCms.Util.Lock
import OpenCms.Permission.Next
import OpenCms.Permission.Approved
import OpenCms.Permission.Pending
import OpenCms.Patch.Lines
import OpenCms.Patch.Parse
import OpenCms.Patch.Print
import OpenCms.Patch.Derive
import OpenCms.Patch.Placement
import OpenCms.Patch.Ending
import OpenCms.Patch.Files
import OpenCms.Tool.ApplyPatch
import OpenCms.Tool.Sequential
import OpenCms.Cron.Schedule
import OpenCms.Lib.Civil
import OpenCms.Cron.Offset
import OpenCms.Cron.Types
import OpenCms.Cron.Store
import OpenCms.Cron.Heartbeat
import OpenCms.Cron.Executions
import OpenCms.Cron.Spacing
import OpenCms.Cron.ActiveHours
import OpenCms.Cron.Fields
import OpenCms.Cron.Next
import OpenCms.Daemon.Lanes
import OpenCms.Daemon.Tasks
import OpenCms.Daemon.Started
import OpenCms.Daemon.Concurrency
import OpenCms.Daemon.Lifecycle
import OpenCms.Rotation.Coalesce
import OpenCms.Rotation.MinInterval
import OpenCms.Rotation.SingleFlight
import OpenCms.Account.Families
import OpenCms.Rotation.State
import OpenCms.Rotation.HealthTracker
import OpenCms.Rotation.RateLimitTracker
import OpenCms.Rotation.RateLimitViews
import OpenCms.Rotation.Judge
import OpenCms.Rotation.Mutations
import OpenCms.Rotation.LostUpdate
import OpenCms.Rotation.Fallback
import OpenCms.Rotation.Candidates
import OpenCms.Account.Storage
import OpenCms.Account.Normalize
import OpenCms.Account.Operations
import OpenCms.Account.Persistence
import OpenCms.Lib.Digits
import OpenCms.Util.Identifier
import OpenCms.Session.Orphans
import OpenCms.Lib.JsString
import OpenCms.Tool.Replace
import OpenCms.Tool.Ambiguous
import OpenCms.Tool.Literal
import OpenCms.Tool.MultiEdit
import OpenCms.Lib.LastMatch
import OpenCms.Session.Message
import OpenCms.Session.Unanswered
import OpenCms.Session.Writes
import OpenCms.Session.Filter
import OpenCms.Session.Anchor
import OpenCms.Session.Cache
import OpenCms.Session.Todo
import OpenCms.Session.Replay
import OpenCms.Session.Context
import OpenCms.Session.Enrichment
import OpenCms.Session.ToolIndex
import OpenCms.Session.Row
import OpenCms.Session.Store
import OpenCms.Session.Pool
import OpenCms.Session.PromptRuntime
import OpenCms.Lib.Progress
import OpenCms.Session.ToolInvoker
import OpenCms.Session.Revert
import OpenCms.Bus.Publish
import OpenCms.Incoming.Dispatcher
import OpenCms.Freerun.Tree
import OpenCms.Freerun.Order
import OpenCms.Freerun.Iterate
import OpenCms.Freerun.Crash
import OpenCms.Freerun.Engine
import OpenCms.Freerun.Stepping
import OpenCms.Codex.Sse
import OpenCms.Codex.Bracketed
import OpenCms.Codex.Calls
import OpenCms.Codex.Dispatch
import OpenCms.Codex.Retry
import OpenCms.Codex.Lines
import OpenCms.Claude.Salvage
import OpenCms.Claude.Sse
import OpenCms.Claude.Blocks
import OpenCms.Claude.Chunks
import OpenCms.Continuation.Digest
import OpenCms.Continuation.Run
import OpenCms.KillSwitch.Supervisor
import OpenCms.RunQueue.Queue
import OpenCms.RunQueue.Calls
import OpenCms.RunQueue.Resume
import OpenCms.RunQueue.Attempts
import OpenCms.Mcp.LocalPool
import OpenCms.GlobalSync.Collections
import OpenCms.GlobalSync.Messages
import OpenCms.GlobalSync.Streaming
import OpenCms.Storage.MapView
import OpenCms.Storage.Recovery
import OpenCms.Rotation.AccountSelector
import OpenCms.Rotation.Cooldown
import OpenCms.Tool.Truncation
import OpenCms.Session.RawTail
import OpenCms.Session.DialogSerializer
import OpenCms.Lib.FittingSuffix
import OpenCms.Lib.Cut
import OpenCms.Session.AnchorTruncate
import OpenCms.Lib.JsonText
import OpenCms.Session.SmallContext
import OpenCms.Claude.Convert
import OpenCms.Provider.Transform
import OpenCms.Provider.Variants
import OpenCms.Tool.CoerceArgs
import OpenCms.Claude.Tools
import OpenCms.Lib.EditDistance
import OpenCms.Tool.Similarity
import OpenCms.Session.Duplicates
import OpenCms.Session.ResumePick
import OpenCms.Gateway.OAuthStates
