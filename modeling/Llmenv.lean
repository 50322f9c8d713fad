import Llmenv.Adapter.ClaudeCode.DenyKept
import Llmenv.Adapter.ClaudeCode.EffortEdits
import Llmenv.Adapter.ClaudeCode.ForeignKept
import Llmenv.Adapter.ClaudeCode.Fresh
import Llmenv.Adapter.ClaudeCode.HookHistory
import Llmenv.Adapter.ClaudeCode.Hooks
import Llmenv.Adapter.ClaudeCode.NulledKeys
import Llmenv.Adapter.ClaudeCode.Overlay
import Llmenv.Adapter.ClaudeCode.Ownership
import Llmenv.Adapter.ClaudeCode.Permissions
import Llmenv.Adapter.ClaudeCode.Reconcile
import Llmenv.Adapter.ClaudeCode.Rerender
import Llmenv.Adapter.ClaudeCode.Servers
import Llmenv.Adapter.Codex
import Llmenv.Adapter.Crush
import Llmenv.Adapter.Crush.DenyList
import Llmenv.Adapter.Crush.Document
import Llmenv.Adapter.Crush.EnvEscape
import Llmenv.Adapter.HookCommand
import Llmenv.Adapter.HookResolve
import Llmenv.Adapter.MergeJson
import Llmenv.Adapter.ModelFields
import Llmenv.Adapter.ModelSettings
import Llmenv.Adapter.Opencode.Frontmatter
import Llmenv.Adapter.Opencode.GlobLoop
import Llmenv.Adapter.Opencode.Overlap
import Llmenv.Adapter.Opencode.Patterns
import Llmenv.Adapter.Opencode.Permissions
import Llmenv.Adapter.Render
import Llmenv.Adapter.Skills.Frontmatter
import Llmenv.Adapter.Skills.QuoteScalar
import Llmenv.Adapter.Tools
import Llmenv.Checkpoints.CutPipe
import Llmenv.Checkpoints.Files
import Llmenv.Checkpoints.Retries
import Llmenv.Config.PathGrammar
import Llmenv.Config.Permissions
import Llmenv.Config.ProxyPath
import Llmenv.HookRun.CommitGate
import Llmenv.HookRun.Getopt
import Llmenv.HookRun.Idempotency
import Llmenv.HookRun.NudgeRace
import Llmenv.HookRun.ReadOnce
import Llmenv.HookRun.Recall
import Llmenv.HookRun.RecallAccount
import Llmenv.HookRun.RepeatDetect
import Llmenv.HookRun.SessionLedger
import Llmenv.HookRun.ShellJoin
import Llmenv.HookRun.ShellQuote
import Llmenv.HookRun.ShellSplit
import Llmenv.HookRun.StateLock
import Llmenv.HookRun.StopReminder
import Llmenv.HookRun.TaskNudge
import Llmenv.Launch.Handshake
import Llmenv.Lib.Access
import Llmenv.Lib.Separated
import Llmenv.Lib.Descent
import Llmenv.Lib.Effect
import Llmenv.Lib.Encode
import Llmenv.Lib.Escape
import Llmenv.Lib.Fence
import Llmenv.Lib.Fields
import Llmenv.Lib.FirstN
import Llmenv.Lib.Glob
import Llmenv.Lib.GlobParts
import Llmenv.Lib.Hex
import Llmenv.Lib.HexBytes
import Llmenv.Lib.History
import Llmenv.Lib.Hunks
import Llmenv.Lib.Inodes
import Llmenv.Lib.Ip
import Llmenv.Lib.JoinMap
import Llmenv.Lib.Json
import Llmenv.Lib.JsonText
import Llmenv.Lib.Keyed
import Llmenv.Lib.Lines
import Llmenv.Lib.Links
import Llmenv.Lib.Loop
import Llmenv.Lib.Overlay
import Llmenv.Lib.Padded
import Llmenv.Lib.Queue
import Llmenv.Lib.Ranked
import Llmenv.Lib.Recent
import Llmenv.Lib.Result
import Llmenv.Lib.Runs
import Llmenv.Lib.Slice
import Llmenv.Lib.SortedMap
import Llmenv.Lib.Streak
import Llmenv.Lib.Text
import Llmenv.Lib.Words
import Llmenv.Lib.Yaml
import Llmenv.Manifest.Data
import Llmenv.Materialize.CacheGc
import Llmenv.Materialize.Ownership
import Llmenv.Auth.CredentialCache
import Llmenv.Auth.Timestamp
import Llmenv.Auth.Accounts
import Llmenv.Materialize.Drift
import Llmenv.Materialize.Fold
import Llmenv.Materialize.Hash
import Llmenv.Materialize.Shape
import Llmenv.Mcp.Cleartext
import Llmenv.Mcp.SpawnLock
import Llmenv.Mcp.Ssrf
import Llmenv.Merge.Capabilities
import Llmenv.Merge.Data
import Llmenv.Merge.Frontmatter
import Llmenv.Merge.MergeAgain
import Llmenv.Merge.MergeKeys
import Llmenv.Merge.MergeYaml
import Llmenv.Merge.NativeMaps
import Llmenv.Merge.Precedence
import Llmenv.Merge.Signature
import Llmenv.Merge.YamlEq
import Llmenv.Merge.YamlTree
import Llmenv.Notices.Clean
import Llmenv.Notices.Spool
import Llmenv.Onboarding.ConfigSplice
import Llmenv.Onboarding.FaithfulDiff
import Llmenv.Paths.AtomicWrite
import Llmenv.Scope.ContentWalk
import Llmenv.Scope.Evaluate
import Llmenv.Scope.Firing
import Llmenv.Scope.GatewayMac
import Llmenv.Scope.HostGlob
import Llmenv.Scope.Tags
import Llmenv.SessionLog.Rotation
import Llmenv.Statusline.Template
import Llmenv.Tasks.AncestorChain
import Llmenv.Tasks.Blockers
import Llmenv.Tasks.ClosedSessions
import Llmenv.Tasks.Data
import Llmenv.Tasks.Effects
import Llmenv.Tasks.Listing
import Llmenv.Tasks.OneAtATime
import Llmenv.Tasks.Ops
import Llmenv.Tasks.ParentKept
import Llmenv.Tasks.ParentLinks
import Llmenv.Tasks.Plans
import Llmenv.Tasks.Prefixes
import Llmenv.Tasks.Preorder
import Llmenv.Tasks.RejectCycle
import Llmenv.Tasks.Reminder
import Llmenv.Tasks.Resolve
import Llmenv.Tasks.SessionEffects
import Llmenv.Tasks.SessionFrame
import Llmenv.Tasks.Sessions
import Llmenv.Tasks.Stepwise
import Llmenv.Tasks.SubTasks
import Llmenv.Tasks.Walks
import Llmenv.Tasks.World
import Llmenv.Tasks.Writes
import Llmenv.Transcript.InsertCapped
import Llmenv.Transcript.Link
import Llmenv.Transcript.Starts
