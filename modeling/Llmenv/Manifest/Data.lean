/-
# `Llmenv.Manifest.Data` — what the adapters render

The merged manifest: the settings of the configuration and of the bundles that
apply to a host, with the MCP servers and plugins resolved.  A `BTreeMap` is a
`SortedMap`, a path is its text.  Fields that no modelled function reads are
left out.

A remote server has one of two transports: the resolver turns the third one,
`stdio`, into the other kind of server.
-/
import Mathlib.Data.String.Basic
import Llmenv.Lib.SortedMap
import Llmenv.Lib.Yaml
import Llmenv.Adapter.Tools

namespace Llmenv.Manifest

open Llmenv.Lib Llmenv.Adapter

/-! ## MCP servers -/

inductive RemoteTransport where
  | http
  | sse
deriving DecidableEq

inductive ResolvedKind where
  | stdio (command : String) (args : List String) (env : SortedMap String String)
  | remote (url : String) (transport : RemoteTransport)

inductive McpPermissionAction where
  | allow
  | ask
  | deny
deriving DecidableEq

/-- The action for each tier of a server's tools, where it is set. -/
structure McpPermissions where
  readOnly : Option McpPermissionAction
  mutation : Option McpPermissionAction
  destructive : Option McpPermissionAction

structure MemoryHookSettings where
  adaptiveRecall : Bool

/-- A resolved MCP server. -/
structure ResolvedMcp where
  name : String
  kind : ResolvedKind
  headers : SortedMap String String
  timeout : Option UInt32
  disabledTools : List String
  mcpPermissions : Option McpPermissions
  memoryHook : Option MemoryHookSettings
  alwaysLoad : Option Bool

/-! ## Plugins -/

structure ResolvedPlugin where
  marketplace : String
  plugin : String
  installPath : Option String
  gitCommitSha : Option String

structure ResolvedMarketplace where
  name : String
  source : String
  installLocation : Option String
  head : Option String

/-! ## Capabilities -/

inductive HookHandlerKind where
  | command
  | mcpTool
deriving DecidableEq

inductive HookOnFailure where
  | block
deriving DecidableEq

structure HookHandler where
  kind : HookHandlerKind
  command : Option String
  tool : Option String
  onFailure : Option HookOnFailure

structure Hook where
  event : String
  matcher : Option String
  handler : HookHandler
  bundleOrigin : Option String

inductive PermissionMode where
  | acceptEdits
  | plan
  | default
  | bypassPermissions
  | auto
  | dontAsk
  | manual
deriving DecidableEq

structure LspServer where
  name : String
  command : String
  args : List String
  env : SortedMap String String
  disabled : Bool
  filetypes : List String
  rootMarkers : List String
  initOptions : Option Yaml
  timeout : Option UInt32

/-- The cost of a million tokens. -/
structure ModelCost where
  input : YamlNumber
  output : YamlNumber
  cacheRead : Option YamlNumber
  cacheWrite : Option YamlNumber

structure ModelSource where
  id : String
  name : Option String
  reasoning : Bool
  contextWindow : Option UInt32
  maxTokens : Option UInt32
  cost : Option ModelCost

structure ModelProvider where
  id : String
  name : Option String
  baseUrl : Option String
  apiType : Option String
  apiKey : Option String
  headers : SortedMap String String
  disabled : Bool
  models : List ModelSource

structure ModelRef where
  provider : String
  model : String
deriving DecidableEq

structure ModelEffort where
  effortLevel : Option String
  maxEffortLevel : Option String
deriving DecidableEq

structure SkillSource where
  name : String
  path : String

structure OutputStyle where
  name : String
  description : String
  content : String
  forceForPlugin : Bool

/-! ## Features -/

/-- An entry of `features.memory` or of `features.codebase_memory`. -/
structure MemoryEntry where
  tags : List String

structure ContextMode where
  enabled : Bool
  mcpPermissions : Option McpPermissions

structure SlippageControl where
  enabled : Bool
  ruleReinjection : Bool
  readBeforeEdit : Bool
  selfCritique : Bool
  metrics : Bool
  explainBeforeAct : Bool
  answerBeforeAct : Bool

structure TaskTracker where
  enabled : Bool
  blockEngineTaskTools : Bool
  nudges : Bool
  enforceCommit : Bool

structure Features where
  memory : List MemoryEntry
  contextMode : Option ContextMode
  slippage : Option SlippageControl
  taskTracker : Option TaskTracker
  codebaseMemory : List MemoryEntry

/-- The default mode stands beside the rules: it is a field of `permissions` in
the source. -/
structure Capabilities where
  permissions : Permissions
  defaultMode : Option PermissionMode
  hooks : List Hook
  lsp : List LspServer
  skills : List SkillSource
  outputStyles : List OutputStyle
  env : SortedMap String String
  autoMemoryEnabled : Option Bool
  effortLevel : Option String
  modelEffort : SortedMap String ModelEffort
  advisorModel : Option String
  nativePermissions : SortedMap String NativePermissionRules
  nativeHooks : SortedMap String Yaml
  nativePlugins : SortedMap String Yaml
  nativeMcp : SortedMap String Yaml
  nativeModelProviders : SortedMap String Yaml
  nativeDefaultModels : SortedMap String Yaml
  features : Option Features
  modelProviders : List ModelProvider
  defaultModels : SortedMap String ModelRef

/-! ## The manifest -/

structure RuleFile where
  bundle : String
  rel : String
  raw : String

structure Throttle where
  backend : String

/-- A place to which session activity is recorded. -/
structure Sink where
  enabled : Bool

structure SessionLog where
  file : Option Sink
  transcript : Option Sink

def SessionLog.anySinkEnabled (log : SessionLog) : Bool :=
  log.file.any Sink.enabled || log.transcript.any Sink.enabled

/-- `files` has the relative and the absolute path of each file, in the order of
the map. -/
structure MergedManifest where
  agentsMd : String
  files : List (String × String)
  rules : List RuleFile
  mcps : List ResolvedMcp
  plugins : List ResolvedPlugin
  marketplaces : List ResolvedMarketplace
  capabilities : Capabilities
  native : SortedMap String Yaml
  throttle : Option Throttle
  sessionLog : SessionLog

/-- What a map of fragments has for an engine. -/
def fragment (engine : String) (map : SortedMap String Yaml) : Option Yaml :=
  Fields.get engine map.items

/-- The name of the memory server. -/
def memoryMcpName : String := "icm"

def codebaseMemoryMcpName : String := "codebase-memory-mcp"

/-! ## An empty manifest -/

def Capabilities.empty : Capabilities where
  permissions := ⟨[], [], []⟩
  defaultMode := none
  hooks := []
  lsp := []
  skills := []
  outputStyles := []
  env := .empty
  autoMemoryEnabled := none
  effortLevel := none
  modelEffort := .empty
  advisorModel := none
  nativePermissions := .empty
  nativeHooks := .empty
  nativePlugins := .empty
  nativeMcp := .empty
  nativeModelProviders := .empty
  nativeDefaultModels := .empty
  features := none
  modelProviders := []
  defaultModels := .empty

/-- The default manifest: session activity goes to the transcript. -/
def MergedManifest.empty : MergedManifest where
  agentsMd := ""
  files := []
  rules := []
  mcps := []
  plugins := []
  marketplaces := []
  capabilities := .empty
  native := .empty
  throttle := none
  sessionLog := ⟨none, some ⟨true⟩⟩

end Llmenv.Manifest
