/-
# `Llmenv.Merge.Data` — the capabilities of one source, and their fields by shape

`Capabilities` of `crates/llmenv-config/src/schema.rs` with `CapabilityContributor`
of `src/merge/capabilities.rs`.  A merge looks into few of the values it handles;
the others are copied and compared only, and their types are parameters
(`Payload`).

The fields come in four shapes: scalars, maps whose keys are resolved one by one,
lists, and maps of native fragments.  A field of each shape is named, so that a
law of a shape is one statement about all its fields.
-/
import Mathlib.Order.Fin.Basic
import Llmenv.Manifest.Data
import Llmenv.Merge.YamlTree

namespace Llmenv.Merge

open Llmenv.Lib Llmenv.Adapter Llmenv.Manifest

/-- The types of values that a merge copies and compares, and does not look into. -/
inductive Payload where
  | mcpServer
  | lspServer
  | skillSource
  | outputStyle
  | modelProvider
  | memory
  | throttle
  | codebaseMemory
  | contextMode
  | upgradeConfig
  | readOnce
  | repeatDetect
  | slippageControl
  | taskTracker
  | cdGuard
  | launchProxy
  | sandbox

inductive PermissionPreset where
  | safeReadonly
deriving DecidableEq

structure Permissions where
  defaultMode : Option PermissionMode
  preset : Option PermissionPreset
  allow : List PermissionRule
  ask : List PermissionRule
  deny : List PermissionRule

structure HostEntry where
  addr : String
deriving DecidableEq

variable (P : Payload → Type)

/-- An entry of `features.memory`: the host that runs the server, and the rest. -/
structure Memory where
  serverHost : String
  rest : P .memory

structure CodebaseMemory where
  indexPath : Option String
  rest : P .codebaseMemory

structure SlippageControl where
  enabled : Bool
  effortLevel : Option String
  rest : P .slippageControl

structure Features where
  memory : List (Memory P)
  throttle : List (P .throttle)
  contextMode : Option (P .contextMode)
  upgrade : Option (P .upgradeConfig)
  readOnce : Option (P .readOnce)
  repeatDetect : Option (P .repeatDetect)
  slippage : Option (SlippageControl P)
  taskTracker : Option (P .taskTracker)
  codebaseMemory : List (CodebaseMemory P)
  cdGuard : Option (P .cdGuard)
  launchProxy : Option (P .launchProxy)
  sandbox : Option (P .sandbox)

/-- The fragments of a native map, by their engines. -/
abbrev NativeMap := SortedMap String Value

structure Capabilities where
  permissions : Permissions
  hooks : List Hook
  plugins : List String
  mcp : List (P .mcpServer)
  lsp : List (P .lspServer)
  skills : List (P .skillSource)
  outputStyles : List (P .outputStyle)
  env : SortedMap String String
  autoMemoryEnabled : Option Bool
  effortLevel : Option String
  modelEffort : SortedMap String ModelEffort
  advisorModel : Option String
  advisorSize : Option String
  nativePermissions : SortedMap String NativePermissionRules
  nativeHooks : NativeMap
  nativePlugins : NativeMap
  nativeMcp : NativeMap
  nativeModelProviders : NativeMap
  nativeDefaultModels : NativeMap
  native : NativeMap
  features : Option (Features P)
  host : SortedMap String HostEntry
  modelProviders : List (P .modelProvider)
  defaultModels : SortedMap String ModelRef

/-- A `u8`. -/
abbrev Precedence := Fin 256

/-- A source of capabilities; the name is for errors. -/
structure CapabilityContributor where
  name : String
  precedence : Precedence
  capabilities : Capabilities P

variable {P}

/-- True when no feature is set. -/
def Features.isEmpty (f : Features P) : Bool :=
  f.memory.isEmpty && f.throttle.isEmpty && f.codebaseMemory.isEmpty && f.readOnce.isNone &&
    f.repeatDetect.isNone && f.slippage.isNone && f.contextMode.isNone && f.upgrade.isNone &&
    f.taskTracker.isNone && f.cdGuard.isNone && f.launchProxy.isNone && f.sandbox.isNone

def Permissions.isEmpty (p : Permissions) : Bool :=
  p.defaultMode.isNone && p.preset.isNone && p.allow.isEmpty && p.ask.isEmpty && p.deny.isEmpty

/-- True when no capability is declared. -/
def Capabilities.isEmpty (c : Capabilities P) : Bool :=
  c.permissions.isEmpty && c.hooks.isEmpty && c.plugins.isEmpty && c.mcp.isEmpty &&
    c.lsp.isEmpty && c.skills.isEmpty && c.outputStyles.isEmpty && c.env.items.isEmpty &&
    c.autoMemoryEnabled.isNone && c.effortLevel.isNone && c.modelEffort.items.isEmpty &&
    c.advisorModel.isNone && c.nativePermissions.items.isEmpty && c.nativeHooks.items.isEmpty &&
    c.nativePlugins.items.isEmpty && c.nativeMcp.items.isEmpty &&
    c.nativeModelProviders.items.isEmpty && c.nativeDefaultModels.items.isEmpty &&
    c.native.items.isEmpty && c.features.all Features.isEmpty && c.host.items.isEmpty &&
    c.modelProviders.isEmpty && c.defaultModels.items.isEmpty

def Permissions.empty : Permissions where
  defaultMode := none
  preset := none
  allow := []
  ask := []
  deny := []

def Features.empty : Features P where
  memory := []
  throttle := []
  contextMode := none
  upgrade := none
  readOnce := none
  repeatDetect := none
  slippage := none
  taskTracker := none
  codebaseMemory := []
  cdGuard := none
  launchProxy := none
  sandbox := none

/-- The default value. -/
def Capabilities.empty : Capabilities P where
  permissions := .empty
  hooks := []
  plugins := []
  mcp := []
  lsp := []
  skills := []
  outputStyles := []
  env := .empty
  autoMemoryEnabled := none
  effortLevel := none
  modelEffort := .empty
  advisorModel := none
  advisorSize := none
  nativePermissions := .empty
  nativeHooks := .empty
  nativePlugins := .empty
  nativeMcp := .empty
  nativeModelProviders := .empty
  nativeDefaultModels := .empty
  native := .empty
  features := none
  host := .empty
  modelProviders := []
  defaultModels := .empty

/-! ## Equality -/

section

variable [∀ k, DecidableEq (P k)]

instance : DecidableEq (Memory P) := fun a b =>
  decidable_of_iff (a.serverHost = b.serverHost ∧ a.rest = b.rest) (by cases a; cases b; simp)

instance : DecidableEq (CodebaseMemory P) := fun a b =>
  decidable_of_iff (a.indexPath = b.indexPath ∧ a.rest = b.rest) (by cases a; cases b; simp)

instance : DecidableEq (SlippageControl P) := fun a b =>
  decidable_of_iff (a.enabled = b.enabled ∧ a.effortLevel = b.effortLevel ∧ a.rest = b.rest)
    (by cases a; cases b; simp)

end

/-! ## Fields by shape -/

/-- A field of which the highest precedence counts. -/
inductive ScalarField where
  | preset
  | defaultMode
  | autoMemoryEnabled
  | effortLevel
  | advisorModel
  | slippage
  | contextMode
  | upgrade
  | readOnce
  | taskTracker
  | repeatDetect
  | cdGuard
  | launchProxy
  | sandbox
deriving DecidableEq

abbrev ScalarField.Value (P : Payload → Type) : ScalarField → Type
  | preset => PermissionPreset
  | defaultMode => PermissionMode
  | autoMemoryEnabled => Bool
  | effortLevel => String
  | advisorModel => String
  | slippage => SlippageControl P
  | contextMode => P .contextMode
  | upgrade => P .upgradeConfig
  | readOnce => P .readOnce
  | taskTracker => P .taskTracker
  | repeatDetect => P .repeatDetect
  | cdGuard => P .cdGuard
  | launchProxy => P .launchProxy
  | sandbox => P .sandbox

def Capabilities.scalar (c : Capabilities P) : (f : ScalarField) → Option (f.Value P)
  | .preset => c.permissions.preset
  | .defaultMode => c.permissions.defaultMode
  | .autoMemoryEnabled => c.autoMemoryEnabled
  | .effortLevel => c.effortLevel
  | .advisorModel => c.advisorModel
  | .slippage => c.features.bind Features.slippage
  | .contextMode => c.features.bind Features.contextMode
  | .upgrade => c.features.bind Features.upgrade
  | .readOnce => c.features.bind Features.readOnce
  | .taskTracker => c.features.bind Features.taskTracker
  | .repeatDetect => c.features.bind Features.repeatDetect
  | .cdGuard => c.features.bind Features.cdGuard
  | .launchProxy => c.features.bind Features.launchProxy
  | .sandbox => c.features.bind Features.sandbox

/-- The name in errors. -/
def ScalarField.name : ScalarField → String
  | preset => "preset"
  | defaultMode => "default_mode"
  | autoMemoryEnabled => "auto_memory_enabled"
  | effortLevel => "effort_level"
  | advisorModel => "advisor_model"
  | slippage => "slippage"
  | contextMode => "context_mode"
  | upgrade => "upgrade"
  | readOnce => "read_once"
  | taskTracker => "task_tracker"
  | repeatDetect => "repeat_detect"
  | cdGuard => "cd_guard"
  | launchProxy => "launch_proxy"
  | sandbox => "sandbox"

instance [∀ k, DecidableEq (P k)] : (f : ScalarField) → DecidableEq (f.Value P)
  | .preset => inferInstanceAs (DecidableEq PermissionPreset)
  | .defaultMode => inferInstanceAs (DecidableEq PermissionMode)
  | .autoMemoryEnabled => inferInstanceAs (DecidableEq Bool)
  | .effortLevel => inferInstanceAs (DecidableEq String)
  | .advisorModel => inferInstanceAs (DecidableEq String)
  | .slippage => inferInstanceAs (DecidableEq (SlippageControl P))
  | .contextMode => inferInstanceAs (DecidableEq (P _))
  | .upgrade => inferInstanceAs (DecidableEq (P _))
  | .readOnce => inferInstanceAs (DecidableEq (P _))
  | .taskTracker => inferInstanceAs (DecidableEq (P _))
  | .repeatDetect => inferInstanceAs (DecidableEq (P _))
  | .cdGuard => inferInstanceAs (DecidableEq (P _))
  | .launchProxy => inferInstanceAs (DecidableEq (P _))
  | .sandbox => inferInstanceAs (DecidableEq (P _))

/-- A map of which the highest precedence counts under each key. -/
inductive MapField where
  | env
  | defaultModels
  | modelEffort
  | host
deriving DecidableEq

abbrev MapField.Value : MapField → Type
  | env => String
  | defaultModels => ModelRef
  | modelEffort => ModelEffort
  | host => HostEntry

def Capabilities.mapOf (c : Capabilities P) : (f : MapField) → SortedMap String f.Value
  | .env => c.env
  | .defaultModels => c.defaultModels
  | .modelEffort => c.modelEffort
  | .host => c.host

/-- What a key is called in errors. -/
def MapField.label : MapField → String
  | env => "env key"
  | defaultModels => "default_models role"
  | modelEffort => "model_effort model"
  | host => "host entry"

instance : (f : MapField) → DecidableEq f.Value
  | .env => inferInstanceAs (DecidableEq String)
  | .defaultModels => inferInstanceAs (DecidableEq ModelRef)
  | .modelEffort => inferInstanceAs (DecidableEq ModelEffort)
  | .host => inferInstanceAs (DecidableEq HostEntry)

/-- A list that has the elements of all contributors.  The native rules have three lists for
each engine. -/
inductive ListField where
  | hooks
  | plugins
  | mcp
  | lsp
  | skills
  | outputStyles
  | modelProviders
  | allow
  | ask
  | deny
  | memory
  | throttle
  | codebaseMemory
  | nativeAllow (engine : String)
  | nativeAsk (engine : String)
  | nativeDeny (engine : String)

abbrev ListField.Elem (P : Payload → Type) : ListField → Type
  | hooks => Hook
  | plugins => String
  | mcp => P .mcpServer
  | lsp => P .lspServer
  | skills => P .skillSource
  | outputStyles => P .outputStyle
  | modelProviders => P .modelProvider
  | allow => PermissionRule
  | ask => PermissionRule
  | deny => PermissionRule
  | memory => Memory P
  | throttle => P .throttle
  | codebaseMemory => CodebaseMemory P
  | nativeAllow _ => String
  | nativeAsk _ => String
  | nativeDeny _ => String

/-- What `or_default` gives. -/
def noRules : NativePermissionRules := ⟨[], [], []⟩

/-- The rules of an engine, none without an entry. -/
def Capabilities.nativeRules (c : Capabilities P) (engine : String) : NativePermissionRules :=
  (Fields.get engine c.nativePermissions.items).getD noRules

def Capabilities.list (c : Capabilities P) : (f : ListField) → List (f.Elem P)
  | .hooks => c.hooks
  | .plugins => c.plugins
  | .mcp => c.mcp
  | .lsp => c.lsp
  | .skills => c.skills
  | .outputStyles => c.outputStyles
  | .modelProviders => c.modelProviders
  | .allow => c.permissions.allow
  | .ask => c.permissions.ask
  | .deny => c.permissions.deny
  | .memory => (c.features.map Features.memory).getD []
  | .throttle => (c.features.map Features.throttle).getD []
  | .codebaseMemory => (c.features.map Features.codebaseMemory).getD []
  | .nativeAllow engine => (c.nativeRules engine).allow
  | .nativeAsk engine => (c.nativeRules engine).ask
  | .nativeDeny engine => (c.nativeRules engine).deny

/-- A map of fragments that are merged as YAML values. -/
inductive NativeField where
  | nativeHooks
  | nativePlugins
  | nativeMcp
  | nativeModelProviders
  | nativeDefaultModels
  | native
deriving DecidableEq

def Capabilities.nativeOf (c : Capabilities P) : NativeField → NativeMap
  | .nativeHooks => c.nativeHooks
  | .nativePlugins => c.nativePlugins
  | .nativeMcp => c.nativeMcp
  | .nativeModelProviders => c.nativeModelProviders
  | .nativeDefaultModels => c.nativeDefaultModels
  | .native => c.native

end Llmenv.Merge
