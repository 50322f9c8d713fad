/-
# `Llmenv.Merge.Capabilities` — merging the capabilities of all sources

`merge_capabilities` of `src/merge/capabilities.rs` with the rules of the presets,
`dedup_hooks` and `expand_tilde`.

The contributors can come in any order (`mergeCapabilities_perm`): a merge fails
when two contributors of one precedence differ in a scalar or under a key of a
map, and also when the `~` of an index path cannot be expanded
(`mergeCapabilities_ok_iff`).  On success scalars and maps have the values of the
highest precedence, and lists the same elements.
-/
import Llmenv.Adapter.Tools
import Llmenv.Lib.JoinMap
import Llmenv.Lib.Keyed
import Llmenv.Lib.Text
import Llmenv.Merge.Precedence

namespace Llmenv.Merge

open Llmenv.Lib Llmenv.Lib.Ranked Llmenv.Adapter Llmenv.Manifest

/-! ## The code -/

/-- `HOME`, as `std::env::var` reads it. -/
inductive Home where
  | notPresent
  | notUnicode
  | value (home : String)

/-- Expand a leading `~` or `~/`.  `HOME` is read only for such a path. -/
def expandTilde (home : Home) (p : String) : Except HomeError String :=
  match p.toList with
  | '~' :: rest =>
      if rest.isEmpty || rest.head? == some '/' then
        match home with
        | .value home => if home ≠ "" then .ok (home ++ String.ofList rest) else .error .unset
        | .notPresent => .error .unset
        | .notUnicode => .error .notUnicode
      else .ok p
  | _ => .ok p

def bashRule (pattern : String) : PermissionRule := ⟨"Bash", some pattern, []⟩

/-- The `allow` rules of a preset. -/
def safeReadonlyAllowRulesFor : PermissionPreset → List PermissionRule
  | .safeReadonly =>
      [bashRule "rg *", bashRule "ast-grep *", bashRule "shellcheck *", bashRule "shfmt *",
       bashRule "git status", bashRule "git status *", bashRule "git diff",
       bashRule "git diff *", bashRule "git log", bashRule "git log *", bashRule "git show",
       bashRule "git show *", bashRule "git blame", bashRule "git blame *", bashRule "ls",
       bashRule "ls *"]

/-- The `deny` rules that close the escapes of the `allow` rules. -/
def safeReadonlyDenyRulesFor : PermissionPreset → List PermissionRule
  | .safeReadonly =>
      [bashRule "rg *--pre*", bashRule "rg *--hostname-bin*", bashRule "ast-grep *-U*",
       bashRule "ast-grep *--update-all*", bashRule "shfmt *-w*", bashRule "shfmt *--write*",
       bashRule "git diff *--output*", bashRule "git log *--output*",
       bashRule "git show *--output*"]

/-- What `same_guard` compares: everything but `on_failure`. -/
structure Guard where
  bundleOrigin : Option String
  event : String
  matcher : Option String
  kind : HookHandlerKind
  command : Option String
  tool : Option String
deriving DecidableEq

def guardOf (h : Hook) : Guard :=
  ⟨h.bundleOrigin, h.event, h.matcher, h.handler.kind, h.handler.command, h.handler.tool⟩

/-- One round of `dedup_hooks`: a guard that is kept already takes the stricter setting. -/
def keepHook (kept : Keyed guardOf) (hook : Hook) : Keyed guardOf :=
  match kept.find? (guardOf hook) with
  | some k =>
      kept.put { k with handler :=
        { k.handler with onFailure := k.handler.onFailure.or hook.handler.onFailure } }
  | none => kept.put hook

def dedupHooks (hooks : List Hook) : List Hook := (hooks.foldl keepHook .empty).items

variable {P : Payload → Type}

/-- The lists of all contributors, one after the other. -/
def concat {α : Type} (ordered : List (CapabilityContributor P)) (f : Capabilities P → List α) :
    List α := ordered.flatMap fun c => f c.capabilities

def extendRules (slot rules : NativePermissionRules) : NativePermissionRules :=
  ⟨slot.allow ++ rules.allow, slot.ask ++ rules.ask, slot.deny ++ rules.deny⟩

/-- The rules of one contributor, added to those of each engine. -/
def addNativeRules (rules more : SortedMap String NativePermissionRules) :
    SortedMap String NativePermissionRules :=
  more.items.foldl (fun rules e =>
    rules.insert e.1 (extendRules ((Fields.get e.1 rules.items).getD noRules) e.2)) rules

def dedupNativeRules (rules : NativePermissionRules) : NativePermissionRules :=
  ⟨dedup rules.allow, dedup rules.ask, dedup rules.deny⟩

/-- Change every value of a map. -/
def mapValues {α β : Type} (f : α → β) (m : SortedMap String α) : SortedMap String β :=
  ⟨Fields.mapValues f m.items, Fields.sorted_mapValues m.sorted⟩

def mergeNativePermissions (ordered : List (CapabilityContributor P)) :
    SortedMap String NativePermissionRules :=
  mapValues dedupNativeRules
    (ordered.foldl (fun rules c => addNativeRules rules c.capabilities.nativePermissions) .empty)

def expandCodebaseMemory (home : Home) (cm : CodebaseMemory P) :
    Except MergeError (CodebaseMemory P) :=
  match cm.indexPath with
  | none => .ok cm
  | some raw =>
      match expandTilde home raw with
      | .ok expanded => .ok { cm with indexPath := some expanded }
      | .error reason => .error (.indexPath raw reason)

def expandAll (home : Home) : List (CodebaseMemory P) → Except MergeError (List (CodebaseMemory P))
  | [] => .ok []
  | cm :: cms => do
      let cm ← expandCodebaseMemory home cm
      let cms ← expandAll home cms
      .ok (cm :: cms)

/-- No features instead of features of which none is set. -/
def keepFeatures (features : Features P) : Option (Features P) :=
  if features.isEmpty then none else some features

variable [∀ k, DecidableEq (P k)]

/-- Merge the capabilities of all contributors by value shape. -/
def mergeCapabilities (home : Home) (contributors : List (CapabilityContributor P)) :
    Except MergeError (Capabilities P) := do
  let ordered := sortByKey CapabilityContributor.precedence contributors
  let preset ← highestPrecedence contributors "preset" fun c => c.permissions.preset
  let presetAllow := (preset.map safeReadonlyAllowRulesFor).getD []
  let presetDeny := (preset.map safeReadonlyDenyRulesFor).getD []
  let env ← resolvePerKey contributors "env key" fun c => c.env
  let defaultModels ← resolvePerKey contributors "default_models role" fun c => c.defaultModels
  let modelEffort ← resolvePerKey contributors "model_effort model" fun c => c.modelEffort
  let defaultMode ← highestPrecedence contributors "default_mode" fun c => c.permissions.defaultMode
  let host ← resolvePerKey contributors "host entry" fun c => c.host
  let autoMemoryEnabled ←
    highestPrecedence contributors "auto_memory_enabled" fun c => c.autoMemoryEnabled
  let effortLevel ← highestPrecedence contributors "effort_level" fun c => c.effortLevel
  let advisorModel ← highestPrecedence contributors "advisor_model" fun c => c.advisorModel
  let codebaseMemory ← expandAll home (concat ordered fun c => c.list .codebaseMemory)
  let slippage ← highestPrecedence contributors "slippage" fun c => c.features.bind Features.slippage
  let contextMode ←
    highestPrecedence contributors "context_mode" fun c => c.features.bind Features.contextMode
  let upgrade ← highestPrecedence contributors "upgrade" fun c => c.features.bind Features.upgrade
  let readOnce ←
    highestPrecedence contributors "read_once" fun c => c.features.bind Features.readOnce
  let taskTracker ←
    highestPrecedence contributors "task_tracker" fun c => c.features.bind Features.taskTracker
  let repeatDetect ←
    highestPrecedence contributors "repeat_detect" fun c => c.features.bind Features.repeatDetect
  let cdGuard ← highestPrecedence contributors "cd_guard" fun c => c.features.bind Features.cdGuard
  let launchProxy ←
    highestPrecedence contributors "launch_proxy" fun c => c.features.bind Features.launchProxy
  let sandbox ← highestPrecedence contributors "sandbox" fun c => c.features.bind Features.sandbox
  let features : Features P :=
    { memory := dedup (concat ordered fun c => c.list .memory)
      throttle := dedup (concat ordered fun c => c.list .throttle)
      codebaseMemory := dedup codebaseMemory
      contextMode, upgrade, readOnce, repeatDetect, slippage, taskTracker, cdGuard, launchProxy,
      sandbox }
  .ok
    { permissions :=
        { defaultMode, preset
          allow := dedup (concat ordered (fun c => c.permissions.allow) ++ presetAllow)
          ask := dedup (concat ordered fun c => c.permissions.ask)
          deny := dedup (concat ordered (fun c => c.permissions.deny) ++ presetDeny) }
      hooks := dedupHooks (concat ordered fun c => c.hooks)
      plugins := dedup (concat ordered fun c => c.plugins)
      mcp := dedup (concat ordered fun c => c.mcp)
      lsp := dedup (concat ordered fun c => c.lsp)
      skills := dedup (concat ordered fun c => c.skills)
      outputStyles := dedup (concat ordered fun c => c.outputStyles)
      env, autoMemoryEnabled, effortLevel, modelEffort, advisorModel
      advisorSize := none
      nativePermissions := mergeNativePermissions ordered
      nativeHooks := mergeNativeFeature contributors fun c => c.nativeHooks
      nativePlugins := mergeNativeFeature contributors fun c => c.nativePlugins
      nativeMcp := mergeNativeFeature contributors fun c => c.nativeMcp
      nativeModelProviders := mergeNativeFeature contributors fun c => c.nativeModelProviders
      nativeDefaultModels := mergeNativeFeature contributors fun c => c.nativeDefaultModels
      native := mergeNativeFeature contributors fun c => c.native
      features := keepFeatures features
      host
      modelProviders := dedup (concat ordered fun c => c.modelProviders)
      defaultModels }

/-! ## Hooks -/

/-- The setting that is kept for a guard. -/
def settingOf (kept : Keyed guardOf) (g : Guard) : Option (Option HookOnFailure) :=
  kept.view (fun h => h.handler.onFailure) g

theorem settingOf_keepHook (kept : Keyed guardOf) (hook : Hook) (g : Guard) :
    settingOf (keepHook kept hook) g =
      if guardOf hook = g then
        some (((settingOf kept g).getD none).or hook.handler.onFailure)
      else settingOf kept g := by
  rw [settingOf, settingOf, Keyed.view, Keyed.view, keepHook]
  cases hfind : kept.find? (guardOf hook) with
  | none =>
      show ((kept.put hook).find? g).map _ = _
      rw [Keyed.find?_put]
      by_cases hg : guardOf hook = g
      · subst hg
        rw [if_pos rfl, if_pos rfl, hfind]
        rfl
      · rw [if_neg hg, if_neg hg]
  | some k =>
      have hk := Keyed.key_of_find? hfind
      show ((kept.put _).find? g).map _ = _
      rw [Keyed.find?_put]
      have hsame : guardOf { k with handler :=
          { k.handler with onFailure := k.handler.onFailure.or hook.handler.onFailure } } =
          guardOf k := rfl
      rw [hsame, hk]
      by_cases hg : guardOf hook = g
      · subst hg
        rw [if_pos rfl, if_pos rfl, hfind]
        rfl
      · rw [if_neg hg, if_neg hg]

theorem settingOf_ne_none (hooks : List Hook) (g : Guard) (kept : Keyed guardOf) :
    settingOf (hooks.foldl keepHook kept) g ≠ none ↔
      settingOf kept g ≠ none ∨ ∃ h ∈ hooks, guardOf h = g := by
  induction hooks generalizing kept with
  | nil => simp
  | cons hook hooks ih =>
      rw [List.foldl_cons, ih, settingOf_keepHook]
      by_cases hg : guardOf hook = g
      · simp [hg]
      · simp [hg]

/-- The stricter of two settings. -/
theorem or_eq_block {old : Option (Option HookOnFailure)} {new : Option HookOnFailure} :
    (old.getD none).or new = some .block ↔ old = some (some .block) ∨ new = some .block := by
  rcases old with - | - | - <;> rcases new with - | - <;> simp

/-- The kept setting blocks when any copy of the guard does. -/
theorem settingOf_block (hooks : List Hook) (g : Guard) (kept : Keyed guardOf) :
    settingOf (hooks.foldl keepHook kept) g = some (some .block) ↔
      settingOf kept g = some (some .block) ∨
        ∃ h ∈ hooks, guardOf h = g ∧ h.handler.onFailure = some .block := by
  induction hooks generalizing kept with
  | nil => simp
  | cons hook hooks ih =>
      rw [List.foldl_cons, ih, settingOf_keepHook]
      by_cases hg : guardOf hook = g
      · rw [if_pos hg, Option.some.injEq, or_eq_block]
        simp [hg, or_assoc]
      · simp [hg]

/-- Each guard is kept once, and blocks exactly when one of its copies does. -/
theorem mem_dedupHooks {hooks : List Hook} {h : Hook} :
    h ∈ dedupHooks hooks ↔ (∃ x ∈ hooks, guardOf x = guardOf h) ∧
      (h.handler.onFailure = some .block ↔
        ∃ x ∈ hooks, guardOf x = guardOf h ∧ x.handler.onFailure = some .block) := by
  have hkept : h ∈ dedupHooks hooks ↔
      settingOf (hooks.foldl keepHook .empty) (guardOf h) = some h.handler.onFailure := by
    rw [dedupHooks, Keyed.mem_iff_find?, settingOf, Keyed.view, Option.map_eq_some_iff]
    constructor
    · intro hfind
      exact ⟨h, hfind, rfl⟩
    · rintro ⟨k, hfind, heq⟩
      -- A hook is its guard and its setting.
      have hguard := Keyed.key_of_find? hfind
      obtain ⟨event, matcher, ⟨kind, command, tool, onFailure⟩, origin⟩ := h
      obtain ⟨event', matcher', ⟨kind', command', tool', onFailure'⟩, origin'⟩ := k
      simp only [guardOf, Guard.mk.injEq] at hguard
      obtain ⟨rfl, rfl, rfl, rfl, rfl, rfl⟩ := hguard
      obtain rfl : onFailure' = onFailure := heq
      exact hfind
  have hempty : settingOf .empty (guardOf h) = none := rfl
  have hsome := settingOf_ne_none hooks (guardOf h) .empty
  have hblock := settingOf_block hooks (guardOf h) .empty
  rw [hempty] at hsome hblock
  rw [hkept]
  simp only [ne_eq, not_true_eq_false, false_or, reduceCtorEq] at hsome hblock
  rw [← hsome, ← hblock]
  rcases settingOf (hooks.foldl keepHook .empty) (guardOf h) with - | - | - <;>
    rcases h.handler.onFailure with - | - <;> simp

/-! ## Lists -/

section

omit [∀ k, DecidableEq (P k)]

theorem mem_concat {α : Type} {cs : List (CapabilityContributor P)} {f : Capabilities P → List α}
    {x : α} :
    x ∈ concat (sortByKey CapabilityContributor.precedence cs) f ↔
      ∃ c ∈ cs, x ∈ f c.capabilities := by
  rw [concat, List.mem_flatMap]
  exact exists_congr fun c => and_congr_left fun _ => mem_sortByKey

/-- The same for an element with a property. -/
theorem exists_mem_concat {α : Type} {cs : List (CapabilityContributor P)}
    {f : Capabilities P → List α} {Q : α → Prop} :
    (∃ x ∈ concat (sortByKey CapabilityContributor.precedence cs) f, Q x) ↔
      ∃ c ∈ cs, ∃ x ∈ f c.capabilities, Q x := by
  constructor
  · rintro ⟨x, hx, hQ⟩
    obtain ⟨c, hc, hx⟩ := mem_concat.mp hx
    exact ⟨c, hc, x, hx, hQ⟩
  · rintro ⟨c, hc, x, hx, hQ⟩
    exact ⟨x, mem_concat.mpr ⟨c, hc, hx⟩, hQ⟩

/-- The rules of an engine in a map, none without an entry. -/
def rulesIn (rules : SortedMap String NativePermissionRules) (engine : String) :
    NativePermissionRules := (Fields.get engine rules.items).getD noRules

theorem get_addNativeRules (rules more : SortedMap String NativePermissionRules)
    (engine : String) :
    Fields.get engine (addNativeRules rules more).items =
      match Fields.get engine more.items with
      | some r => some (extendRules (rulesIn rules engine) r)
      | none => Fields.get engine rules.items := by
  have hstep := Fields.look_foldl_step
    (fun k (m : SortedMap String NativePermissionRules) => Fields.get k m.items)
    (f := fun m j r => m.insert j (extendRules ((Fields.get j m.items).getD noRules) r))
    (g := fun _ r old => some (extendRules (old.getD noRules) r))
    (fun m j _ k => Fields.get_insert j k _ m.items) more.sorted engine rules
  refine Eq.trans hstep ?_
  cases Fields.get engine more.items with
  | none => rfl
  | some r => rfl

/-- The rules of all contributors for an engine, one of the three lists. -/
theorem rulesIn_foldl {sel : NativePermissionRules → List String}
    (hsel : ∀ a b, sel (extendRules a b) = sel a ++ sel b)
    (hnone : sel noRules = []) (engine : String) :
    ∀ (ordered : List (CapabilityContributor P)) (rules : SortedMap String NativePermissionRules),
      sel (rulesIn (ordered.foldl
        (fun rules c => addNativeRules rules c.capabilities.nativePermissions) rules) engine) =
        sel (rulesIn rules engine) ++ concat ordered fun c => sel (c.nativeRules engine) := by
  intro ordered
  induction ordered with
  | nil =>
      intro rules
      exact (List.append_nil _).symm
  | cons c ordered ih =>
      intro rules
      have hstep : sel (rulesIn (addNativeRules rules c.capabilities.nativePermissions) engine) =
          sel (rulesIn rules engine) ++ sel (c.capabilities.nativeRules engine) := by
        rw [rulesIn, get_addNativeRules, Capabilities.nativeRules]
        cases Fields.get engine c.capabilities.nativePermissions.items with
        | none =>
            show sel (rulesIn rules engine) = _ ++ sel noRules
            rw [hnone, List.append_nil]
        | some r => exact hsel _ r
      rw [List.foldl_cons, ih, hstep, List.append_assoc]
      rfl

theorem mem_mergeNativePermissions (sel : NativePermissionRules → List String)
    (hsel : ∀ a b, sel (extendRules a b) = sel a ++ sel b)
    (hnone : sel noRules = []) (hdedup : ∀ r, sel (dedupNativeRules r) = dedup (sel r))
    {cs : List (CapabilityContributor P)} {engine x : String} :
    x ∈ sel (rulesIn (mergeNativePermissions
      (sortByKey CapabilityContributor.precedence cs)) engine) ↔
      ∃ c ∈ cs, x ∈ sel (c.capabilities.nativeRules engine) := by
  have hfold := rulesIn_foldl hsel hnone engine
    (sortByKey CapabilityContributor.precedence cs) .empty
  have hempty : sel (rulesIn .empty engine) = [] := hnone
  rw [hempty, List.nil_append] at hfold
  refine Iff.trans ?_ (mem_concat (f := fun c => sel (c.nativeRules engine)))
  rw [← hfold, rulesIn, rulesIn, mergeNativePermissions, mapValues, Fields.get_mapValues]
  cases Fields.get engine (List.foldl _ SortedMap.empty _).items with
  | none => exact Iff.rfl
  | some r =>
      show x ∈ sel (dedupNativeRules r) ↔ x ∈ sel r
      rw [hdedup, mem_dedup]

/-- An engine has rules when it has some of a contributor. -/
theorem get_mergeNativePermissions {cs : List (CapabilityContributor P)} {engine : String} :
    Fields.get engine (mergeNativePermissions
      (sortByKey CapabilityContributor.precedence cs)).items ≠ none ↔
      ∃ c ∈ cs, Fields.get engine c.capabilities.nativePermissions.items ≠ none := by
  have hfold : ∀ (ordered : List (CapabilityContributor P))
      (rules : SortedMap String NativePermissionRules),
      Fields.get engine (ordered.foldl
        (fun rules c => addNativeRules rules c.capabilities.nativePermissions) rules).items ≠ none ↔
        Fields.get engine rules.items ≠ none ∨
          ∃ c ∈ ordered, Fields.get engine c.capabilities.nativePermissions.items ≠ none := by
    intro ordered
    induction ordered with
    | nil => simp
    | cons c ordered ih =>
        intro rules
        rw [List.foldl_cons, ih, get_addNativeRules]
        cases hget : Fields.get engine c.capabilities.nativePermissions.items with
        | none => simp [hget]
        | some r => simp [hget]
  rw [mergeNativePermissions, mapValues, Fields.get_mapValues]
  have h := hfold (sortByKey CapabilityContributor.precedence cs) .empty
  have hempty : Fields.get engine
      (SortedMap.empty : SortedMap String NativePermissionRules).items = none := rfl
  simp only [hempty, ne_eq, not_true_eq_false, false_or, mem_sortByKey] at h
  refine Iff.trans ?_ h
  simp

theorem mem_expandAll {home : Home} {cms out : List (CodebaseMemory P)}
    (h : expandAll home cms = .ok out) (cm : CodebaseMemory P) :
    cm ∈ out ↔ ∃ raw ∈ cms, expandCodebaseMemory home raw = .ok cm := by
  induction cms generalizing out with
  | nil =>
      obtain rfl := Except.ok.inj h
      simp
  | cons raw cms ih =>
      obtain ⟨first, hfirst, h⟩ := bind_eq_ok.mp h
      obtain ⟨rest, hrest, h⟩ := bind_eq_ok.mp h
      obtain rfl := Except.ok.inj h
      rw [List.mem_cons, ih hrest, List.exists_mem_cons_iff, hfirst, Except.ok.injEq]
      exact or_congr_left eq_comm

/-- All entries can be expanded, or the merge fails. -/
theorem expandAll_ok_iff {home : Home} {cms : List (CodebaseMemory P)} :
    (∃ out, expandAll home cms = .ok out) ↔
      ∀ cm ∈ cms, ∃ out, expandCodebaseMemory home cm = .ok out := by
  induction cms with
  | nil => exact ⟨fun _ cm hcm => absurd hcm List.not_mem_nil, fun _ => ⟨[], rfl⟩⟩
  | cons cm cms ih =>
      rw [List.forall_mem_cons, ← ih]
      constructor
      · rintro ⟨out, h⟩
        obtain ⟨first, hfirst, h⟩ := bind_eq_ok.mp h
        obtain ⟨rest, hrest, -⟩ := bind_eq_ok.mp h
        exact ⟨⟨first, hfirst⟩, rest, hrest⟩
      · rintro ⟨⟨first, hfirst⟩, rest, hrest⟩
        exact ⟨first :: rest, bind_eq_ok.mpr ⟨first, hfirst, bind_eq_ok.mpr ⟨rest, hrest, rfl⟩⟩⟩

end

/-! ## What a merge gives -/

/-- The elements of a merged list; `preset` is the merged preset. -/
def Contributed (home : Home) (cs : List (CapabilityContributor P))
    (preset : Option PermissionPreset) : (f : ListField) → f.Elem P → Prop
  | .hooks, h =>
      (∃ c ∈ cs, ∃ x ∈ c.capabilities.hooks, guardOf x = guardOf h) ∧
        (h.handler.onFailure = some .block ↔ ∃ c ∈ cs, ∃ x ∈ c.capabilities.hooks,
          guardOf x = guardOf h ∧ x.handler.onFailure = some .block)
  | .allow, r =>
      (∃ c ∈ cs, r ∈ c.capabilities.permissions.allow) ∨
        r ∈ (preset.map safeReadonlyAllowRulesFor).getD []
  | .deny, r =>
      (∃ c ∈ cs, r ∈ c.capabilities.permissions.deny) ∨
        r ∈ (preset.map safeReadonlyDenyRulesFor).getD []
  | .codebaseMemory, cm =>
      ∃ c ∈ cs, ∃ raw ∈ c.capabilities.list .codebaseMemory,
        expandCodebaseMemory home raw = .ok cm
  | f, x => ∃ c ∈ cs, x ∈ c.capabilities.list f

/-- The fields of a merge, shape by shape. -/
structure Merged (home : Home) (cs : List (CapabilityContributor P)) (m : Capabilities P) :
    Prop where
  scalars : ∀ f : ScalarField,
    highestPrecedence cs f.name (fun c => c.scalar f) = .ok (m.scalar f)
  maps : ∀ f : MapField, resolvePerKey cs f.label (fun c => c.mapOf f) = .ok (m.mapOf f)
  natives : ∀ f : NativeField, m.nativeOf f = mergeNativeFeature cs fun c => c.nativeOf f
  lists : ∀ f x, x ∈ m.list f ↔ Contributed home cs m.permissions.preset f x
  engines : ∀ engine, Fields.get engine m.nativePermissions.items ≠ none ↔
    ∃ c ∈ cs, Fields.get engine c.capabilities.nativePermissions.items ≠ none
  expanded : ∃ out, expandAll home (concat (sortByKey CapabilityContributor.precedence cs)
    fun c => c.list .codebaseMemory) = .ok out
  memory : m.list .memory = dedup (concat (sortByKey CapabilityContributor.precedence cs)
    fun c => c.list .memory)
  noSize : m.advisorSize = none

section

omit [∀ k, DecidableEq (P k)]

theorem Features.eq_empty {F : Features P} (h : F.isEmpty = true) : F = .empty := by
  cases F
  simpa [Features.isEmpty, Features.empty, and_assoc, and_comm, and_left_comm] using h

/-- Nothing is lost by leaving out features of which none is set. -/
theorem keepFeatures_bind {V : Type} {F : Features P} {g : Features P → Option V}
    (hempty : g .empty = none) : (keepFeatures F).bind g = g F := by
  rw [keepFeatures]
  split
  · rename_i h
    rw [Features.eq_empty h, hempty]
    rfl
  · rfl

theorem keepFeatures_list {V : Type} {F : Features P} {g : Features P → List V}
    (hempty : g .empty = []) : ((keepFeatures F).map g).getD [] = g F := by
  rw [keepFeatures]
  split
  · rename_i h
    rw [Features.eq_empty h, hempty]
    rfl
  · rfl

theorem ok_of_feature {V : Type} {x : Except MergeError (Option V)} {F : Features P}
    {g : Features P → Option V} (hempty : g .empty = none) (h : x = .ok (g F)) :
    x = .ok ((keepFeatures F).bind g) := by
  rw [h, keepFeatures_bind hempty]

theorem mem_dedup_concat {α : Type} [DecidableEq α] {cs : List (CapabilityContributor P)}
    {f : Capabilities P → List α} {x : α} :
    x ∈ dedup (concat (sortByKey CapabilityContributor.precedence cs) f) ↔
      ∃ c ∈ cs, x ∈ f c.capabilities := by
  rw [mem_dedup, mem_concat]

end

theorem merged_of_ok {home : Home} {cs : List (CapabilityContributor P)} {m : Capabilities P}
    (h : mergeCapabilities home cs = .ok m) : Merged home cs m := by
  obtain ⟨preset, hpreset, h⟩ := bind_eq_ok.mp h
  obtain ⟨env, henv, h⟩ := bind_eq_ok.mp h
  obtain ⟨defaultModels, hmodels, h⟩ := bind_eq_ok.mp h
  obtain ⟨modelEffort, hmodelEffort, h⟩ := bind_eq_ok.mp h
  obtain ⟨defaultMode, hmode, h⟩ := bind_eq_ok.mp h
  obtain ⟨host, hhost, h⟩ := bind_eq_ok.mp h
  obtain ⟨autoMemory, hauto, h⟩ := bind_eq_ok.mp h
  obtain ⟨effortLevel, heffort, h⟩ := bind_eq_ok.mp h
  obtain ⟨advisorModel, hadvisor, h⟩ := bind_eq_ok.mp h
  obtain ⟨codebaseMemory, hcodebase, h⟩ := bind_eq_ok.mp h
  obtain ⟨slippage, hslippage, h⟩ := bind_eq_ok.mp h
  obtain ⟨contextMode, hcontext, h⟩ := bind_eq_ok.mp h
  obtain ⟨upgrade, hupgrade, h⟩ := bind_eq_ok.mp h
  obtain ⟨readOnce, hread, h⟩ := bind_eq_ok.mp h
  obtain ⟨taskTracker, htask, h⟩ := bind_eq_ok.mp h
  obtain ⟨repeatDetect, hrepeat, h⟩ := bind_eq_ok.mp h
  obtain ⟨cdGuard, hcd, h⟩ := bind_eq_ok.mp h
  obtain ⟨launchProxy, hlaunch, h⟩ := bind_eq_ok.mp h
  obtain ⟨sandbox, hsandbox, h⟩ := bind_eq_ok.mp h
  obtain rfl := Except.ok.inj h
  refine ⟨fun f => ?_, fun f => ?_, fun f => ?_, fun f x => ?_, fun engine => ?_,
    ⟨codebaseMemory, hcodebase⟩, ?_, rfl⟩
  · cases f with
    | preset => exact hpreset
    | defaultMode => exact hmode
    | autoMemoryEnabled => exact hauto
    | effortLevel => exact heffort
    | advisorModel => exact hadvisor
    | slippage => exact ok_of_feature rfl hslippage
    | contextMode => exact ok_of_feature rfl hcontext
    | upgrade => exact ok_of_feature rfl hupgrade
    | readOnce => exact ok_of_feature rfl hread
    | taskTracker => exact ok_of_feature rfl htask
    | repeatDetect => exact ok_of_feature rfl hrepeat
    | cdGuard => exact ok_of_feature rfl hcd
    | launchProxy => exact ok_of_feature rfl hlaunch
    | sandbox => exact ok_of_feature rfl hsandbox
  · cases f with
    | env => exact henv
    | defaultModels => exact hmodels
    | modelEffort => exact hmodelEffort
    | host => exact hhost
  · cases f <;> rfl
  · cases f with
    | hooks =>
        refine mem_dedupHooks.trans (and_congr ?_ (iff_congr Iff.rfl ?_))
        · exact exists_mem_concat
        · exact exists_mem_concat
    | allow => exact mem_dedup.trans (List.mem_append.trans (or_congr_left mem_concat))
    | deny => exact mem_dedup.trans (List.mem_append.trans (or_congr_left mem_concat))
    | memory =>
        show x ∈ ((keepFeatures _).map Features.memory).getD [] ↔ _
        rw [keepFeatures_list rfl]
        exact mem_dedup_concat
    | throttle =>
        show x ∈ ((keepFeatures _).map Features.throttle).getD [] ↔ _
        rw [keepFeatures_list rfl]
        exact mem_dedup_concat
    | codebaseMemory =>
        show x ∈ ((keepFeatures _).map Features.codebaseMemory).getD [] ↔ _
        rw [keepFeatures_list rfl]
        refine mem_dedup.trans ((mem_expandAll hcodebase x).trans ?_)
        exact exists_mem_concat
    | nativeAllow engine =>
        exact mem_mergeNativePermissions NativePermissionRules.allow
          (fun _ _ => rfl) rfl (fun _ => rfl)
    | nativeAsk engine =>
        exact mem_mergeNativePermissions NativePermissionRules.ask
          (fun _ _ => rfl) rfl (fun _ => rfl)
    | nativeDeny engine =>
        exact mem_mergeNativePermissions NativePermissionRules.deny
          (fun _ _ => rfl) rfl (fun _ => rfl)
    | _ => exact mem_dedup_concat
  · exact get_mergeNativePermissions
  · exact keepFeatures_list rfl

/-! ## When a merge fails -/

section

omit [∀ k, DecidableEq (P k)]

/-- Two contributors of one precedence set a scalar, or a key of a map, to different values. -/
def Conflicting (cs : List (CapabilityContributor P)) : Prop :=
  (∃ f : ScalarField, ¬NoTie cs fun c => c.scalar f) ∨
    ∃ (f : MapField) (key : String), ¬NoTie cs (pickKey key fun c => c.mapOf f)

/-- Some `index_path` cannot be expanded. -/
def Unexpandable (home : Home) (cs : List (CapabilityContributor P)) : Prop :=
  ∃ c ∈ cs, ∃ cm ∈ c.capabilities.list .codebaseMemory,
    ∃ e, expandCodebaseMemory home cm = .error e

theorem noTie_of_not_conflicting {cs : List (CapabilityContributor P)} (h : ¬Conflicting cs) :
    (∀ f : ScalarField, NoTie cs fun c => c.scalar f) ∧
      ∀ (f : MapField) (key : String), NoTie cs (pickKey key fun c => c.mapOf f) := by
  refine ⟨fun f => ?_, fun f key => ?_⟩
  · by_contra hf
    exact h (Or.inl ⟨f, hf⟩)
  · by_contra hf
    exact h (Or.inr ⟨f, key, hf⟩)

theorem expandAll_succeeds {home : Home} {cs : List (CapabilityContributor P)}
    (h : ¬Unexpandable home cs) :
    ∃ out, expandAll home (concat (sortByKey CapabilityContributor.precedence cs)
      fun c => c.list .codebaseMemory) = .ok out := by
  refine expandAll_ok_iff.mpr fun cm hcm => ?_
  obtain ⟨c, hc, hcm⟩ := mem_concat.mp hcm
  cases hout : expandCodebaseMemory home cm with
  | ok out => exact ⟨out, rfl⟩
  | error e => exact absurd ⟨c, hc, cm, hcm, e, hout⟩ h

theorem not_unexpandable {home : Home} {cs : List (CapabilityContributor P)}
    {out : List (CodebaseMemory P)}
    (h : expandAll home (concat (sortByKey CapabilityContributor.precedence cs)
      fun c => c.list .codebaseMemory) = .ok out) : ¬Unexpandable home cs := by
  rintro ⟨c, hc, cm, hcm, e, he⟩
  obtain ⟨x, hx⟩ := expandAll_ok_iff.mp ⟨out, h⟩ cm (mem_concat.mpr ⟨c, hc, hcm⟩)
  rw [he] at hx
  exact absurd hx (by simp)

end

/-- A merge succeeds exactly when no two contributors conflict and all paths can be expanded. -/
theorem mergeCapabilities_ok_iff {home : Home} {cs : List (CapabilityContributor P)} :
    (∃ m, mergeCapabilities home cs = .ok m) ↔ ¬Conflicting cs ∧ ¬Unexpandable home cs := by
  constructor
  · rintro ⟨m, hm⟩
    have hmerged := merged_of_ok hm
    obtain ⟨out, hout⟩ := hmerged.expanded
    refine ⟨?_, not_unexpandable hout⟩
    rintro (⟨f, hf⟩ | ⟨f, key, hf⟩)
    · exact hf (highestPrecedence_ok_iff.mp (hmerged.scalars f)).1
    · exact hf (resolvePerKey_ok_iff.mp (hmerged.maps f) key).1
  · rintro ⟨hconflict, hexpand⟩
    obtain ⟨hscalars, hmaps⟩ := noTie_of_not_conflicting hconflict
    have hscalar : ∀ (f : ScalarField) (name : String), ∃ v,
        highestPrecedence cs name (fun c => c.scalar f) = .ok v :=
      fun f name => highestPrecedence_succeeds name (hscalars f)
    have hmap : ∀ (f : MapField) (label : String), ∃ m,
        resolvePerKey cs label (fun c => c.mapOf f) = .ok m :=
      fun f label => resolvePerKey_succeeds label (hmaps f)
    refine exists_bind_ok (hscalar .preset "preset") fun _ => ?_
    refine exists_bind_ok (hmap .env "env key") fun _ => ?_
    refine exists_bind_ok (hmap .defaultModels "default_models role") fun _ => ?_
    refine exists_bind_ok (hmap .modelEffort "model_effort model") fun _ => ?_
    refine exists_bind_ok (hscalar .defaultMode "default_mode") fun _ => ?_
    refine exists_bind_ok (hmap .host "host entry") fun _ => ?_
    refine exists_bind_ok (hscalar .autoMemoryEnabled "auto_memory_enabled") fun _ => ?_
    refine exists_bind_ok (hscalar .effortLevel "effort_level") fun _ => ?_
    refine exists_bind_ok (hscalar .advisorModel "advisor_model") fun _ => ?_
    refine exists_bind_ok (expandAll_succeeds hexpand) fun _ => ?_
    refine exists_bind_ok (hscalar .slippage "slippage") fun _ => ?_
    refine exists_bind_ok (hscalar .contextMode "context_mode") fun _ => ?_
    refine exists_bind_ok (hscalar .upgrade "upgrade") fun _ => ?_
    refine exists_bind_ok (hscalar .readOnce "read_once") fun _ => ?_
    refine exists_bind_ok (hscalar .taskTracker "task_tracker") fun _ => ?_
    refine exists_bind_ok (hscalar .repeatDetect "repeat_detect") fun _ => ?_
    refine exists_bind_ok (hscalar .cdGuard "cd_guard") fun _ => ?_
    refine exists_bind_ok (hscalar .launchProxy "launch_proxy") fun _ => ?_
    exact exists_bind_ok (hscalar .sandbox "sandbox") fun _ => ⟨_, rfl⟩

theorem mergeCapabilities_error_iff {home : Home} {cs : List (CapabilityContributor P)} :
    (∃ e, mergeCapabilities home cs = .error e) ↔ Conflicting cs ∨ Unexpandable home cs := by
  have hok : (∃ m, mergeCapabilities home cs = .ok m) ↔ ¬Conflicting cs ∧ ¬Unexpandable home cs :=
    mergeCapabilities_ok_iff
  have herror : (∃ e, mergeCapabilities home cs = .error e) ↔
      ¬∃ m, mergeCapabilities home cs = .ok m := by
    cases mergeCapabilities home cs <;> simp
  rw [herror, hok, not_and_or, not_not, not_not]

/-! ## The order of the contributors -/

/-- The two calls fail alike, and give the same scalars and maps, those of the highest precedence,
and lists with the same elements. -/
structure SameMerge (home : Home) (cs cs' : List (CapabilityContributor P)) : Prop where
  fails : (∃ e, mergeCapabilities home cs = .error e) ↔ Conflicting cs ∨ Unexpandable home cs
  fails' : (∃ e, mergeCapabilities home cs' = .error e) ↔ Conflicting cs ∨ Unexpandable home cs
  scalars : ∀ m m', mergeCapabilities home cs = .ok m → mergeCapabilities home cs' = .ok m' →
    ∀ f, m.scalar f = m'.scalar f ∧ Highest cs (fun c => c.scalar f) (m.scalar f)
  maps : ∀ m m', mergeCapabilities home cs = .ok m → mergeCapabilities home cs' = .ok m' →
    ∀ f, m.mapOf f = m'.mapOf f ∧ ∀ key,
      Highest cs (pickKey key fun c => c.mapOf f) (Fields.get key (m.mapOf f).items)
  lists : ∀ m m', mergeCapabilities home cs = .ok m → mergeCapabilities home cs' = .ok m' →
    ∀ f x, x ∈ m.list f ↔ x ∈ m'.list f
  engines : ∀ m m', mergeCapabilities home cs = .ok m → mergeCapabilities home cs' = .ok m' →
    ∀ engine, Fields.get engine m.nativePermissions.items ≠ none ↔
      Fields.get engine m'.nativePermissions.items ≠ none

section

omit [∀ k, DecidableEq (P k)]

theorem conflicting_perm {cs cs' : List (CapabilityContributor P)} (hp : cs.Perm cs') :
    Conflicting cs ↔ Conflicting cs' := by
  simp only [Conflicting, noTie_perm hp]

theorem unexpandable_perm {home : Home} {cs cs' : List (CapabilityContributor P)}
    (hp : cs.Perm cs') : Unexpandable home cs ↔ Unexpandable home cs' := by
  simp only [Unexpandable, hp.mem_iff]

theorem contributed_perm {home : Home} {cs cs' : List (CapabilityContributor P)}
    (hp : cs.Perm cs') (preset : Option PermissionPreset) (f : ListField) (x : f.Elem P) :
    Contributed home cs preset f x ↔ Contributed home cs' preset f x := by
  cases f <;> simp only [Contributed, hp.mem_iff]

end

/-- A merge does not depend on the order of the contributors. -/
theorem mergeCapabilities_perm (home : Home) {cs cs' : List (CapabilityContributor P)}
    (hp : cs.Perm cs') : SameMerge home cs cs' := by
  have hscalars : ∀ m m', mergeCapabilities home cs = .ok m →
      mergeCapabilities home cs' = .ok m' →
      ∀ f, m.scalar f = m'.scalar f ∧ Highest cs (fun c => c.scalar f) (m.scalar f) := by
    intro m m' hm hm' f
    obtain ⟨hnotie, hhigh⟩ := highestPrecedence_ok_iff.mp ((merged_of_ok hm).scalars f)
    obtain ⟨-, hhigh'⟩ := highestPrecedence_ok_iff.mp ((merged_of_ok hm').scalars f)
    exact ⟨highest_unique hnotie hhigh (highest_perm hp.symm hhigh'), hhigh⟩
  refine ⟨mergeCapabilities_error_iff, ?_, hscalars, ?_, ?_, ?_⟩
  · rw [conflicting_perm hp, unexpandable_perm hp]
    exact mergeCapabilities_error_iff
  · intro m m' hm hm' f
    have hmaps := resolvePerKey_ok_iff.mp ((merged_of_ok hm).maps f)
    have hmaps' := resolvePerKey_ok_iff.mp ((merged_of_ok hm').maps f)
    refine ⟨SortedMap.ext_get fun key => ?_, fun key => (hmaps key).2⟩
    exact highest_unique (hmaps key).1 (hmaps key).2 (highest_perm hp.symm (hmaps' key).2)
  · intro m m' hm hm' f x
    have hpreset : m.permissions.preset = m'.permissions.preset :=
      (hscalars m m' hm hm' .preset).1
    rw [(merged_of_ok hm).lists, (merged_of_ok hm').lists, hpreset]
    exact contributed_perm hp _ f x
  · intro m m' hm hm' engine
    rw [(merged_of_ok hm).engines, (merged_of_ok hm').engines]
    simp only [hp.mem_iff]

def setsEffort (name : String) (precedence : Precedence) (level : String) :
    CapabilityContributor fun _ => Unit :=
  ⟨name, precedence, { (Capabilities.empty : Capabilities fun _ => Unit) with
    effortLevel := some level }⟩

/-- Two contributors in both orders. -/
theorem mergeCapabilities_perm_efforts :
    SameMerge .notPresent [setsEffort "a" 100 "low", setsEffort "b" 200 "high"]
      [setsEffort "b" 200 "high", setsEffort "a" 100 "low"] :=
  mergeCapabilities_perm .notPresent (List.Perm.swap _ _ [])

/-- A contributor whose index is below the home directory. -/
def indexed : CapabilityContributor fun _ => Unit :=
  ⟨"config.yaml", 255, { (Capabilities.empty : Capabilities fun _ => Unit) with
    features := some { (Features.empty : Features fun _ => Unit) with
      codebaseMemory := [⟨some "~/index", ()⟩] } }⟩

/-- Without `HOME` a merge can fail with no conflict. -/
theorem mergeCapabilities_without_home :
    (∃ e, mergeCapabilities .notPresent [indexed] = .error e) ∧ ¬Conflicting [indexed] := by
  refine ⟨mergeCapabilities_error_iff.mpr (Or.inr ?_), ?_⟩
  · exact ⟨indexed, List.mem_singleton_self _, ⟨some "~/index", ()⟩, List.mem_cons_self,
      .indexPath "~/index" .unset, rfl⟩
  · have hsingle : ∀ {V : Type} (pick : Capabilities (fun _ => Unit) → Option V),
        NoTie [indexed] pick := by
      intro V pick c hc d hd _ x y hx hy
      obtain rfl := List.mem_singleton.mp hc
      obtain rfl := List.mem_singleton.mp hd
      rw [hx] at hy
      exact Option.some.inj hy
    rintro (⟨f, hf⟩ | ⟨f, key, hf⟩)
    · exact hf (hsingle _)
    · exact hf (hsingle _)

end Llmenv.Merge
