/-
# `Llmenv.Adapter.Crush` — which tools does Crush run without a prompt?

`render_permission_lists` of `src/adapter/crush/render.rs`.  Crush skips its
prompt for a call when `allowed_tools` has the name of the tool, or the name
and the action joined by a colon.  The neutral rules are rendered to names, the
native rules are taken as they are, and what an `ask` or `deny` rule names is
withheld from the list by comparing strings.

So a native entry `tool:action` passes by a rule for `tool`, and the second
name of a tool passes by a rule for the first.  `no_silent_grant_iff` says that
nothing else does.
-/
import Mathlib.Data.List.Basic
import Llmenv.Adapter.Tools

namespace Llmenv.Adapter.Crush

open Llmenv.Adapter

def crushToolName (neutral : String) : Option String := crushKey neutral

/-- A scoped rule cannot be expressed and is dropped. -/
def renderPermissionRule (rule : PermissionRule) : List String :=
  if rule.pattern.isSome then []
  else if !rule.paths.isEmpty then []
  else
    match crushToolName rule.tool with
    | some name => [name]
    | none => []

def renderRulesToStrings (rules : List PermissionRule) : List String :=
  rules.flatMap renderPermissionRule

/-- Crush tools that a neutral tool also reaches. -/
def crushAliases (crushName : String) : List String :=
  if crushName = "edit" then ["multiedit"]
  else if crushName = "fetch" then ["agentic_fetch"]
  else []

/-- One rule of the loop in `render_disabled_tools`. -/
def renderDisabledRule (rule : PermissionRule) : List String :=
  if rule.pattern.isSome || !rule.paths.isEmpty then []
  else
    match crushToolName rule.tool with
    | some name => name :: crushAliases name
    | none => []

def renderDisabledTools (deny : List PermissionRule) : List String :=
  dedup (deny.flatMap renderDisabledRule)

/-- The native rules, where there are none an empty set of them. -/
def nativeRules (native : Option NativePermissionRules) : NativePermissionRules :=
  native.getD ⟨[], [], []⟩

/-- The entries that the two `allow` lists ask for. -/
def grants (perms : Permissions) (native : Option NativePermissionRules) : List String :=
  renderRulesToStrings perms.allow ++ (nativeRules native).allow

/-- What the `ask` and `deny` rules name. -/
def named (perms : Permissions) (native : Option NativePermissionRules) : List String :=
  (perms.deny ++ perms.ask).filterMap (fun rule => crushToolName rule.tool) ++
    ((nativeRules native).ask ++ (nativeRules native).deny)

/-- The set `withheld`.  Crush's edit tools create missing files, so a `Write`
deny withholds them too. -/
def withheld (perms : Permissions) (native : Option NativePermissionRules) : List String :=
  named perms native ++
    if perms.deny.any (fun rule => decide (rule.tool = "Write")) then ["edit", "multiedit"] else []

/-- `allowed_tools` and `disabled_tools`. -/
def renderPermissionLists (perms : Permissions) (native : Option NativePermissionRules) :
    List String × List String :=
  (dedup ((grants perms native).filter fun t => decide (t ∉ withheld perms native)),
   dedup (renderDisabledTools perms.deny ++ (nativeRules native).deny))

/-! ## The two lists -/

variable {perms : Permissions} {native : Option NativePermissionRules}

theorem mem_allowed {t : String} :
    t ∈ (renderPermissionLists perms native).1 ↔
      t ∈ grants perms native ∧ t ∉ withheld perms native := by
  simp [renderPermissionLists]

theorem mem_disabled {t : String} :
    t ∈ (renderPermissionLists perms native).2 ↔
      (∃ rule ∈ perms.deny, t ∈ renderDisabledRule rule) ∨ t ∈ (nativeRules native).deny := by
  simp [renderPermissionLists, renderDisabledTools]

theorem mem_withheld {t : String} :
    t ∈ withheld perms native ↔ t ∈ named perms native ∨
      ((∃ rule ∈ perms.deny, rule.tool = "Write") ∧ (t = "edit" ∨ t = "multiedit")) := by
  simp only [withheld, List.mem_append]
  refine or_congr_right ?_
  split
  · rename_i h
    have hdeny : ∃ rule ∈ perms.deny, rule.tool = "Write" := by simpa using h
    simp [hdeny]
  · rename_i h
    have hdeny : ¬ ∃ rule ∈ perms.deny, rule.tool = "Write" := by simpa using h
    simp [hdeny]

/-- A tool that a rule names, or the second name of one. -/
def Protected (perms : Permissions) (native : Option NativePermissionRules) (tool : String) :
    Prop :=
  tool ∈ named perms native ∨ ∃ other ∈ named perms native, tool ∈ crushAliases other

/-- The entry that allows one action of a tool. -/
def actionEntry (tool action : String) : String := tool ++ ":" ++ action

theorem mem_crushAliases {tool other : String} :
    tool ∈ crushAliases other ↔
      (other = "edit" ∧ tool = "multiedit") ∨ (other = "fetch" ∧ tool = "agentic_fetch") := by
  simp only [crushAliases]
  split
  · simp_all
  · split
    · simp_all
    · simp_all

theorem colon_mem_actionEntry (tool action : String) :
    ':' ∈ (actionEntry tool action).toList := by
  simp [actionEntry]

/-- A neutral rule never renders to an entry with an action, or to
`agentic_fetch`. -/
theorem renderRulesToStrings_plain {rules : List PermissionRule} {t : String}
    (h : t ∈ renderRulesToStrings rules) : ':' ∉ t.toList ∧ t ≠ "agentic_fetch" := by
  obtain ⟨rule, -, ht⟩ := List.mem_flatMap.mp h
  simp only [renderPermissionRule] at ht
  split at ht
  · exact absurd ht (by simp)
  · split at ht
    · exact absurd ht (by simp)
    · split at ht
      · rename_i name hname
        obtain rfl := List.mem_singleton.mp ht
        exact forall_crushKey (P := fun key => ':' ∉ key.toList ∧ key ≠ "agentic_fetch")
          (by decide) hname
      · exact absurd ht (by simp)

/-! ## No silent grant -/

/-- What a rule names, and its second name, gets neither an entry of its own
nor one for an action. -/
def Withholds (perms : Permissions) (native : Option NativePermissionRules) : Prop :=
  ∀ tool, Protected perms native tool →
    tool ∉ (renderPermissionLists perms native).1 ∧
      ∀ action, actionEntry tool action ∉ (renderPermissionLists perms native).1

/-- What an unscoped neutral deny names, with its second name, and what a
native deny names, is disabled. -/
def Disables (perms : Permissions) (native : Option NativePermissionRules) : Prop :=
  (∀ rule ∈ perms.deny, rule.pattern = none → rule.paths = [] →
    ∀ name, crushToolName rule.tool = some name →
      ∀ t ∈ name :: crushAliases name, t ∈ (renderPermissionLists perms native).2) ∧
    ∀ t ∈ (nativeRules native).deny, t ∈ (renderPermissionLists perms native).2

theorem disables (perms : Permissions) (native : Option NativePermissionRules) :
    Disables perms native := by
  constructor
  · intro rule hrule hpattern hpaths name hname t ht
    refine mem_disabled.mpr (Or.inl ⟨rule, hrule, ?_⟩)
    simpa [renderDisabledRule, hpattern, hpaths, hname] using ht
  · intro t ht
    exact mem_disabled.mpr (Or.inr ht)

/-- No `allow` entry reaches a protected tool under a string that no rule
names. -/
structure NoBypass (perms : Permissions) (native : Option NativePermissionRules) : Prop where
  action : ∀ tool action, Protected perms native tool →
    actionEntry tool action ∈ (nativeRules native).allow →
    actionEntry tool action ∈ named perms native
  multiedit : "edit" ∈ named perms native → "multiedit" ∈ grants perms native →
    "multiedit" ∈ named perms native ∨ ∃ rule ∈ perms.deny, rule.tool = "Write"
  agenticFetch : "fetch" ∈ named perms native → "agentic_fetch" ∈ (nativeRules native).allow →
    "agentic_fetch" ∈ named perms native

theorem actionEntry_withheld {tool action : String}
    (h : actionEntry tool action ∈ withheld perms native) :
    actionEntry tool action ∈ named perms native := by
  have hcolon := colon_mem_actionEntry tool action
  rcases mem_withheld.mp h with hnamed | ⟨-, heq | heq⟩
  · exact hnamed
  · rw [heq] at hcolon
    exact absurd hcolon (by decide)
  · rw [heq] at hcolon
    exact absurd hcolon (by decide)

theorem NoBypass.tool_withheld (h : NoBypass perms native) {tool : String}
    (hprotected : Protected perms native tool) (hgrant : tool ∈ grants perms native) :
    tool ∈ withheld perms native := by
  rcases hprotected with hnamed | ⟨other, hother, halias⟩
  · exact mem_withheld.mpr (Or.inl hnamed)
  · rcases mem_crushAliases.mp halias with ⟨rfl, rfl⟩ | ⟨rfl, rfl⟩
    · rcases h.multiedit hother hgrant with hnamed | hwrite
      · exact mem_withheld.mpr (Or.inl hnamed)
      · exact mem_withheld.mpr (Or.inr ⟨hwrite, Or.inr rfl⟩)
    · rcases List.mem_append.mp hgrant with hneutral | hnative
      · exact absurd rfl (renderRulesToStrings_plain hneutral).2
      · exact mem_withheld.mpr (Or.inl (h.agenticFetch hother hnative))

theorem NoBypass.action_withheld (h : NoBypass perms native) {tool action : String}
    (hprotected : Protected perms native tool) (hgrant : actionEntry tool action ∈ grants perms native) :
    actionEntry tool action ∈ withheld perms native := by
  rcases List.mem_append.mp hgrant with hneutral | hnative
  · exact absurd (colon_mem_actionEntry tool action) (renderRulesToStrings_plain hneutral).1
  · exact mem_withheld.mpr (Or.inl (h.action tool action hprotected hnative))

/-- For every set of rules: Crush is given no silent grant for a protected tool
exactly when no `allow` entry reaches one under a string that no rule names; and
what is denied is disabled in any case. -/
theorem no_silent_grant_iff (perms : Permissions) (native : Option NativePermissionRules) :
    (Withholds perms native ∧ Disables perms native) ↔ NoBypass perms native := by
  constructor
  · rintro ⟨hwithholds, -⟩
    have hgrant : ∀ {t}, t ∈ grants perms native →
        t ∉ (renderPermissionLists perms native).1 → t ∈ withheld perms native := by
      intro t ht hout
      by_contra hnot
      exact hout (mem_allowed.mpr ⟨ht, hnot⟩)
    refine ⟨fun tool action hprotected hallow => ?_, fun hedit hallow => ?_,
      fun hfetch hallow => ?_⟩
    · exact actionEntry_withheld
        (hgrant (List.mem_append_right _ hallow) ((hwithholds tool hprotected).2 action))
    · have hprotected : Protected perms native "multiedit" :=
        Or.inr ⟨"edit", hedit, mem_crushAliases.mpr (Or.inl ⟨rfl, rfl⟩)⟩
      rcases mem_withheld.mp (hgrant hallow (hwithholds _ hprotected).1) with h | ⟨h, -⟩
      · exact Or.inl h
      · exact Or.inr h
    · have hprotected : Protected perms native "agentic_fetch" :=
        Or.inr ⟨"fetch", hfetch, mem_crushAliases.mpr (Or.inr ⟨rfl, rfl⟩)⟩
      have hmem := hgrant (List.mem_append_right _ hallow) (hwithholds _ hprotected).1
      rcases mem_withheld.mp hmem with h | ⟨-, h | h⟩
      · exact h
      · exact absurd h (by decide)
      · exact absurd h (by decide)
  · intro h
    refine ⟨fun tool hprotected => ⟨fun hin => ?_, fun action hin => ?_⟩, disables perms native⟩
    · obtain ⟨hgrant, hout⟩ := mem_allowed.mp hin
      exact hout (h.tool_withheld hprotected hgrant)
    · obtain ⟨hgrant, hout⟩ := mem_allowed.mp hin
      exact hout (h.action_withheld hprotected hgrant)

/-- A neutral rule without a scope. -/
def wholeTool (tool : String) : PermissionRule := ⟨tool, none, []⟩

/-- An `ask` for `Bash` does not stop the native grant `bash:execute`, and an
`ask` for `Edit` does not stop a grant of `MultiEdit`. -/
theorem silent_grants :
    (Protected ⟨[], [wholeTool "Bash"], []⟩ (some ⟨["bash:execute"], [], []⟩) "bash" ∧
      actionEntry "bash" "execute" ∈ (renderPermissionLists ⟨[], [wholeTool "Bash"], []⟩
        (some ⟨["bash:execute"], [], []⟩)).1) ∧
    (Protected ⟨[wholeTool "MultiEdit"], [wholeTool "Edit"], []⟩ none "multiedit" ∧
      "multiedit" ∈ (renderPermissionLists
        ⟨[wholeTool "MultiEdit"], [wholeTool "Edit"], []⟩ none).1) :=
  ⟨⟨Or.inl (by decide), by decide⟩, ⟨Or.inr ⟨"edit", by decide, by decide⟩, by decide⟩⟩

end Llmenv.Adapter.Crush
