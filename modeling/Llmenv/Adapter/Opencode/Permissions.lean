/-
# `Llmenv.Adapter.Opencode.Permissions` — is the last matching rule the narrower one?

`render` of `src/adapter/opencode/permissions.rs`.  opencode applies the LAST
rule that matches a call, and llmenv writes the rules in the order of their
actions and patterns, so the order says nothing about what the user meant.
`check_rule_ordering` therefore accepts two overlapping rules of different
effects only when the later one looks narrower.

Its test of "narrower", `pattern_subsumes`, tries three texts for the later
pattern, with one length of run for all its stars and without its bare
spelling.  `lastMatch_narrower_iff` says for every accepted configuration when
the last match is the narrower rule: when the earlier pattern also matches the
probes in which the stars run independently.

The map of maps in the source is walked in the order of its two keys, and is a
map with pairs of keys here.
-/
import Mathlib.Data.Prod.Lex
import Mathlib.Data.String.Basic
import Llmenv.Lib.SortedMap
import Llmenv.Adapter.Tools
import Llmenv.Adapter.Opencode.Patterns

namespace Llmenv.Adapter.Opencode

open Llmenv.Lib Llmenv.Adapter

inductive Effect where
  | allow
  | ask
  | deny
deriving DecidableEq

def Effect.asStr : Effect → String
  | allow => "allow"
  | ask => "ask"
  | deny => "deny"

/-- One rule of the `permissions` list in `opencode.json`. -/
structure Rule where
  action : String
  resource : String
  effect : Effect
deriving DecidableEq

/-! ## Errors -/

inductive RenderError where
  | emptyRule (effect : Effect)
  | spacedTool (effect : Effect) (rule tool : String)
  | noToolName (effect : Effect) (rule : String)
  | emptyPattern (effect : Effect) (rule : String)
  | textAfter (effect : Effect) (rule : String)
  | unbalanced (effect : Effect) (rule : String)
  | inverted (early late : Rule)
deriving DecidableEq

/-- A rule in opencode's own syntax. -/
def renderRule (tool pattern : String) : String :=
  if pattern = "*" then "`" ++ tool ++ "`" else "`" ++ tool ++ "(" ++ pattern ++ ")`"

def orderingRemedy (earlyTool earlyPat lateTool latePat : String) : String :=
  let early := renderRule earlyTool earlyPat
  let late := renderRule lateTool latePat
  if earlyTool = lateTool then
    "Rewrite " ++ late ++ " so it only covers what " ++ early ++
      " does not, or give the two the same action."
  else
    "Move " ++ early ++ " onto the `" ++ lateTool ++ "` key so it sorts after " ++ late ++
      " — e.g. `native_permissions.opencode` rule " ++ renderRule lateTool earlyPat ++
      " — or give the two the same action."

/-- The text of an error; `debug` is the `Debug` format of a string. -/
def RenderError.text (debug : String → String) : RenderError → String
  | emptyRule effect => source effect ++ "empty rule string"
  | spacedTool effect rule tool =>
      source effect ++ "rule " ++ debug rule ++ " has whitespace inside its tool name (" ++
        debug tool ++ ") — opencode would never match it against a tool, so the rule could not " ++
        "take effect. Write the tool name without spaces."
  | noToolName effect rule =>
      source effect ++ "rule " ++ debug rule ++ " has no tool name before '('"
  | emptyPattern effect rule =>
      source effect ++ "rule " ++ debug rule ++ " has an empty pattern '()'"
  | textAfter effect rule =>
      source effect ++ "rule " ++ debug rule ++
        " has text after its closing ')'. Write the rule as tool(pattern)."
  | unbalanced effect rule =>
      source effect ++ "rule " ++ debug rule ++ " has unbalanced parentheses"
  | inverted early late =>
      let earlyText := renderRule early.action early.resource
      let lateText := renderRule late.action late.resource
      "opencode: permission rules " ++ earlyText ++ " (" ++ early.effect.asStr ++ ") and " ++
        lateText ++ " (" ++ late.effect.asStr ++ ") both match some tool and input, and " ++
        lateText ++ " sorts last so opencode applies it wherever they overlap — " ++ earlyText ++
        " would not take effect there. " ++
        orderingRemedy early.action early.resource late.action late.resource
where
  source (effect : Effect) : String := "native_permissions.opencode." ++ effect.asStr ++ ": "

/-! ## From the configuration to actions and patterns -/

def opencodeToolName (neutral : String) : Option String := opencodeKey neutral

/-- A pattern is used as it is, each path is a pattern, and a bare rule matches
everything. -/
def ruleToPatterns (rule : PermissionRule) : List (String × String) :=
  match opencodeToolName rule.tool with
  | none => []
  | some tool =>
      match rule.pattern with
      | some pattern => [(tool, pattern)]
      | none =>
          if !rule.paths.isEmpty then rule.paths.map fun path => (tool, path) else [(tool, "*")]

/-- The action of opencode 2.x for a key of 1.x. -/
def normalizeAction (key : String) : String :=
  if key = "write" ∨ key = "patch" then "edit"
  else if key = "task" then "subagent"
  else if key = "bash" then "shell"
  else key

/-- `str::rfind` for one character. -/
def rfind (c : Char) (text : List Char) : Option Nat :=
  (text.reverse.findIdx? (· == c)).map fun i => text.length - 1 - i

/-- The name of the tool in a native rule. -/
def nativeTool (text : List Char) : String :=
  normalizeAction (String.ofList (Text.toAsciiLowercase (Text.trim text)))

/-- A native rule: `tool`, or `tool(pattern)`. -/
def parseNativeRule (s : String) (effect : Effect) : Except RenderError (String × String) :=
  let text := s.toList
  match text.findIdx? (· == '('), rfind ')' text with
  | none, none =>
      let tool := nativeTool text
      if tool.toList.isEmpty then .error (.emptyRule effect)
      else if tool.toList.any Text.isWhitespace then .error (.spacedTool effect s tool)
      else .ok (tool, "*")
  | some start, some stop =>
      if start < stop then
        let tool := nativeTool (text.take start)
        let pattern := (text.take stop).drop (start + 1)
        if tool.toList.isEmpty then .error (.noToolName effect s)
        else if tool.toList.any Text.isWhitespace then .error (.spacedTool effect s tool)
        else if pattern.isEmpty then .error (.emptyPattern effect s)
        else if !(Text.trim (text.drop (stop + 1))).isEmpty then .error (.textAfter effect s)
        else .ok (tool, String.ofList pattern)
      else .error (.unbalanced effect s)
  | _, _ => .error (.unbalanced effect s)

def parseNativeRules (effect : Effect) : List String → Except RenderError (List (String × String))
  | [] => .ok []
  | s :: rest =>
      match parseNativeRule s effect, parseNativeRules effect rest with
      | .error e, _ => .error e
      | .ok _, .error e => .error e
      | .ok entry, .ok entries => .ok (entry :: entries)

/-! ## The map and the list -/

/-- Actions and patterns in their order, with the effect. -/
abbrev PermissionMap := SortedMap (String ×ₗ String) Effect

/-- One tier: the structured rules, then the native ones. -/
def insertTier (m : PermissionMap) (effect : Effect) (structured : List PermissionRule)
    (native : Option (List String)) : Except RenderError PermissionMap :=
  let m := m.insertAll ((structured.flatMap ruleToPatterns).map toLex) effect
  match native with
  | none => .ok m
  | some rules =>
      match parseNativeRules effect rules with
      | .error e => .error e
      | .ok entries => .ok (m.insertAll (entries.map toLex) effect)

def rulesOf (m : PermissionMap) : List Rule :=
  m.items.map fun e => ⟨(ofLex e.1).1, (ofLex e.1).2, e.2⟩

/-- The later rule wins where the two overlap, and does not look narrower. -/
def inverts (early late : Rule) : Bool :=
  decide (late.effect ≠ early.effect) && patternsOverlap early.action late.action &&
    patternsOverlap early.resource late.resource &&
    !(patternSubsumes early.action late.action && patternSubsumes early.resource late.resource)

def checkRuleOrdering : List Rule → Except RenderError Unit
  | [] => .ok ()
  | early :: rest =>
      match rest.find? (inverts early) with
      | some late => .error (.inverted early late)
      | none => checkRuleOrdering rest

/-- The three tiers: a later tier overwrites an earlier one. -/
def permissionMap (perms : Permissions) (native : Option NativePermissionRules) :
    Except RenderError PermissionMap :=
  match insertTier SortedMap.empty .allow perms.allow (native.map (·.allow)) with
  | .error e => .error e
  | .ok allowed =>
      match insertTier allowed .ask perms.ask (native.map (·.ask)) with
      | .error e => .error e
      | .ok asked => insertTier asked .deny perms.deny (native.map (·.deny))

def render (perms : Permissions) (native : Option NativePermissionRules) :
    Except RenderError (Option (List Rule)) :=
  match permissionMap perms native with
  | .error e => .error e
  | .ok m =>
      if m.items.isEmpty then .ok none
      else
        match checkRuleOrdering (rulesOf m) with
        | .error e => .error e
        | .ok () => .ok (some (rulesOf m))

/-! ## The emitted effect -/

/-- The actions and patterns that one tier lists. -/
def listedIn (effect : Effect) (structured : List PermissionRule) (native : Option (List String)) :
    List (String × String) :=
  structured.flatMap ruleToPatterns ++
    (native.getD []).filterMap fun s => (parseNativeRule s effect).toOption

def listed (perms : Permissions) (native : Option NativePermissionRules) :
    Effect → List (String × String)
  | .allow => listedIn .allow perms.allow (native.map (·.allow))
  | .ask => listedIn .ask perms.ask (native.map (·.ask))
  | .deny => listedIn .deny perms.deny (native.map (·.deny))

/-- Deny over ask over allow. -/
def effectOf (perms : Permissions) (native : Option NativePermissionRules)
    (key : String × String) : Option Effect :=
  if key ∈ listed perms native .deny then some .deny
  else if key ∈ listed perms native .ask then some .ask
  else if key ∈ listed perms native .allow then some .allow
  else none

theorem parseNativeRules_ok {effect : Effect} :
    ∀ {rules : List String} {entries : List (String × String)},
      parseNativeRules effect rules = .ok entries →
      rules.filterMap (fun s => (parseNativeRule s effect).toOption) = entries
  | [], entries, h => by
      obtain rfl := Except.ok.inj h
      rfl
  | s :: rest, entries, h => by
      simp only [parseNativeRules] at h
      split at h
      · exact absurd h (by simp)
      · exact absurd h (by simp)
      · rename_i entry entries' hentry hrest
        obtain rfl := Except.ok.inj h
        rw [List.filterMap_cons, hentry, parseNativeRules_ok hrest]
        rfl

theorem mem_insertTier {m m' : PermissionMap} {effect : Effect}
    {structured : List PermissionRule} {native : Option (List String)}
    (h : insertTier m effect structured native = .ok m') {x : (String ×ₗ String) × Effect} :
    x ∈ m'.items ↔ (ofLex x.1 ∈ listedIn effect structured native ∧ x.2 = effect) ∨
      (x ∈ m.items ∧ ofLex x.1 ∉ listedIn effect structured native) := by
  have hlex : ∀ keys : List (String × String), x.1 ∈ keys.map toLex ↔ ofLex x.1 ∈ keys := by
    intro keys
    rw [List.mem_map]
    constructor
    · rintro ⟨k, hk, heq⟩
      rwa [← heq]
    · intro hk
      exact ⟨ofLex x.1, hk, rfl⟩
  simp only [insertTier] at h
  split at h
  · obtain rfl := Except.ok.inj h
    rw [SortedMap.mem_insertAll, hlex]
    simp [listedIn]
  · split at h
    · exact absurd h (by simp)
    · rename_i entries hentries
      obtain rfl := Except.ok.inj h
      rw [SortedMap.mem_insertAll, SortedMap.mem_insertAll, hlex, hlex]
      simp only [listedIn, Option.getD_some, parseNativeRules_ok hentries, List.mem_append]
      tauto

theorem mem_permissionMap {perms : Permissions} {native : Option NativePermissionRules}
    {m : PermissionMap} (h : permissionMap perms native = .ok m)
    {x : (String ×ₗ String) × Effect} :
    x ∈ m.items ↔ effectOf perms native (ofLex x.1) = some x.2 := by
  simp only [permissionMap] at h
  split at h
  · exact absurd h (by simp)
  · rename_i allowed hallow
    split at h
    · exact absurd h (by simp)
    · rename_i asked hask
      rw [mem_insertTier h, mem_insertTier hask, mem_insertTier hallow]
      simp only [SortedMap.empty, List.not_mem_nil, false_and, or_false, effectOf]
      by_cases hdeny : ofLex x.1 ∈ listed perms native .deny
      · rw [if_pos hdeny]
        simp only [listed] at hdeny
        simp [hdeny, eq_comm]
      · rw [if_neg hdeny]
        by_cases hasks : ofLex x.1 ∈ listed perms native .ask
        · rw [if_pos hasks]
          simp only [listed] at hdeny hasks
          simp [hdeny, hasks, eq_comm]
        · rw [if_neg hasks]
          by_cases hallows : ofLex x.1 ∈ listed perms native .allow
          · rw [if_pos hallows]
            simp only [listed] at hdeny hasks hallows
            simp [hdeny, hasks, hallows, eq_comm]
          · rw [if_neg hallows]
            simp only [listed] at hdeny hasks hallows
            simp [hdeny, hasks, hallows]

/-- The order of the emitted list. -/
def Rule.key (r : Rule) : String ×ₗ String := toLex (r.action, r.resource)

/-- Each listed pair of an action and a pattern is emitted once, with its
strongest effect. -/
def StrongestEmitted (perms : Permissions) (native : Option NativePermissionRules)
    (rules : List Rule) : Prop :=
  ∀ r, r ∈ rules ↔ effectOf perms native (r.action, r.resource) = some r.effect

theorem mem_rulesOf {m : PermissionMap} {r : Rule} :
    r ∈ rulesOf m ↔ (r.key, r.effect) ∈ m.items := by
  rw [rulesOf, List.mem_map]
  constructor
  · rintro ⟨e, he, rfl⟩
    exact he
  · intro h
    exact ⟨_, h, rfl⟩

theorem sorted_rulesOf (m : PermissionMap) : (rulesOf m).Pairwise (fun a b => a.key < b.key) := by
  rw [rulesOf, List.pairwise_map]
  exact m.sorted

section Accepted

variable {perms : Permissions} {native : Option NativePermissionRules}
  {out : Option (List Rule)}

/-- What `render` emits, when it accepts, is the map. -/
theorem render_ok (h : render perms native = .ok out) :
    ∃ m, permissionMap perms native = .ok m ∧ out.getD [] = rulesOf m := by
  simp only [render] at h
  split at h
  · exact absurd h (by simp)
  · rename_i m hm
    refine ⟨m, hm, ?_⟩
    split at h
    · rename_i hempty
      obtain rfl := Except.ok.inj h
      have hitems : m.items = [] := by simpa using hempty
      simp [rulesOf, hitems]
    · split at h
      · exact absurd h (by simp)
      · obtain rfl := Except.ok.inj h
        rfl

theorem strongestEmitted (h : render perms native = .ok out) :
    StrongestEmitted perms native (out.getD []) := by
  obtain ⟨m, hm, hrules⟩ := render_ok h
  intro r
  rw [hrules, mem_rulesOf, mem_permissionMap hm]
  rfl

theorem sorted_render (h : render perms native = .ok out) :
    (out.getD []).Pairwise (fun a b => a.key < b.key) := by
  obtain ⟨m, -, hrules⟩ := render_ok h
  rw [hrules]
  exact sorted_rulesOf m

end Accepted

/-! ## The last match -/

/-- opencode's test of a rule against a call. -/
def Rule.applies (r : Rule) (tool input : String) : Bool :=
  wildcardMatches r.action tool && wildcardMatches r.resource input

/-- Every call of `late` is one of `early`, and some call of `early` is none of
`late`. -/
def StrictlyNarrower (late early : Rule) : Prop :=
  (∀ tool input, late.applies tool input = true → early.applies tool input = true) ∧
    ∃ tool input, early.applies tool input = true ∧ late.applies tool input = false

/-- `late` may override `early`. -/
def Narrows (early late : Rule) : Prop :=
  (∀ input, wildcardMatches late.resource input = true →
    wildcardMatches early.resource input = true) ∧
    (early.effect = .deny → StrictlyNarrower late early)

/-- For every call: the rule that opencode applies, the last that matches, may
override every earlier match of another effect. -/
def LastMatchNarrows (rules : List Rule) : Prop :=
  ∀ tool input pre late post, rules = pre ++ late :: post → late.applies tool input = true →
    (∀ r ∈ post, r.applies tool input = false) →
    ∀ early ∈ pre, early.applies tool input = true → early.effect ≠ late.effect →
      Narrows early late

/-- The probes of `late` against `early`: of the pattern, and under a deny of
the action too, where the converse must fail. -/
def Covers (early late : Rule) : Prop :=
  coversProbes early.resource late.resource = true ∧
    (early.effect = .deny → coversProbes early.action late.action = true ∧
      ¬ (coversProbes late.action early.action = true ∧
        coversProbes late.resource early.resource = true))

/-- Of two listed rules with different effects, the one that sorts first
covers the other, whenever the other is the last match of a call of both. -/
def CoveredPairs (perms : Permissions) (native : Option NativePermissionRules) : Prop :=
  ∀ early late : Rule,
    effectOf perms native (early.action, early.resource) = some early.effect →
    effectOf perms native (late.action, late.resource) = some late.effect →
    early.key < late.key → early.effect ≠ late.effect →
    (∃ tool input, early.applies tool input = true ∧ late.applies tool input = true ∧
      ∀ r : Rule, effectOf perms native (r.action, r.resource) = some r.effect →
        late.key < r.key → r.applies tool input = false) →
    Covers early late

theorem applies_iff {r : Rule} {tool input : String} :
    r.applies tool input = true ↔
      wildcardMatches r.action tool = true ∧ wildcardMatches r.resource input = true := by
  simp [Rule.applies]

/-- For two rules with calls, calls are covered when actions and patterns
are. -/
theorem applies_imp_iff (early : Rule) {late : Rule} {tool input : String}
    (h : late.applies tool input = true) :
    (∀ t i, late.applies t i = true → early.applies t i = true) ↔
      coversProbes early.action late.action = true ∧
        coversProbes early.resource late.resource = true := by
  obtain ⟨htool, hinput⟩ := applies_iff.mp h
  rw [coversProbes_iff, coversProbes_iff]
  constructor
  · intro hall
    refine ⟨fun t ht => ?_, fun i hi => ?_⟩
    · exact (applies_iff.mp (hall t input (applies_iff.mpr ⟨ht, hinput⟩))).1
    · exact (applies_iff.mp (hall tool i (applies_iff.mpr ⟨htool, hi⟩))).2
  · rintro ⟨haction, hresource⟩ t i hlate
    obtain ⟨ht, hi⟩ := applies_iff.mp hlate
    exact applies_iff.mpr ⟨haction t ht, hresource i hi⟩

/-- For two rules with a common call the probes decide. -/
theorem narrows_iff {early late : Rule} {tool input : String}
    (hearly : early.applies tool input = true) (hlate : late.applies tool input = true) :
    Narrows early late ↔ Covers early late := by
  have hstrict : (∃ t i, early.applies t i = true ∧ late.applies t i = false) ↔
      ¬ (coversProbes late.action early.action = true ∧
        coversProbes late.resource early.resource = true) := by
    rw [← applies_imp_iff late hearly]
    simp
  constructor
  · rintro ⟨hresource, hdeny⟩
    refine ⟨coversProbes_iff.mpr hresource, fun heffect => ?_⟩
    obtain ⟨hsub, hmore⟩ := hdeny heffect
    exact ⟨((applies_imp_iff early hlate).mp hsub).1, hstrict.mp hmore⟩
  · rintro ⟨hresource, hdeny⟩
    refine ⟨coversProbes_iff.mp hresource, fun heffect => ?_⟩
    obtain ⟨haction, hconverse⟩ := hdeny heffect
    exact ⟨(applies_imp_iff early hlate).mpr ⟨haction, hresource⟩, hstrict.mpr hconverse⟩

theorem lastMatchNarrows_iff {perms : Permissions} {native : Option NativePermissionRules}
    {rules : List Rule} (hsorted : rules.Pairwise (fun a b => a.key < b.key))
    (hemitted : StrongestEmitted perms native rules) :
    LastMatchNarrows rules ↔ CoveredPairs perms native := by
  constructor
  · rintro h early late hearly hlate hkey heffect ⟨tool, input, happlies, hlast, hafter⟩
    obtain ⟨pre, post, rfl⟩ := List.append_of_mem ((hemitted late).mpr hlate)
    obtain ⟨-, hpost, hpre⟩ := List.pairwise_append.mp hsorted
    -- `early` sorts before `late`, so it stands before it.
    have hmem : early ∈ pre := by
      rcases List.mem_append.mp ((hemitted early).mpr hearly) with hin | hin
      · exact hin
      · rcases List.mem_cons.mp hin with rfl | hin
        · exact absurd hkey (lt_irrefl _)
        · exact absurd ((List.pairwise_cons.mp hpost).1 early hin) (lt_asymm hkey)
    have hnone : ∀ r ∈ post, r.applies tool input = false := by
      intro r hr
      refine hafter r ((hemitted r).mp ?_) ((List.pairwise_cons.mp hpost).1 r hr)
      exact List.mem_append_right _ (List.mem_cons_of_mem _ hr)
    exact (narrows_iff happlies hlast).mp
      (h tool input pre late post rfl hlast hnone early hmem happlies heffect)
  · rintro h tool input pre late post rfl hlast hnone early hmem happlies heffect
    obtain ⟨-, hpost, hpre⟩ := List.pairwise_append.mp hsorted
    have hearly : early ∈ pre ++ late :: post := List.mem_append_left _ hmem
    have hlate : late ∈ pre ++ late :: post := List.mem_append_right _ List.mem_cons_self
    refine (narrows_iff happlies hlast).mpr (h early late ((hemitted early).mp hearly)
      ((hemitted late).mp hlate) (hpre early hmem late List.mem_cons_self) heffect
      ⟨tool, input, happlies, hlast, fun r hr hkey => ?_⟩)
    -- What sorts behind `late` stands behind it.
    rcases List.mem_append.mp ((hemitted r).mpr hr) with hin | hin
    · exact absurd (hpre r hin late List.mem_cons_self) (lt_asymm hkey)
    · rcases List.mem_cons.mp hin with rfl | hin
      · exact absurd hkey (lt_irrefl _)
      · exact hnone r hin

/-- For every configuration that `render` accepts: each pair of an action and a
pattern is emitted with its strongest effect, and the last match may override
the earlier ones exactly when the probes say so for every pair of rules. -/
theorem lastMatch_narrower_iff {perms : Permissions} {native : Option NativePermissionRules}
    {out : Option (List Rule)} (h : render perms native = .ok out) :
    (LastMatchNarrows (out.getD []) ∧ StrongestEmitted perms native (out.getD [])) ↔
      CoveredPairs perms native := by
  have hemitted := strongestEmitted h
  rw [lastMatchNarrows_iff (sorted_render h) hemitted]
  exact ⟨fun hc => hc.1, fun hc => ⟨hc, hemitted⟩⟩

/-! ## Three configurations -/

/-- `Bash` with a pattern. -/
def bash (pattern : String) : PermissionRule := ⟨"Bash", some pattern, []⟩

/-- An allow of `git *` under a deny of everything is narrower. -/
theorem lastMatch_narrower_git :
    render ⟨[bash "git *"], [], [bash "*"]⟩ none =
        .ok (some [⟨"shell", "*", .deny⟩, ⟨"shell", "git *", .allow⟩]) ∧
      LastMatchNarrows [⟨"shell", "*", .deny⟩, ⟨"shell", "git *", .allow⟩] := by
  have h : render ⟨[bash "git *"], [], [bash "*"]⟩ none =
      .ok (some [⟨"shell", "*", .deny⟩, ⟨"shell", "git *", .allow⟩]) := by decide +kernel
  refine ⟨h, ((lastMatch_narrower_iff h).mpr ?_).1⟩
  intro early late hearly hlate hkey heffect _
  have hmem := strongestEmitted h
  have hearly' := (hmem early).mpr hearly
  have hlate' := (hmem late).mpr hlate
  simp only [Option.getD_some, List.mem_cons, List.not_mem_nil, or_false] at hearly' hlate'
  rcases hearly' with rfl | rfl <;> rcases hlate' with rfl | rfl
  · exact absurd rfl heffect
  · exact ⟨by decide +kernel, fun _ => ⟨by decide +kernel, by decide +kernel⟩⟩
  · exact absurd hkey (by decide +kernel)
  · exact absurd rfl heffect

/-- A deny of `????*` is overridden by an allow of `git *`, which also matches
the bare `git`; and a deny of `*` by an allow of `**`, which matches as much. -/
theorem deny_overridden :
    (render ⟨[bash "git *"], [], [bash "????*"]⟩ none =
        .ok (some [⟨"shell", "????*", .deny⟩, ⟨"shell", "git *", .allow⟩]) ∧
      ¬ LastMatchNarrows [⟨"shell", "????*", .deny⟩, ⟨"shell", "git *", .allow⟩]) ∧
    (render ⟨[bash "**"], [], [bash "*"]⟩ none =
        .ok (some [⟨"shell", "*", .deny⟩, ⟨"shell", "**", .allow⟩]) ∧
      ¬ LastMatchNarrows [⟨"shell", "*", .deny⟩, ⟨"shell", "**", .allow⟩]) := by
  refine ⟨⟨by decide +kernel, fun h => ?_⟩, ⟨by decide +kernel, fun h => ?_⟩⟩
  · have hnarrows := h "shell" "git x" [⟨"shell", "????*", .deny⟩] ⟨"shell", "git *", .allow⟩ [] rfl
      (by decide +kernel) (by simp) _ List.mem_cons_self (by decide +kernel) (by decide)
    exact absurd (hnarrows.1 "git" (by decide +kernel)) (by decide +kernel)
  · have hnarrows := h "shell" "ls" [⟨"shell", "*", .deny⟩] ⟨"shell", "**", .allow⟩ [] rfl
      (by decide +kernel) (by simp) _ List.mem_cons_self (by decide +kernel) (by decide)
    obtain ⟨tool, input, hearly, hlate⟩ := (hnarrows.2 rfl).2
    have hsame := (applies_imp_iff ⟨"shell", "**", .allow⟩ hearly).mpr
      ⟨by decide +kernel, by decide +kernel⟩
    exact absurd (hsame tool input hearly) (by simp [hlate])

end Llmenv.Adapter.Opencode
