/-
# `Llmenv.Scope.Evaluate` — the active scopes, and the tags of the host

`evaluate` and `ActiveScopes::non_project_tags` of
`crates/llmenv-scope/src/lib.rs`, with `discover_project` from the marker that
its walk finds.  Which network, host, user and content scopes match is part of
the environment here.

`non_project_tags` recovers the host's tags after the fact: the tags of the
scopes that are no project, and what is left of the capped union once the tags
of every scope and of `$LLMENV_EXTRA_TAGS` are taken out.  The only tag that
can be left is the name of the operating system, and a project that names it,
or that fills the cap with tags that sort before it, takes it away.
-/
import Llmenv.Scope.Tags

namespace Llmenv.Scope

open Llmenv.Lib

/-! ## The configuration and the environment -/

/-- A scope of `config.yaml`, with the criteria `M` of its kind. -/
structure ScopeDef (M : Type) where
  id : String
  criteria : M
  tags : List String

structure ScopeConfig (N H U C : Type) where
  network : List (ScopeDef N)
  host : List (ScopeDef H)
  user : List (ScopeDef U)
  content : List (ScopeDef C)

/-- The body of `.llmenv.yaml`; `extra` has the names of the unknown fields. -/
structure ProjectFile where
  id : Option String
  name : Option String
  description : Option String
  tags : List String
  enableBundles : List String
  disableBundles : List String
  extra : List String

/-- The marker that the walk from the working directory finds. -/
structure Marker where
  root : String
  /-- The last part of `root`, when it has one and it is UTF-8. -/
  fileName : Option String
  file : ProjectFile

/-- What `evaluate` sees of the machine. -/
structure Env (N H U C : Type) where
  matchesNetwork : ScopeDef N → Bool
  matchesHost : ScopeDef H → Bool
  matchesUser : ScopeDef U → Bool
  cwdExists : Bool
  /-- The ids that one walk of the working directory matches. -/
  matchesContentAll : List (ScopeDef C) → List String
  marker : Option Marker
  os : String
  extraTags : List String

structure ResolvedProject where
  root : String
  id : String
  name : String
  description : Option String
  tags : List String
  enableBundles : List String
  disableBundles : List String
  unknownFields : List String

/-- The fields of a marker, with their defaults. -/
def Marker.resolve (marker : Marker) : ResolvedProject :=
  let basename := marker.fileName.getD "llmenv"
  let file := marker.file
  { root := marker.root
    id := file.id.getD basename
    name := file.name.getD basename
    description := file.description
    tags := sanitizeTags file.tags
    enableBundles := sanitizeTags file.enableBundles
    disableBundles := sanitizeTags file.disableBundles
    unknownFields := file.extra.filter fun key =>
      decide (key ∉ ["id", "name", "description", "tags", "enable_bundles", "disable_bundles"]) }

variable {N H U C : Type}

def discoverProject (env : Env N H U C) : Option ResolvedProject := env.marker.map Marker.resolve

/-! ## `evaluate` -/

inductive ScopeKind where
  | network
  | host
  | user
  | content
  | project
deriving DecidableEq

structure ActiveScope where
  id : String
  kind : ScopeKind
  tags : List String
  projectRoot : Option String
  enableBundles : List String
  disableBundles : List String
  name : Option String
  description : Option String
  unknownFields : List String

structure ActiveScopes where
  scopes : List ActiveScope
  tags : Finset String
  extraTags : Finset String

/-- The tags of a list of scopes, as a set. -/
def scopeTags (scopes : List ActiveScope) : Finset String :=
  (scopes.flatMap ActiveScope.tags).toFinset

/-- An active scope of `config.yaml`. -/
def ScopeDef.active {M : Type} (kind : ScopeKind) (s : ScopeDef M) : ActiveScope where
  id := s.id
  kind := kind
  tags := sanitizeTags s.tags
  projectRoot := none
  enableBundles := []
  disableBundles := []
  name := none
  description := none
  unknownFields := []

def ResolvedProject.active (p : ResolvedProject) : ActiveScope where
  id := p.id
  kind := .project
  tags := p.tags
  projectRoot := some p.root
  enableBundles := p.enableBundles
  disableBundles := p.disableBundles
  name := some p.name
  description := p.description
  unknownFields := p.unknownFields

/-- The content scopes that match: none when the directory does not exist. -/
def matchedContent (cfg : ScopeConfig N H U C) (env : Env N H U C) : List (ScopeDef C) :=
  if env.cwdExists && !cfg.content.isEmpty then
    let matchedIds := env.matchesContentAll cfg.content
    cfg.content.filter fun s => decide (s.id ∈ matchedIds)
  else []

/-- The active scopes of `config.yaml`, in the order of the four loops. -/
def configScopes (cfg : ScopeConfig N H U C) (env : Env N H U C) : List ActiveScope :=
  (cfg.network.filter env.matchesNetwork).map (ScopeDef.active .network) ++
    (cfg.host.filter env.matchesHost).map (ScopeDef.active .host) ++
    (cfg.user.filter env.matchesUser).map (ScopeDef.active .user) ++
    (matchedContent cfg env).map (ScopeDef.active .content)

def projectScopes (env : Env N H U C) : List ActiveScope :=
  ((discoverProject env).map ResolvedProject.active).toList

/-- The union of the tags of all sources, before the cap. -/
def unionTags (cfg : ScopeConfig N H U C) (env : Env N H U C) : Finset String :=
  let tags := scopeTags (configScopes cfg env ++ projectScopes env)
  (if env.os.isEmpty then tags else insert env.os tags) ∪ env.extraTags.toFinset

def evaluate (cfg : ScopeConfig N H U C) (env : Env N H U C) : ActiveScopes where
  scopes := configScopes cfg env ++ projectScopes env
  tags := capAggregateTags (unionTags cfg env)
  extraTags := env.extraTags.toFinset

/-- `ActiveScopes::non_project_tags`. -/
def ActiveScopes.nonProjectTags (active : ActiveScopes) : Finset String :=
  scopeTags (active.scopes.filter fun s => decide (s.kind ≠ .project)) ∪
    active.tags.filter fun t =>
      (¬ active.scopes.any fun s => decide (t ∈ s.tags)) ∧ t ∉ active.extraTags

/-! ## What `non_project_tags` recovers -/

/-- The tags of the matching scopes of `config.yaml`. -/
def hostTags (cfg : ScopeConfig N H U C) (env : Env N H U C) : Finset String :=
  scopeTags (configScopes cfg env)

/-- The tags that the project and `$LLMENV_EXTRA_TAGS` bring in. -/
def projectTags (env : Env N H U C) : Finset String :=
  scopeTags (projectScopes env) ∪ env.extraTags.toFinset

/-- Neither the project nor `$LLMENV_EXTRA_TAGS` names the operating system,
and fewer than 64 tags of all sources sort before it. -/
def OsTagKept (cfg : ScopeConfig N H U C) (env : Env N H U C) : Prop :=
  env.os ∉ projectTags env ∧
    ((hostTags cfg env ∪ projectTags env).filter (· < env.os)).card < maxTagsPerSource

theorem mem_scopeTags {scopes : List ActiveScope} {t : String} :
    t ∈ scopeTags scopes ↔ ∃ s ∈ scopes, t ∈ s.tags := by
  simp [scopeTags]

theorem kind_configScopes {cfg : ScopeConfig N H U C} {env : Env N H U C} {s : ActiveScope}
    (h : s ∈ configScopes cfg env) : s.kind ≠ .project := by
  simp only [configScopes, List.mem_append, List.mem_map] at h
  rcases h with ((⟨d, -, rfl⟩ | ⟨d, -, rfl⟩) | ⟨d, -, rfl⟩) | ⟨d, -, rfl⟩ <;>
    simp [ScopeDef.active]

theorem kind_projectScopes {env : Env N H U C} {s : ActiveScope}
    (h : s ∈ projectScopes env) : s.kind = .project := by
  simp only [projectScopes, Option.mem_toList, Option.map_eq_some_iff] at h
  obtain ⟨p, -, rfl⟩ := h
  rfl

theorem filter_scopes (cfg : ScopeConfig N H U C) (env : Env N H U C) :
    ((evaluate cfg env).scopes.filter fun s => decide (s.kind ≠ .project)) =
      configScopes cfg env := by
  rw [evaluate, List.filter_append, List.filter_eq_self.mpr, List.filter_eq_nil_iff.mpr,
    List.append_nil]
  · intro s hs
    simp [kind_projectScopes hs]
  · intro s hs
    simpa using kind_configScopes hs

theorem mem_unionTags {cfg : ScopeConfig N H U C} {env : Env N H U C} {t : String} :
    t ∈ unionTags cfg env ↔
      (t = env.os ∧ env.os ≠ "") ∨ t ∈ hostTags cfg env ∪ projectTags env := by
  simp only [unionTags, String.isEmpty_iff]
  split
  · rename_i hempty
    simp only [hostTags, projectTags, Finset.mem_union, mem_scopeTags, List.mem_append]
    grind
  · rename_i hne
    simp only [hostTags, projectTags, Finset.mem_union, Finset.mem_insert, mem_scopeTags,
      List.mem_append]
    grind

/-- The cap sees the same tags below the operating system's name, whether or
not that name is in the union. -/
theorem filter_lt_unionTags (cfg : ScopeConfig N H U C) (env : Env N H U C) :
    (unionTags cfg env).filter (· < env.os) =
      (hostTags cfg env ∪ projectTags env).filter (· < env.os) := by
  ext t
  rw [Finset.mem_filter, Finset.mem_filter, mem_unionTags]
  constructor
  · rintro ⟨⟨rfl, -⟩ | ht, hlt⟩
    · exact absurd hlt (lt_irrefl _)
    · exact ⟨ht, hlt⟩
  · rintro ⟨ht, hlt⟩
    exact ⟨Or.inr ht, hlt⟩

/-- The tags of the host: those of its scopes, and the name of the operating
system when that is kept. -/
theorem mem_nonProjectTags {cfg : ScopeConfig N H U C} {env : Env N H U C} {t : String} :
    t ∈ (evaluate cfg env).nonProjectTags ↔
      t ∈ hostTags cfg env ∨ (t = env.os ∧ env.os ≠ "" ∧ OsTagKept cfg env) := by
  have hrest : t ∈ hostTags cfg env ∨ t ∈ projectTags env ↔
      (∃ s ∈ (evaluate cfg env).scopes, t ∈ s.tags) ∨ t ∈ (evaluate cfg env).extraTags := by
    simp only [hostTags, projectTags, evaluate, Finset.mem_union, mem_scopeTags, List.mem_append]
    grind
  rw [ActiveScopes.nonProjectTags, filter_scopes, Finset.mem_union, Finset.mem_filter]
  simp only [List.any_eq_true, decide_eq_true_eq, ← not_or, ← hrest]
  refine or_congr_right' fun hhost => ?_
  show t ∈ capAggregateTags (unionTags cfg env) ∧ _ ↔ _
  rw [mem_capAggregateTags, mem_unionTags, Finset.mem_union]
  constructor
  · -- A tag that no scope and no extra tag contributed is the system's name.
    rintro ⟨⟨⟨rfl, hne⟩ | ht, hcard⟩, hnone⟩
    · refine ⟨rfl, hne, fun ht => hnone (Or.inr ht), ?_⟩
      rwa [filter_lt_unionTags] at hcard
    · exact absurd ht hnone
  · rintro ⟨rfl, hne, hproject, hcard⟩
    refine ⟨⟨Or.inl ⟨rfl, hne⟩, ?_⟩, ?_⟩
    · rwa [filter_lt_unionTags]
    · rintro (h | h)
      · exact hhost h
      · exact hproject h

/-! ## Two runs on one host -/

/-- The two environments have the same operating system, and the same scopes
of the configuration match. -/
structure SameHost (cfg : ScopeConfig N H U C) (env env' : Env N H U C) : Prop where
  os : env.os = env'.os
  network : ∀ s ∈ cfg.network, env.matchesNetwork s = env'.matchesNetwork s
  host : ∀ s ∈ cfg.host, env.matchesHost s = env'.matchesHost s
  user : ∀ s ∈ cfg.user, env.matchesUser s = env'.matchesUser s
  content : matchedContent cfg env = matchedContent cfg env'

theorem SameHost.hostTags_eq {cfg : ScopeConfig N H U C} {env env' : Env N H U C}
    (h : SameHost cfg env env') : hostTags cfg env = hostTags cfg env' := by
  rw [hostTags, hostTags, configScopes, configScopes, List.filter_congr h.network,
    List.filter_congr h.host, List.filter_congr h.user, h.content]

/-- Two runs on one host that differ in the project marker and in
`$LLMENV_EXTRA_TAGS` have the same host tags exactly when there is no name of
an operating system, or a scope of the host has it as a tag, or both runs keep
it or both lose it. -/
theorem nonProjectTags_eq_iff {cfg : ScopeConfig N H U C} {env env' : Env N H U C}
    (h : SameHost cfg env env') :
    (evaluate cfg env).nonProjectTags = (evaluate cfg env').nonProjectTags ↔
      env.os = "" ∨ env.os ∈ hostTags cfg env ∨ (OsTagKept cfg env ↔ OsTagKept cfg env') := by
  have hhost := h.hostTags_eq
  have hos := h.os
  constructor
  · intro heq
    have hmem : env.os ∈ (evaluate cfg env).nonProjectTags ↔
        env.os ∈ (evaluate cfg env').nonProjectTags := by rw [heq]
    rw [mem_nonProjectTags, mem_nonProjectTags, ← hhost, ← hos] at hmem
    tauto
  · intro hcond
    ext t
    rw [mem_nonProjectTags, mem_nonProjectTags, ← hhost, ← hos]
    rcases hcond with hempty | hin | hkept
    · simp [hempty]
    · refine or_congr_right' fun hout => ?_
      constructor
      · rintro ⟨rfl, -⟩
        exact absurd hin hout
      · rintro ⟨rfl, -⟩
        exact absurd hin hout
    · rw [hkept]

/-- A machine with `linux`, the given tags in the marker and the given value of
`$LLMENV_EXTRA_TAGS`. -/
def linuxEnv (tags : List String) (extra : String) : Env Unit Unit Unit Unit where
  matchesNetwork := fun _ => false
  matchesHost := fun _ => false
  matchesUser := fun _ => false
  cwdExists := true
  matchesContentAll := fun _ => []
  marker := some ⟨"/w/app", some "app", ⟨none, none, none, tags, [], [], []⟩⟩
  os := "linux"
  extraTags := parseExtraTags extra

def noScopes : ScopeConfig Unit Unit Unit Unit := ⟨[], [], [], []⟩

theorem sameHost_linuxEnv (tags tags' : List String) (extra extra' : String) :
    SameHost noScopes (linuxEnv tags extra) (linuxEnv tags' extra') :=
  ⟨rfl, by simp [noScopes], by simp [noScopes], by simp [noScopes], rfl⟩

/-- A project tag that is not the system's name changes nothing. -/
theorem nonProjectTags_eq_rust :
    (evaluate noScopes (linuxEnv [] "")).nonProjectTags =
      (evaluate noScopes (linuxEnv ["lang-rust"] "office")).nonProjectTags :=
  (nonProjectTags_eq_iff (sameHost_linuxEnv [] ["lang-rust"] "" "office")).mpr
    (Or.inr (Or.inr (iff_of_true ⟨by decide, by decide⟩ ⟨by decide, by decide⟩)))

/-- A project with the tag `linux` takes the tag of the system away from the
host, and so does that value of `$LLMENV_EXTRA_TAGS`. -/
theorem nonProjectTags_ne_linux :
    (SameHost noScopes (linuxEnv [] "") (linuxEnv ["linux"] "") ∧
      SameHost noScopes (linuxEnv [] "") (linuxEnv [] "linux")) ∧
      (evaluate noScopes (linuxEnv [] "")).nonProjectTags = {"linux"} ∧
      (evaluate noScopes (linuxEnv ["linux"] "")).nonProjectTags = ∅ ∧
      (evaluate noScopes (linuxEnv [] "linux")).nonProjectTags = ∅ :=
  ⟨⟨sameHost_linuxEnv [] ["linux"] "" "", sameHost_linuxEnv [] [] "" "linux"⟩, by decide,
    by decide, by decide⟩

end Llmenv.Scope
