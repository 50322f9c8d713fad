/-
# `Llmenv.Adapter.Tools` — permission rules and the names of tools

The permission rules of the configuration (`crates/llmenv-config/src/schema.rs`),
the one table of neutral tool names with the key of each engine
(`src/adapter/tools.rs`), and `llmenv_util::dedup`.  The notes of the table are
texts for the documentation and left out.
-/
import Mathlib.Data.List.Basic

namespace Llmenv.Adapter

/-- A tool, with a glob pattern or a list of paths. -/
structure PermissionRule where
  tool : String
  pattern : Option String
  paths : List String
deriving DecidableEq

/-- The neutral rules. -/
structure Permissions where
  allow : List PermissionRule
  ask : List PermissionRule
  deny : List PermissionRule

/-- The rules in the grammar of one engine. -/
structure NativePermissionRules where
  allow : List String
  ask : List String
  deny : List String

/-! ## The tool table -/

/-- How one engine expresses a neutral tool. -/
inductive ToolMapping where
  | renamed (key : String)
  | closest (key : String)
  | unsupported

def ToolMapping.key : ToolMapping → Option String
  | renamed key => some key
  | closest key => some key
  | unsupported => none

structure NeutralTool where
  name : String
  opencode : ToolMapping
  crush : ToolMapping

def neutralTools : List NeutralTool :=
  [⟨"Bash", .renamed "shell", .renamed "bash"⟩,
   ⟨"Read", .renamed "read", .renamed "view"⟩,
   ⟨"Edit", .renamed "edit", .closest "edit"⟩,
   ⟨"Write", .closest "edit", .renamed "write"⟩,
   ⟨"MultiEdit", .closest "edit", .closest "multiedit"⟩,
   ⟨"Glob", .renamed "glob", .renamed "glob"⟩,
   ⟨"Grep", .renamed "grep", .renamed "grep"⟩,
   ⟨"LS", .unsupported, .renamed "ls"⟩,
   ⟨"WebFetch", .renamed "webfetch", .renamed "fetch"⟩,
   ⟨"WebSearch", .renamed "websearch", .unsupported⟩,
   ⟨"TodoWrite", .unsupported, .renamed "todos"⟩,
   ⟨"Task", .renamed "subagent", .renamed "agent"⟩,
   ⟨"AskUserQuestion", .renamed "question", .renamed "question"⟩,
   ⟨"NotebookEdit", .unsupported, .unsupported⟩,
   ⟨"Skill", .renamed "skill", .unsupported⟩]

def lookup (neutral : String) : Option NeutralTool :=
  neutralTools.find? fun t => decide (t.name = neutral)

def opencodeKey (neutral : String) : Option String :=
  (lookup neutral).bind fun t => t.opencode.key

def crushKey (neutral : String) : Option String :=
  (lookup neutral).bind fun t => t.crush.key

/-- What holds of every key of the crush column holds of every `crushKey`. -/
theorem forall_crushKey {P : String → Prop}
    (h : ∀ t ∈ neutralTools, ∀ key ∈ t.crush.key, P key) {neutral key : String}
    (hkey : crushKey neutral = some key) : P key := by
  obtain ⟨t, ht, hk⟩ := Option.bind_eq_some_iff.mp hkey
  exact h t (List.mem_of_find?_eq_some ht) key hk

/-! ## `dedup` -/

variable {α : Type} [DecidableEq α]

/-- The loop of `dedup`: `kept` is the part before `i`. -/
def dedupFrom (kept : List α) : List α → List α
  | [] => kept
  | x :: xs => if x ∈ kept then dedupFrom kept xs else dedupFrom (kept ++ [x]) xs

/-- Keep the first of equal items. -/
def dedup (items : List α) : List α := dedupFrom [] items

theorem mem_dedupFrom {x : α} {kept items : List α} :
    x ∈ dedupFrom kept items ↔ x ∈ kept ∨ x ∈ items := by
  induction items generalizing kept with
  | nil => simp [dedupFrom]
  | cons y ys ih =>
      simp only [dedupFrom]
      split
      · rename_i hy
        rw [ih, List.mem_cons]
        constructor
        · rintro (h | h)
          · exact Or.inl h
          · exact Or.inr (Or.inr h)
        · rintro (h | rfl | h)
          · exact Or.inl h
          · exact Or.inl hy
          · exact Or.inr h
      · rw [ih, List.mem_append, List.mem_singleton, List.mem_cons, or_assoc]

@[simp] theorem mem_dedup {x : α} {items : List α} : x ∈ dedup items ↔ x ∈ items := by
  simp [dedup, mem_dedupFrom]

theorem nodup_dedupFrom {kept items : List α} (hkept : kept.Nodup) :
    (dedupFrom kept items).Nodup := by
  induction items generalizing kept with
  | nil => exact hkept
  | cons y ys ih =>
      simp only [dedupFrom]
      split
      · exact ih hkept
      · rename_i hy
        refine ih (List.nodup_append.mpr ⟨hkept, by simp, fun a ha b hb => ?_⟩)
        obtain rfl := List.mem_singleton.mp hb
        exact fun hab => hy (hab ▸ ha)

theorem nodup_dedup (items : List α) : (dedup items).Nodup := nodup_dedupFrom List.nodup_nil

/-- Items that are all different are kept as they are. -/
theorem dedupFrom_of_nodup {kept items : List α} (h : (kept ++ items).Nodup) :
    dedupFrom kept items = kept ++ items := by
  induction items generalizing kept with
  | nil => simp [dedupFrom]
  | cons y ys ih =>
      have hy : y ∉ kept := fun hy => (List.nodup_append.mp h).2.2 y hy y List.mem_cons_self rfl
      rw [dedupFrom, if_neg hy, ih (by simpa using h)]
      simp

theorem dedup_of_nodup {items : List α} (h : items.Nodup) : dedup items = items :=
  dedupFrom_of_nodup h

theorem dedupFrom_of_mem {kept items : List α} (h : ∀ x ∈ items, x ∈ kept) :
    dedupFrom kept items = kept := by
  induction items with
  | nil => rfl
  | cons y items ih =>
      obtain ⟨hy, hrest⟩ := List.forall_mem_cons.mp h
      rw [dedupFrom, if_pos hy, ih hrest]

theorem dedupFrom_append {kept items : List α} (h : (kept ++ items).Nodup) (more : List α) :
    dedupFrom kept (items ++ more) = dedupFrom (kept ++ items) more := by
  induction items generalizing kept with
  | nil => rw [List.nil_append, List.append_nil]
  | cons y items ih =>
      have hy : y ∉ kept := fun hmem => (List.nodup_append.mp h).2.2 y hmem y (by simp) rfl
      rw [List.cons_append, dedupFrom, if_neg hy, ih (by simpa using h), List.append_assoc,
        List.singleton_append]

/-- Elements that are there already are not added. -/
theorem dedup_append_of_mem {items more : List α} (h : items.Nodup) (hmore : ∀ x ∈ more, x ∈ items) :
    dedup (items ++ more) = items := by
  rw [dedup, dedupFrom_append (by simpa using h), List.nil_append, dedupFrom_of_mem hmore]

theorem dedupFrom_map {β : Type} [DecidableEq β] {f : α → β} (hf : ∀ a b, f a = f b → a = b)
    (kept items : List α) :
    dedupFrom (kept.map f) (items.map f) = (dedupFrom kept items).map f := by
  induction items generalizing kept with
  | nil => rfl
  | cons y ys ih =>
      have hmem : f y ∈ kept.map f ↔ y ∈ kept := by
        constructor
        · intro h
          obtain ⟨x, hx, hxy⟩ := List.mem_map.mp h
          exact hf x y hxy ▸ hx
        · exact List.mem_map_of_mem
      simp only [List.map_cons, dedupFrom, hmem]
      split
      · exact ih kept
      · rw [← ih (kept ++ [y]), List.map_append, List.map_singleton]

theorem dedup_map {β : Type} [DecidableEq β] {f : α → β} (hf : ∀ a b, f a = f b → a = b)
    (items : List α) : dedup (items.map f) = (dedup items).map f :=
  dedupFrom_map hf [] items

end Llmenv.Adapter
