/-
# `Llmenv.Config.Permissions` — is a value still one argument when it is wrapped?

`has_balanced_parens` and the checks of `crates/llmenv-config/src/validate/permissions.rs`.
A value with balanced parentheses is rendered as `Tool(value)`, and the engine
reads such a rule by the depth of its parentheses, where a backslash escapes the
next character.

The scan starts with the flag of the escape off and does not look at it at its
end.  So a value that ends in a backslash which escapes nothing passes, and then
escapes the `)` that is written after it: the engine finds no end of the rule.
`wrapped_iff` says that nothing else goes wrong.

The depth is an `i32` in the code.  A configuration file has at most 4 MiB, so it
does not overflow there.
-/
import Llmenv.Adapter.ClaudeCode.Permissions
import Llmenv.Lib.Escape

namespace Llmenv.Config

open Llmenv.Lib Llmenv.Adapter

/-! ## The code -/

/-- The variables of the loop: `depth` and `prev_was_escape`. -/
structure ParenScan where
  depth : Int
  prevWasEscape : Bool
deriving DecidableEq

/-- One round of the loop, with `none` for `return false`. -/
def ParenScan.step (s : ParenScan) (c : Char) : Option ParenScan :=
  if s.prevWasEscape then some { s with prevWasEscape := false }
  else if c = '\\' then some { s with prevWasEscape := true }
  else if c = '(' then some { s with depth := s.depth + 1 }
  else if c = ')' then
    if s.depth - 1 < 0 then none else some { s with depth := s.depth - 1 }
  else some s

/-- The loop. -/
def ParenScan.run (s : ParenScan) (cs : List Char) : Option ParenScan := cs.foldlM ParenScan.step s

def hasBalancedParens (s : String) : Bool :=
  match ParenScan.run ⟨0, false⟩ s.toList with
  | some scan => scan.depth == 0
  | none => false

/-- `ValidateError::PermissionRuleUnbalancedParens`. -/
structure PermissionRuleUnbalancedParens where
  context : String
  tool : String
  value : String
deriving DecidableEq

/-- The first value that does not pass. -/
def validateValues (context tool : String) : List String → Except PermissionRuleUnbalancedParens Unit
  | [] => .ok ()
  | value :: rest =>
      if hasBalancedParens value then validateValues context tool rest
      else .error ⟨context, tool, value⟩

def validatePermissionRule (context : String) (rule : PermissionRule) :
    Except PermissionRuleUnbalancedParens Unit := do
  validateValues context rule.tool rule.pattern.toList
  validateValues context rule.tool rule.paths

def validatePermissionString (context raw : String) : Except PermissionRuleUnbalancedParens Unit :=
  if hasBalancedParens raw then .ok () else .error ⟨context, raw, raw⟩

/-! ## What the engine reads -/

/-- The rule for one value of a tool. -/
def wrapped (tool value : String) : String := tool ++ "(" ++ value ++ ")"

/-- Where a reader at `depth` finds the first unescaped `)` that leaves no
parenthesis open. -/
def topLevelClose (depth : Int) (prevWasEscape : Bool) : List Char → Option Nat
  | [] => none
  | c :: cs =>
      if prevWasEscape then (topLevelClose depth false cs).map (· + 1)
      else if c = '\\' then (topLevelClose depth true cs).map (· + 1)
      else if c = '(' then (topLevelClose (depth + 1) false cs).map (· + 1)
      else if c = ')' then
        if depth ≤ 1 then some 0 else (topLevelClose (depth - 1) false cs).map (· + 1)
      else (topLevelClose depth false cs).map (· + 1)

/-- The rule is well formed, and its first top-level `)` is its last character. -/
def OneArgument (rule : String) : Prop :=
  hasBalancedParens rule = true ∧
    topLevelClose 0 false rule.toList = some (rule.toList.length - 1)

/-- A character that the scan only passes over. -/
def Plain (c : Char) : Prop := c ≠ '(' ∧ c ≠ ')' ∧ c ≠ '\\'

/-! ## The scan -/

theorem ParenScan.run_append (s : ParenScan) (cs ds : List Char) :
    s.run (cs ++ ds) = (s.run cs).bind (fun t => t.run ds) :=
  List.foldlM_append

theorem ParenScan.run_cons (s : ParenScan) (c : Char) (cs : List Char) :
    s.run (c :: cs) = (s.step c).bind (fun t => t.run cs) :=
  List.foldlM_cons

/-- What one round can do. -/
inductive ParenScan.Steps : ParenScan → Char → ParenScan → Prop
  | escaped (d : Int) (c : Char) : Steps ⟨d, true⟩ c ⟨d, false⟩
  | escape (d : Int) : Steps ⟨d, false⟩ '\\' ⟨d, true⟩
  | opens (d : Int) : Steps ⟨d, false⟩ '(' ⟨d + 1, false⟩
  | closes {d : Int} : 1 ≤ d → Steps ⟨d, false⟩ ')' ⟨d - 1, false⟩
  | other (d : Int) {c : Char} : Plain c → Steps ⟨d, false⟩ c ⟨d, false⟩

theorem ParenScan.steps_of_step {s t : ParenScan} {c : Char} (h : s.step c = some t) :
    Steps s c t := by
  obtain ⟨d, _ | _⟩ := s
  · by_cases hb : c = '\\'
    · subst hb
      obtain rfl := Option.some.inj h
      exact .escape d
    by_cases ho : c = '('
    · subst ho
      obtain rfl := Option.some.inj h
      exact .opens d
    by_cases hc : c = ')'
    · subst hc
      by_cases hd : d - 1 < 0
      · simp [ParenScan.step, hd] at h
      · obtain rfl : (⟨d - 1, false⟩ : ParenScan) = t := by simpa [ParenScan.step, hd] using h
        exact .closes (by omega)
    · obtain rfl : (⟨d, false⟩ : ParenScan) = t := by simpa [ParenScan.step, hb, ho, hc] using h
      exact .other d ⟨ho, hc, hb⟩
  · obtain rfl := Option.some.inj h
    exact .escaped d c

theorem ParenScan.step_of_steps {s t : ParenScan} {c : Char} (h : Steps s c t) :
    s.step c = some t := by
  cases h with
  | escaped d c => rfl
  | escape d => rfl
  | opens d => rfl
  | closes hd =>
      rename_i d
      have hlt : ¬ d - 1 < 0 := by omega
      simp [ParenScan.step, hlt]
  | other d hc => simp [ParenScan.step, hc.1, hc.2.1, hc.2.2]

/-- The depth at the start does not matter, as long as it is no smaller. -/
theorem ParenScan.Steps.deeper {s t : ParenScan} {c : Char} (h : Steps s c t) :
    Steps ⟨s.depth + 1, s.prevWasEscape⟩ c ⟨t.depth + 1, t.prevWasEscape⟩ := by
  cases h with
  | escaped d c => exact .escaped (d + 1) c
  | escape d => exact .escape (d + 1)
  | opens d => exact .opens (d + 1)
  | closes hd =>
      rename_i d
      have := Steps.closes (d := d + 1) (by omega)
      rwa [show d + 1 - 1 = d - 1 + 1 by omega] at this
  | other d hc => exact .other (d + 1) hc

/-- The flag is the one of a reader with escapes. -/
theorem ParenScan.Steps.flag {s t : ParenScan} {c : Char} (h : Steps s c t) :
    t.prevWasEscape = Escape.escapes '\\' s.prevWasEscape [c] := by
  cases h with
  | escaped d c => rfl
  | escape d => rfl
  | opens d => rfl
  | closes _ => rfl
  | other d hc => exact (decide_eq_false hc.2.2).symm

/-- Inside a parenthesis, a step of the scan closes nothing at the top level. -/
theorem ParenScan.Steps.topLevelClose_cons {s t : ParenScan} {c : Char} (h : Steps s c t)
    (cs : List Char) : topLevelClose (s.depth + 1) s.prevWasEscape (c :: cs) =
      (topLevelClose (t.depth + 1) t.prevWasEscape cs).map (· + 1) := by
  cases h with
  | escaped d c => rfl
  | escape d => rfl
  | opens d => rfl
  | closes hd =>
      rename_i d
      have hin : ¬ d + 1 ≤ 1 := by omega
      simp only [topLevelClose, Bool.false_eq_true, if_false, Char.reduceEq, if_true,
        if_neg hin, Int.add_sub_cancel, Int.sub_add_cancel]
  | other d hc =>
      simp only [topLevelClose, Bool.false_eq_true, if_false, if_neg hc.1, if_neg hc.2.1,
        if_neg hc.2.2]

/-- The same for a whole value: read one parenthesis further in, it leaves the
scan where it was up to the flag, and the engine finds no end in it. -/
theorem ParenScan.run_deeper : ∀ {cs : List Char} {s t : ParenScan}, s.run cs = some t →
    ParenScan.run ⟨s.depth + 1, s.prevWasEscape⟩ cs = some ⟨t.depth + 1, t.prevWasEscape⟩ ∧
      t.prevWasEscape = Escape.escapes '\\' s.prevWasEscape cs ∧
      ∀ rest, topLevelClose (s.depth + 1) s.prevWasEscape (cs ++ rest) =
        (topLevelClose (t.depth + 1) t.prevWasEscape rest).map (· + cs.length)
  | [], s, t, h => by
      obtain rfl := Option.some.inj h
      exact ⟨rfl, rfl, fun rest => Option.map_id'.symm⟩
  | c :: cs, s, t, h => by
      rw [ParenScan.run_cons] at h
      obtain ⟨u, hu, hrun⟩ := Option.bind_eq_some_iff.mp h
      have hstep := ParenScan.steps_of_step hu
      obtain ⟨hdeep, hflag, hclose⟩ := ParenScan.run_deeper hrun
      refine ⟨?_, ?_, fun rest => ?_⟩
      · rw [ParenScan.run_cons, ParenScan.step_of_steps hstep.deeper]
        exact hdeep
      · rw [hflag, hstep.flag]
        exact (Escape.escapes_append _ [c] cs).symm
      · rw [List.cons_append, hstep.topLevelClose_cons, hclose, Option.map_map]
        congr 1

/-- A name without parentheses and backslashes is passed over. -/
theorem ParenScan.run_plain : ∀ {cs : List Char}, (∀ c ∈ cs, Plain c) → ∀ d : Int,
    ParenScan.run ⟨d, false⟩ cs = some ⟨d, false⟩
  | [], _, _ => rfl
  | c :: cs, h, d => by
      rw [ParenScan.run_cons, ParenScan.step_of_steps (.other d (h c List.mem_cons_self))]
      exact ParenScan.run_plain (fun c hc => h c (List.mem_cons_of_mem _ hc)) d

theorem topLevelClose_plain : ∀ {cs : List Char}, (∀ c ∈ cs, Plain c) → ∀ (d : Int) rest,
    topLevelClose d false (cs ++ rest) = (topLevelClose d false rest).map (· + cs.length)
  | [], _, d, rest => Option.map_id'.symm
  | c :: cs, h, d, rest => by
      have hc := h c List.mem_cons_self
      have ih := topLevelClose_plain (fun c hc => h c (List.mem_cons_of_mem _ hc)) d rest
      simp only [List.cons_append, topLevelClose, Bool.false_eq_true, if_false, if_neg hc.1,
        if_neg hc.2.1, if_neg hc.2.2, ih, Option.map_map]
      congr 1

/-! ## The wrapped value -/

theorem toList_wrapped (tool value : String) :
    (wrapped tool value).toList = tool.toList ++ '(' :: (value.toList ++ [')']) := by
  simp [wrapped]

/-- A balanced value is scanned to depth zero. -/
theorem run_of_hasBalancedParens {v : String} (h : hasBalancedParens v = true) :
    ParenScan.run ⟨0, false⟩ v.toList = some ⟨0, Escape.escapes '\\' false v.toList⟩ := by
  simp only [hasBalancedParens] at h
  split at h
  · rename_i scan hrun
    obtain ⟨-, hflag, -⟩ := ParenScan.run_deeper hrun
    obtain ⟨depth, escaped⟩ := scan
    obtain rfl : depth = 0 := by simpa using h
    obtain rfl : escaped = Escape.escapes '\\' false v.toList := hflag
    exact hrun
  · exact absurd h (by decide)

theorem balanced_of_validateValues {context tool : String} : ∀ {values : List String},
    validateValues context tool values = .ok () → ∀ v ∈ values, hasBalancedParens v = true
  | [], _, v, hv => absurd hv List.not_mem_nil
  | value :: rest, h, v, hv => by
      rw [validateValues] at h
      split at h
      · rename_i hvalue
        rcases List.mem_cons.mp hv with rfl | hrest
        · exact hvalue
        · exact balanced_of_validateValues h v hrest
      · exact absurd h (by simp)

/-- What the adapter writes for a rule that passed: the bare tool, or the tool
around a balanced value. -/
theorem rendered_of_validated {context : String} {rule : PermissionRule}
    (h : validatePermissionRule context rule = .ok ()) {s : String}
    (hs : s ∈ ClaudeCode.renderPermissionRule rule) :
    s = ClaudeCode.normalizeDeprecatedTool rule.tool ∨
      ∃ v, hasBalancedParens v = true ∧
        s = wrapped (ClaudeCode.normalizeDeprecatedTool rule.tool) v := by
  obtain ⟨⟨⟩, hpattern, hpaths⟩ := bind_eq_ok.mp h
  simp only [ClaudeCode.renderPermissionRule] at hs
  split at hs
  · rename_i pattern hp
    refine Or.inr ⟨pattern, ?_, List.mem_singleton.mp hs⟩
    exact balanced_of_validateValues hpattern pattern (by rw [hp]; exact List.mem_singleton_self _)
  · split at hs
    · exact Or.inl (List.mem_singleton.mp hs)
    · obtain ⟨path, hpath, rfl⟩ := List.mem_map.mp hs
      exact Or.inr ⟨path, balanced_of_validateValues hpaths path hpath, rfl⟩

/-- **A wrapped value is read as one argument exactly when it does not end in an
odd run of backslashes.** -/
theorem wrapped_iff (tool v : String) (htool : ∀ c ∈ tool.toList, Plain c)
    (hv : hasBalancedParens v = true) :
    OneArgument (wrapped tool v) ↔ ¬ Odd (Escape.trailing '\\' v.toList) := by
  have hrun := run_of_hasBalancedParens hv
  obtain ⟨hdeep, -, hclose⟩ := ParenScan.run_deeper hrun
  have hscan : ParenScan.run ⟨0, false⟩ (wrapped tool v).toList =
      ParenScan.step ⟨1, Escape.escapes '\\' false v.toList⟩ ')' := by
    rw [toList_wrapped, ParenScan.run_append, ParenScan.run_plain htool, Option.bind_some,
      ParenScan.run_cons, ParenScan.step_of_steps (.opens 0), Option.bind_some,
      ParenScan.run_append, show (0 : Int) + 1 = 1 from rfl]
    rw [show ParenScan.run ⟨1, false⟩ v.toList = some ⟨1, Escape.escapes '\\' false v.toList⟩
      from hdeep, Option.bind_some, ParenScan.run_cons]
    exact Option.bind_fun_some _
  have hend : topLevelClose 0 false (wrapped tool v).toList =
      (topLevelClose 1 (Escape.escapes '\\' false v.toList) [')']).map
        (· + (tool.toList.length + 1 + v.toList.length)) := by
    have hvalue : topLevelClose 1 false (v.toList ++ [')']) =
        (topLevelClose 1 (Escape.escapes '\\' false v.toList) [')']).map (· + v.toList.length) :=
      hclose [')']
    rw [toList_wrapped, topLevelClose_plain htool]
    simp only [topLevelClose.eq_2 _ _ '(', Bool.false_eq_true, if_false, Char.reduceEq, if_true,
      Int.zero_add, hvalue, Option.map_map]
    congr 1
    funext n
    simp only [Function.comp]
    omega
  have hlen : (wrapped tool v).toList.length - 1 = tool.toList.length + 1 + v.toList.length := by
    rw [toList_wrapped]
    simp only [List.length_append, List.length_cons, List.length_nil]
    omega
  rw [OneArgument, hlen, hend, hasBalancedParens, hscan, ← Escape.escapes_iff]
  cases Escape.escapes '\\' false v.toList with
  | true => simp [ParenScan.step]
  | false => simp [ParenScan.step, topLevelClose]

/-- Where the value closes what it opens and ends in no backslash, it is one
argument. -/
theorem wrapped_iff_process_substitution :
    OneArgument (wrapped "Bash" "bash <(curl *)*") ↔
      ¬ Odd (Escape.trailing '\\' "bash <(curl *)*".toList) :=
  wrapped_iff "Bash" "bash <(curl *)*" (by simp [Plain]) (by decide)

/-- The root of a drive passes the check, and its rule never ends. -/
theorem wrapped_drive_root :
    ¬ (∀ tool v : String, (∀ c ∈ tool.toList, Plain c) → hasBalancedParens v = true →
      OneArgument (wrapped tool v)) := by
  intro h
  obtain ⟨hbal, -⟩ := h "Edit" "C:\\" (by simp [Plain]) (by decide)
  exact absurd hbal (by decide)

end Llmenv.Config
