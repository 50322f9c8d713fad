/-
# `Llmenv.Merge.Frontmatter` — the header of a rule file

`split_frontmatter` of `src/merge/rules.rs`.  A rule file may begin with a
block between two `---` lines.  The code looks for the end of the block with
four string searches, tried in order; `splitFrontmatter_exact` says that
together they find the first line that is only `---`.

Slices by offset are kept as the source has them (`Llmenv.Lib.Slice`), so that
none of them goes out of range is part of the result.
-/
import Llmenv.Lib.Fence

namespace Llmenv.Merge.Frontmatter

open Llmenv.Lib.Text

/-! ## The code -/

def fence : List Char := ['-', '-', '-']

/-- The frontmatter, if there is one, and the body; `none` is a slice out of range. -/
def splitFrontmatter (raw : List Char) : Option (Option (List Char) × List Char) :=
  match stripPrefix (fence ++ ['\n']) raw with
  | none => some (none, raw)
  | some rest =>
      -- An empty block puts the closer right after the opener.
      match stripPrefix (fence ++ ['\n']) rest with
      | some body => some (some [], body)
      | none =>
          if rest = fence then some (some [], [])
          else
            match find ('\n' :: fence ++ ['\n']) rest with
            | some end_ => do
                let fm ← sliceTo end_ rest
                let body ← sliceFrom (end_ + byteLen ('\n' :: fence ++ ['\n'])) rest
                some (some fm, body)
            | none =>
                match stripSuffix ('\n' :: fence) rest with
                | some stripped => some (some stripped, [])
                | none => some (none, raw)

/-! ## Blocks by lines -/

theorem newline_notMem_fence : '\n' ∉ fence := by decide

theorem rows_fence : rows fence = [fence] := split_of_notMem newline_notMem_fence

theorem rows_opener (rest : List Char) : rows (fence ++ '\n' :: rest) = fence :: rows rest :=
  split_append newline_notMem_fence rest

/-- The opener is there exactly when the first line is a fence with a line behind it. -/
theorem stripPrefix_opener {raw rest : List Char} :
    stripPrefix (fence ++ ['\n']) raw = some rest ↔ raw = fence ++ '\n' :: rest := by
  constructor
  · intro h
    rw [eq_append_of_stripPrefix h, List.append_assoc]
    rfl
  · rintro rfl
    exact stripPrefix_append (fence ++ ['\n']) rest

/-- A first line that is not a fence is not an empty block. -/
theorem not_emptyBlock {rest : List Char} (h : (rows rest).head? ≠ some fence) :
    stripPrefix (fence ++ ['\n']) rest = none ∧ rest ≠ fence := by
  constructor
  · rw [Option.eq_none_iff_forall_ne_some]
    intro body hbody
    rw [stripPrefix_opener.mp hbody, rows_opener] at h
    exact h rfl
  · rintro rfl
    rw [rows_fence] at h
    exact h rfl

/-- The code behind the opener, when the block is not empty. -/
theorem splitFrontmatter_searches {rest : List Char} (h : (rows rest).head? ≠ some fence) :
    splitFrontmatter (fence ++ '\n' :: rest) =
      match find ('\n' :: fence ++ ['\n']) rest with
      | some end_ => do
          let fm ← sliceTo end_ rest
          let body ← sliceFrom (end_ + byteLen ('\n' :: fence ++ ['\n'])) rest
          some (some fm, body)
      | none =>
          match stripSuffix ('\n' :: fence) rest with
          | some stripped => some (some stripped, [])
          | none => some (none, fence ++ '\n' :: rest) := by
  obtain ⟨hopener, hne⟩ := not_emptyBlock h
  rw [splitFrontmatter, stripPrefix_opener.mpr rfl]
  dsimp only
  rw [hopener]
  exact if_neg hne

theorem head?_ne_fence {rest : List Char} {mid after : List (List Char)}
    (h : rows rest = mid ++ fence :: after) (hm : mid ≠ []) (hmid : fence ∉ mid) :
    (rows rest).head? ≠ some fence := by
  obtain ⟨first, mid', rfl⟩ := List.exists_cons_of_ne_nil hm
  rw [h]
  intro heq
  exact hmid (Option.some.inj heq ▸ List.mem_cons_self)

/-- The closer right behind the opener. -/
theorem splitFrontmatter_emptyBlock {rest : List Char} {after : List (List Char)}
    (h : rows rest = fence :: after) :
    splitFrontmatter (fence ++ '\n' :: rest) = some (some [], unrows after) := by
  have hrest : rest = unrows (fence :: after) := by rw [← h, unrows_rows]
  rw [splitFrontmatter, stripPrefix_opener.mpr rfl]
  dsimp only
  by_cases ha : after = []
  · subst ha
    have hfence : rest = fence := hrest
    have hno : stripPrefix (fence ++ ['\n']) rest = none := by rw [hfence]; rfl
    rw [hno]
    exact if_pos hfence
  · have hbody : rest = fence ++ '\n' :: unrows after := by rw [hrest, unrows_cons ha]
    rw [stripPrefix_opener.mpr hbody]

/-- A closer with lines on both sides. -/
theorem splitFrontmatter_within {rest : List Char} {mid after : List (List Char)}
    (h : rows rest = mid ++ fence :: after) (hm : mid ≠ []) (ha : after ≠ [])
    (hmid : fence ∉ mid) :
    splitFrontmatter (fence ++ '\n' :: rest) = some (some (unrows mid), unrows after) := by
  have hfirst : FirstAt ('\n' :: fence ++ ['\n']) (unrows mid) rest :=
    firstAt_fenceRow newline_notMem_fence h hm ha fun hmem => hmid (List.mem_of_mem_tail hmem)
  have hrest : rest = unrows mid ++ ('\n' :: fence ++ ['\n']) ++ unrows after := by
    rw [← unrows_rows rest, h, unrows_append hm (by simp), unrows_cons ha]
    simp
  have hfm : sliceTo (byteLen (unrows mid)) rest = some (unrows mid) :=
    sliceTo_eq_some.mpr ⟨('\n' :: fence ++ ['\n']) ++ unrows after, by
      rw [← List.append_assoc, ← hrest], rfl⟩
  have hbody : sliceFrom (byteLen (unrows mid) + byteLen ('\n' :: fence ++ ['\n'])) rest =
      some (unrows after) :=
    sliceFrom_eq_some.mpr ⟨unrows mid ++ ('\n' :: fence ++ ['\n']), hrest, byteLen_append _ _⟩
  rw [splitFrontmatter_searches (head?_ne_fence h hm hmid), find_eq_some.mpr ⟨_, hfirst, rfl⟩]
  dsimp only
  rw [hfm, hbody]
  rfl

/-- A closer on the last line, behind other lines. -/
theorem splitFrontmatter_atEnd {rest : List Char} {mid : List (List Char)}
    (h : rows rest = mid ++ [fence]) (hm : mid ≠ []) (hmid : fence ∉ mid) :
    splitFrontmatter (fence ++ '\n' :: rest) = some (some (unrows mid), []) := by
  have hrest : rest = unrows mid ++ '\n' :: fence := by
    rw [← unrows_rows rest, h, unrows_append hm (by simp)]
    rfl
  have hnone : find ('\n' :: fence ++ ['\n']) rest = none := by
    rw [find_eq_none]
    intro hinfix
    obtain ⟨mid', after, hrows, hm', ha⟩ := fenceRow_of_infix newline_notMem_fence hinfix
    -- The fence on the last line is the only one.
    rw [h] at hrows
    have hle : mid <+: mid' := prefix_of_row hrows
      (fun r hr (heq : r = fence) => hmid (heq ▸ List.mem_of_mem_tail hr)) hm' rfl
    have hlen := congrArg List.length hrows
    simp only [List.length_append, List.length_cons, List.length_nil] at hlen
    have := hle.length_le
    have := List.length_pos_iff.mpr ha
    omega
  rw [splitFrontmatter_searches (head?_ne_fence h hm hmid), hnone]
  dsimp only
  rw [stripSuffix_eq_some.mpr hrest]

/-- No later line is a fence. -/
theorem splitFrontmatter_open {rest : List Char} (h : fence ∉ rows rest) :
    splitFrontmatter (fence ++ '\n' :: rest) = some (none, fence ++ '\n' :: rest) := by
  have hnone : find ('\n' :: fence ++ ['\n']) rest = none := by
    rw [find_eq_none]
    intro hinfix
    obtain ⟨mid, after, hrows, -, -⟩ := fenceRow_of_infix newline_notMem_fence hinfix
    exact h (hrows ▸ List.mem_append_right mid List.mem_cons_self)
  have hsuffix : stripSuffix ('\n' :: fence) rest = none := by
    rw [Option.eq_none_iff_forall_ne_some]
    intro stripped hstrip
    rw [stripSuffix_eq_some.mp hstrip, rows_newline, rows_fence] at h
    exact h (List.mem_append_right _ List.mem_cons_self)
  have hhead : (rows rest).head? ≠ some fence := fun heq => h (List.mem_of_head? heq)
  rw [splitFrontmatter_searches hhead, hnone]
  dsimp only
  rw [hsuffix]

/-- What the code does behind the opener when a later line is a fence. -/
theorem splitFrontmatter_closed {rest : List Char} {mid after : List (List Char)}
    (h : rows rest = mid ++ fence :: after) (hmid : fence ∉ mid) :
    splitFrontmatter (fence ++ '\n' :: rest) = some (some (unrows mid), unrows after) := by
  by_cases hm : mid = []
  · subst hm
    exact splitFrontmatter_emptyBlock h
  · by_cases ha : after = []
    · subst ha
      exact splitFrontmatter_atEnd h hm hmid
    · exact splitFrontmatter_within h hm ha hmid

theorem exists_opener_of_rows {raw : List Char} {rs : List (List Char)}
    (h : rows raw = fence :: rs) (hrs : rs ≠ []) :
    ∃ rest, raw = fence ++ '\n' :: rest ∧ rows rest = rs := ((rows_cons_iff hrs).mp h).2

/-- The block lies between the first line and the first later line that is a fence, and the body
behind that line; a text without such lines is all body. -/
theorem splitFrontmatter_exact (raw : List Char) :
    ((∃ fm body, splitFrontmatter raw = some (some fm, body)) ↔
      ∃ later, rows raw = fence :: later ∧ fence ∈ later) ∧
    (∀ mid after, rows raw = fence :: (mid ++ fence :: after) → fence ∉ mid →
      splitFrontmatter raw = some (some (unrows mid), unrows after)) ∧
    ((¬ ∃ later, rows raw = fence :: later ∧ fence ∈ later) →
      splitFrontmatter raw = some (none, raw)) := by
  have hclosed : ∀ mid after, rows raw = fence :: (mid ++ fence :: after) → fence ∉ mid →
      splitFrontmatter raw = some (some (unrows mid), unrows after) := by
    intro mid after h hmid
    obtain ⟨rest, rfl, hrest⟩ := exists_opener_of_rows h (by simp)
    exact splitFrontmatter_closed hrest hmid
  have hopen : (¬ ∃ later, rows raw = fence :: later ∧ fence ∈ later) →
      splitFrontmatter raw = some (none, raw) := by
    intro hnot
    cases hstrip : stripPrefix (fence ++ ['\n']) raw with
    | none => rw [splitFrontmatter, hstrip]
    | some rest =>
        obtain rfl := stripPrefix_opener.mp hstrip
        exact splitFrontmatter_open fun hmem => hnot ⟨_, rows_opener rest, hmem⟩
  refine ⟨⟨?_, ?_⟩, hclosed, hopen⟩
  · rintro ⟨fm, body, h⟩
    by_contra hnot
    rw [hopen hnot] at h
    exact absurd h (by simp)
  · rintro ⟨later, h, hmem⟩
    obtain ⟨mid, after, rfl, hmid⟩ := List.eq_append_cons_of_mem hmem
    exact ⟨_, _, hclosed mid after h hmid⟩

/-- A longer run of dashes in the block, and a second fence behind it. -/
theorem splitFrontmatter_exact_dashes :
    splitFrontmatter "---\na: b\n----\n---\nbody\n---\n".toList =
      some (some "a: b\n----".toList, "body\n---\n".toList) :=
  (splitFrontmatter_exact _).2.1 ["a: b".toList, "----".toList] ["body".toList, fence, []]
    (by decide) (by decide)

end Llmenv.Merge.Frontmatter
