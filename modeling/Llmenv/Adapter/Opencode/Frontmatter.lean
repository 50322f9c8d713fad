/-
# `Llmenv.Adapter.Opencode.Frontmatter` — the header of an agent file

`split_frontmatter` of `src/adapter/opencode/translate.rs`, the second reader
of the format that `Llmenv.Merge.Frontmatter` reads for rule files.  This one
looks for a newline with three dashes behind it, so a line that only begins
with dashes closes the block too, and what stands behind the dashes on that
line begins the body.

`splitters_agree_iff`: on a text with an opener the two agree exactly when the
first later line that begins with three dashes, if there is one, has no more
than these.  Where they disagree the bodies differ, so no YAML parser can hide
it; the parser is a parameter.
-/
import Mathlib.Data.List.TakeWhile
import Llmenv.Merge.Frontmatter

namespace Llmenv.Adapter.Opencode.Frontmatter

open Llmenv.Lib.Text
open Llmenv.Merge.Frontmatter (fence newline_notMem_fence rows_opener splitFrontmatter_closed
  splitFrontmatter_open)

/-! ## The code -/

/-- `str::trim_start`. -/
def trimStart (cs : List Char) : List Char := cs.dropWhile isWhitespace

section Split

variable {V : Type} (parse : List Char → Option V)

/-- The frontmatter as `parse` reads it, if there is one, and the body; `none` is a slice out of
range.  YAML that does not parse is logged and counts as absent. -/
def splitFrontmatter (source : List Char) : Option (Option V × List Char) :=
  let s := trimStart source
  if !fence.isPrefixOf s then some (none, source)
  else do
    let afterOpener ← sliceFrom 3 s
    match find ('\n' :: fence) afterOpener with
    | some end_ =>
        let content ← sliceTo end_ afterOpener
        let fmRaw := (stripPrefix ['\n'] content).getD content
        let body ← sliceFrom (end_ + 4) afterOpener
        some (parse fmRaw, trimStart body)
    | none => some (none, source)

end Split

/-! ## The two readers -/

/-- What the two readers of a text with an opener should have in common. -/
def Agree {V : Type} (parse : List Char → Option V) (source : List Char) : Prop :=
  (∀ f b, Merge.Frontmatter.splitFrontmatter source = some (some f, b) →
    splitFrontmatter parse source = some (parse f, trimStart b)) ∧
  ∀ b, Merge.Frontmatter.splitFrontmatter source = some (none, b) →
    ∃ fm, splitFrontmatter parse source = some (fm, source)

/-- The first line that begins with a fence, if there is one, is a fence. -/
def closesExactly (rest : List Char) : Bool :=
  ((rows rest).find? fun r => fence.isPrefixOf r).all (· == fence)

/-! ## The code on a text with an opener -/

section Opener

variable {V : Type} {parse : List Char → Option V} {rest : List Char}

/-- Behind an opener the code searches the text that begins with the opener's newline. -/
theorem splitFrontmatter_opener (parse : List Char → Option V) (rest : List Char) :
    splitFrontmatter parse (fence ++ '\n' :: rest) =
      match find ('\n' :: fence) ('\n' :: rest) with
      | some end_ => do
          let content ← sliceTo end_ ('\n' :: rest)
          let body ← sliceFrom (end_ + 4) ('\n' :: rest)
          some (parse ((stripPrefix ['\n'] content).getD content), trimStart body)
      | none => some (none, fence ++ '\n' :: rest) := by
  have htrim : trimStart (fence ++ '\n' :: rest) = fence ++ '\n' :: rest := rfl
  have hslice : sliceFrom 3 (fence ++ '\n' :: rest) = some ('\n' :: rest) :=
    sliceFrom_append fence ('\n' :: rest)
  rw [splitFrontmatter, htrim, hslice]
  rfl

/-- The rows of the searched text. -/
theorem rows_searched (rest : List Char) : rows ('\n' :: rest) = [] :: rows rest :=
  rows_newline [] rest

theorem unrows_nil_cons_strip (mid : List (List Char)) :
    (stripPrefix ['\n'] (unrows ([] :: mid))).getD (unrows ([] :: mid)) = unrows mid := by
  by_cases hm : mid = []
  · rw [hm]
    rfl
  · rw [unrows_cons hm]
    rfl

/-- The first line that begins with a fence ends the block, and the rest of that line begins the
body. -/
theorem splitFrontmatter_stop {mid after : List (List Char)} {x : List Char}
    (h : rows rest = mid ++ (fence ++ x) :: after) (hmid : ∀ r ∈ mid, ¬ fence <+: r) :
    splitFrontmatter parse (fence ++ '\n' :: rest) =
      some (parse (unrows mid), trimStart (unrows (x :: after))) := by
  have hrows : rows ('\n' :: rest) = ([] :: mid) ++ (fence ++ x) :: after := by
    rw [rows_searched, h]
    rfl
  have hfirst : FirstAt ('\n' :: fence) (unrows ([] :: mid)) ('\n' :: rest) :=
    firstAt_openRow newline_notMem_fence hrows (by simp) hmid
  have htext : '\n' :: rest = unrows ([] :: mid) ++ ('\n' :: fence) ++ unrows (x :: after) := by
    have hlast : unrows ((fence ++ x) :: after) = fence ++ unrows (x :: after) :=
      join_append_cons ['\n'] fence x after
    rw [← unrows_rows ('\n' :: rest), hrows, unrows_append (by simp) (by simp), hlast]
    simp
  have hcontent : sliceTo (byteLen (unrows ([] :: mid))) ('\n' :: rest) =
      some (unrows ([] :: mid)) :=
    sliceTo_eq_some.mpr ⟨('\n' :: fence) ++ unrows (x :: after), by
      rw [← List.append_assoc, ← htext], rfl⟩
  have hbody : sliceFrom (byteLen (unrows ([] :: mid)) + 4) ('\n' :: rest) =
      some (unrows (x :: after)) :=
    sliceFrom_eq_some.mpr ⟨_, htext, byteLen_append _ _⟩
  rw [splitFrontmatter_opener, find_eq_some.mpr ⟨_, hfirst, rfl⟩]
  dsimp only
  rw [hcontent, hbody, ← unrows_nil_cons_strip mid]
  rfl

/-- Without a line that begins with a fence all is body. -/
theorem splitFrontmatter_noStop (h : ∀ r ∈ rows rest, ¬ fence <+: r) :
    splitFrontmatter parse (fence ++ '\n' :: rest) = some (none, fence ++ '\n' :: rest) := by
  have hnone : find ('\n' :: fence) ('\n' :: rest) = none := by
    rw [find_eq_none]
    intro hinfix
    obtain ⟨mid, x, after, hrows, hm⟩ := openRow_of_infix newline_notMem_fence hinfix
    obtain ⟨first, mid', rfl⟩ := List.exists_cons_of_ne_nil hm
    rw [rows_searched] at hrows
    have hrest : rows rest = mid' ++ (fence ++ x) :: after := (List.cons.inj hrows).2
    exact h _ (hrest ▸ List.mem_append_right mid' List.mem_cons_self) (List.prefix_append fence x)
  rw [splitFrontmatter_opener, hnone]

end Opener

/-! ## Where they agree -/

theorem trimStart_newline (cs : List Char) : trimStart ('\n' :: cs) = trimStart cs := rfl

/-- White space goes away only in front of other characters. -/
theorem suffix_trimStart {c : Char} (hc : isWhitespace c = false) (xs ys : List Char) :
    c :: ys <:+ trimStart (xs ++ c :: ys) := by
  induction xs with
  | nil =>
      rw [List.nil_append, trimStart, List.dropWhile_cons_of_neg (by simp [hc])]
  | cons x xs ih =>
      rw [List.cons_append, trimStart, List.dropWhile_cons]
      split
      · exact ih
      · exact List.suffix_append (x :: xs) (c :: ys)

theorem length_trimStart_le (cs : List Char) : (trimStart cs).length ≤ cs.length :=
  List.length_dropWhile_le _ cs

/-- The first line that begins with a fence, as a place in the lines. -/
theorem firstStop_cases (rest : List Char) :
    (∃ mid x after, rows rest = mid ++ (fence ++ x) :: after ∧ (∀ r ∈ mid, ¬ fence <+: r) ∧
        (closesExactly rest = true ↔ x = [])) ∨
      ((∀ r ∈ rows rest, ¬ fence <+: r) ∧ closesExactly rest = true) := by
  cases hfind : (rows rest).find? fun r => fence.isPrefixOf r with
  | none =>
      refine .inr ⟨fun r hr hpre => ?_, by rw [closesExactly, hfind]; rfl⟩
      exact List.find?_eq_none.mp hfind r hr (List.isPrefixOf_iff_prefix.mpr hpre)
  | some row =>
      obtain ⟨hrow, mid, after, hsplit, hmid⟩ := List.find?_eq_some_iff_append.mp hfind
      obtain ⟨x, rfl⟩ := List.isPrefixOf_iff_prefix.mp hrow
      refine .inl ⟨mid, x, after, hsplit, fun r hr hpre => ?_, ?_⟩
      · have := hmid r hr
        rw [List.isPrefixOf_iff_prefix.mpr hpre] at this
        exact absurd this (by simp)
      · rw [closesExactly, hfind, Option.all_some, beq_iff_eq]
        exact List.append_right_eq_self

section Compare

variable {V : Type} {parse : List Char → Option V} {rest : List Char}

/-- A first closer that is a fence closes the block of both readers. -/
theorem agree_of_fence {mid after : List (List Char)}
    (h : rows rest = mid ++ fence :: after) (hmid : ∀ r ∈ mid, ¬ fence <+: r) :
    Agree parse (fence ++ '\n' :: rest) := by
  have hstop : rows rest = mid ++ (fence ++ []) :: after := by rw [List.append_nil, h]
  have hrules := splitFrontmatter_closed h fun hmem => hmid fence hmem (List.prefix_refl fence)
  have hbody : trimStart (unrows ([] :: after)) = trimStart (unrows after) := by
    by_cases ha : after = []
    · rw [ha]
      rfl
    · rw [unrows_cons ha, List.nil_append, trimStart_newline]
  constructor
  · intro f b hfb
    rw [hrules] at hfb
    obtain ⟨rfl, rfl⟩ : unrows mid = f ∧ unrows after = b := by simpa using hfb
    rw [splitFrontmatter_stop hstop hmid, hbody]
  · intro b hnone
    rw [hrules] at hnone
    exact absurd hnone (by simp)

/-- Without a line that begins with a fence neither reader finds a block. -/
theorem agree_of_noStop (h : ∀ r ∈ rows rest, ¬ fence <+: r) :
    Agree parse (fence ++ '\n' :: rest) := by
  have hrules := splitFrontmatter_open fun hmem => h fence hmem (List.prefix_refl fence)
  constructor
  · intro f b hfb
    rw [hrules] at hfb
    exact absurd hfb (by simp)
  · intro b _
    exact ⟨none, splitFrontmatter_noStop h⟩

/-- Text behind the dashes of the first closer, and no fence at all: the body lost the block. -/
theorem not_agree_open {mid after : List (List Char)} {x : List Char}
    (h : rows rest = mid ++ (fence ++ x) :: after) (hmid : ∀ r ∈ mid, ¬ fence <+: r)
    (hno : fence ∉ rows rest) : ¬ Agree parse (fence ++ '\n' :: rest) := by
  intro hagree
  obtain ⟨fm, hfm⟩ := hagree.2 _ (splitFrontmatter_open hno)
  rw [splitFrontmatter_stop h hmid] at hfm
  have hbody : trimStart (unrows (x :: after)) = fence ++ '\n' :: rest :=
    (Prod.mk.inj (Option.some.inj hfm)).2
  have hle : (unrows (x :: after)).length ≤ rest.length := by
    have hlast : unrows ((fence ++ x) :: after) = fence ++ unrows (x :: after) :=
      join_append_cons ['\n'] fence x after
    have hsuffix : unrows ((fence ++ x) :: after) <:+ rest := by
      rw [← unrows_rows rest, h]
      by_cases hm : mid = []
      · rw [hm]
        exact List.suffix_refl _
      · rw [unrows_append hm (by simp)]
        exact (List.suffix_cons _ _).trans (List.suffix_append _ _)
    rw [hlast] at hsuffix
    exact ((List.suffix_append _ _).trans hsuffix).length_le
  have hlen := congrArg List.length hbody
  have := length_trimStart_le (unrows (x :: after))
  rw [List.length_append, List.length_cons] at hlen
  omega

/-- The first fence stands behind a closer that is not one. -/
theorem fence_behind_stop {mid after mid' after' : List (List Char)} {x : List Char}
    (h : rows rest = mid ++ (fence ++ x) :: after) (hmid : ∀ r ∈ mid, ¬ fence <+: r)
    (hx : x ≠ []) (h' : rows rest = mid' ++ fence :: after') :
    ∃ gap, after = gap ++ fence :: after' := by
  have hne : fence ≠ fence ++ x := fun heq => hx (List.append_right_eq_self.mp heq.symm)
  rcases List.append_eq_append_iff.mp (h.symm.trans h') with ⟨gap, -, hgap⟩ | ⟨gap, rfl, hgap⟩
  · cases gap with
    | nil => exact absurd (List.cons.inj hgap).1.symm hne
    | cons g gap => exact ⟨gap, (List.cons.inj hgap).2⟩
  · cases gap with
    | nil => exact absurd (List.cons.inj hgap).1 hne
    | cons g gap =>
        have hg : fence = g := (List.cons.inj hgap).1
        have hmem : g ∈ mid' ++ g :: gap := List.mem_append_right mid' List.mem_cons_self
        exact absurd (hg ▸ List.prefix_refl g) (hmid g hmem)

/-- Text behind the dashes of the first closer, and a fence later: the body of this reader is
longer, since it has that fence in it. -/
theorem not_agree_closed {mid after mid' after' : List (List Char)} {x : List Char}
    (h : rows rest = mid ++ (fence ++ x) :: after) (hmid : ∀ r ∈ mid, ¬ fence <+: r)
    (hx : x ≠ []) (h' : rows rest = mid' ++ fence :: after') (hmid' : fence ∉ mid') :
    ¬ Agree parse (fence ++ '\n' :: rest) := by
  intro hagree
  have hsplit := hagree.1 _ _ (splitFrontmatter_closed h' hmid')
  rw [splitFrontmatter_stop h hmid] at hsplit
  have hbody : trimStart (unrows (x :: after)) = trimStart (unrows after') :=
    (Prod.mk.inj (Option.some.inj hsplit)).2
  obtain ⟨gap, rfl⟩ := fence_behind_stop h hmid hx h'
  have htext : unrows (x :: (gap ++ fence :: after')) =
      (unrows (x :: gap) ++ ['\n']) ++ '-' :: ('-' :: '-' :: unrows ([] :: after')) := by
    have hfence : unrows ((fence ++ []) :: after') = fence ++ unrows ([] :: after') :=
      join_append_cons ['\n'] fence [] after'
    rw [← List.cons_append, unrows_append (List.cons_ne_nil x gap) (List.cons_ne_nil fence after'),
      ← List.append_nil fence, hfence, List.append_assoc]
    rfl
  have hlong : unrows after' <:+ unrows ([] :: after') := by
    by_cases ha : after' = []
    · rw [ha]
      exact List.nil_suffix
    · rw [unrows_cons ha]
      exact List.suffix_cons _ _
  have hkept := (suffix_trimStart (by decide : isWhitespace '-' = false)
    (unrows (x :: gap) ++ ['\n']) ('-' :: '-' :: unrows ([] :: after'))).length_le
  rw [← htext, hbody] at hkept
  have := length_trimStart_le (unrows after')
  have := hlong.length_le
  simp only [List.length_cons] at hkept
  omega

/-- The two readers agree on a text with an opener, whatever the parser does, exactly when the
first later line that begins with a fence, if there is one, is a fence. -/
theorem splitters_agree_iff (parse : List Char → Option V) (rest : List Char) :
    Agree parse (fence ++ '\n' :: rest) ↔ closesExactly rest = true := by
  rcases firstStop_cases rest with ⟨mid, x, after, h, hmid, hexact⟩ | ⟨hno, hexact⟩
  · rw [hexact]
    constructor
    · intro hagree
      by_contra hx
      by_cases hmem : fence ∈ rows rest
      · obtain ⟨mid', after', h', hmid'⟩ := List.eq_append_cons_of_mem hmem
        exact not_agree_closed h hmid hx h' hmid' hagree
      · exact not_agree_open h hmid hmem hagree
    · rintro rfl
      rw [List.append_nil] at h
      exact agree_of_fence h hmid
  · exact iff_of_true (agree_of_noStop hno) hexact

end Compare

/-- A line of four dashes in the block: the rule reader takes it for text of the block, this one
ends the block there. -/
theorem splitters_disagree :
    ¬ ∀ (parse : List Char → Option (List Char)) (rest : List Char),
      Agree parse (fence ++ '\n' :: rest) := by
  intro h
  have hrules : Merge.Frontmatter.splitFrontmatter
      (fence ++ '\n' :: "model: x\n----\ntools: y\n---\nbody".toList) =
      some (some "model: x\n----\ntools: y".toList, "body".toList) := by decide
  have hopencode : splitFrontmatter some
      (fence ++ '\n' :: "model: x\n----\ntools: y\n---\nbody".toList) =
      some (some "model: x".toList, "-\ntools: y\n---\nbody".toList) := by decide
  have hagree := (h some _).1 _ _ hrules
  rw [hopencode] at hagree
  have hbody := congrArg List.length (Prod.mk.inj (Option.some.inj hagree)).2
  exact absurd hbody (by decide)

end Llmenv.Adapter.Opencode.Frontmatter
