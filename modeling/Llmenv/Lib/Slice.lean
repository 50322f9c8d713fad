/-
# `Llmenv.Lib.Slice` — byte offsets into a text

A text is a list of characters, an offset counts the bytes of their UTF-8.
`s[i..]` exists when `i` is the length of some first characters of `s`, and
`str::find` answers with such an offset, so every offset is best understood
as the text in front of it: `sliceFrom_eq_some`, `sliceTo_eq_some` and
`find_eq_some` say so, and after them no proof counts bytes again.
A slice that Rust refuses with a panic is `none`.
-/
import Mathlib.Data.List.Infix
import Mathlib.Tactic.Common
import Llmenv.Lib.Text

namespace Llmenv.Lib.Text

/-- `str::len`. -/
def byteLen : List Char → Nat
  | [] => 0
  | c :: cs => c.utf8Size + byteLen cs

@[simp] theorem byteLen_nil : byteLen [] = 0 := rfl

@[simp] theorem byteLen_cons (c : Char) (cs : List Char) :
    byteLen (c :: cs) = c.utf8Size + byteLen cs := rfl

@[simp] theorem byteLen_append (xs ys : List Char) :
    byteLen (xs ++ ys) = byteLen xs + byteLen ys := by
  induction xs with
  | nil => simp
  | cons c xs ih => simp [ih, Nat.add_assoc]

theorem exists_byteLen_succ (c : Char) (cs : List Char) : ∃ i, byteLen (c :: cs) = i + 1 :=
  Nat.exists_eq_succ_of_ne_zero (Nat.add_pos_left c.utf8Size_pos _).ne'

/-! ## Slices -/

/-- `&s[i..]`; `none` is the panic of an offset past the end or inside a character. -/
def sliceFrom : Nat → List Char → Option (List Char)
  | 0, cs => some cs
  | _ + 1, [] => none
  | i + 1, c :: cs => if c.utf8Size ≤ i + 1 then sliceFrom (i + 1 - c.utf8Size) cs else none

/-- `&s[..i]`. -/
def sliceTo : Nat → List Char → Option (List Char)
  | 0, _ => some []
  | _ + 1, [] => none
  | i + 1, c :: cs =>
      if c.utf8Size ≤ i + 1 then (sliceTo (i + 1 - c.utf8Size) cs).map (c :: ·) else none

/-- `&s[i..j]`; `none` also when the start is behind the end. -/
def slice (i j : Nat) (cs : List Char) : Option (List Char) :=
  if j < i then none else (sliceTo j cs).bind (sliceFrom i)

theorem sliceFrom_append (pre rest : List Char) :
    sliceFrom (byteLen pre) (pre ++ rest) = some rest := by
  induction pre with
  | nil => cases rest <;> rfl
  | cons c pre ih =>
      obtain ⟨i, hi⟩ := exists_byteLen_succ c pre
      have hle : c.utf8Size ≤ i + 1 := by rw [← hi, byteLen_cons]; omega
      rw [hi, List.cons_append, sliceFrom, if_pos hle, ← hi, byteLen_cons,
        Nat.add_sub_cancel_left, ih]

theorem sliceFrom_eq_some {i : Nat} {cs rest : List Char} :
    sliceFrom i cs = some rest ↔ ∃ pre, cs = pre ++ rest ∧ byteLen pre = i := by
  constructor
  · intro h
    induction cs generalizing i with
    | nil =>
        cases i with
        | zero => exact ⟨[], Option.some.inj h, rfl⟩
        | succ i => exact absurd h (by simp [sliceFrom])
    | cons c cs ih =>
        cases i with
        | zero => exact ⟨[], Option.some.inj h, rfl⟩
        | succ i =>
            rw [sliceFrom] at h
            split at h
            · rename_i hle
              obtain ⟨pre, rfl, hpre⟩ := ih h
              exact ⟨c :: pre, rfl, by rw [byteLen_cons, hpre]; omega⟩
            · exact absurd h (by simp)
  · rintro ⟨pre, rfl, rfl⟩
    exact sliceFrom_append pre rest

theorem sliceTo_append (pre rest : List Char) :
    sliceTo (byteLen pre) (pre ++ rest) = some pre := by
  induction pre with
  | nil => cases rest <;> rfl
  | cons c pre ih =>
      obtain ⟨i, hi⟩ := exists_byteLen_succ c pre
      have hle : c.utf8Size ≤ i + 1 := by rw [← hi, byteLen_cons]; omega
      rw [hi, List.cons_append, sliceTo, if_pos hle, ← hi, byteLen_cons, Nat.add_sub_cancel_left, ih]
      rfl

theorem sliceTo_eq_some {i : Nat} {cs pre : List Char} :
    sliceTo i cs = some pre ↔ ∃ rest, cs = pre ++ rest ∧ byteLen pre = i := by
  constructor
  · intro h
    induction cs generalizing i pre with
    | nil =>
        cases i with
        | zero => exact ⟨[], by simp [← Option.some.inj h]⟩
        | succ i => exact absurd h (by simp [sliceTo])
    | cons c cs ih =>
        cases i with
        | zero => exact ⟨c :: cs, by simp [← Option.some.inj h]⟩
        | succ i =>
            rw [sliceTo] at h
            split at h
            · rename_i hle
              obtain ⟨pre, hpre, rfl⟩ := Option.map_eq_some_iff.mp h
              obtain ⟨rest, rfl, hlen⟩ := ih hpre
              exact ⟨rest, rfl, by rw [byteLen_cons, hlen]; omega⟩
            · exact absurd h (by simp)
  · rintro ⟨rest, rfl, rfl⟩
    exact sliceTo_append pre rest

/-- A slice is the text between two first parts of the whole. -/
theorem slice_eq_some {i j : Nat} {cs mid : List Char} :
    slice i j cs = some mid ↔
      ∃ pre post, cs = pre ++ mid ++ post ∧ byteLen pre = i ∧ byteLen (pre ++ mid) = j := by
  rw [slice]
  constructor
  · intro h
    split at h
    · exact absurd h (by simp)
    · obtain ⟨front, hfront, hmid⟩ := Option.bind_eq_some_iff.mp h
      obtain ⟨post, rfl, hlen⟩ := sliceTo_eq_some.mp hfront
      obtain ⟨pre, rfl, hpre⟩ := sliceFrom_eq_some.mp hmid
      exact ⟨pre, post, rfl, hpre, hlen⟩
  · rintro ⟨pre, post, rfl, rfl, rfl⟩
    have hle : ¬ byteLen (pre ++ mid) < byteLen pre := by rw [byteLen_append]; omega
    rw [if_neg hle, sliceTo_eq_some.mpr ⟨post, rfl, rfl⟩]
    exact sliceFrom_append pre mid

/-- `str::strip_suffix`. -/
def stripSuffix (suf cs : List Char) : Option (List Char) :=
  if suf <:+ cs then some (cs.take (cs.length - suf.length)) else none

theorem stripSuffix_eq_some {suf cs pre : List Char} :
    stripSuffix suf cs = some pre ↔ cs = pre ++ suf := by
  rw [stripSuffix]
  constructor
  · intro h
    split at h
    · rename_i hsuf
      obtain ⟨pre', rfl⟩ := hsuf
      have hpre : pre' = pre := by simpa using h
      rw [hpre]
    · exact absurd h (by simp)
  · rintro rfl
    rw [if_pos (List.suffix_append pre suf)]
    simp

/-! ## Searches -/

/-- `str::find`: the offset of the first occurrence. -/
def find (needle : List Char) : List Char → Option Nat
  | [] => if needle.isPrefixOf [] then some 0 else none
  | c :: cs =>
      if needle.isPrefixOf (c :: cs) then some 0
      else (find needle cs).map (c.utf8Size + ·)

/-- `needle` starts behind `pre` in `cs`, and nowhere before. -/
structure FirstAt (needle pre cs : List Char) : Prop where
  here : pre ++ needle <+: cs
  first : ∀ pre', pre' ++ needle <+: cs → pre <+: pre'

theorem FirstAt.byteLen_unique {needle pre pre' cs : List Char} (h : FirstAt needle pre cs)
    (h' : FirstAt needle pre' cs) : pre = pre' :=
  (h.first pre' h'.here).eq_of_length
    (Nat.le_antisymm (h.first pre' h'.here).length_le (h'.first pre h.here).length_le)

theorem firstAt_nil {needle cs : List Char} (h : needle <+: cs) : FirstAt needle [] cs :=
  ⟨h, fun _ _ => List.nil_prefix⟩

theorem firstAt_cons {needle pre cs : List Char} {c : Char} (hnot : ¬ needle <+: c :: cs) :
    FirstAt needle (c :: pre) (c :: cs) ↔ FirstAt needle pre cs := by
  constructor
  · intro h
    refine ⟨(List.cons_prefix_cons.mp h.here).2, fun pre' hpre' => ?_⟩
    exact (List.cons_prefix_cons.mp (h.first (c :: pre') (List.cons_prefix_cons.mpr ⟨rfl, hpre'⟩))).2
  · intro h
    refine ⟨List.cons_prefix_cons.mpr ⟨rfl, h.here⟩, fun pre' hpre' => ?_⟩
    cases pre' with
    | nil => exact absurd hpre' hnot
    | cons d pre' =>
        obtain ⟨rfl, hrest⟩ := List.cons_prefix_cons.mp hpre'
        exact List.cons_prefix_cons.mpr ⟨rfl, h.first pre' hrest⟩

theorem find_eq_some {needle cs : List Char} {i : Nat} :
    find needle cs = some i ↔ ∃ pre, FirstAt needle pre cs ∧ byteLen pre = i := by
  induction cs generalizing i with
  | nil =>
      rw [find]
      constructor
      · intro h
        split at h
        · rename_i hpre
          exact ⟨[], firstAt_nil (List.isPrefixOf_iff_prefix.mp hpre), Option.some.inj h⟩
        · exact absurd h (by simp)
      · rintro ⟨pre, h, rfl⟩
        obtain ⟨rfl, rfl⟩ := List.append_eq_nil_iff.mp (List.prefix_nil.mp h.here)
        rfl
  | cons c cs ih =>
      rw [find]
      by_cases hpre : needle <+: c :: cs
      · rw [if_pos (List.isPrefixOf_iff_prefix.mpr hpre)]
        constructor
        · intro h
          exact ⟨[], firstAt_nil hpre, Option.some.inj h⟩
        · rintro ⟨pre, h, rfl⟩
          rw [h.byteLen_unique (firstAt_nil hpre)]
          rfl
      · rw [if_neg (mt List.isPrefixOf_iff_prefix.mp hpre), Option.map_eq_some_iff]
        constructor
        · rintro ⟨n, hn, rfl⟩
          obtain ⟨pre, h, rfl⟩ := ih.mp hn
          exact ⟨c :: pre, (firstAt_cons hpre).mpr h, rfl⟩
        · rintro ⟨pre, h, rfl⟩
          cases pre with
          | nil => exact absurd h.here hpre
          | cons d pre =>
              obtain ⟨rfl, -⟩ := List.cons_prefix_cons.mp h.here
              exact ⟨byteLen pre, ih.mpr ⟨pre, (firstAt_cons hpre).mp h, rfl⟩, rfl⟩

theorem find_eq_none {needle cs : List Char} : find needle cs = none ↔ ¬ needle <:+: cs := by
  induction cs with
  | nil => simp [find, List.isPrefixOf_iff_prefix]
  | cons c cs ih =>
      rw [find, List.infix_cons_iff]
      by_cases hpre : needle <+: c :: cs
      · simp [hpre]
      · rw [if_neg (mt List.isPrefixOf_iff_prefix.mp hpre), Option.map_eq_none_iff, ih]
        simp [hpre]

/-- The search, as a case split: an offset is a text in front, or there is no occurrence. -/
theorem find_cases (needle cs : List Char) :
    (∃ pre, FirstAt needle pre cs ∧ find needle cs = some (byteLen pre)) ∨
      (¬ needle <:+: cs ∧ find needle cs = none) := by
  cases h : find needle cs with
  | none => exact .inr ⟨find_eq_none.mp h, rfl⟩
  | some i =>
      obtain ⟨pre, hpre, rfl⟩ := find_eq_some.mp h
      exact .inl ⟨pre, hpre, rfl⟩

/-- `str::find` of a character stops where `splitOnce` splits. -/
theorem find_singleton (sep : Char) (cs : List Char) :
    find [sep] cs = (splitOnce sep cs).map fun p => byteLen p.1 := by
  induction cs with
  | nil => rfl
  | cons c cs ih =>
      rw [find, splitOnce]
      by_cases hc : c = sep
      · simp [hc]
      · have hno : ¬ [sep].isPrefixOf (c :: cs) = true := by simp [Ne.symm hc]
        rw [if_neg hno, if_neg hc, ih, Option.map_map, Option.map_map]
        rfl

end Llmenv.Lib.Text
