/-
# `Llmenv.Lib.Fence` — rows of a text, and a search for a row

The rows of a text are its parts between the newlines, so a text is its rows
joined.  Programs that take a header off a file look for the row that closes
it with a substring search: a newline and the fence in front of another
newline for a row that is the fence (`firstAt_fenceRow`), a newline and the
fence for a row that starts with it (`firstAt_openRow`).  The lemmas say where
such a search stops, in rows, and when it finds nothing.
-/
import Llmenv.Lib.Slice
import Llmenv.Lib.Text

namespace Llmenv.Lib.Text

/-- The parts of a text between its newlines. -/
def rows (cs : List Char) : List (List Char) := split (· == '\n') cs

/-- The text with the given rows. -/
def unrows (rs : List (List Char)) : List Char := join ['\n'] rs

/-- Rows have no newline of their own. -/
def Rows (rs : List (List Char)) : Prop := ∀ r ∈ rs, '\n' ∉ r

theorem unrows_rows (cs : List Char) : unrows (rows cs) = cs := join_split '\n' cs

theorem rows_unrows {rs : List (List Char)} (hne : rs ≠ []) (h : Rows rs) :
    rows (unrows rs) = rs := split_join hne h

theorem rows_ne_nil (cs : List Char) : rows cs ≠ [] := split_ne_nil _ cs

theorem rows_newline (xs ys : List Char) : rows (xs ++ '\n' :: ys) = rows xs ++ rows ys := by
  induction xs with
  | nil => rfl
  | cons c xs ih =>
      obtain ⟨row, rest, hrest⟩ := List.exists_cons_of_ne_nil (rows_ne_nil xs)
      rw [hrest] at ih
      have hxs : split (· == '\n') xs = row :: rest := hrest
      have hxys : split (· == '\n') (xs ++ '\n' :: ys) = row :: (rest ++ rows ys) := ih
      rw [List.cons_append, rows, rows, split, split, hxs, hxys]
      cases c == '\n' <;> rfl

/-- A word without newline in front of a text goes in front of its first row. -/
theorem rows_append {w row cs : List Char} {rs : List (List Char)} (h : '\n' ∉ w)
    (hcs : rows cs = row :: rs) : rows (w ++ cs) = (w ++ row) :: rs := by
  induction w with
  | nil => exact hcs
  | cons c w ih =>
      obtain ⟨hc, hw⟩ := not_or.mp (mt List.mem_cons.mpr h)
      have hne : (c == '\n') = false := by simpa using fun heq : c = '\n' => hc heq.symm
      have hwcs : split (· == '\n') (w ++ cs) = (w ++ row) :: rs := ih hw
      rw [List.cons_append, rows, split, hwcs, hne]
      rfl

theorem unrows_cons {x : List Char} {ys : List (List Char)} (hy : ys ≠ []) :
    unrows (x :: ys) = x ++ '\n' :: unrows ys := by
  rw [unrows, join_cons hy, List.append_assoc]
  rfl

theorem unrows_append {xs ys : List (List Char)} (hx : xs ≠ []) (hy : ys ≠ []) :
    unrows (xs ++ ys) = unrows xs ++ '\n' :: unrows ys := by
  induction xs with
  | nil => exact absurd rfl hx
  | cons x xs ih =>
      cases xs with
      | nil => exact unrows_cons hy
      | cons x' xs =>
          have hall : unrows (x :: (x' :: xs ++ ys)) = x ++ '\n' :: unrows (x' :: xs ++ ys) :=
            unrows_cons (by simp)
          have hfront : unrows (x :: x' :: xs) = x ++ '\n' :: unrows (x' :: xs) :=
            unrows_cons (by simp)
          rw [List.cons_append, hall, ih (by simp), hfront, List.append_assoc]
          rfl

/-- A text is its first row, or its first row and the rest behind a newline. -/
theorem rows_cons_iff {cs x : List Char} {rs : List (List Char)} (hrs : rs ≠ []) :
    rows cs = x :: rs ↔ '\n' ∉ x ∧ ∃ tail, cs = x ++ '\n' :: tail ∧ rows tail = rs := by
  constructor
  · intro h
    have hrows : Rows (x :: rs) := fun r hr => notMem_of_mem_split (h ▸ hr : r ∈ rows cs)
    refine ⟨hrows x List.mem_cons_self, unrows rs, ?_, ?_⟩
    · rw [← unrows_cons hrs, ← h, unrows_rows]
    · exact rows_unrows hrs fun r hr => hrows r (List.mem_cons_of_mem _ hr)
  · rintro ⟨hx, tail, rfl, rfl⟩
    exact split_append hx tail

/-! ## Searches for a row -/

section Search

variable {fence : List Char}

/-- The rows up to the first row behind others with `p` are in front of every such row. -/
theorem prefix_of_row {p : List Char → Prop} {mid after pre post : List (List Char)}
    {row row' : List Char} (h : mid ++ row :: after = pre ++ row' :: post)
    (hmid : ∀ r ∈ mid.tail, ¬ p r) (hpre : pre ≠ []) (hrow' : p row') : mid <+: pre := by
  rcases List.append_eq_append_iff.mp h with ⟨gap, hgap, -⟩ | ⟨gap, hgap, hrow⟩
  · exact ⟨gap, hgap.symm⟩
  · cases gap with
    | nil => exact ⟨[], by simpa using hgap⟩
    | cons g gap =>
        obtain ⟨first, rest, rfl⟩ := List.exists_cons_of_ne_nil hpre
        have hg : row' = g := (List.cons.inj hrow).1
        have hmem : g ∈ mid.tail := by simp [hgap]
        exact absurd (hg ▸ hrow') (hmid g hmem)

theorem unrows_prefix {xs ys : List (List Char)} (h : xs <+: ys) : unrows xs <+: unrows ys := by
  obtain ⟨zs, rfl⟩ := h
  by_cases hx : xs = []
  · rw [hx]
    exact List.nil_prefix
  by_cases hz : zs = []
  · rw [hz, List.append_nil]
  rw [unrows_append hx hz]
  exact List.prefix_append _ _

/-- Where the fence stands between two newlines, it is a row between other rows. -/
theorem rows_fenceRow (hf : '\n' ∉ fence) (pre post : List Char) :
    rows (pre ++ ('\n' :: fence ++ ['\n']) ++ post) = rows pre ++ fence :: rows post := by
  have hrow : rows (fence ++ '\n' :: post) = fence :: rows post := split_append hf post
  have hsplit : pre ++ ('\n' :: fence ++ ['\n']) ++ post = pre ++ '\n' :: (fence ++ '\n' :: post) := by
    simp
  rw [hsplit, rows_newline, hrow]

/-- Where the fence stands behind a newline, a row starts with it. -/
theorem rows_openRow (hf : '\n' ∉ fence) (pre post : List Char) :
    ∃ row rs, rows (pre ++ ('\n' :: fence) ++ post) = rows pre ++ (fence ++ row) :: rs ∧
      rows post = row :: rs := by
  obtain ⟨row, rs, hpost⟩ := List.exists_cons_of_ne_nil (rows_ne_nil post)
  refine ⟨row, rs, ?_, hpost⟩
  have hsplit : pre ++ ('\n' :: fence) ++ post = pre ++ '\n' :: (fence ++ post) := by simp
  rw [hsplit, rows_newline, rows_append hf hpost]

/-- The search for a fence between newlines stops at the first row behind others that is the
fence and has a row behind it. -/
theorem firstAt_fenceRow (hf : '\n' ∉ fence) {cs : List Char} {mid after : List (List Char)}
    (h : rows cs = mid ++ fence :: after) (hm : mid ≠ []) (ha : after ≠ [])
    (hmid : fence ∉ mid.tail) : FirstAt ('\n' :: fence ++ ['\n']) (unrows mid) cs := by
  have hcs : cs = unrows mid ++ ('\n' :: fence ++ ['\n']) ++ unrows after := by
    rw [← unrows_rows cs, h, unrows_append hm (by simp), unrows_cons ha]
    simp
  refine ⟨⟨unrows after, hcs.symm⟩, ?_⟩
  rintro pre ⟨post, hpre⟩
  have hrows : mid ++ fence :: after = rows pre ++ fence :: rows post := by
    rw [← h, ← hpre, rows_fenceRow hf]
  have hle : mid <+: rows pre :=
    prefix_of_row hrows (fun r hr (heq : r = fence) => hmid (heq ▸ hr)) (rows_ne_nil pre) rfl
  have hle' := unrows_prefix hle
  rwa [unrows_rows] at hle'

/-- The search for a fence behind a newline stops at the first row behind others that starts
with the fence. -/
theorem firstAt_openRow (hf : '\n' ∉ fence) {cs x : List Char} {mid after : List (List Char)}
    (h : rows cs = mid ++ (fence ++ x) :: after) (hm : mid ≠ [])
    (hmid : ∀ r ∈ mid.tail, ¬ fence <+: r) : FirstAt ('\n' :: fence) (unrows mid) cs := by
  obtain ⟨tail, htail⟩ : ∃ tail, cs = unrows mid ++ ('\n' :: fence) ++ tail := by
    refine ⟨unrows (x :: after), ?_⟩
    have hlast : unrows ((fence ++ x) :: after) = fence ++ unrows (x :: after) :=
      join_append_cons ['\n'] fence x after
    rw [← unrows_rows cs, h, unrows_append hm (by simp), hlast]
    simp
  refine ⟨⟨tail, htail.symm⟩, ?_⟩
  rintro pre ⟨post, hpre⟩
  obtain ⟨row, rs, hrows, -⟩ := rows_openRow hf pre post
  rw [hpre, h] at hrows
  have hle : mid <+: rows pre :=
    prefix_of_row hrows hmid (rows_ne_nil pre) (List.prefix_append fence row)
  have hle' := unrows_prefix hle
  rwa [unrows_rows] at hle'

/-- A fence between newlines is a row with rows on both sides. -/
theorem fenceRow_of_infix (hf : '\n' ∉ fence) {cs : List Char}
    (h : '\n' :: fence ++ ['\n'] <:+: cs) :
    ∃ mid after, rows cs = mid ++ fence :: after ∧ mid ≠ [] ∧ after ≠ [] := by
  obtain ⟨pre, post, rfl⟩ := h
  exact ⟨rows pre, rows post, rows_fenceRow hf pre post, rows_ne_nil pre, rows_ne_nil post⟩

/-- A fence behind a newline starts a row behind other rows. -/
theorem openRow_of_infix (hf : '\n' ∉ fence) {cs : List Char} (h : '\n' :: fence <:+: cs) :
    ∃ mid x after, rows cs = mid ++ (fence ++ x) :: after ∧ mid ≠ [] := by
  obtain ⟨pre, post, rfl⟩ := h
  obtain ⟨row, rs, hrows, -⟩ := rows_openRow hf pre post
  exact ⟨rows pre, row, rs, hrows, rows_ne_nil pre⟩

end Search

end Llmenv.Lib.Text
