/-
# `Llmenv.Lib.Lines` — the lines of a text

`str::lines` cuts a text behind each line feed and takes the line feed off, and a
carriage return in front of it.  A text that is put together from lines, each with
its line ending behind it, has these lines again, except that a line feed eats a
carriage return at the end of a line (`lines_terminated`).
-/
import Llmenv.Lib.Words

namespace Llmenv.Lib.Text

/-- Without a carriage return at its end. -/
def dropCr (l : List Char) : List Char := if l.getLast? = some '\r' then l.dropLast else l

/-- Without the end of line behind it. -/
def stripEol (chunk : List Char) : List Char :=
  if chunk.getLast? = some '\n' then dropCr chunk.dropLast else chunk

/-- `str::lines`. -/
def lines (cs : List Char) : List (List Char) := (splitInclusive (· == '\n') cs).map stripEol

theorem mem_of_mem_dropCr {l : List Char} {c : Char} (h : c ∈ dropCr l) : c ∈ l := by
  rw [dropCr] at h
  split at h
  · exact (List.dropLast_sublist l).mem h
  · exact h

theorem unbroken_iff {l : List Char} : Unbroken (· == '\n') l ↔ '\n' ∉ l := by
  constructor
  · intro h hmem
    exact absurd (h _ hmem) (by decide)
  · intro h c hc
    exact beq_eq_false_iff_ne.mpr fun heq => h (heq ▸ hc)

theorem stripEol_terminated (l : List Char) : stripEol (l ++ ['\n']) = dropCr l := by
  rw [stripEol, List.getLast?_concat, if_pos rfl, List.dropLast_concat]

theorem stripEol_unbroken {l : List Char} (h : '\n' ∉ l) : stripEol l = l := by
  refine if_neg fun hlast => ?_
  exact h (List.mem_of_getLast? hlast)

/-- No line holds a line feed. -/
theorem notMem_of_mem_lines {cs l : List Char} (h : l ∈ lines cs) : '\n' ∉ l := by
  have hall : ∀ {chunks : List (List Char)}, Chunks (· == '\n') chunks →
      ∀ chunk ∈ chunks, '\n' ∉ stripEol chunk := by
    intro chunks hchunks
    induction hchunks with
    | nil => exact fun chunk hmem => absurd hmem List.not_mem_nil
    | @last w _ hfree =>
        intro chunk hmem
        obtain rfl := List.mem_singleton.mp hmem
        have hnot := unbroken_iff.mp hfree
        rwa [stripEol_unbroken hnot]
    | @cons w c chunks hfree hc _ ih =>
        intro chunk hmem
        rcases List.mem_cons.mp hmem with rfl | hmem
        · obtain rfl : c = '\n' := by simpa using hc
          rw [stripEol_terminated]
          exact fun hin => unbroken_iff.mp hfree (mem_of_mem_dropCr hin)
        · exact ih chunk hmem
  obtain ⟨chunk, hmem, rfl⟩ := List.mem_map.mp h
  exact hall (chunks_splitInclusive cs) chunk hmem

theorem lines_terminated {ls : List (List Char)} (h : ∀ l ∈ ls, '\n' ∉ l) :
    lines (ls.map (· ++ ['\n'])).flatten = ls.map dropCr := by
  have hchunks : Chunks (· == '\n') (ls.map (· ++ ['\n'])) := by
    induction ls with
    | nil => exact .nil
    | cons l ls ih =>
        exact .cons (unbroken_iff.mpr (h l List.mem_cons_self)) rfl
          (ih fun l hl => h l (List.mem_cons_of_mem _ hl))
  rw [lines, hchunks.splitInclusive, List.map_map]
  exact List.map_congr_left fun l _ => stripEol_terminated l

end Llmenv.Lib.Text
