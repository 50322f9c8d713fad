/-
# `Llmenv.Lib.Words` — rewriting the words of a text and keeping the space

`splitInclusive` cuts a list after each separator, so that a chunk is a word and
at most one separator behind it.  A rewrite that maps words to words and leaves
the separators alone can be read back (`Chunks.onWord`, `Chunks.splitInclusive`): the
chunks of the new text are the rewritten chunks.
-/
import Mathlib.Data.List.DropRight

namespace Llmenv.Lib

variable {α : Type}

/-- `str::split_inclusive`. -/
def splitInclusive (p : α → Bool) : List α → List (List α)
  | [] => []
  | c :: cs =>
      if p c then [c] :: splitInclusive p cs
      else match splitInclusive p cs with
        | [] => [[c]]
        | chunk :: chunks => (c :: chunk) :: chunks

/-- No separator. -/
def Unbroken (p : α → Bool) (w : List α) : Prop := ∀ c ∈ w, p c = false

/-- A separator ends every chunk but the last, and the last if it is empty otherwise. -/
inductive Chunks (p : α → Bool) : List (List α) → Prop
  | nil : Chunks p []
  | last {w : List α} : w ≠ [] → Unbroken p w → Chunks p [w]
  | cons {w : List α} {c : α} {chunks : List (List α)} : Unbroken p w → p c = true →
      Chunks p chunks → Chunks p ((w ++ [c]) :: chunks)

/-- Rewrite the word of a chunk. -/
def onWord (p : α → Bool) (f : List α → List α) (chunk : List α) : List α :=
  f (chunk.rdropWhile p) ++ chunk.rtakeWhile p

section

variable {p : α → Bool}

theorem Unbroken.rdropWhile {w : List α} (h : Unbroken p w) : w.rdropWhile p = w := by
  refine List.rdropWhile_eq_self_iff.mpr ?_
  intro hne hlast
  rw [h _ (List.getLast_mem hne)] at hlast
  exact absurd hlast (by decide)

theorem Unbroken.rdropWhile_append {w s : List α} (hw : Unbroken p w) (hs : ∀ c ∈ s, p c = true) :
    (w ++ s).rdropWhile p = w := by
  rw [List.rdropWhile, List.reverse_append,
    List.dropWhile_append_of_pos fun c hc => hs c (List.mem_reverse.mp hc)]
  exact hw.rdropWhile

theorem Unbroken.rtakeWhile_append {w s : List α} (hw : Unbroken p w) (hs : ∀ c ∈ s, p c = true) :
    (w ++ s).rtakeWhile p = s := by
  have hsplit := List.rdropWhile_append_rtakeWhile (p := p) (l := w ++ s)
  rw [hw.rdropWhile_append hs] at hsplit
  exact List.append_cancel_left hsplit

theorem rdropWhile_chunk {w : List α} {c : α} (hw : Unbroken p w) (hc : p c = true) :
    (w ++ [c]).rdropWhile p = w :=
  hw.rdropWhile_append fun _ hd => List.mem_singleton.mp hd ▸ hc

theorem rtakeWhile_chunk {w : List α} {c : α} (hw : Unbroken p w) (hc : p c = true) :
    (w ++ [c]).rtakeWhile p = [c] :=
  hw.rtakeWhile_append fun _ hd => List.mem_singleton.mp hd ▸ hc

theorem drop_rdropWhile (chunk : List α) :
    chunk.drop (chunk.rdropWhile p).length = chunk.rtakeWhile p := by
  have hsplit := List.rdropWhile_append_rtakeWhile (p := p) (l := chunk)
  calc chunk.drop (chunk.rdropWhile p).length
      = (chunk.rdropWhile p ++ chunk.rtakeWhile p).drop (chunk.rdropWhile p).length := by
        rw [hsplit]
    _ = chunk.rtakeWhile p := List.drop_left

theorem splitInclusive_flatten (l : List α) : (splitInclusive p l).flatten = l := by
  induction l with
  | nil => rfl
  | cons c cs ih =>
      rw [splitInclusive]
      split
      · rw [List.flatten_cons, ih]
        rfl
      · split
        · rename_i hnil
          rw [hnil] at ih
          rw [← ih]
          rfl
        · rename_i chunk chunks hcons
          rw [hcons, List.flatten_cons] at ih
          rw [List.flatten_cons, List.cons_append, ih]

theorem chunks_splitInclusive (l : List α) : Chunks p (splitInclusive p l) := by
  induction l with
  | nil => exact .nil
  | cons c cs ih =>
      rw [splitInclusive]
      split
      · rename_i hc
        exact .cons (w := []) (fun c hc => absurd hc List.not_mem_nil) hc ih
      · rename_i hc
        have hc' : p c = false := by simpa using hc
        have hcons : ∀ {w : List α}, Unbroken p w → Unbroken p (c :: w) := by
          intro w hw d hd
          rcases List.mem_cons.mp hd with rfl | hd
          · exact hc'
          · exact hw d hd
        split
        · exact .last (by simp) (hcons fun c hc => absurd hc List.not_mem_nil)
        · rename_i chunk chunks heq
          rw [heq] at ih
          cases ih with
          | last _ hw => exact .last (by simp) (hcons hw)
          | cons hw hd hrest => exact .cons (hcons hw) hd hrest

theorem splitInclusive_unbroken {w : List α} (hne : w ≠ []) (h : Unbroken p w) :
    splitInclusive p w = [w] := by
  induction w with
  | nil => exact absurd rfl hne
  | cons c cs ih =>
      have hc : p c = false := h c List.mem_cons_self
      have hcs : Unbroken p cs := fun d hd => h d (List.mem_cons_of_mem _ hd)
      rw [splitInclusive, if_neg (by rw [hc]; decide)]
      cases cs with
      | nil => rfl
      | cons d ds => rw [ih (by simp) hcs]

theorem splitInclusive_chunk {w : List α} {c : α} (h : Unbroken p w) (hc : p c = true)
    (l : List α) : splitInclusive p (w ++ c :: l) = (w ++ [c]) :: splitInclusive p l := by
  induction w with
  | nil => rw [List.nil_append, splitInclusive, if_pos hc, List.nil_append]
  | cons d ds ih =>
      have hd : p d = false := h d List.mem_cons_self
      rw [List.cons_append, splitInclusive, if_neg (by rw [hd]; decide),
        ih fun e he => h e (List.mem_cons_of_mem _ he)]
      rfl

/-- Cutting finds the chunks of a text again. -/
theorem Chunks.splitInclusive {chunks : List (List α)} (h : Chunks p chunks) :
    splitInclusive p chunks.flatten = chunks := by
  induction h with
  | nil => rfl
  | last hne hw => rw [List.flatten_singleton, splitInclusive_unbroken hne hw]
  | cons hw hc _ ih =>
      rw [List.flatten_cons, List.append_assoc, List.singleton_append,
        splitInclusive_chunk hw hc, ih]

theorem Chunks.onWord {f : List α → List α} {chunks : List (List α)} (h : Chunks p chunks)
    (hf : ∀ w, Unbroken p w → Unbroken p (f w)) (hne : ∀ w, Unbroken p w → w ≠ [] → f w ≠ []) :
    Chunks p (chunks.map (Lib.onWord p f)) := by
  induction h with
  | nil => exact .nil
  | @last w hw hfree =>
      have hmap : Lib.onWord p f w = f w := by
        rw [Lib.onWord, ← drop_rdropWhile, hfree.rdropWhile, List.drop_length, List.append_nil]
      rw [List.map_singleton, hmap]
      exact .last (hne w hfree hw) (hf w hfree)
  | @cons w c chunks hfree hc _ ih =>
      have hmap : Lib.onWord p f (w ++ [c]) = f w ++ [c] := by
        rw [Lib.onWord, rdropWhile_chunk hfree hc, rtakeWhile_chunk hfree hc]
      rw [List.map_cons, hmap]
      exact .cons (hf w hfree) hc ih

/-- A chunk is a word and what separates it from the next one. -/
theorem Chunks.unbroken {chunks : List (List α)} (h : Chunks p chunks) :
    ∀ chunk ∈ chunks, Unbroken p (chunk.rdropWhile p) := by
  induction h with
  | nil => exact fun chunk hmem => absurd hmem List.not_mem_nil
  | @last w _ hfree =>
      intro chunk hmem
      obtain rfl := List.mem_singleton.mp hmem
      rwa [hfree.rdropWhile]
  | @cons w c chunks hfree hc _ ih =>
      intro chunk hmem
      rcases List.mem_cons.mp hmem with rfl | hmem
      · rwa [rdropWhile_chunk hfree hc]
      · exact ih chunk hmem

end

end Llmenv.Lib
