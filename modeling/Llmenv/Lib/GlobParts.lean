/-
# `Llmenv.Lib.GlobParts` — globs with stars alone, by the parts between the stars

A glob whose only wildcard is the star is a first part, a last part, and parts
in between.  It matches a word that begins with the one and ends with the other,
and has the parts in between in order, without overlap, in what is left
(`matches_ofParts`).

To look for each part at its first place, behind the part before it, finds them
all if they can be found at all (`findInOrder_iff`): to begin later never helps.
-/
import Llmenv.Lib.Glob

namespace Llmenv.Lib.Glob

variable {α : Type}

/-! ## Parts in order -/

/-- The parts stand in the word in their order, and do not overlap. -/
def InOrder : List (List α) → List α → Prop
  | [], _ => True
  | part :: parts, w => ∃ u v, w = u ++ part ++ v ∧ InOrder parts v

theorem InOrder.append_left {parts : List (List α)} {w : List α} (h : InOrder parts w)
    (x : List α) : InOrder parts (x ++ w) := by
  cases parts with
  | nil => trivial
  | cons part parts =>
      obtain ⟨u, v, rfl, hv⟩ := h
      exact ⟨x ++ u, v, by simp, hv⟩

theorem InOrder.of_suffix {parts : List (List α)} {v w : List α} (h : InOrder parts v)
    (hs : v <:+ w) : InOrder parts w := by
  obtain ⟨x, rfl⟩ := hs
  exact h.append_left x

theorem InOrder.append_right {parts : List (List α)} :
    ∀ {w : List α}, InOrder parts w → ∀ x : List α, InOrder parts (w ++ x) := by
  induction parts with
  | nil => exact fun _ _ => trivial
  | cons part parts ih =>
      rintro _ ⟨u, v, rfl, hv⟩ x
      exact ⟨u, v ++ x, by simp, ih hv x⟩

/-! ## Globs from parts -/

/-- The glob that has a star between any two parts. -/
def ofParts : List (List α) → List (Sym α)
  | [] => []
  | [part] => part.map .lit
  | part :: parts => part.map .lit ++ .star :: ofParts parts

theorem matches_lits {p : List (Sym α)} :
    ∀ {part w : List α}, Matches (part.map .lit ++ p) w ↔ ∃ v, w = part ++ v ∧ Matches p v
  | [], w => by simp
  | a :: part, w => by
      rw [List.map_cons, List.cons_append, matches_lit]
      constructor
      · rintro ⟨v, rfl, hv⟩
        obtain ⟨v', rfl, hv'⟩ := matches_lits.mp hv
        exact ⟨v', rfl, hv'⟩
      · rintro ⟨v, rfl, hv⟩
        exact ⟨part ++ v, rfl, matches_lits.mpr ⟨v, rfl, hv⟩⟩

theorem matches_onePart {part w : List α} : Matches (ofParts [part]) w ↔ w = part := by
  have h : Matches (part.map .lit ++ []) w ↔ ∃ v, w = part ++ v ∧ Matches [] v := matches_lits
  rw [List.append_nil] at h
  rw [ofParts, h]
  simp

/-- The first part begins the word, the last one ends it, and the others stand
in between. -/
theorem matches_ofParts {last : List α} :
    ∀ {mids : List (List α)} {first w : List α},
      Matches (ofParts (first :: (mids ++ [last]))) w ↔
        ∃ v, w = first ++ v ++ last ∧ InOrder mids v
  | [], first, w => by
      show Matches (first.map .lit ++ .star :: ofParts [last]) w ↔ _
      rw [matches_lits]
      constructor
      · rintro ⟨v, rfl, hv⟩
        obtain ⟨u, v', rfl, hlast⟩ := matches_star.mp hv
        obtain rfl := matches_onePart.mp hlast
        exact ⟨u, by simp, trivial⟩
      · rintro ⟨v, rfl, -⟩
        exact ⟨v ++ last, by simp, matches_star.mpr ⟨v, last, rfl, matches_onePart.mpr rfl⟩⟩
  | mid :: mids, first, w => by
      show Matches (first.map .lit ++ .star :: ofParts (mid :: (mids ++ [last]))) w ↔ _
      rw [matches_lits]
      constructor
      · rintro ⟨v, rfl, hv⟩
        obtain ⟨u, v', rfl, hrest⟩ := matches_star.mp hv
        obtain ⟨x, rfl, hx⟩ := matches_ofParts.mp hrest
        exact ⟨u ++ mid ++ x, by simp, u, x, rfl, hx⟩
      · rintro ⟨_, rfl, u, x, rfl, hx⟩
        refine ⟨u ++ (mid ++ x ++ last), by simp, matches_star.mpr ⟨u, _, rfl, ?_⟩⟩
        exact matches_ofParts.mpr ⟨x, rfl, hx⟩

/-! ## Finding the parts -/

section Find

variable [DecidableEq α]

/-- What follows the first place of a part. -/
def afterFirst (part : List α) : List α → Option (List α)
  | [] => if part = [] then some [] else none
  | a :: w => if part.isPrefixOf (a :: w) then some ((a :: w).drop part.length) else afterFirst part w

/-- Each part is found at its first place behind the one before it. -/
def findInOrder : List (List α) → List α → Bool
  | [], _ => true
  | part :: parts, w =>
      match afterFirst part w with
      | some rest => findInOrder parts rest
      | none => false

theorem exists_of_afterFirst {part rest : List α} :
    ∀ {w : List α}, afterFirst part w = some rest → ∃ u, w = u ++ part ++ rest
  | [], h => by
      rw [afterFirst] at h
      split at h
      · rename_i hpart
        obtain rfl := Option.some.inj h
        exact ⟨[], by simp [hpart]⟩
      · exact absurd h (by simp)
  | a :: w, h => by
      rw [afterFirst] at h
      split at h
      · rename_i hprefix
        obtain rfl := Option.some.inj h
        exact ⟨[], (List.prefix_iff_eq_append.mp (List.isPrefixOf_iff_prefix.mp hprefix)).symm⟩
      · obtain ⟨u, rfl⟩ := exists_of_afterFirst h
        exact ⟨a :: u, rfl⟩

/-- Any other place of the part comes later. -/
theorem afterFirst_of_append {part v : List α} :
    ∀ {w u : List α}, w = u ++ part ++ v → ∃ rest, afterFirst part w = some rest ∧ v <:+ rest
  | [], u, h => by
      obtain ⟨hup, rfl⟩ := List.append_eq_nil_iff.mp h.symm
      exact ⟨[], by rw [afterFirst, if_pos (List.append_eq_nil_iff.mp hup).2], List.suffix_refl _⟩
  | a :: w, u, h => by
      rw [afterFirst]
      split
      · rename_i hprefix
        obtain ⟨rest, hrest⟩ := List.isPrefixOf_iff_prefix.mp hprefix
        refine ⟨_, rfl, ?_⟩
        rw [← hrest, List.drop_left]
        -- Both are ends of the word, and `v` is not the longer one.
        refine List.suffix_of_suffix_length_le ⟨u ++ part, h.symm⟩ ⟨part, hrest⟩ ?_
        have hlen := congrArg List.length (hrest.trans h)
        simp only [List.length_append] at hlen
        omega
      · rename_i hprefix
        cases u with
        | nil =>
            refine absurd (List.isPrefixOf_iff_prefix.mpr ⟨v, ?_⟩) hprefix
            rw [h, List.nil_append]
        | cons b u => exact afterFirst_of_append (List.cons.inj h).2

theorem findInOrder_iff {parts : List (List α)} :
    ∀ {w : List α}, findInOrder parts w = true ↔ InOrder parts w := by
  induction parts with
  | nil => exact fun {w} => ⟨fun _ => trivial, fun _ => rfl⟩
  | cons part parts ih =>
      intro w
      rw [findInOrder]
      constructor
      · intro h
        cases hfirst : afterFirst part w with
        | none =>
            rw [hfirst] at h
            exact absurd h (by simp)
        | some rest =>
            rw [hfirst] at h
            obtain ⟨u, rfl⟩ := exists_of_afterFirst hfirst
            exact ⟨u, rest, rfl, ih.mp h⟩
      · rintro ⟨u, v, heq, hv⟩
        obtain ⟨rest, hfirst, hsuffix⟩ := afterFirst_of_append heq
        rw [hfirst]
        exact ih.mpr (hv.of_suffix hsuffix)

end Find

end Llmenv.Lib.Glob
