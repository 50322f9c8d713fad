/-
# `Llmenv.Adapter.Opencode.Overlap` — what the two tests of `check_rule_ordering` decide

`patterns_overlap` and `pattern_subsumes` of
`src/adapter/opencode/permissions.rs`, against the inputs that
`wildcard_matches` accepts.

The first is exact (`patternsOverlap_iff`): an entry of its table says that the
rests of the two patterns have a word in common, and every entry follows from
the ones below and beside it.  Two patterns that share a word share an input,
since no literal of a pattern is a backslash.

The second is not sound.  `patternSubsumes_sound_iff` says when it is: when the
three texts that it tries speak for all the probes.  They do if the broad
pattern has neither a `?` nor the sentinel and the narrow one no optional end
(`patternSubsumes_sound_of_plain`).
-/
import Llmenv.Adapter.Opencode.Patterns

namespace Llmenv.Adapter.Opencode

open Llmenv.Lib Llmenv.Lib.Glob

/-! ## The table of `globs_intersect` -/

/-- An entry says that `rest` has a word in common with the pattern of the row. -/
def RightEntry (pat rest : List Char) (entry : Bool) : Prop :=
  entry = true ↔ Meets (glob pat) (glob rest)

/-- The entries of a row, for the rests of `b`. -/
def RightRow (pat b : List Char) : List Bool → Prop := List.Forall₂ (RightEntry pat) b.tails

/-- The first entry is the one for the whole of `b`. -/
theorem RightRow.head {pat b : List Char} {row : List Bool} (h : RightRow pat b row) :
    RightEntry pat b (row.headD false) := by
  cases b with
  | nil =>
      cases h with
      | cons hhead _ => exact hhead
  | cons y b =>
      cases h with
      | cons hhead _ => exact hhead

theorem RightRow.tail {pat b : List Char} {y : Char} {row : List Bool}
    (h : RightRow pat (y :: b) row) : RightRow pat b row.tail := by
  cases h with
  | cons _ hrest => exact hrest

theorem rightEntry_nil_left (rest : List Char) :
    RightEntry [] rest (rest.all (· == '*')) :=
  matches_glob_nil.symm.trans meets_nil_left.symm

theorem rightEntry_nil_right (pat : List Char) : RightEntry pat [] (pat.all (· == '*')) :=
  matches_glob_nil.symm.trans meets_nil_right.symm

/-- Two characters, neither of them a star. -/
theorem meets_cons {x y : Char} {a b : List Char} (hx : x ≠ '*') (hy : y ≠ '*') :
    Meets (glob (x :: a)) (glob (y :: b)) ↔
      (x = '?' ∨ y = '?' ∨ x = y) ∧ Meets (glob a) (glob b) := by
  simp only [glob, List.map_cons]
  by_cases hqx : x = '?'
  · subst hqx
    by_cases hqy : y = '?'
    · subst hqy
      simp [sym_any, meets_any_any]
    · simp [sym_any, sym_lit hy hqy, meets_any_lit]
  · by_cases hqy : y = '?'
    · subst hqy
      rw [sym_any, sym_lit hx hqx, meets_comm, meets_any_lit, meets_comm]
      simp
    · simp [sym_lit hx hqx, sym_lit hy hqy, meets_lit_lit, hqx, hqy]

/-- What the entry for two rests follows from: the entries with one character
less on one side, or on both. -/
theorem rightEntry_cons {x y : Char} {a b : List Char} {below beside diagonal : Bool}
    (hbelow : RightEntry a (y :: b) below) (hbeside : RightEntry (x :: a) b beside)
    (hdiagonal : RightEntry a b diagonal) :
    RightEntry (x :: a) (y :: b)
      (if x = '*' ∨ y = '*' then below || beside
        else (x == '?' || y == '?' || x == y) && diagonal) := by
  unfold RightEntry at hbelow hbeside hdiagonal ⊢
  split
  · rename_i hstar
    rw [Bool.or_eq_true, hbelow, hbeside]
    rcases hstar with rfl | rfl
    · exact meets_star.symm
    · rw [meets_comm (q := glob ('*' :: b)), meets_comm (q := glob b),
        meets_comm (p := glob (x :: a)) (q := glob ('*' :: b)), or_comm]
      exact meets_star.symm
  · rename_i hstar
    obtain ⟨hx, hy⟩ := not_or.mp hstar
    rw [Bool.and_eq_true, hdiagonal, meets_cons hx hy]
    simp [or_assoc]

theorem rightRow_intersectRow {x : Char} {a : List Char} :
    ∀ {b : List Char} {below : List Bool}, RightRow a b below →
      RightRow (x :: a) b (intersectRow x a b below)
  | [], _, _ => List.Forall₂.cons (rightEntry_nil_right (x :: a)) List.Forall₂.nil
  | _ :: _, _, h => by
      have hrow := rightRow_intersectRow (x := x) h.tail
      exact List.Forall₂.cons (rightEntry_cons h.head hrow.head h.tail.head) hrow

theorem rightRow_intersectRows (b : List Char) : ∀ a : List Char, RightRow a b (intersectRows b a)
  | [] => List.forall₂_map_right_iff.mpr (List.forall₂_same.mpr fun rest _ =>
      rightEntry_nil_left rest)
  | _ :: a => rightRow_intersectRow (rightRow_intersectRows b a)

/-- `globs_intersect` decides whether two patterns have a word in common. -/
theorem globsIntersect_iff {a b : List Char} :
    globsIntersect a b = true ↔ Meets (glob a) (glob b) := (rightRow_intersectRows b a).head

/-! ## Words and inputs -/

theorem lit_ne_backslash {pattern : String} {s : List Char} (hs : s ∈ spellings pattern) {c : Char}
    (h : Sym.lit c ∈ glob s) : c ≠ '\\' := by
  rintro rfl
  exact backslash_notMem_normalize pattern.toList
    ((sublist_of_mem_spellings hs).subset (lit_mem_glob h).1)

/-- Slashes for the backslashes of a word of a pattern: another word of it. -/
theorem matches_normalize {pattern : String} {s w : List Char} (hs : s ∈ spellings pattern)
    (h : Matches (glob s) w) : Matches (glob s) (normalize w) :=
  h.map fun _ hc => if_neg (lit_ne_backslash hs hc)

theorem normalize_idem (text : List Char) : normalize (normalize text) = normalize text :=
  normalize_eq_self (backslash_notMem_normalize text)

/-- `patterns_overlap` says exactly whether some input is matched by both
patterns. -/
theorem patternsOverlap_iff (a b : String) :
    patternsOverlap a b = true ↔
      ∃ input, wildcardMatches a input = true ∧ wildcardMatches b input = true := by
  simp only [patternsOverlap, List.any_eq_true, globsIntersect_iff, wildcardMatches_iff]
  constructor
  · rintro ⟨x, hx, y, hy, w, hwx, hwy⟩
    refine ⟨String.ofList (normalize w), ?_, ?_⟩
    · rw [String.toList_ofList, normalize_idem]
      exact ⟨glob x, List.mem_map_of_mem hx, matches_normalize hx hwx⟩
    · rw [String.toList_ofList, normalize_idem]
      exact ⟨glob y, List.mem_map_of_mem hy, matches_normalize hy hwy⟩
  · rintro ⟨input, ⟨p, hp, hwp⟩, ⟨q, hq, hwq⟩⟩
    obtain ⟨x, hx, rfl⟩ := List.mem_map.mp hp
    obtain ⟨y, hy, rfl⟩ := List.mem_map.mp hq
    exact ⟨x, hx, y, hy, normalize input.toList, hwp, hwq⟩

example : patternsOverlap "git *" "g?t" = true ∧ patternsOverlap "a?c*" "*b" = true ∧
    patternsOverlap "ls *" "?s" = true ∧ patternsOverlap "a*b" "b*a" = false := by decide +kernel

/-! ## `pattern_subsumes` -/

/-- The texts that `pattern_subsumes` tries: one length of run for all the stars
of `narrow`. -/
def sameRunProbes (broad narrow : String) : List String :=
  [0, 1, queries broad + 1].map fun run => String.ofList (witnessFor run narrow.toList)

theorem patternSubsumes_eq_true {broad narrow : String} :
    patternSubsumes broad narrow = true ↔
      ∀ t ∈ sameRunProbes broad narrow, wildcardMatches broad t = true := by
  have hcount : (broad.toList.filter (· == '?')).length = queries broad :=
    List.countP_eq_length_filter.symm
  simp only [patternSubsumes, hcount, sameRunProbes, List.all_eq_true, List.forall_mem_map]

/-- `pattern_subsumes` is right about two patterns exactly when the texts with
one length of run speak for those in which every run has its own length, the
bare spelling included. -/
theorem patternSubsumes_sound_iff (broad narrow : String) :
    (patternSubsumes broad narrow = true →
      ∀ input, wildcardMatches narrow input = true → wildcardMatches broad input = true) ↔
      ((∀ t ∈ sameRunProbes broad narrow, wildcardMatches broad t = true) →
        ∀ t ∈ coverProbes broad narrow, wildcardMatches broad t = true) := by
  rw [patternSubsumes_eq_true, ← coversProbes_iff, coversProbes, List.all_eq_true]

/-- Two ways to be wrong.  `git *` also matches the bare `git`, which `????*` does
not.  And the two stars of `*aa*a` need not stand for runs of one length: in
`aaxa` only the second one is not empty, and `?*aa*` does not match it. -/
theorem patternSubsumes_unsound :
    (patternSubsumes "????*" "git *" = true ∧ wildcardMatches "git *" "git" = true ∧
      wildcardMatches "????*" "git" = false) ∧
    (patternSubsumes "?*aa*" "*aa*a" = true ∧ wildcardMatches "*aa*a" "aaxa" = true ∧
      wildcardMatches "?*aa*" "aaxa" = false) := by decide +kernel

/-! ### Patterns that it is right about -/

theorem mem_normalize {c : Char} {text : List Char} (hc : c ≠ '/') (h : c ∈ normalize text) :
    c ∈ text := by
  obtain ⟨d, hd, heq⟩ := List.mem_map.mp h
  split at heq
  · exact absurd heq.symm hc
  · exact heq ▸ hd

/-- The text with one sentinel for every wildcard. -/
theorem normalize_witnessFor_one (narrow : List Char) :
    normalize (witnessFor 1 narrow) = onePerWildcard sentinel (glob (normalize narrow)) := by
  induction narrow with
  | nil => rfl
  | cons c narrow ih =>
      have hcons : witnessFor 1 (c :: narrow) =
          (if c = '*' then sentinel else if c = '?' then sentinel else c) ::
            witnessFor 1 narrow := by
        rw [witnessFor, List.flatMap_cons]
        split
        · rfl
        · split <;> rfl
      rw [hcons]
      show _ :: normalize (witnessFor 1 narrow) =
        _ :: onePerWildcard sentinel (glob (normalize narrow))
      rw [ih]
      congr 1
      by_cases hs : c = '*'
      · subst hs
        decide
      · by_cases hq : c = '?'
        · subst hq
          decide
        · by_cases hb : c = '\\'
          · subst hb
            decide
          · simp [hs, hq, hb, sym_lit]

/-- A broad pattern without a `?` and without the sentinel, and a narrow one
without an optional end: what `pattern_subsumes` accepts is covered. -/
theorem patternSubsumes_sound_of_plain {broad narrow : String} (hquery : '?' ∉ broad.toList)
    (hsentinel : sentinel ∉ broad.toList)
    (hend : stripSpaceStar (normalize narrow.toList) = none)
    (h : patternSubsumes broad narrow = true) {input : String}
    (hinput : wildcardMatches narrow input = true) : wildcardMatches broad input = true := by
  have hlit : ∀ p ∈ (spellings broad).map glob, Sym.lit sentinel ∉ p := by
    intro p hp hmem
    obtain ⟨s, hs, rfl⟩ := List.mem_map.mp hp
    exact hsentinel (mem_normalize (by decide)
      ((sublist_of_mem_spellings hs).subset (lit_mem_glob hmem).1))
  have hany : ∀ p ∈ (spellings broad).map glob, Sym.any ∉ p := by
    intro p hp
    obtain ⟨s, hs, rfl⟩ := List.mem_map.mp hp
    rw [← List.count_eq_zero, count_any_glob, List.count_eq_zero]
    exact fun hmem => hquery (mem_normalize (by decide) ((sublist_of_mem_spellings hs).subset hmem))
  have hone := wildcardMatches_iff.mp (patternSubsumes_eq_true.mp h _
    (List.mem_map_of_mem (List.mem_cons_of_mem _ List.mem_cons_self)))
  rw [String.toList_ofList, normalize_witnessFor_one] at hone
  obtain ⟨p, hp, hw⟩ := wildcardMatches_iff.mp hinput
  simp only [spellings, hend, List.map_cons, List.map_nil, List.mem_singleton] at hp
  subst hp
  exact wildcardMatches_iff.mpr (of_onePerWildcard hlit hany (x := []) hw hone)

end Llmenv.Adapter.Opencode
