/-
# `Llmenv.Lib.Glob` — globs over an arbitrary alphabet, and when one covers another

A glob is a list of symbols: `star` for any run of letters, `any` for one
letter, `lit a` for the letter `a`.  `Matches` is the language of a glob.

Whether one glob covers another is a question about infinitely many words.
`covers_iff_probes` makes it a finite one.  A letter `f` that is no literal of
the covering globs is FOREIGN to them, and two facts about a foreign letter
carry the argument:

  * a match stays a match when a foreign letter is replaced by any letter
    (`Matches.replace`), so it is enough to look at words in which `f` stands for
    every wildcard;
  * a run of foreign letters that is longer than the number of `any` symbols is
    touched by a `star`, so it can be made longer (`Matches.pump`), and it is
    enough to look at runs up to that length.

The runs of different stars are independent of each other: to try one length
for all of them at a time is not enough.  It is enough for globs without an
`any` symbol, where a foreign letter stands for any run (`of_onePerWildcard`).

Whether two globs have a word in common is a recursion over both
(`meets_star`).
-/
import Mathlib.Data.List.Basic

namespace Llmenv.Lib

inductive Sym (α : Type) where
  | star
  | any
  | lit (a : α)
deriving DecidableEq

namespace Glob

variable {α : Type}

/-- The words of a glob. -/
inductive Matches : List (Sym α) → List α → Prop
  | nil : Matches [] []
  | skip {p : List (Sym α)} {w : List α} : Matches p w → Matches (.star :: p) w
  | take {p : List (Sym α)} {w : List α} (a : α) :
      Matches (.star :: p) w → Matches (.star :: p) (a :: w)
  | any {p : List (Sym α)} {w : List α} (a : α) : Matches p w → Matches (.any :: p) (a :: w)
  | lit {p : List (Sym α)} {w : List α} (a : α) : Matches p w → Matches (.lit a :: p) (a :: w)

/-! ## One symbol at a time -/

@[simp] theorem matches_nil {w : List α} : Matches [] w ↔ w = [] := by
  constructor
  · intro h
    cases h
    rfl
  · rintro rfl
    exact .nil

@[simp] theorem matches_any {p : List (Sym α)} {w : List α} :
    Matches (.any :: p) w ↔ ∃ a v, w = a :: v ∧ Matches p v := by
  constructor
  · intro h
    cases h with
    | any a h => exact ⟨a, _, rfl, h⟩
  · rintro ⟨a, v, rfl, h⟩
    exact .any a h

@[simp] theorem matches_lit {p : List (Sym α)} {a : α} {w : List α} :
    Matches (.lit a :: p) w ↔ ∃ v, w = a :: v ∧ Matches p v := by
  constructor
  · intro h
    cases h with
    | lit _ h => exact ⟨_, rfl, h⟩
  · rintro ⟨v, rfl, h⟩
    exact .lit a h

theorem Matches.star_append {p : List (Sym α)} {v : List α} (h : Matches p v) :
    ∀ u : List α, Matches (.star :: p) (u ++ v)
  | [] => .skip h
  | a :: u => .take a (h.star_append u)

/-- A star matches some run, and the rest of the glob the rest of the word. -/
theorem matches_star {p : List (Sym α)} {w : List α} :
    Matches (.star :: p) w ↔ ∃ u v, w = u ++ v ∧ Matches p v := by
  constructor
  · intro h
    generalize hq : Sym.star :: p = q at h
    induction h with
    | nil => exact absurd hq (by simp)
    | skip h _ =>
        obtain ⟨-, rfl⟩ := List.cons.inj hq
        exact ⟨[], _, rfl, h⟩
    | take a _ ih =>
        obtain ⟨u, v, rfl, hv⟩ := ih hq
        exact ⟨a :: u, v, rfl, hv⟩
    | any => exact absurd hq (by simp)
    | lit => exact absurd hq (by simp)
  · rintro ⟨u, v, rfl, h⟩
    exact h.star_append u

/-- A word that a glob with a leading star matches can be made longer at its
start. -/
theorem Matches.star_of_suffix {p : List (Sym α)} {u v : List α}
    (h : Matches (.star :: p) v) : Matches (.star :: p) (u ++ v) := by
  obtain ⟨x, y, rfl, hy⟩ := matches_star.mp h
  rw [← List.append_assoc]
  exact hy.star_append (u ++ x)

/-- Rename letters, but none that a glob has as a literal. -/
theorem Matches.map {p : List (Sym α)} {w : List α} (h : Matches p w) {f : α → α}
    (hf : ∀ a, Sym.lit a ∈ p → f a = a) : Matches p (w.map f) := by
  have hrest : ∀ {s : Sym α} {q : List (Sym α)}, (∀ a, Sym.lit a ∈ s :: q → f a = a) →
      ∀ a, Sym.lit a ∈ q → f a = a :=
    fun h a ha => h a (List.mem_cons_of_mem _ ha)
  induction h with
  | nil => exact .nil
  | skip _ ih => exact .skip (ih (hrest hf))
  | take a _ ih => exact .take (f a) (ih hf)
  | any a _ ih => exact .any (f a) (ih (hrest hf))
  | lit a _ ih =>
      rw [List.map_cons, hf a List.mem_cons_self]
      exact .lit a (ih (hrest hf))

/-! ## Words of two globs

Whether two globs have a word in common is decided from their first symbols on:
a star ends, or takes the letter that the other glob takes next. -/

section Meets

/-- Some word is one of both globs. -/
def Meets (p q : List (Sym α)) : Prop := ∃ w, Matches p w ∧ Matches q w

theorem Meets.symm {p q : List (Sym α)} : Meets p q → Meets q p
  | ⟨w, hp, hq⟩ => ⟨w, hq, hp⟩

theorem meets_comm {p q : List (Sym α)} : Meets p q ↔ Meets q p := ⟨Meets.symm, Meets.symm⟩

theorem meets_nil_left {q : List (Sym α)} : Meets [] q ↔ Matches q [] := by
  constructor
  · rintro ⟨w, hw, hq⟩
    rwa [matches_nil.mp hw] at hq
  · exact fun hq => ⟨[], .nil, hq⟩

theorem meets_nil_right {p : List (Sym α)} : Meets p [] ↔ Matches p [] :=
  meets_comm.trans meets_nil_left

/-- The star ends here, or the other symbol does. -/
theorem meets_star [Nonempty α] {p q : List (Sym α)} {y : Sym α} :
    Meets (.star :: p) (y :: q) ↔ Meets p (y :: q) ∨ Meets (.star :: p) q := by
  constructor
  · rintro ⟨w, hp, hq⟩
    -- The letters that both sides give to a star are left out one by one.
    induction w with
    | nil =>
        cases hp with
        | skip hp => exact Or.inl ⟨[], hp, hq⟩
    | cons a w ih =>
        cases hp with
        | skip hp => exact Or.inl ⟨a :: w, hp, hq⟩
        | take _ hp =>
            cases hq with
            | skip hq => exact Or.inr ⟨a :: w, .take a hp, hq⟩
            | take _ hq => exact ih hp hq
            | any _ hq => exact Or.inr ⟨w, hp, hq⟩
            | lit _ hq => exact Or.inr ⟨w, hp, hq⟩
  · rintro (⟨w, hp, hq⟩ | ⟨w, hp, hq⟩)
    · exact ⟨w, .skip hp, hq⟩
    · cases y with
      | star => exact ⟨w, hp, .skip hq⟩
      | any =>
          obtain ⟨a⟩ := ‹Nonempty α›
          exact ⟨a :: w, .take a hp, .any a hq⟩
      | lit a => exact ⟨a :: w, .take a hp, .lit a hq⟩

theorem meets_any_any [Nonempty α] {p q : List (Sym α)} :
    Meets (.any :: p) (.any :: q) ↔ Meets p q := by
  constructor
  · rintro ⟨w, hp, hq⟩
    obtain ⟨a, v, rfl, hv⟩ := matches_any.mp hp
    obtain ⟨_, _, heq, hv'⟩ := matches_any.mp hq
    obtain ⟨-, rfl⟩ := List.cons.inj heq
    exact ⟨v, hv, hv'⟩
  · rintro ⟨w, hp, hq⟩
    obtain ⟨a⟩ := ‹Nonempty α›
    exact ⟨a :: w, .any a hp, .any a hq⟩

theorem meets_any_lit {p q : List (Sym α)} {a : α} :
    Meets (.any :: p) (.lit a :: q) ↔ Meets p q := by
  constructor
  · rintro ⟨w, hp, hq⟩
    obtain ⟨v, rfl, hv⟩ := matches_lit.mp hq
    obtain ⟨_, _, heq, hv'⟩ := matches_any.mp hp
    obtain ⟨-, rfl⟩ := List.cons.inj heq
    exact ⟨v, hv', hv⟩
  · rintro ⟨w, hp, hq⟩
    exact ⟨a :: w, .any a hp, .lit a hq⟩

theorem meets_lit_lit {p q : List (Sym α)} {a b : α} :
    Meets (.lit a :: p) (.lit b :: q) ↔ a = b ∧ Meets p q := by
  constructor
  · rintro ⟨w, hp, hq⟩
    obtain ⟨v, rfl, hv⟩ := matches_lit.mp hp
    obtain ⟨_, heq, hv'⟩ := matches_lit.mp hq
    obtain ⟨rfl, rfl⟩ := List.cons.inj heq
    exact ⟨rfl, v, hv, hv'⟩
  · rintro ⟨rfl, w, hp, hq⟩
    exact ⟨a :: w, .lit a hp, .lit a hq⟩

end Meets

/-! ## Foreign letters -/

section Foreign

variable {f : α} {p : List (Sym α)}

/-- A foreign letter stands at a wildcard: a star takes any word in its place, an
`any` takes one letter. -/
theorem Matches.replaceWord {w x y : List α} (h : Matches p w) (hf : Sym.lit f ∉ p)
    (hw : w = x ++ f :: y) (u : List α) (hu : Sym.any ∈ p → u.length = 1) :
    Matches p (x ++ u ++ y) := by
  induction h generalizing x with
  | nil => exact absurd hw (by simp)
  | skip _ ih =>
      exact .skip (ih (fun hmem => hf (List.mem_cons_of_mem _ hmem)) hw
        fun hmem => hu (List.mem_cons_of_mem _ hmem))
  | take a hrest ih =>
      cases x with
      | nil =>
          obtain ⟨rfl, rfl⟩ := List.cons.inj hw
          exact hrest.star_of_suffix
      | cons b x =>
          obtain ⟨rfl, rfl⟩ := List.cons.inj hw
          exact .take a (ih hf rfl hu)
  | any a hrest ih =>
      cases x with
      | nil =>
          obtain ⟨rfl, rfl⟩ := List.cons.inj hw
          obtain ⟨c, rfl⟩ := List.length_eq_one_iff.mp (hu List.mem_cons_self)
          exact .any c hrest
      | cons b x =>
          obtain ⟨rfl, rfl⟩ := List.cons.inj hw
          exact .any a (ih (fun hmem => hf (List.mem_cons_of_mem _ hmem)) rfl
            fun hmem => hu (List.mem_cons_of_mem _ hmem))
  | lit a hrest ih =>
      cases x with
      | nil =>
          obtain ⟨rfl, rfl⟩ := List.cons.inj hw
          exact absurd List.mem_cons_self hf
      | cons b x =>
          obtain ⟨rfl, rfl⟩ := List.cons.inj hw
          exact .lit a (ih (fun hmem => hf (List.mem_cons_of_mem _ hmem)) rfl
            fun hmem => hu (List.mem_cons_of_mem _ hmem))

/-- One letter for another. -/
theorem Matches.replace {w x y : List α} (h : Matches p w) (hf : Sym.lit f ∉ p)
    (hw : w = x ++ f :: y) (c : α) : Matches p (x ++ c :: y) := by
  have hone := h.replaceWord hf hw [c] fun _ => rfl
  simpa using hone

/-- Make a long run of foreign letters one letter longer.  More letters than
`any` symbols: one of them is a star's. -/
theorem Matches.pump [DecidableEq α] {w x y : List α} {m : Nat} (h : Matches p w)
    (hf : Sym.lit f ∉ p) (hm : p.count .any < m) (hw : w = x ++ List.replicate m f ++ y) :
    Matches p (x ++ List.replicate (m + 1) f ++ y) := by
  induction h generalizing x m with
  | nil =>
      have hlen := congrArg List.length hw
      simp only [List.length_nil, List.length_append, List.length_replicate] at hlen
      omega
  | skip _ ih =>
      rw [List.count_cons_of_ne (by simp)] at hm
      exact .skip (ih (fun hmem => hf (List.mem_cons_of_mem _ hmem)) hm hw)
  | take a hrest ih =>
      cases x with
      | nil =>
          -- The run starts under the star, which takes one letter more.
          have := Matches.take f (Matches.take a hrest)
          rw [hw] at this
          exact this
      | cons b x =>
          obtain ⟨rfl, rfl⟩ := List.cons.inj hw
          exact .take a (ih hf hm rfl)
  | any a hrest ih =>
      rw [List.count_cons_self] at hm
      have hf' : ∀ {q : List (Sym α)}, Sym.lit f ∉ Sym.any :: q → Sym.lit f ∉ q :=
        fun h hmem => h (List.mem_cons_of_mem _ hmem)
      cases x with
      | nil =>
          obtain ⟨n, rfl⟩ : ∃ n, m = n + 1 := ⟨m - 1, by omega⟩
          obtain ⟨rfl, hw'⟩ := List.cons.inj hw
          exact .any a (ih (x := []) (hf' hf) (Nat.lt_of_succ_lt_succ hm) hw')
      | cons b x =>
          obtain ⟨rfl, rfl⟩ := List.cons.inj hw
          exact .any a (ih (hf' hf) (Nat.lt_of_succ_lt hm) rfl)
  | lit a hrest ih =>
      rw [List.count_cons_of_ne (by simp)] at hm
      cases x with
      | nil =>
          obtain ⟨n, rfl⟩ : ∃ n, m = n + 1 := ⟨m - 1, by omega⟩
          obtain ⟨rfl, -⟩ := List.cons.inj hw
          exact absurd List.mem_cons_self hf
      | cons b x =>
          obtain ⟨rfl, rfl⟩ := List.cons.inj hw
          exact .lit a (ih (fun hmem => hf (List.mem_cons_of_mem _ hmem)) hm rfl)

end Foreign

/-! ## Probes -/

/-- The words of a glob in which `f` stands for every wildcard, and each star
for a run of at most `n` of them. -/
def probes (f : α) (n : Nat) : List (Sym α) → List (List α)
  | [] => [[]]
  | .star :: p => (List.range (n + 1)).flatMap fun j =>
      (probes f n p).map fun w => List.replicate j f ++ w
  | .any :: p => (probes f n p).map fun w => f :: w
  | .lit a :: p => (probes f n p).map fun w => a :: w

theorem matches_of_mem_probes {f : α} {n : Nat} :
    ∀ {p : List (Sym α)} {w : List α}, w ∈ probes f n p → Matches p w
  | [], w, h => by simpa [probes] using h
  | .star :: p, w, h => by
      simp only [probes, List.mem_flatMap, List.mem_map] at h
      obtain ⟨j, -, v, hv, rfl⟩ := h
      exact (matches_of_mem_probes hv).star_append _
  | .any :: p, w, h => by
      simp only [probes, List.mem_map] at h
      obtain ⟨v, hv, rfl⟩ := h
      exact .any f (matches_of_mem_probes hv)
  | .lit a :: p, w, h => by
      simp only [probes, List.mem_map] at h
      obtain ⟨v, hv, rfl⟩ := h
      exact .lit a (matches_of_mem_probes hv)

theorem letter_of_mem_probes {f : α} {n : Nat} {c : α} :
    ∀ {p : List (Sym α)} {w : List α}, w ∈ probes f n p → c ∈ w → c = f ∨ Sym.lit c ∈ p
  | [], w, hw, hc => by
      rw [probes, List.mem_singleton] at hw
      exact absurd hc (by simp [hw])
  | .star :: p, w, hw, hc => by
      simp only [probes, List.mem_flatMap, List.mem_map] at hw
      obtain ⟨j, -, v, hv, rfl⟩ := hw
      rcases List.mem_append.mp hc with hc | hc
      · exact Or.inl (List.eq_of_mem_replicate hc)
      · exact (letter_of_mem_probes hv hc).imp_right (List.mem_cons_of_mem _)
  | .any :: p, w, hw, hc => by
      obtain ⟨v, hv, rfl⟩ := List.mem_map.mp hw
      rcases List.mem_cons.mp hc with hc | hc
      · exact Or.inl hc
      · exact (letter_of_mem_probes hv hc).imp_right (List.mem_cons_of_mem _)
  | .lit a :: p, w, hw, hc => by
      obtain ⟨v, hv, rfl⟩ := List.mem_map.mp hw
      rcases List.mem_cons.mp hc with rfl | hc
      · exact Or.inr List.mem_cons_self
      · exact (letter_of_mem_probes hv hc).imp_right (List.mem_cons_of_mem _)

/-- A set of words to which `f` is foreign: any letter may stand in its place,
and a run of `n` or more of it may be longer. -/
structure Foreign (f : α) (n : Nat) (B : List α → Prop) : Prop where
  replace : ∀ x y c, B (x ++ f :: y) → B (x ++ c :: y)
  pump : ∀ x y m, n ≤ m → B (x ++ List.replicate m f ++ y) →
    B (x ++ List.replicate (m + 1) f ++ y)

namespace Foreign

variable {f : α} {n : Nat} {B : List α → Prop}

theorem replaceRun (h : Foreign f n B) (y : List α) :
    ∀ (u x : List α), B (x ++ List.replicate u.length f ++ y) → B (x ++ u ++ y)
  | [], x, hB => by simpa using hB
  | a :: u, x, hB => by
      have hfirst : B (x ++ a :: (List.replicate u.length f ++ y)) :=
        h.replace x _ a (by simpa [List.replicate_succ] using hB)
      simpa using h.replaceRun y u (x ++ [a]) (by simpa using hfirst)

theorem pumpTo (h : Foreign f n B) {x y : List α} (hB : B (x ++ List.replicate n f ++ y)) :
    ∀ k : Nat, B (x ++ List.replicate (n + k) f ++ y)
  | 0 => hB
  | k + 1 => h.pump x y (n + k) (Nat.le_add_right n k) (h.pumpTo hB k)

/-- A set that has the probes of a glob has all its words. -/
theorem of_probes (h : Foreign f n B) :
    ∀ {p : List (Sym α)} {w x : List α}, Matches p w →
      (∀ v ∈ probes f n p, B (x ++ v)) → B (x ++ w)
  | [], w, x, hw, hp => by
      rw [matches_nil.mp hw]
      exact hp [] (by simp [probes])
  | .star :: p, w, x, hw, hp => by
      obtain ⟨u, v, rfl, hv⟩ := matches_star.mp hw
      -- Every length up to `n` is a probe; longer runs are pumped from `n`.
      have hshort : ∀ j, j ≤ n → B (x ++ List.replicate j f ++ v) := by
        intro j hj
        refine h.of_probes hv (fun v' hv' => ?_)
        rw [List.append_assoc]
        refine hp _ ?_
        simp only [probes, List.mem_flatMap, List.mem_map]
        exact ⟨j, List.mem_range.mpr (Nat.lt_succ_of_le hj), v', hv', rfl⟩
      rw [← List.append_assoc]
      refine h.replaceRun v u x ?_
      rcases Nat.le_total u.length n with hle | hle
      · exact hshort u.length hle
      · obtain ⟨k, hk⟩ := Nat.exists_eq_add_of_le hle
        rw [hk]
        exact h.pumpTo (hshort n (Nat.le_refl n)) k
  | .any :: p, w, x, hw, hp => by
      obtain ⟨a, v, rfl, hv⟩ := matches_any.mp hw
      refine h.replace x v a ?_
      have hrest := h.of_probes (x := x ++ [f]) hv (fun v' hv' => by
        rw [List.append_assoc]
        exact hp _ (List.mem_map.mpr ⟨v', hv', rfl⟩))
      simpa using hrest
  | .lit a :: p, w, x, hw, hp => by
      obtain ⟨v, rfl, hv⟩ := matches_lit.mp hw
      have hrest := h.of_probes (x := x ++ [a]) hv (fun v' hv' => by
        rw [List.append_assoc]
        exact hp _ (List.mem_map.mpr ⟨v', hv', rfl⟩))
      simpa using hrest

end Foreign

/-! ## Covering -/

/-- The words of one of several globs. -/
def MatchesOne (ps : List (List (Sym α))) (w : List α) : Prop := ∃ p ∈ ps, Matches p w

theorem foreign_matchesOne [DecidableEq α] {f : α} {n : Nat} {ps : List (List (Sym α))}
    (hf : ∀ p ∈ ps, Sym.lit f ∉ p) (hn : ∀ p ∈ ps, p.count .any < n) :
    Foreign f n (MatchesOne ps) where
  replace := by
    rintro x y c ⟨p, hp, h⟩
    exact ⟨p, hp, h.replace (hf p hp) rfl c⟩
  pump := by
    rintro x y m hm ⟨p, hp, h⟩
    exact ⟨p, hp, h.pump (hf p hp) (Nat.lt_of_lt_of_le (hn p hp) hm) rfl⟩

/-- The word of a glob in which one `f` stands for every wildcard. -/
def onePerWildcard (f : α) (p : List (Sym α)) : List α :=
  p.map fun
    | .star => f
    | .any => f
    | .lit a => a

/-- Globs without an `any` have all words of a glob when they have that one. -/
theorem of_onePerWildcard {f : α} {ps : List (List (Sym α))} (hf : ∀ p ∈ ps, Sym.lit f ∉ p)
    (hany : ∀ p ∈ ps, Sym.any ∉ p) :
    ∀ {q : List (Sym α)} {w x : List α}, Matches q w → MatchesOne ps (x ++ onePerWildcard f q) →
      MatchesOne ps (x ++ w)
  | [], w, x, hw, h => by
      rw [matches_nil.mp hw]
      exact h
  | .star :: q, w, x, hw, ⟨p, hp, h⟩ => by
      obtain ⟨u, v, rfl, hv⟩ := matches_star.mp hw
      have hrun := h.replaceWord (hf p hp) rfl u fun hmem => absurd hmem (hany p hp)
      rw [← List.append_assoc]
      exact of_onePerWildcard hf hany hv ⟨p, hp, hrun⟩
  | .any :: q, w, x, hw, ⟨p, hp, h⟩ => by
      obtain ⟨a, v, rfl, hv⟩ := matches_any.mp hw
      have hone := h.replaceWord (hf p hp) rfl [a] fun _ => rfl
      have hrest := of_onePerWildcard hf hany (x := x ++ [a]) hv ⟨p, hp, hone⟩
      simpa using hrest
  | .lit a :: q, w, x, hw, h => by
      obtain ⟨v, rfl, hv⟩ := matches_lit.mp hw
      have hrest := of_onePerWildcard hf hany (x := x ++ [a]) hv (by simpa [onePerWildcard] using h)
      simpa using hrest

/-- Some globs cover others exactly when they match the probes of each. -/
theorem covers_iff_probes [DecidableEq α] {f : α} {n : Nat} {broad narrow : List (List (Sym α))}
    (hf : ∀ p ∈ broad, Sym.lit f ∉ p) (hn : ∀ p ∈ broad, p.count .any < n) :
    (∀ w, MatchesOne narrow w → MatchesOne broad w) ↔
      ∀ p ∈ narrow, ∀ w ∈ probes f n p, MatchesOne broad w := by
  constructor
  · intro h p hp w hw
    exact h w ⟨p, hp, matches_of_mem_probes hw⟩
  · rintro h w ⟨p, hp, hw⟩
    exact (foreign_matchesOne hf hn).of_probes (x := []) hw (h p hp)

end Glob

end Llmenv.Lib
