/-
# `Llmenv.Adapter.Opencode.Patterns` — the wildcards of opencode

The matching and comparison of patterns in
`src/adapter/opencode/permissions.rs`.  `*` stands for any run of characters
and `?` for one, a backslash is read as a slash, and a pattern that ends in
`" *"` also matches what stands before it.

The slices that the loops of the source index into are the rests of lists
here.  `globMatches_iff` says that the loop with its one backtrack point
decides the glob, and `wildcardMatches_iff` the same for patterns.
-/
import Llmenv.Lib.Glob
import Llmenv.Lib.Text

namespace Llmenv.Adapter.Opencode

open Llmenv.Lib Llmenv.Lib.Glob

/-! ## `glob_matches` -/

/-- The last `*` takes one character more; without one the match fails. -/
def goBack (loop : List Char → List Char → Option (List Char × List Char) → Bool) :
    Option (List Char × List Char) → Bool
  | some (after, resume) => loop after resume.tail (some (after, resume.tail))
  | none => false

/-- The loop of `glob_matches`: the pattern from `p`, the input from `i`, and,
once a `*` was met, the pattern after it with the input from `resume`. -/
def globLoop : Nat → List Char → List Char → Option (List Char × List Char) → Bool
  | 0, _, _, _ => false
  | _ + 1, pat, [], _ => pat.all (· == '*')
  | fuel + 1, [], _ :: _, star => goBack (globLoop fuel) star
  | fuel + 1, d :: pat, c :: input, star =>
      if d = '*' then globLoop fuel pat (c :: input) (some (pat, c :: input))
      else if d = '?' then globLoop fuel pat input star
      else if d = c then globLoop fuel pat input star
      else goBack (globLoop fuel) star

/-- Enough turns for every pattern and input (`globMatches_iff`). -/
def globFuel (pat input : List Char) : Nat :=
  (input.length + 1) * (pat.length + 1) + pat.length + 1

def globMatches (pat input : List Char) : Bool := globLoop (globFuel pat input) pat input none

/-! ## Patterns -/

/-- `replace('\\', "/")`. -/
def normalize (text : List Char) : List Char := text.map fun c => if c = '\\' then '/' else c

/-- `strip_suffix(" *")`. -/
def stripSpaceStar (pattern : List Char) : Option (List Char) :=
  match pattern.reverse with
  | '*' :: ' ' :: rest => some rest.reverse
  | _ => none

def wildcardMatches (pattern input : String) : Bool :=
  let normalized := normalize input.toList
  let pattern := normalize pattern.toList
  match stripSpaceStar pattern with
  | some bare => globMatches bare normalized || globMatches pattern normalized
  | none => globMatches pattern normalized

/-- The spellings of a pattern in `patterns_overlap`. -/
def spellings (pattern : String) : List (List Char) :=
  let pattern := normalize pattern.toList
  match stripSpaceStar pattern with
  | some bare => [bare, pattern]
  | none => [pattern]

/-- One row of `reachable`, from the row below it: the entries for `x :: rest`
against every rest of `b`. -/
def intersectRow (x : Char) (rest : List Char) : List Char → List Bool → List Bool
  | [], _ => [(x :: rest).all (· == '*')]
  | y :: b, below =>
      let row := intersectRow x rest b below.tail
      let entry :=
        if x = '*' ∨ y = '*' then below.headD false || row.headD false
        else (x == '?' || y == '?' || x == y) && below.tail.headD false
      entry :: row

/-- The rows of `reachable` for the rests of `a`, the first of them. -/
def intersectRows (b : List Char) : List Char → List Bool
  | [] => b.tails.map fun rest => rest.all (· == '*')
  | x :: a => intersectRow x a b (intersectRows b a)

def globsIntersect (a b : List Char) : Bool := (intersectRows b a).headD false

def patternsOverlap (a b : String) : Bool :=
  (spellings a).any fun x => (spellings b).any fun y => globsIntersect x y

def sentinel : Char := Char.ofNat 1

/-- The text that `pattern_subsumes` tries for one length of run. -/
def witnessFor (run : Nat) (narrow : List Char) : List Char :=
  narrow.flatMap fun c =>
    if c = '*' then List.replicate run sentinel
    else if c = '?' then [sentinel]
    else [c]

/-- One length of run for all stars at a time: none, one, and one more than the
`?`s of `broad`. -/
def patternSubsumes (broad narrow : String) : Bool :=
  let widest := (broad.toList.filter (· == '?')).length + 1
  [0, 1, widest].all fun run =>
    wildcardMatches broad (String.ofList (witnessFor run narrow.toList))

/-! ## What the loop decides -/

/-- The symbol of a character of a pattern. -/
def sym (c : Char) : Sym Char :=
  if c = '*' then .star else if c = '?' then .any else .lit c

/-- The glob of a pattern. -/
def glob (pat : List Char) : List (Sym Char) := pat.map sym

theorem sym_any : sym '?' = .any := rfl

theorem sym_lit {c : Char} (hs : c ≠ '*') (hq : c ≠ '?') : sym c = .lit c := by
  simp [sym, hs, hq]

/-- A part of a pattern without a star, against as many characters. -/
def Aligned : List Char → List Char → Prop :=
  List.Forall₂ fun d c => d ≠ '*' ∧ (d = '?' ∨ d = c)

theorem Aligned.snoc {seg u : List Char} {d c : Char} (h : Aligned seg u) (hd : d ≠ '*')
    (hdc : d = '?' ∨ d = c) : Aligned (seg ++ [d]) (u ++ [c]) :=
  List.rel_append h (List.Forall₂.cons ⟨hd, hdc⟩ List.Forall₂.nil)

/-- Behind an aligned part the rest of the pattern meets the rest of the
input. -/
theorem matches_aligned {seg u : List Char} (h : Aligned seg u) {p : List (Sym Char)}
    {w : List Char} : Matches (glob seg ++ p) (u ++ w) ↔ Matches p w := by
  induction h with
  | nil => rfl
  | @cons d c seg u hd _ ih =>
      obtain ⟨hstar, hdc⟩ := hd
      by_cases hq : d = '?'
      · subst hq
        simp only [glob, List.map_cons, List.cons_append, sym_any, matches_any,
          List.cons.injEq]
        constructor
        · rintro ⟨a, v, ⟨rfl, rfl⟩, hv⟩
          exact ih.mp hv
        · intro hw
          exact ⟨c, _, ⟨rfl, rfl⟩, ih.mpr hw⟩
      · obtain rfl := hdc.resolve_left hq
        simp only [glob, List.map_cons, List.cons_append, sym_lit hstar hq, matches_lit,
          List.cons.injEq]
        constructor
        · rintro ⟨v, ⟨-, rfl⟩, hv⟩
          exact ih.mp hv
        · intro hw
          exact ⟨_, ⟨trivial, rfl⟩, ih.mpr hw⟩

/-- A part without a star takes as many characters as it has. -/
theorem matches_starFree {p : List (Sym Char)} :
    ∀ {seg v : List Char}, (∀ d ∈ seg, d ≠ '*') → Matches (glob seg ++ p) v →
      ∃ u w, v = u ++ w ∧ u.length = seg.length ∧ Matches p w
  | [], v, _, h => ⟨[], v, rfl, rfl, h⟩
  | d :: seg, v, hseg, h => by
      have hrest : ∀ e ∈ seg, e ≠ '*' := fun e he => hseg e (List.mem_cons_of_mem _ he)
      have hone : ∃ c v', v = c :: v' ∧ Matches (glob seg ++ p) v' := by
        by_cases hq : d = '?'
        · subst hq
          exact matches_any.mp h
        · simp only [glob, List.map_cons, List.cons_append,
            sym_lit (hseg d List.mem_cons_self) hq] at h
          obtain ⟨v', rfl, hv'⟩ := matches_lit.mp h
          exact ⟨d, v', rfl, hv'⟩
      obtain ⟨c, v', rfl, hv'⟩ := hone
      obtain ⟨u, w, rfl, hlen, hw⟩ := matches_starFree hrest hv'
      exact ⟨c :: u, w, rfl, by simp [hlen], hw⟩

theorem Aligned.starFree {seg u : List Char} (h : Aligned seg u) : ∀ d ∈ seg, d ≠ '*' := by
  induction h with
  | nil => simp
  | cons hd _ ih =>
      intro e he
      rcases List.mem_cons.mp he with rfl | he
      · exact hd.1
      · exact ih e he

/-- What a state of the loop has to decide: the whole input when no star was
met, and from the last star on otherwise. -/
def Pending (pat input : List Char) : Option (List Char × List Char) → Prop
  | none => Matches (glob pat) input
  | some (after, resume) => Matches (.star :: glob after) resume

/-- The loop is behind its last star by an aligned part. -/
def OnTrack (pat input : List Char) : Option (List Char × List Char) → Prop
  | none => True
  | some (after, resume) =>
      ∃ seg u, Aligned seg u ∧ after = seg ++ pat ∧ resume = u ++ input

theorem glob_append (a b : List Char) : glob (a ++ b) = glob a ++ glob b := List.map_append

/-- A later star takes the place of an earlier one. -/
theorem matches_laterStar {seg u rest input : List Char} (h : Aligned seg u) :
    Matches (.star :: glob (seg ++ '*' :: rest)) (u ++ input) ↔
      Matches (.star :: glob rest) input := by
  have hglob : glob (seg ++ '*' :: rest) = glob seg ++ .star :: glob rest := glob_append _ _
  rw [hglob]
  constructor
  · intro hm
    obtain ⟨x, v, heq, hv⟩ := matches_star.mp hm
    obtain ⟨y, w, rfl, hlen, hw⟩ := matches_starFree h.starFree hv
    -- The part has a fixed length, so the rest of any match is a rest of this input.
    have hwhole : w <:+ u ++ input := ⟨x ++ y, by rw [heq, List.append_assoc]⟩
    have hsuffix : w <:+ input := by
      refine List.suffix_of_suffix_length_le hwhole (List.suffix_append u input) ?_
      have htotal := congrArg List.length heq
      have hseg := h.length_eq
      simp only [List.length_append] at htotal
      omega
    obtain ⟨z, rfl⟩ := hsuffix
    exact hw.star_of_suffix
  · intro hm
    exact .skip ((matches_aligned h).mpr hm)

/-- A star is the last one from here on. -/
theorem pending_star {pat input : List Char} {star : Option (List Char × List Char)}
    (h : OnTrack ('*' :: pat) input star) :
    Matches (.star :: glob pat) input ↔ Pending ('*' :: pat) input star := by
  cases star with
  | none => rfl
  | some s =>
      obtain ⟨after, resume⟩ := s
      obtain ⟨seg, u, halign, rfl, rfl⟩ := h
      exact (matches_laterStar halign).symm

/-- After a mismatch the last star takes one character more. -/
theorem matches_backtrack {seg u pat : List Char} {c : Char} {input : List Char}
    (h : Aligned seg u) (hfail : ¬ Matches (glob pat) (c :: input)) :
    Matches (.star :: glob (seg ++ pat)) (u ++ c :: input) ↔
      Matches (.star :: glob (seg ++ pat)) (u ++ c :: input).tail := by
  constructor
  · intro hm
    obtain ⟨x, v, heq, hv⟩ := matches_star.mp hm
    cases x with
    | nil =>
        rw [← show u ++ c :: input = v from heq, glob_append] at hv
        exact absurd ((matches_aligned h).mp hv) hfail
    | cons a x =>
        rw [heq]
        exact hv.star_append x
  · intro hm
    obtain ⟨a, w, hw⟩ : ∃ a w, u ++ c :: input = a :: w := by
      cases u with
      | nil => exact ⟨c, input, rfl⟩
      | cons a u => exact ⟨a, u ++ c :: input, rfl⟩
    rw [hw] at hm ⊢
    exact .take a hm

theorem matches_glob_nil {pat : List Char} :
    Matches (glob pat) [] ↔ pat.all (· == '*') = true := by
  induction pat with
  | nil => simp [glob]
  | cons d pat ih =>
      by_cases hd : d = '*'
      · subst hd
        have hstar : Matches (glob ('*' :: pat)) [] ↔ Matches (glob pat) [] := by
          constructor
          · intro h
            obtain ⟨x, v, heq, hv⟩ := matches_star.mp h
            rwa [(List.append_eq_nil_iff.mp heq.symm).2] at hv
          · exact fun h => .skip h
        simp [hstar, ih]
      · constructor
        · intro h
          have hone : ∀ e ∈ [d], e ≠ '*' := by simpa using hd
          obtain ⟨u, w, heq, hlen, -⟩ := matches_starFree (p := glob pat) hone h
          rw [(List.append_eq_nil_iff.mp heq.symm).1] at hlen
          exact absurd hlen (by simp)
        · intro h
          simp [hd] at h

/-- At the end of the input the rest of the pattern decides. -/
theorem pending_end {pat : List Char} {star : Option (List Char × List Char)}
    (h : OnTrack pat [] star) : Pending pat [] star ↔ Matches (glob pat) [] := by
  cases star with
  | none => rfl
  | some s =>
      obtain ⟨seg, u, halign, hafter, hresume⟩ := h
      rw [List.append_nil] at hresume
      simp only [Pending, hafter, hresume, glob_append]
      constructor
      · intro hm
        obtain ⟨x, v, heq, hv⟩ := matches_star.mp hm
        obtain ⟨y, w, rfl, hlen, hw⟩ := matches_starFree halign.starFree hv
        have htotal := congrArg List.length heq
        have hseg := halign.length_eq
        simp only [List.length_append] at htotal
        rwa [List.eq_nil_of_length_eq_zero (show w.length = 0 by omega)] at hw
      · intro hm
        refine .skip ?_
        simpa using (matches_aligned halign (w := [])).mpr hm

/-- How often the loop can still go back, at most. -/
def turns (input : List Char) : Option (List Char × List Char) → Nat
  | none => input.length + 1
  | some (_, resume) => resume.length

theorem length_le_turns {pat input : List Char} {star : Option (List Char × List Char)}
    (h : OnTrack pat input star) : input.length ≤ turns input star := by
  cases star with
  | none => exact Nat.le_succ _
  | some s =>
      obtain ⟨seg, u, -, -, hresume⟩ := h
      simp only [turns, hresume, List.length_append]
      exact Nat.le_add_left _ _

/-- One character of the pattern meets one of the input. -/
theorem pending_step {d c : Char} {pat input : List Char}
    {star : Option (List Char × List Char)} (hd : d ≠ '*') (hdc : d = '?' ∨ d = c)
    (h : OnTrack (d :: pat) (c :: input) star) :
    OnTrack pat input star ∧ (Pending pat input star ↔ Pending (d :: pat) (c :: input) star) := by
  cases star with
  | none =>
      have hone : Aligned [d] [c] := List.Forall₂.cons ⟨hd, hdc⟩ List.Forall₂.nil
      exact ⟨trivial, (matches_aligned hone).symm⟩
  | some s =>
      obtain ⟨seg, u, halign, hafter, hresume⟩ := h
      exact ⟨⟨seg ++ [d], u ++ [c], halign.snoc hd hdc, by simpa using hafter,
        by simpa using hresume⟩, Iff.rfl⟩

theorem turns_step {c : Char} (input : List Char) (star : Option (List Char × List Char)) :
    turns input star ≤ turns (c :: input) star := by
  cases star with
  | none => exact Nat.le_succ _
  | some s => exact Nat.le_refl _

/-- One character less to resume from is one turn less. -/
theorem tail_turns (k : Nat) (u : List Char) (c : Char) (input : List Char) :
    (u ++ c :: input).tail.length * k + k = (u ++ c :: input).length * k := by
  rw [← Nat.succ_mul, List.length_tail]
  congr 1
  simp only [List.length_append, List.length_cons]
  omega

/-- A loop with `fuel` turns decides every state that needs fewer. -/
def Decides (m fuel : Nat) : Prop :=
  ∀ (pat input : List Char) (star : Option (List Char × List Char)), pat.length ≤ m →
    (∀ after resume, star = some (after, resume) → after.length ≤ m) →
    turns input star * (m + 1) + pat.length < fuel → OnTrack pat input star →
    (globLoop fuel pat input star = true ↔ Pending pat input star)

namespace Decides

variable {m fuel : Nat}

/-- The state right behind a star. -/
theorem afterStar (h : Decides m fuel) {pat input : List Char} (hpat : pat.length ≤ m)
    (hfuel : input.length * (m + 1) + pat.length < fuel) :
    globLoop fuel pat input (some (pat, input)) = true ↔ Matches (.star :: glob pat) input := by
  refine h pat input (some (pat, input)) hpat ?_ hfuel ⟨[], [], List.Forall₂.nil, rfl, rfl⟩
  intro after resume heq
  obtain ⟨rfl, -⟩ := Prod.mk.inj (Option.some.inj heq)
  exact hpat

theorem back (h : Decides m fuel) {pat input : List Char} {c : Char}
    {star : Option (List Char × List Char)}
    (hafter : ∀ after resume, star = some (after, resume) → after.length ≤ m)
    (hfuel : turns (c :: input) star * (m + 1) + pat.length < fuel + 1)
    (htrack : OnTrack pat (c :: input) star) (hfail : ¬ Matches (glob pat) (c :: input)) :
    goBack (globLoop fuel) star = true ↔ Pending pat (c :: input) star := by
  cases star with
  | none => exact ⟨fun hb => absurd hb (by simp [goBack]), fun hp => absurd hp hfail⟩
  | some s =>
      obtain ⟨after, resume⟩ := s
      obtain ⟨seg, u, halign, rfl, rfl⟩ := htrack
      have hlen := hafter _ _ rfl
      have hshorter := tail_turns (m + 1) u c input
      simp only [turns] at hfuel
      exact (h.afterStar hlen (by omega)).trans (matches_backtrack halign hfail).symm

theorem star (h : Decides m fuel) {pat input : List Char}
    {star : Option (List Char × List Char)} (hpat : pat.length ≤ m)
    (hfuel : turns input star * (m + 1) + pat.length < fuel)
    (htrack : OnTrack ('*' :: pat) input star) :
    globLoop fuel pat input (some (pat, input)) = true ↔ Pending ('*' :: pat) input star := by
  have hle := Nat.mul_le_mul_right (m + 1) (length_le_turns htrack)
  rw [h.afterStar hpat (by omega)]
  exact pending_star htrack

/-- One character is consumed on both sides. -/
theorem char (h : Decides m fuel) {d c : Char} {pat input : List Char}
    {star : Option (List Char × List Char)} (hd : d ≠ '*') (hdc : d = '?' ∨ d = c)
    (hpat : pat.length ≤ m)
    (hafter : ∀ after resume, star = some (after, resume) → after.length ≤ m)
    (hfuel : turns (c :: input) star * (m + 1) + pat.length < fuel)
    (htrack : OnTrack (d :: pat) (c :: input) star) :
    globLoop fuel pat input star = true ↔ Pending (d :: pat) (c :: input) star := by
  obtain ⟨htrack', hpending⟩ := pending_step hd hdc htrack
  have hle := Nat.mul_le_mul_right (m + 1) (turns_step (c := c) input star)
  exact (h pat input star hpat hafter (by omega) htrack').trans hpending

end Decides

theorem decides (m : Nat) : ∀ fuel : Nat, Decides m fuel
  | 0, _, _, _, _, _, hfuel, _ => absurd hfuel (Nat.not_lt_zero _)
  | fuel + 1, pat, [], star, _, _, _, htrack => by
      rw [pending_end htrack, matches_glob_nil]
      cases pat <;> rfl
  | fuel + 1, [], c :: input, star, _, hafter, hfuel, htrack =>
      (decides m fuel).back hafter hfuel htrack (by simp [glob])
  | fuel + 1, d :: pat, c :: input, star, hpat, hafter, hfuel, htrack => by
      have hpat' : pat.length ≤ m := Nat.le_of_succ_le hpat
      have hfuel' : turns (c :: input) star * (m + 1) + pat.length < fuel := by
        rw [List.length_cons] at hfuel
        omega
      simp only [globLoop]
      split
      · rename_i hd
        subst hd
        exact (decides m fuel).star hpat' hfuel' htrack
      · rename_i hstar
        split
        · rename_i hd
          exact (decides m fuel).char hstar (Or.inl hd) hpat' hafter hfuel' htrack
        · rename_i hquery
          split
          · rename_i hd
            exact (decides m fuel).char hstar (Or.inr hd) hpat' hafter hfuel' htrack
          · rename_i hne
            refine (decides m fuel).back hafter hfuel htrack ?_
            simp only [glob, List.map_cons, sym_lit hstar hquery, matches_lit]
            rintro ⟨v, heq, -⟩
            exact hne (List.cons.inj heq).1.symm

/-- `glob_matches` ends and decides the glob. -/
theorem globMatches_iff {pat input : List Char} :
    globMatches pat input = true ↔ Matches (glob pat) input :=
  decides pat.length _ pat input none (Nat.le_refl _) (fun _ _ h => absurd h (by simp))
    (Nat.lt_succ_self _) trivial

/-! ## When one pattern covers another -/

theorem wildcardMatches_iff {pattern input : String} :
    wildcardMatches pattern input = true ↔
      MatchesOne ((spellings pattern).map glob) (normalize input.toList) := by
  simp only [wildcardMatches, spellings]
  split
  · simp [MatchesOne, globMatches_iff]
  · simp [MatchesOne, globMatches_iff]

/-- The number of `?`s. -/
def queries (pattern : String) : Nat := pattern.toList.count '?'

/-- The texts that decide whether `broad` covers `narrow`: each spelling of
`narrow`, with a question mark for each `?` and, for each `*` on its own, a run
of at most one more of them than `broad` has `?`s.  In a text a question mark is
a character that no literal of a pattern matches. -/
def coverProbes (broad narrow : String) : List String :=
  (spellings narrow).flatMap fun s =>
    (probes '?' (queries broad + 1) (glob s)).map String.ofList

def coversProbes (broad narrow : String) : Bool :=
  (coverProbes broad narrow).all (wildcardMatches broad)

theorem stripSpaceStar_eq {pattern bare : List Char} (h : stripSpaceStar pattern = some bare) :
    pattern = bare ++ [' ', '*'] := by
  simp only [stripSpaceStar] at h
  split at h
  · rename_i rest heq
    obtain rfl := Option.some.inj h
    have := congrArg List.reverse heq
    simpa using this
  · exact absurd h (by simp)

/-- A spelling is the pattern or a part of it. -/
theorem sublist_of_mem_spellings {pattern : String} {s : List Char} (h : s ∈ spellings pattern) :
    s.Sublist (normalize pattern.toList) := by
  simp only [spellings] at h
  split at h
  · rename_i bare hbare
    rcases List.mem_pair.mp h with rfl | rfl
    · rw [stripSpaceStar_eq hbare]
      exact List.sublist_append_left _ _
    · exact List.Sublist.refl _
  · rw [List.mem_singleton.mp h]

theorem lit_mem_glob {c : Char} {s : List Char} (h : Sym.lit c ∈ glob s) : c ∈ s ∧ c ≠ '?' := by
  obtain ⟨d, hd, heq⟩ := List.mem_map.mp h
  simp only [sym] at heq
  split at heq
  · exact absurd heq (by simp)
  · split at heq
    · exact absurd heq (by simp)
    · rename_i hq
      obtain rfl := Sym.lit.inj heq
      exact ⟨hd, hq⟩

theorem count_any_glob (s : List Char) : (glob s).count .any = s.count '?' := by
  induction s with
  | nil => rfl
  | cons d s ih =>
      have hd : sym d = .any ↔ d = '?' := by
        simp only [sym]
        split
        · rename_i hs
          simp [hs]
        · split
          · rename_i hq
            simp [hq]
          · rename_i hq
            simp [hq]
      simp only [glob, List.map_cons, List.count_cons, beq_iff_eq, hd] at ih ⊢
      rw [ih]

theorem count_normalize (text : List Char) : (normalize text).count '?' = text.count '?' := by
  induction text with
  | nil => rfl
  | cons c text ih =>
      have hc : (if c = '\\' then '/' else c) = '?' ↔ c = '?' := by
        split
        · rename_i hb
          simp [hb]
        · rfl
      simp only [normalize, List.map_cons, List.count_cons, beq_iff_eq, hc] at ih ⊢
      rw [ih]

theorem backslash_notMem_normalize (text : List Char) : '\\' ∉ normalize text := by
  intro h
  obtain ⟨c, -, hc⟩ := List.mem_map.mp h
  split at hc
  · exact absurd hc (by decide)
  · rename_i hne
    exact hne hc

theorem normalize_eq_self {text : List Char} (h : '\\' ∉ text) : normalize text = text := by
  have hid : ∀ c ∈ text, (if c = '\\' then '/' else c) = id c := by
    intro c hc
    refine if_neg (fun heq => h ?_)
    rwa [← heq]
  rw [normalize, List.map_congr_left hid, List.map_id]

/-- A probe has no backslash, so it is read as it is written. -/
theorem normalize_probe {pattern : String} {s w : List Char} {n : Nat}
    (hs : s ∈ spellings pattern) (hw : w ∈ probes '?' n (glob s)) : normalize w = w := by
  refine normalize_eq_self (fun hmem => ?_)
  rcases letter_of_mem_probes hw hmem with hq | hlit
  · exact absurd hq (by decide)
  · exact backslash_notMem_normalize pattern.toList
      ((sublist_of_mem_spellings hs).subset (lit_mem_glob hlit).1)

theorem coversProbes_eq_true {broad narrow : String} :
    coversProbes broad narrow = true ↔
      ∀ p ∈ (spellings narrow).map glob, ∀ w ∈ probes '?' (queries broad + 1) p,
        MatchesOne ((spellings broad).map glob) w := by
  simp only [coversProbes, coverProbes, List.all_eq_true, List.mem_flatMap, List.mem_map]
  constructor
  · rintro h p ⟨s, hs, rfl⟩ w hw
    have hmatch := wildcardMatches_iff.mp (h _ ⟨s, hs, w, hw, rfl⟩)
    rwa [String.toList_ofList, normalize_probe hs hw] at hmatch
  · rintro h _ ⟨s, hs, w, hw, rfl⟩
    rw [wildcardMatches_iff, String.toList_ofList, normalize_probe hs hw]
    exact h _ ⟨s, hs, rfl⟩ w hw

/-- The probes decide whether every input of `narrow` is one of `broad`. -/
theorem coversProbes_iff {broad narrow : String} :
    coversProbes broad narrow = true ↔
      ∀ input, wildcardMatches narrow input = true → wildcardMatches broad input = true := by
  have hforeign : ∀ p ∈ (spellings broad).map glob, Sym.lit '?' ∉ p := by
    intro p hp hmem
    obtain ⟨s, -, rfl⟩ := List.mem_map.mp hp
    exact (lit_mem_glob hmem).2 rfl
  have hcount : ∀ p ∈ (spellings broad).map glob, p.count .any < queries broad + 1 := by
    intro p hp
    obtain ⟨s, hs, rfl⟩ := List.mem_map.mp hp
    rw [count_any_glob, queries, ← count_normalize broad.toList]
    exact Nat.lt_succ_of_le ((sublist_of_mem_spellings hs).count_le '?')
  rw [coversProbes_eq_true]
  constructor
  · intro h input hinput
    exact wildcardMatches_iff.mpr
      ((covers_iff_probes hforeign hcount).mpr h _ (wildcardMatches_iff.mp hinput))
  · intro h p hp w hw
    -- A probe of `narrow` is one of its inputs.
    obtain ⟨s, hs, rfl⟩ := List.mem_map.mp hp
    have hself := normalize_probe hs hw
    have hnarrow : wildcardMatches narrow (String.ofList w) = true := by
      rw [wildcardMatches_iff, String.toList_ofList, hself]
      exact ⟨glob s, hp, matches_of_mem_probes hw⟩
    have hbroad := wildcardMatches_iff.mp (h _ hnarrow)
    rwa [String.toList_ofList, hself] at hbroad

end Llmenv.Adapter.Opencode
