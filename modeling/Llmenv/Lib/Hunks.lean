/-
# `Llmenv.Lib.Hunks` — edits of a list, one after another, and the diff they report

A hunk puts some elements in the place of others.  A run of hunks reports where
the added elements of each one start in the final list, so an earlier hunk moves
down when a later one adds above it.

To say which element of the final list came from where, the run is repeated on
elements that know their origin: a place of the first list, or a place in a hunk
(`marks`).  The report is right exactly when every hunk stays APART from the
earlier ones, that is, replaces none of their elements and does not come between
two elements of one of them (`placed_iff`).
-/
import Mathlib.Data.List.Basic

namespace Llmenv.Lib

variable {α : Type}

/-- `removed` elements replaced by `added` ones, which start at the 1-based `line`. -/
structure Hunk (α : Type) where
  line : Nat
  removed : List α
  added : List α
deriving DecidableEq

inductive Origin where
  | old (i : Nat)
  | hunk (n i : Nat)
deriving DecidableEq

/-- An element and where it comes from. -/
structure Line (α : Type) where
  text : α
  origin : Origin
deriving DecidableEq

def Line.isOld (l : Line α) : Bool :=
  match l.origin with
  | .old _ => true
  | .hunk _ _ => false

/-- The first list. -/
def oldLines (l : List α) : List (Line α) := l.mapIdx fun i x => ⟨x, .old i⟩

namespace Hunk

/-- The elements that hunk number `n` adds. -/
def lines (n : Nat) (h : Hunk α) : List (Line α) := h.added.mapIdx fun i x => ⟨x, .hunk n i⟩

/-- What stands before the hunk. -/
def before {β : Type} (h : Hunk α) (l : List β) : List β := l.take (h.line - 1)

/-- What the hunk replaces. -/
def out {β : Type} (h : Hunk α) (l : List β) : List β := (l.drop (h.line - 1)).take h.removed.length

/-- What stands behind the hunk. -/
def behind {β : Type} (h : Hunk α) (l : List β) : List β := l.drop (h.line - 1 + h.removed.length)

def apply (h : Hunk α) (l : List α) : List α := h.before l ++ h.added ++ h.behind l

/-- The same edit, as hunk number `n`. -/
def mark (n : Nat) (h : Hunk α) (l : List (Line α)) : List (Line α) :=
  h.before l ++ h.lines n ++ h.behind l

/-- The hunk starts in the list and replaces what it says, and no more than it adds. -/
structure Fits (h : Hunk α) (l : List (Line α)) : Prop where
  start : 0 < h.line
  inside : h.line - 1 ≤ l.length
  removes : (h.out l).map Line.text = h.removed
  grows : h.removed.length ≤ h.added.length
  adds : h.added ≠ []

/-- The hunk touches no earlier hunk. -/
structure Apart (h : Hunk α) (l : List (Line α)) : Prop where
  replaces : ∀ x ∈ h.out l, x.isOld = true
  between : ∀ x y m i j, (h.before l).getLast? = some x → (h.behind l).head? = some y →
    x.origin = .hunk m i → y.origin ≠ .hunk m j

end Hunk

/-- Number the hunks of the run from `n` on. -/
def marks : Nat → List (Line α) → List (Hunk α) → List (Line α)
  | _, l, [] => l
  | n, l, h :: hs => marks (n + 1) (h.mark n l) hs

/-- The hunk `g` after a later hunk `h`: it moves down when `h` is at or above it. -/
def Hunk.moved (h g : Hunk α) : Hunk α :=
  if h.line ≤ g.line then { g with line := g.line + (h.added.length - h.removed.length) } else g

/-- Report a hunk. -/
def report (hunks : List (Hunk α)) (h : Hunk α) : List (Hunk α) := hunks.map h.moved ++ [h]

def reports (hunks hs : List (Hunk α)) : List (Hunk α) := hs.foldl report hunks

/-- Every hunk of the run fits. -/
def AllFit : Nat → List (Line α) → List (Hunk α) → Prop
  | _, _, [] => True
  | n, l, h :: hs => h.Fits l ∧ AllFit (n + 1) (h.mark n l) hs

/-- Every hunk of the run stays apart from the earlier ones. -/
def AllApart : Nat → List (Line α) → List (Hunk α) → Prop
  | _, _, [] => True
  | n, l, h :: hs => h.Apart l ∧ AllApart (n + 1) (h.mark n l) hs

/-- A hunk of the run replaces the element. -/
def Replaced (x : Line α) : Nat → List (Line α) → List (Hunk α) → Prop
  | _, _, [] => False
  | n, l, h :: hs => x ∈ h.out l ∨ Replaced x (n + 1) (h.mark n l) hs

/-- The report is right: the elements of each hunk stand together, from its line on. -/
def Placed (l : List (Line α)) (hunks : List (Hunk α)) : Prop :=
  ∀ (n : Nat) (h : Hunk α), hunks[n]? = some h →
    ∃ pre post, l = pre ++ h.lines n ++ post ∧ h.line = pre.length + 1

/-! ## One hunk -/

section

variable {h g : Hunk α} {l : List (Line α)} {n : Nat}

theorem Hunk.before_out_behind {β : Type} (h : Hunk α) (l : List β) :
    h.before l ++ h.out l ++ h.behind l = l := by
  rw [Hunk.before, Hunk.out, Hunk.behind, List.append_assoc, ← List.drop_drop,
    List.take_append_drop, List.take_append_drop]

theorem Hunk.texts_mark (h : Hunk α) (n : Nat) (l : List (Line α)) :
    (h.mark n l).map Line.text = h.apply (l.map Line.text) := by
  have hlines : (h.lines n).map Line.text = h.added := by
    refine List.ext_getElem? fun i => ?_
    rw [Hunk.lines, List.getElem?_map, List.getElem?_mapIdx, Option.map_map]
    exact congrFun Option.map_id _
  simp only [Hunk.mark, Hunk.apply, Hunk.before, Hunk.behind, List.map_append, List.map_take,
    List.map_drop, hlines]

theorem Hunk.mem_lines {x : Line α} : x ∈ h.lines n ↔
    ∃ i text, h.added[i]? = some text ∧ x = ⟨text, .hunk n i⟩ := by
  rw [Hunk.lines, List.mem_mapIdx]
  constructor
  · rintro ⟨i, hi, rfl⟩
    exact ⟨i, h.added[i], List.getElem?_eq_getElem hi, rfl⟩
  · rintro ⟨i, text, htext, rfl⟩
    obtain ⟨hi, rfl⟩ := List.getElem?_eq_some_iff.mp htext
    exact ⟨i, hi, rfl⟩

theorem Hunk.length_lines : (h.lines n).length = h.added.length := List.length_mapIdx

theorem Hunk.getElem?_lines {i : Nat} (hi : i < h.added.length) :
    (h.lines n)[i]? = some ⟨h.added[i], .hunk n i⟩ := by
  rw [Hunk.lines, List.getElem?_mapIdx, List.getElem?_eq_getElem hi]
  rfl

/-- The places of the elements of a hunk that stands right. -/
theorem stands_iff_getElem? (hne : h.added ≠ []) :
    (∃ pre post, l = pre ++ h.lines n ++ post ∧ h.line = pre.length + 1) ↔
      0 < h.line ∧ ∀ i < h.added.length, l[h.line - 1 + i]? = (h.lines n)[i]? := by
  constructor
  · rintro ⟨pre, post, rfl, hline⟩
    refine ⟨by omega, fun i hi => ?_⟩
    rw [hline, List.append_assoc, Nat.add_sub_cancel, List.getElem?_append_right (by omega),
      Nat.add_sub_cancel_left, List.getElem?_append_left (by rwa [Hunk.length_lines])]
  · rintro ⟨hpos, hget⟩
    have hlen : 0 < h.added.length := List.length_pos_of_ne_nil hne
    have hle : h.line - 1 < l.length := by
      have hfirst := hget 0 hlen
      rw [Hunk.getElem?_lines hlen] at hfirst
      exact (List.getElem?_eq_some_iff.mp hfirst).1
    refine ⟨l.take (h.line - 1), l.drop (h.line - 1 + h.added.length), ?_, ?_⟩
    · have hmid : (l.drop (h.line - 1)).take h.added.length = h.lines n := by
        refine List.ext_getElem? fun i => ?_
        rw [List.getElem?_take, List.getElem?_drop]
        split
        · rename_i hi
          exact hget i hi
        · rename_i hi
          rw [List.getElem?_eq_none]
          rwa [Hunk.length_lines, ← Nat.not_lt]
      rw [← hmid, List.append_assoc, ← List.drop_drop, List.take_append_drop,
        List.take_append_drop]
    · rw [List.length_take]
      omega

theorem Hunk.moved_added (h g : Hunk α) : (h.moved g).added = g.added := by
  rw [Hunk.moved]
  split <;> rfl

theorem Hunk.moved_removed (h g : Hunk α) : (h.moved g).removed = g.removed := by
  rw [Hunk.moved]
  split <;> rfl

theorem report_length (hunks : List (Hunk α)) (h : Hunk α) :
    (report hunks h)[hunks.length]? = some h := by
  rw [report, List.getElem?_append_right (Nat.le_of_eq (by rw [List.length_map])),
    List.length_map, Nat.sub_self]
  rfl

theorem report_of_some {hunks : List (Hunk α)} (hg : hunks[n]? = some g) (h : Hunk α) :
    (report hunks h)[n]? = some (h.moved g) := by
  obtain ⟨hn, -⟩ := List.getElem?_eq_some_iff.mp hg
  rw [report, List.getElem?_append_left (by rwa [List.length_map]), List.getElem?_map, hg]
  rfl

theorem report_cases {hunks : List (Hunk α)} {h k : Hunk α} (hk : (report hunks h)[n]? = some k) :
    (∃ g, hunks[n]? = some g ∧ k = h.moved g) ∨ n = hunks.length ∧ k = h := by
  rcases Nat.lt_or_ge n hunks.length with hn | hn
  · have hg := List.getElem?_eq_getElem hn
    rw [report_of_some hg] at hk
    exact Or.inl ⟨_, hg, (Option.some.inj hk).symm⟩
  · have hlen := (List.getElem?_eq_some_iff.mp hk).1
    rw [report, List.length_append, List.length_map, List.length_singleton] at hlen
    obtain rfl : n = hunks.length := by omega
    rw [report_length] at hk
    exact Or.inr ⟨rfl, (Option.some.inj hk).symm⟩

/-! ## The origins -/

/-- The origins of the elements are different, and those in hunks are places of reported
hunks. -/
structure Tidy (l : List (Line α)) (hunks : List (Hunk α)) : Prop where
  nodup : (l.map Line.origin).Nodup
  known : ∀ x ∈ l, ∀ n i, x.origin = .hunk n i → ∃ g, hunks[n]? = some g ∧ i < g.added.length

theorem nodup_origins {f : Nat → Origin} (hf : ∀ i j, f i = f j → i = j) (l : List α) :
    ((l.mapIdx fun i x => (⟨x, f i⟩ : Line α)).map Line.origin).Nodup := by
  refine List.pairwise_iff_getElem.mpr fun i j hi hj hij heq => ?_
  rw [List.getElem_map, List.getElem_map, List.getElem_mapIdx, List.getElem_mapIdx] at heq
  exact absurd (hf i j heq) (Nat.ne_of_lt hij)

theorem isOld_of_mem_oldLines {l : List α} {x : Line α} (hx : x ∈ oldLines l) :
    x.isOld = true := by
  obtain ⟨i, hi, rfl⟩ := List.mem_mapIdx.mp hx
  rfl

theorem not_isOld {x : Line α} {n i : Nat} (h : x.origin = .hunk n i) : x.isOld = false := by
  rw [Line.isOld, h]

theorem tidy_oldLines (l : List α) : Tidy (oldLines l) ([] : List (Hunk α)) := by
  refine ⟨nodup_origins (fun _ _ => Origin.old.inj) l, ?_⟩
  intro x hx n i horigin
  exact absurd (isOld_of_mem_oldLines hx) (by rw [not_isOld horigin]; decide)

theorem Hunk.mem_mark {x : Line α} (hx : x ∈ h.mark n l) : x ∈ l ∨ x ∈ h.lines n := by
  rcases List.mem_append.mp hx with hx | hx
  · rcases List.mem_append.mp hx with hx | hx
    · exact Or.inl (List.mem_of_mem_take hx)
    · exact Or.inr hx
  · exact Or.inl (List.mem_of_mem_drop hx)

theorem Tidy.mark {hunks : List (Hunk α)} (ht : Tidy l hunks) (h : Hunk α) :
    Tidy (h.mark hunks.length l) (report hunks h) := by
  have hfresh : ∀ x ∈ l, ∀ i, x.origin ≠ .hunk hunks.length i := by
    intro x hx i heq
    obtain ⟨g, hg, -⟩ := ht.known x hx _ i heq
    exact absurd (List.getElem?_eq_some_iff.mp hg).1 (Nat.lt_irrefl _)
  constructor
  · have hsub : ((h.before l ++ h.behind l).map Line.origin).Nodup := by
      refine List.Sublist.nodup (List.Sublist.map Line.origin ?_) ht.nodup
      conv => rhs; rw [← h.before_out_behind l, List.append_assoc]
      exact List.Sublist.append_left (List.sublist_append_right _ _) _
    have hperm : ((h.mark hunks.length l).map Line.origin).Perm
        ((h.lines hunks.length ++ (h.before l ++ h.behind l)).map Line.origin) := by
      refine List.Perm.map _ ?_
      rw [Hunk.mark, List.append_assoc]
      exact List.perm_append_comm_assoc _ _ _
    refine hperm.nodup_iff.mpr ?_
    rw [List.map_append]
    refine List.nodup_append.mpr ⟨nodup_origins (fun _ _ heq => (Origin.hunk.inj heq).2) _, hsub, ?_⟩
    intro a ha b hb heq
    obtain ⟨x, hx, rfl⟩ := List.mem_map.mp ha
    obtain ⟨y, hy, rfl⟩ := List.mem_map.mp hb
    obtain ⟨i, text, -, rfl⟩ := Hunk.mem_lines.mp hx
    have hyl : y ∈ l := by
      rcases List.mem_append.mp hy with hy | hy
      · exact List.mem_of_mem_take hy
      · exact List.mem_of_mem_drop hy
    exact hfresh y hyl i heq.symm
  · intro x hx m i horigin
    rcases Hunk.mem_mark hx with hx | hx
    · obtain ⟨g, hg, hi⟩ := ht.known x hx m i horigin
      exact ⟨h.moved g, report_of_some hg h, by rwa [Hunk.moved_added]⟩
    · obtain ⟨j, text, htext, rfl⟩ := Hunk.mem_lines.mp hx
      obtain ⟨rfl, rfl⟩ := Origin.hunk.inj horigin
      exact ⟨h, report_length hunks h, (List.getElem?_eq_some_iff.mp htext).1⟩

theorem Tidy.index_unique {hunks : List (Hunk α)} (ht : Tidy l hunks) {p q : Nat} {x y : Line α}
    (hx : l[p]? = some x) (hy : l[q]? = some y) (h : x.origin = y.origin) : p = q := by
  have hget : (l.map Line.origin)[p]? = (l.map Line.origin)[q]? := by
    rw [List.getElem?_map, List.getElem?_map, hx, hy]
    exact congrArg some h
  refine (List.getElem?_inj ?_ ht.nodup).mp hget
  rw [List.length_map]
  exact (List.getElem?_eq_some_iff.mp hx).1

/-! ## Where the elements go -/

theorem Hunk.Fits.length_before (hf : h.Fits l) : (h.before l).length = h.line - 1 := by
  rw [Hunk.before, List.length_take, Nat.min_eq_left hf.inside]

theorem Hunk.Fits.mark_before (hf : h.Fits l) {p : Nat} (hp : p < h.line - 1) :
    (h.mark n l)[p]? = l[p]? := by
  rw [Hunk.mark, List.append_assoc, List.getElem?_append_left (by rwa [hf.length_before]),
    Hunk.before, List.getElem?_take, if_pos hp]

theorem Hunk.Fits.mark_lines (hf : h.Fits l) {i : Nat} (hi : i < h.added.length) :
    (h.mark n l)[h.line - 1 + i]? = (h.lines n)[i]? := by
  rw [Hunk.mark, List.append_assoc, List.getElem?_append_right (by rw [hf.length_before]; omega),
    hf.length_before, Nat.add_sub_cancel_left,
    List.getElem?_append_left (by rwa [Hunk.length_lines])]

theorem Hunk.Fits.mark_behind (hf : h.Fits l) (p : Nat) :
    (h.mark n l)[h.line - 1 + h.added.length + p]? = l[h.line - 1 + h.removed.length + p]? := by
  have hlen : (h.before l ++ h.lines n).length = h.line - 1 + h.added.length := by
    rw [List.length_append, hf.length_before, Hunk.length_lines]
  rw [Hunk.mark, List.getElem?_append_right (by rw [hlen]; omega), hlen, Nat.add_sub_cancel_left,
    Hunk.behind, List.getElem?_drop]

theorem Hunk.mem_out {p : Nat} {x : Line α} (hx : l[p]? = some x) (hlo : h.line - 1 ≤ p)
    (hhi : p < h.line - 1 + h.removed.length) : x ∈ h.out l := by
  refine List.mem_iff_getElem?.mpr ⟨p - (h.line - 1), ?_⟩
  rw [Hunk.out, List.getElem?_take, if_pos (by omega), List.getElem?_drop,
    Nat.add_sub_cancel' hlo, hx]

theorem Hunk.before_last {p : Nat} {x : Line α} (hx : l[p]? = some x) (hp : p + 1 = h.line - 1) :
    (h.before l).getLast? = some x := by
  have hlen := (List.getElem?_eq_some_iff.mp hx).1
  rw [Hunk.before, ← hp, List.getLast?_take, if_neg (by omega), Nat.add_sub_cancel, hx]
  rfl

theorem Hunk.behind_head {x : Line α} (hx : l[h.line - 1 + h.removed.length]? = some x) :
    (h.behind l).head? = some x := by
  rw [Hunk.behind, List.head?_drop, hx]

/-! ## A hunk that stays apart -/

/-- The place of an element of a reported hunk. -/
theorem Placed.get {hunks : List (Hunk α)} (hp : Placed l hunks) (hg : hunks[n]? = some g)
    (hne : g.added ≠ []) {i : Nat} (hi : i < g.added.length) :
    l[g.line - 1 + i]? = some ⟨g.added[i], .hunk n i⟩ := by
  rw [((stands_iff_getElem? hne).mp (hp n g hg)).2 i hi, Hunk.getElem?_lines hi]

theorem Placed.line_pos {hunks : List (Hunk α)} (hp : Placed l hunks) (hg : hunks[n]? = some g)
    (hne : g.added ≠ []) : 0 < g.line :=
  ((stands_iff_getElem? hne).mp (hp n g hg)).1

/-- An element of an earlier hunk is not in the place of a hunk that stays apart. -/
theorem Hunk.Apart.outside (ha : h.Apart l) {p i : Nat} {x : Line α} (hx : l[p]? = some x)
    (horigin : x.origin = .hunk n i) : p < h.line - 1 ∨ h.line - 1 + h.removed.length ≤ p := by
  by_contra hin
  have hout := ha.replaces x (Hunk.mem_out hx (by omega) (by omega))
  rw [not_isOld horigin] at hout
  exact absurd hout (by decide)

/-- An earlier hunk that starts above one that stays apart ends above it. -/
theorem Hunk.Apart.above {hunks : List (Hunk α)} (ha : h.Apart l) (hp : Placed l hunks)
    (hg : hunks[n]? = some g) (hne : g.added ≠ []) (habove : g.line < h.line) {i : Nat}
    (hi : i < g.added.length) : g.line - 1 + i < h.line - 1 := by
  by_contra hbelow
  have hpos := hp.line_pos hg hne
  -- the two elements of `g` around the place of `h`
  obtain ⟨j, hj⟩ : ∃ j, g.line - 1 + (j + 1) = h.line - 1 := ⟨h.line - 1 - (g.line - 1) - 1, by omega⟩
  have hfirst := hp.get hg hne (show j < g.added.length by omega)
  have hsecond := hp.get hg hne (show j + 1 < g.added.length by omega)
  have hbehind : l[h.line - 1 + h.removed.length]? = some ⟨g.added[j + 1], .hunk n (j + 1)⟩ := by
    rcases ha.outside hsecond rfl with hlt | hle
    · omega
    · obtain hzero : h.removed.length = 0 := by omega
      rw [hzero, Nat.add_zero, ← hj, hsecond]
  exact ha.between _ _ n j (j + 1) (Hunk.before_last hfirst (by omega)) (Hunk.behind_head hbehind)
    rfl rfl

/-- Every hunk of a report adds something. -/
def Adding (hunks : List (Hunk α)) : Prop := ∀ g ∈ hunks, g.added ≠ []

theorem Adding.report {hunks : List (Hunk α)} (ha : Adding hunks) (hne : h.added ≠ []) :
    Adding (report hunks h) := by
  intro k hk
  rcases List.mem_append.mp hk with hk | hk
  · obtain ⟨g, hg, rfl⟩ := List.mem_map.mp hk
    rw [Hunk.moved_added]
    exact ha g hg
  · obtain rfl := List.mem_singleton.mp hk
    exact hne

/-- After a hunk that stays apart the report is right again. -/
theorem Placed.mark {hunks : List (Hunk α)} (hp : Placed l hunks) (hadd : Adding hunks)
    (hf : h.Fits l) (ha : h.Apart l) : Placed (h.mark hunks.length l) (Lib.report hunks h) := by
  intro m k hk
  rcases report_cases hk with ⟨g, hg, rfl⟩ | ⟨rfl, rfl⟩
  · have hne : g.added ≠ [] := hadd g (List.mem_of_getElem? hg)
    have hpos := hp.line_pos hg hne
    have hlines : (h.moved g).lines m = g.lines m := by rw [Hunk.lines, Hunk.moved_added, Hunk.lines]
    refine (stands_iff_getElem? (by rwa [Hunk.moved_added])).mpr ?_
    rw [Hunk.moved_added, hlines]
    by_cases hbelow : h.line ≤ g.line
    · rw [Hunk.moved, if_pos hbelow]
      refine ⟨Nat.add_pos_left hpos _, fun i hi => ?_⟩
      have hget := hp.get hg hne hi
      have hstart := hf.start
      have hgrows := hf.grows
      obtain ⟨q, hq⟩ : ∃ q, g.line - 1 + i = h.line - 1 + h.removed.length + q := by
        rcases ha.outside hget rfl with hlt | hle
        · omega
        · exact ⟨_, (Nat.add_sub_cancel' hle).symm⟩
      have hplace : g.line + (h.added.length - h.removed.length) - 1 + i =
          h.line - 1 + h.added.length + q := by omega
      rw [Hunk.getElem?_lines hi, ← hget, hq]
      show (h.mark hunks.length l)[g.line + (h.added.length - h.removed.length) - 1 + i]? = _
      rw [hplace, hf.mark_behind]
    · rw [Hunk.moved, if_neg hbelow]
      refine ⟨hpos, fun i hi => ?_⟩
      rw [hf.mark_before (ha.above hp hg hne (by omega) hi), hp.get hg hne hi,
        Hunk.getElem?_lines hi]
  · exact (stands_iff_getElem? hf.adds).mpr ⟨hf.start, fun i hi => hf.mark_lines hi⟩

/-! ## A hunk that does not -/

/-- The element `i` of hunk `n` is gone. -/
def Lost (l : List (Line α)) (n i : Nat) : Prop := ∀ x ∈ l, x.origin ≠ .hunk n i

/-- The elements `i` and `i + 1` of hunk `n` do not stand together. -/
def Torn (l : List (Line α)) (n i : Nat) : Prop :=
  ∀ p x y, l[p]? = some x → l[p + 1]? = some y → x.origin = .hunk n i → y.origin ≠ .hunk n (i + 1)

/-- A reported hunk is lost in part, or torn. -/
def Broken (l : List (Line α)) (hunks : List (Hunk α)) : Prop :=
  ∃ n g i, hunks[n]? = some g ∧
    (i < g.added.length ∧ Lost l n i ∨ i + 1 < g.added.length ∧ Torn l n i)

theorem Broken.not_placed {hunks : List (Hunk α)} (hb : Broken l hunks) (hadd : Adding hunks) :
    ¬ Placed l hunks := by
  intro hp
  obtain ⟨n, g, i, hg, ⟨hi, hlost⟩ | ⟨hi, htorn⟩⟩ := hb
  · exact hlost _ (List.mem_of_getElem? (hp.get hg (hadd g (List.mem_of_getElem? hg)) hi)) rfl
  · have hne := hadd g (List.mem_of_getElem? hg)
    exact htorn _ _ _ (hp.get hg hne (Nat.lt_of_succ_lt hi)) (hp.get hg hne hi) rfl rfl

/-- A later hunk does not mend an earlier one. -/
theorem Broken.mark {hunks : List (Hunk α)} (hb : Broken l hunks) (hf : h.Fits l) :
    Broken (h.mark hunks.length l) (Lib.report hunks h) := by
  obtain ⟨n, g, i, hg, hbroken⟩ := hb
  have hn : n ≠ hunks.length := Nat.ne_of_lt (List.getElem?_eq_some_iff.mp hg).1
  refine ⟨n, h.moved g, i, report_of_some hg h, ?_⟩
  rw [Hunk.moved_added]
  refine hbroken.imp (fun ⟨hi, hlost⟩ => ⟨hi, ?_⟩) (fun ⟨hi, htorn⟩ => ⟨hi, ?_⟩)
  · intro x hx
    rcases Hunk.mem_mark hx with hx | hx
    · exact hlost x hx
    · obtain ⟨j, text, -, rfl⟩ := Hunk.mem_lines.mp hx
      exact fun heq => hn (Origin.hunk.inj heq).1.symm
  · intro p x y hx hy hxo hyo
    have hnew : ∀ {q : Nat} {z : Line α} {j : Nat}, (h.mark hunks.length l)[q]? = some z →
        z.origin = .hunk n j → q < h.line - 1 ∨ h.line - 1 + h.added.length ≤ q := by
      intro q z j hz hzo
      by_contra hin
      obtain ⟨k, rfl⟩ : ∃ k, q = h.line - 1 + k := ⟨_, (Nat.add_sub_cancel' (by omega)).symm⟩
      have hk : k < h.added.length := by omega
      rw [hf.mark_lines hk, Hunk.getElem?_lines hk] at hz
      obtain rfl := Option.some.inj hz
      exact hn (Origin.hunk.inj hzo).1.symm
    have hlen := List.length_pos_of_ne_nil hf.adds
    rcases hnew hy hyo with hlt | hle
    · rw [hf.mark_before (by omega)] at hx
      rw [hf.mark_before hlt] at hy
      exact htorn p x y hx hy hxo hyo
    · rcases hnew hx hxo with hlt' | hle'
      · omega
      · obtain ⟨q, rfl⟩ : ∃ q, p = h.line - 1 + h.added.length + q :=
          ⟨_, (Nat.add_sub_cancel' hle').symm⟩
        rw [hf.mark_behind] at hx
        rw [Nat.add_assoc _ q 1, hf.mark_behind] at hy
        exact htorn _ x y hx hy hxo hyo

theorem origin_of_not_isOld {x : Line α} (hx : ¬ x.isOld = true) : ∃ m i, x.origin = .hunk m i := by
  cases horigin : x.origin with
  | old i => exact absurd (by rw [Line.isOld, horigin]) hx
  | hunk m i => exact ⟨m, i, rfl⟩

theorem Hunk.Fits.last_before (hf : h.Fits l) {x : Line α} (hx : (h.before l).getLast? = some x) :
    ∃ p, p + 1 = h.line - 1 ∧ l[p]? = some x := by
  rw [Hunk.before, List.getLast?_take] at hx
  split at hx
  · exact absurd hx (by simp)
  · rename_i hzero
    have hin : h.line - 1 - 1 < l.length := by
      have := hf.inside
      omega
    rw [List.getElem?_eq_getElem hin] at hx
    exact ⟨h.line - 1 - 1, by omega, by rw [List.getElem?_eq_getElem hin]; exact hx⟩

/-- Replacing an element of an earlier hunk loses it. -/
theorem Tidy.lost {hunks : List (Hunk α)} (ht : Tidy l hunks) {x : Line α} {m i : Nat}
    (hx : x ∈ h.out l) (horigin : x.origin = .hunk m i) (hm : m ≠ hunks.length) :
    Lost (h.mark hunks.length l) m i := by
  have hnodup := ht.nodup
  rw [← h.before_out_behind l, List.map_append, List.map_append] at hnodup
  obtain ⟨hfront, -, hback⟩ := List.nodup_append.mp hnodup
  obtain ⟨-, -, hsplit⟩ := List.nodup_append.mp hfront
  have hxo : Line.origin x ∈ (h.out l).map Line.origin := List.mem_map_of_mem hx
  intro z hz hzo
  have heq := hzo.trans horigin.symm
  rcases List.mem_append.mp hz with hz | hz
  · rcases List.mem_append.mp hz with hz | hz
    · exact hsplit _ (List.mem_map_of_mem hz) _ hxo heq
    · obtain ⟨j, text, -, rfl⟩ := Hunk.mem_lines.mp hz
      exact hm (Origin.hunk.inj hzo).1.symm
  · exact hback _ (List.mem_append_right _ hxo) _ (List.mem_map_of_mem hz) heq.symm

/-- Adding between two elements of an earlier hunk tears it. -/
theorem Tidy.torn {hunks : List (Hunk α)} (ht : Tidy l hunks) (hf : h.Fits l) {x : Line α}
    {m i p : Nat} (hx : l[p]? = some x) (hp : p + 1 = h.line - 1) (horigin : x.origin = .hunk m i)
    (hm : m ≠ hunks.length) : Torn (h.mark hunks.length l) m i := by
  intro q y z hy hz hyo hzo
  have hxmark : (h.mark hunks.length l)[p]? = some x := by rw [hf.mark_before (by omega), hx]
  obtain rfl := (ht.mark h).index_unique hy hxmark (hyo.trans horigin.symm)
  have hfirst := hf.mark_lines (n := hunks.length) (List.length_pos_of_ne_nil hf.adds)
  rw [Nat.add_zero, ← hp, hz, Hunk.getElem?_lines (List.length_pos_of_ne_nil hf.adds)] at hfirst
  obtain rfl := Option.some.inj hfirst
  exact hm (Origin.hunk.inj hzo).1.symm

/-- A hunk that does not stay apart breaks an earlier one. -/
theorem Tidy.broken {hunks : List (Hunk α)} (ht : Tidy l hunks) (hp : Placed l hunks)
    (hadd : Adding hunks) (hf : h.Fits l) (ha : ¬ h.Apart l) :
    Broken (h.mark hunks.length l) (Lib.report hunks h) := by
  by_cases hold : ∀ x ∈ h.out l, x.isOld = true
  · have hsides : ∃ x y m i j, (h.before l).getLast? = some x ∧ (h.behind l).head? = some y ∧
        x.origin = .hunk m i ∧ y.origin = .hunk m j := by
      by_contra hnone
      exact ha ⟨hold, fun x y m i j hx hy hxo hyo => hnone ⟨x, y, m, i, j, hx, hy, hxo, hyo⟩⟩
    obtain ⟨x, y, m, i, j, hx, hy, hxo, hyo⟩ := hsides
    obtain ⟨p, hplace, hx⟩ := hf.last_before hx
    rw [Hunk.behind, List.head?_drop] at hy
    obtain ⟨g, hg, hi⟩ := ht.known x (List.mem_of_getElem? hx) m i hxo
    obtain ⟨g', hg', hj⟩ := ht.known y (List.mem_of_getElem? hy) m j hyo
    obtain rfl := Option.some.inj (hg.symm.trans hg')
    have hne := hadd g (List.mem_of_getElem? hg)
    have hpi := ht.index_unique (hp.get hg hne hi) hx hxo.symm
    have hpj := ht.index_unique (hp.get hg hne hj) hy hyo.symm
    have hzero : h.removed.length = 0 := by
      by_contra hpos
      have hnext := hp.get hg hne (show i + 1 < g.added.length by omega)
      have hold' := hold _ (Hunk.mem_out hnext (by omega) (by omega))
      exact absurd hold' (by simp [Line.isOld])
    have hm : m ≠ hunks.length := Nat.ne_of_lt (List.getElem?_eq_some_iff.mp hg).1
    refine ⟨m, h.moved g, i, report_of_some hg h, Or.inr ⟨?_, ht.torn hf hx hplace hxo hm⟩⟩
    rw [Hunk.moved_added]
    omega
  · obtain ⟨x, hx, hnot⟩ : ∃ x ∈ h.out l, ¬ x.isOld = true := by
      by_contra hnone
      exact hold fun x hx => by_contra fun hnot => hnone ⟨x, hx, hnot⟩
    obtain ⟨m, i, horigin⟩ := origin_of_not_isOld hnot
    obtain ⟨g, hg, hi⟩ := ht.known x (List.mem_of_mem_drop (List.mem_of_mem_take hx)) m i horigin
    have hm : m ≠ hunks.length := Nat.ne_of_lt (List.getElem?_eq_some_iff.mp hg).1
    refine ⟨m, h.moved g, i, report_of_some hg h, Or.inl ⟨?_, ht.lost hx horigin hm⟩⟩
    rwa [Hunk.moved_added]

/-! ## A run of hunks -/

theorem report_size (hunks : List (Hunk α)) (h : Hunk α) :
    (report hunks h).length = hunks.length + 1 := by
  rw [report, List.length_append, List.length_map, List.length_singleton]

theorem Broken.run {hs : List (Hunk α)} : ∀ {l : List (Line α)} {hunks : List (Hunk α)},
    Broken l hunks → AllFit hunks.length l hs →
      Broken (marks hunks.length l hs) (reports hunks hs) := by
  induction hs with
  | nil => exact fun hb _ => hb
  | cons h hs ih =>
      intro l hunks hb hfit
      have hnext := hfit.2
      rw [← report_size hunks h] at hnext
      have hrest := ih (hb.mark hfit.1) hnext
      rwa [report_size] at hrest

theorem Adding.run {hs : List (Hunk α)} : ∀ {l : List (Line α)} {hunks : List (Hunk α)},
    Adding hunks → AllFit hunks.length l hs → Adding (reports hunks hs) := by
  induction hs with
  | nil => exact fun ha _ => ha
  | cons h hs ih =>
      intro l hunks ha hfit
      have hnext := hfit.2
      rw [← report_size hunks h] at hnext
      exact ih (ha.report hfit.1.adds) hnext

theorem Tidy.run {hs : List (Hunk α)} : ∀ {l : List (Line α)} {hunks : List (Hunk α)},
    Tidy l hunks → Tidy (marks hunks.length l hs) (reports hunks hs) := by
  induction hs with
  | nil => exact fun ht => ht
  | cons h hs ih =>
      intro l hunks ht
      have hrest := ih (ht.mark h)
      rwa [report_size] at hrest

/-- The report of a run is right exactly when every hunk stays apart. -/
theorem placed_iff {hs : List (Hunk α)} : ∀ {l : List (Line α)} {hunks : List (Hunk α)},
    Tidy l hunks → Placed l hunks → Adding hunks → AllFit hunks.length l hs →
      (Placed (marks hunks.length l hs) (reports hunks hs) ↔ AllApart hunks.length l hs) := by
  induction hs with
  | nil => exact fun _ hp _ _ => ⟨fun _ => trivial, fun _ => hp⟩
  | cons h hs ih =>
      intro l hunks ht hp hadd hfit
      have hnext := hfit.2
      rw [← report_size hunks h] at hnext
      have hadd' := hadd.report hfit.1.adds
      by_cases ha : h.Apart l
      · have hrest := ih (ht.mark h) (hp.mark hadd hfit.1 ha) hadd' hnext
        rw [report_size] at hrest
        exact hrest.trans ⟨fun hall => ⟨ha, hall⟩, fun hall => hall.2⟩
      · have hbroken := (ht.broken hp hadd hfit.1 ha).run hnext
        have hnot := hbroken.not_placed (hadd'.run hnext)
        rw [report_size] at hnot
        exact ⟨fun hplaced => absurd hplaced hnot, fun hall => absurd hall.1 ha⟩

/-! ## What the final list holds -/

/-- An added element is in one hunk of a right report. -/
theorem Placed.covered {hunks : List (Hunk α)} (hp : Placed l hunks) (hadd : Adding hunks)
    (ht : Tidy l hunks) {p : Nat} {x : Line α} (hx : l[p]? = some x) (hnew : x.isOld = false) :
    ∃! n : Nat, ∃ g : Hunk α, hunks[n]? = some g ∧ g.line - 1 ≤ p ∧ p < g.line - 1 + g.added.length := by
  obtain ⟨m, i, horigin⟩ := origin_of_not_isOld (x := x) (by rw [hnew]; decide)
  obtain ⟨g, hg, hi⟩ := ht.known x (List.mem_of_getElem? hx) m i horigin
  have hplace := ht.index_unique (hp.get hg (hadd g (List.mem_of_getElem? hg)) hi) hx horigin.symm
  refine ⟨m, ⟨g, hg, by omega, by omega⟩, ?_⟩
  rintro n ⟨k, hk, hlo, hhi⟩
  have hget := hp.get hk (hadd k (List.mem_of_getElem? hk))
    (show p - (k.line - 1) < k.added.length by omega)
  rw [Nat.add_sub_cancel' hlo, hx] at hget
  obtain rfl := Option.some.inj hget
  exact (Origin.hunk.inj horigin).1

/-- The old elements that stay are in their order. -/
theorem marks_old {hs : List (Hunk α)} : ∀ (n : Nat) (l : List (Line α)),
    ((marks n l hs).filter Line.isOld).Sublist (l.filter Line.isOld) := by
  induction hs with
  | nil => exact fun _ _ => List.Sublist.refl _
  | cons h hs ih =>
      intro n l
      refine (ih (n + 1) (h.mark n l)).trans ?_
      have hnone : (h.lines n).filter Line.isOld = [] := by
        refine List.filter_eq_nil_iff.mpr fun x hx => ?_
        obtain ⟨i, text, -, rfl⟩ := Hunk.mem_lines.mp hx
        exact fun hc => absurd hc (by simp [Line.isOld])
      have hmark : (h.mark n l).filter Line.isOld = (h.before l ++ h.behind l).filter Line.isOld := by
        rw [Hunk.mark, List.filter_append, List.filter_append, hnone, List.append_nil,
          List.filter_append]
      rw [hmark]
      refine List.Sublist.filter Line.isOld ?_
      conv => rhs; rw [← h.before_out_behind l, List.append_assoc]
      exact List.Sublist.append_left (List.sublist_append_right _ _) _

theorem filter_mem_of_sublist [DecidableEq α] {s l : List α} (h : s.Sublist l) (hnodup : l.Nodup) :
    l.filter (fun x => x ∈ s) = s := by
  induction h with
  | slnil => rfl
  | @cons s l x h ih =>
      obtain ⟨hx, hl⟩ := List.nodup_cons.mp hnodup
      rw [List.filter_cons_of_neg (by simpa using fun hmem => hx (h.subset hmem)), ih hl]
  | @cons_cons s l x h ih =>
      obtain ⟨hx, hl⟩ := List.nodup_cons.mp hnodup
      rw [List.filter_cons_of_pos (by simp)]
      refine congrArg (x :: ·) (Eq.trans (List.filter_congr fun y hy => ?_) (ih hl))
      have hne : y ≠ x := fun heq => hx (heq ▸ hy)
      simp [hne]

/-- The elements of the first list that stay, read in its order, are in the final list in
this order. -/
theorem filter_mem_marks [DecidableEq α] (n : Nat) (l : List α) (hs : List (Hunk α)) :
    ((oldLines l).filter (fun x => x ∈ marks n (oldLines l) hs)).Sublist
      (marks n (oldLines l) hs) := by
  have hall : (oldLines l).filter Line.isOld = oldLines l :=
    List.filter_eq_self.mpr fun _ hx => isOld_of_mem_oldLines hx
  have hsub : ((marks n (oldLines l) hs).filter Line.isOld).Sublist
      ((oldLines l).filter Line.isOld) := marks_old n (oldLines l)
  rw [hall] at hsub
  have hsame : (oldLines l).filter (fun x => x ∈ marks n (oldLines l) hs) =
      (oldLines l).filter (fun x => x ∈ (marks n (oldLines l) hs).filter Line.isOld) := by
    refine List.filter_congr fun x hx => ?_
    simp [List.mem_filter, isOld_of_mem_oldLines hx]
  have hnodup : (oldLines l).Nodup :=
    (List.pairwise_map.mp (tidy_oldLines l).nodup).imp fun hne heq => hne (congrArg _ heq)
  rw [hsame, filter_mem_of_sublist hsub hnodup]
  exact List.filter_sublist

/-- An element stays, or a hunk replaces it. -/
theorem mem_marks_or_replaced {hs : List (Hunk α)} {x : Line α} : ∀ {n : Nat} {l : List (Line α)},
    x ∈ l → x ∈ marks n l hs ∨ Replaced x n l hs := by
  induction hs with
  | nil => exact fun hx => Or.inl hx
  | cons h hs ih =>
      intro n l hx
      have hsplit : x ∈ h.before l ++ h.out l ++ h.behind l := by rwa [h.before_out_behind]
      have hcases : x ∈ h.out l ∨ x ∈ h.mark n l := by
        rcases List.mem_append.mp hsplit with hx | hx
        · rcases List.mem_append.mp hx with hx | hx
          · exact Or.inr (List.mem_append_left _ (List.mem_append_left _ hx))
          · exact Or.inl hx
        · exact Or.inr (List.mem_append_right _ hx)
      rcases hcases with hx | hx
      · exact Or.inr (Or.inl hx)
      · rcases ih hx with hx | hx
        · exact Or.inl hx
        · exact Or.inr (Or.inr hx)

/-- An old element that is not there does not come back. -/
theorem not_mem_marks {hs : List (Hunk α)} {x : Line α} (hold : x.isOld = true) :
    ∀ {n : Nat} {l : List (Line α)}, x ∉ l → x ∉ marks n l hs := by
  induction hs with
  | nil => exact fun hx => hx
  | cons h hs ih =>
      intro n l hx
      refine ih fun hmark => ?_
      rcases Hunk.mem_mark hmark with hmem | hmem
      · exact hx hmem
      · obtain ⟨i, text, -, rfl⟩ := Hunk.mem_lines.mp hmem
        exact absurd hold (by simp [Line.isOld])

theorem Replaced.not_mem {hs : List (Hunk α)} {x : Line α} (hold : x.isOld = true) :
    ∀ {l : List (Line α)} {hunks : List (Hunk α)}, Tidy l hunks →
      Replaced x hunks.length l hs → x ∉ marks hunks.length l hs := by
  induction hs with
  | nil => exact fun _ hr => absurd hr not_false
  | cons h hs ih =>
      intro l hunks ht hr
      rcases hr with hout | hr
      · show x ∉ marks (hunks.length + 1) (h.mark hunks.length l) hs
        refine not_mem_marks hold fun hmark => ?_
        have hnodup := ht.nodup
        rw [← h.before_out_behind l, List.map_append, List.map_append] at hnodup
        obtain ⟨hfront, -, hback⟩ := List.nodup_append.mp hnodup
        obtain ⟨-, -, hsplit⟩ := List.nodup_append.mp hfront
        have hxo : Line.origin x ∈ (h.out l).map Line.origin := List.mem_map_of_mem hout
        rcases List.mem_append.mp hmark with hx | hx
        · rcases List.mem_append.mp hx with hx | hx
          · exact hsplit _ (List.mem_map_of_mem hx) _ hxo rfl
          · obtain ⟨i, text, -, rfl⟩ := Hunk.mem_lines.mp hx
            exact absurd hold (by simp [Line.isOld])
        · exact hback _ (List.mem_append_right _ hxo) _ (List.mem_map_of_mem hx) rfl
      · rw [← report_size hunks h] at hr
        have hrest := ih (ht.mark h) hr
        rwa [report_size] at hrest

/-- An element of the final list was there, or a hunk adds it. -/
theorem mem_marks {hs : List (Hunk α)} {x : Line α} : ∀ {n : Nat} {l : List (Line α)},
    x ∈ marks n l hs → x ∈ l ∨ ∃ h ∈ hs, x.text ∈ h.added := by
  induction hs with
  | nil => exact fun hx => Or.inl hx
  | cons h hs ih =>
      intro n l hx
      rcases ih hx with hx | ⟨g, hg, hx⟩
      · rcases Hunk.mem_mark hx with hx | hx
        · exact Or.inl hx
        · obtain ⟨i, text, htext, rfl⟩ := Hunk.mem_lines.mp hx
          exact Or.inr ⟨h, List.mem_cons_self, List.mem_of_getElem? htext⟩
      · exact Or.inr ⟨g, List.mem_cons_of_mem _ hg, hx⟩

theorem marks_ne_nil {hs : List (Hunk α)} : ∀ {n : Nat} {l : List (Line α)}, AllFit n l hs →
    l ≠ [] ∨ hs ≠ [] → marks n l hs ≠ [] := by
  induction hs with
  | nil =>
      intro n l _ hne
      exact hne.resolve_right fun h => h rfl
  | cons h hs ih =>
      intro n l hfit _
      refine ih hfit.2 (Or.inl fun hnil => ?_)
      have hlines : h.lines n = [] := (List.append_eq_nil_iff.mp (List.append_eq_nil_iff.mp hnil).1).2
      have hlen := congrArg List.length hlines
      rw [Hunk.length_lines] at hlen
      exact hfit.1.adds (List.eq_nil_of_length_eq_zero hlen)

/-- What a hunk removes is reported. -/
theorem exists_reported {hs : List (Hunk α)} : ∀ {hunks : List (Hunk α)} {h : Hunk α},
    h ∈ hunks ∨ h ∈ hs → ∃ g ∈ reports hunks hs, g.removed = h.removed := by
  induction hs with
  | nil => exact fun h => ⟨_, h.resolve_right List.not_mem_nil, rfl⟩
  | cons k hs ih =>
      intro hunks h hmem
      have hlater : h ∈ hs ∨ ∃ g ∈ report hunks k, g.removed = h.removed := by
        rcases hmem with hmem | hmem
        · exact Or.inr ⟨k.moved h, List.mem_append_left _ (List.mem_map_of_mem hmem),
            Hunk.moved_removed k h⟩
        · rcases List.mem_cons.mp hmem with rfl | hmem
          · exact Or.inr ⟨h, List.mem_append_right _ List.mem_cons_self, rfl⟩
          · exact Or.inl hmem
      rcases hlater with hmem | ⟨g, hg, hsame⟩
      · exact ih (Or.inr hmem)
      · obtain ⟨g', hg', hsame'⟩ := ih (Or.inl hg)
        exact ⟨g', hg', hsame'.trans hsame⟩

end

end Llmenv.Lib
