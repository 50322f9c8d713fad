/-
# `Llmenv.Lib.Ranked` — values with a rank

Entries that each have a rank and a value; the value of the highest rank counts.
Where no two entries of one rank differ (`Agree`), which entry of that rank is
taken makes no difference (`IsHighest.unique`), and neither does the order of the
entries (`IsHighest.perm`).

A loop over entries in the order of their ranks does not depend on their order
either, if its steps commute within a rank (`foldl_eq_of_perm`), and a sort by a
comparison does not where no two entries are equal for it
(`insertionSort_eq_of_perm`).
-/
import Mathlib.Data.List.Sort
import Mathlib.Order.Lattice

namespace Llmenv.Lib.Ranked

variable {α ρ β : Type}

/-- Entries of one rank have one value. -/
def Agree (rank : α → ρ) (value : α → β) (l : List α) : Prop :=
  ∀ a ∈ l, ∀ b ∈ l, rank a = rank b → value a = value b

theorem agree_nil (rank : α → ρ) (value : α → β) : Agree rank value [] :=
  fun _ ha => absurd ha List.not_mem_nil

theorem agree_cons {rank : α → ρ} {value : α → β} {a : α} {l : List α} :
    Agree rank value (a :: l) ↔
      (∀ b ∈ l, rank a = rank b → value a = value b) ∧ Agree rank value l := by
  constructor
  · intro h
    exact ⟨fun b hb => h a List.mem_cons_self b (List.mem_cons_of_mem _ hb),
      fun b hb c hc => h b (List.mem_cons_of_mem _ hb) c (List.mem_cons_of_mem _ hc)⟩
  · rintro ⟨hhead, htail⟩ b hb c hc heq
    rcases List.mem_cons.mp hb with rfl | hbl
    · rcases List.mem_cons.mp hc with rfl | hcl
      · rfl
      · exact hhead c hcl heq
    · rcases List.mem_cons.mp hc with rfl | hcl
      · exact (hhead b hbl heq.symm).symm
      · exact htail b hbl c hcl heq

theorem Agree.perm {rank : α → ρ} {value : α → β} {l l' : List α} (hp : l.Perm l')
    (h : Agree rank value l) : Agree rank value l' :=
  fun a ha b hb => h a (hp.mem_iff.mpr ha) b (hp.mem_iff.mpr hb)

theorem agree_perm {rank : α → ρ} {value : α → β} {l l' : List α} (hp : l.Perm l') :
    Agree rank value l ↔ Agree rank value l' := ⟨Agree.perm hp, Agree.perm hp.symm⟩

/-! ## The highest entry -/

variable [LinearOrder ρ]

/-- The last of the entries with the highest rank. -/
def maxByKey (rank : α → ρ) : List α → Option α
  | [] => none
  | a :: l =>
      match maxByKey rank l with
      | none => some a
      | some b => if rank b < rank a then some a else some b

/-- `v` is the value of an entry of the highest rank, and there is none without entries. -/
def IsHighest (rank : α → ρ) (value : α → β) (l : List α) : Option β → Prop
  | none => l = []
  | some v => ∃ a ∈ l, value a = v ∧ ∀ b ∈ l, rank b ≤ rank a

theorem isHighest_maxByKey (rank : α → ρ) (l : List α) :
    IsHighest rank id l (maxByKey rank l) := by
  induction l with
  | nil => exact rfl
  | cons a l ih =>
      rw [maxByKey]
      cases hmax : maxByKey rank l with
      | none =>
          rw [hmax] at ih
          obtain rfl : l = [] := ih
          exact ⟨a, List.mem_cons_self, rfl, by simp⟩
      | some b =>
          rw [hmax] at ih
          obtain ⟨c, hc, rfl, hle⟩ := ih
          show IsHighest rank id (a :: l) (if rank c < rank a then some a else some c)
          split
          · rename_i hlt
            refine ⟨a, List.mem_cons_self, rfl, List.forall_mem_cons.mpr ⟨le_rfl, ?_⟩⟩
            exact fun d hd => (hle d hd).trans hlt.le
          · rename_i hnlt
            exact ⟨c, List.mem_cons_of_mem _ hc, rfl,
              List.forall_mem_cons.mpr ⟨not_lt.mp hnlt, hle⟩⟩

theorem IsHighest.map {rank : α → ρ} (value : α → β) {l : List α} {best : Option α}
    (h : IsHighest rank id l best) : IsHighest rank value l (best.map value) := by
  cases best with
  | none => exact h
  | some a =>
      obtain ⟨b, hb, rfl, hle⟩ := h
      exact ⟨b, hb, rfl, hle⟩

theorem IsHighest.perm {rank : α → ρ} {value : α → β} {l l' : List α} (hp : l.Perm l')
    {v : Option β} (h : IsHighest rank value l v) : IsHighest rank value l' v := by
  cases v with
  | none =>
      obtain rfl : l = [] := h
      exact hp.symm.eq_nil
  | some v =>
      obtain ⟨a, ha, hv, hle⟩ := h
      exact ⟨a, hp.mem_iff.mp ha, hv, fun b hb => hle b (hp.mem_iff.mpr hb)⟩

/-- Where the entries agree there is one highest value. -/
theorem IsHighest.unique {rank : α → ρ} {value : α → β} {l : List α} (hagree : Agree rank value l)
    {v w : Option β} (hv : IsHighest rank value l v) (hw : IsHighest rank value l w) : v = w := by
  cases v with
  | none =>
      obtain rfl : l = [] := hv
      cases w with
      | none => rfl
      | some w =>
          obtain ⟨a, ha, -⟩ := hw
          exact absurd ha List.not_mem_nil
  | some v =>
      obtain ⟨a, ha, rfl, hlea⟩ := hv
      cases w with
      | none =>
          obtain rfl : l = [] := hw
          exact absurd ha List.not_mem_nil
      | some w =>
          obtain ⟨b, hb, rfl, hleb⟩ := hw
          exact congrArg some (hagree a ha b hb (le_antisymm (hleb a ha) (hlea b hb)))

/-! ## Loops in the order of the ranks -/

/-- A step that commutes with all steps of `u` can be taken before them. -/
theorem foldl_move {σ : Type} {f : σ → α → σ} {a : α} {u : List α}
    (h : ∀ b ∈ u, ∀ z, f (f z b) a = f (f z a) b) (v : List α) (z : σ) :
    (u ++ a :: v).foldl f z = (a :: (u ++ v)).foldl f z := by
  induction u generalizing z with
  | nil => rfl
  | cons b u ih =>
      obtain ⟨hb, hu⟩ := List.forall_mem_cons.mp h
      rw [List.cons_append, List.foldl_cons, ih hu, List.foldl_cons, hb]
      rfl

/-- Two lists of the same entries in the order of their ranks, and steps that commute
within a rank. -/
theorem foldl_eq_of_perm {σ : Type} {f : σ → α → σ} {rank : α → ρ} {l l' : List α}
    (hp : l.Perm l') (hl : l.Pairwise (fun a b => rank a ≤ rank b))
    (hl' : l'.Pairwise (fun a b => rank a ≤ rank b))
    (hcomm : ∀ a ∈ l, ∀ b ∈ l, rank a = rank b → ∀ z, f (f z a) b = f (f z b) a) (z : σ) :
    l.foldl f z = l'.foldl f z := by
  induction l generalizing l' z with
  | nil => rw [hp.symm.eq_nil]
  | cons a l ih =>
      obtain ⟨hle, hsorted⟩ := List.pairwise_cons.mp hl
      obtain ⟨u, v, rfl⟩ := List.append_of_mem (hp.mem_iff.mp List.mem_cons_self)
      have hrest : l.Perm (u ++ v) := (List.perm_cons a).mp (hp.trans List.perm_middle)
      have hmem : ∀ b ∈ u, b ∈ l := fun b hb => hrest.mem_iff.mpr (List.mem_append_left v hb)
      -- What stands before `a` on the other side has its rank.
      have hrank : ∀ b ∈ u, rank b = rank a := by
        intro b hb
        refine le_antisymm ?_ (hle b (hmem b hb))
        exact (List.pairwise_append.mp hl').2.2 b hb a List.mem_cons_self
      have hmove : ∀ b ∈ u, ∀ z, f (f z b) a = f (f z a) b := fun b hb =>
        hcomm b (List.mem_cons_of_mem _ (hmem b hb)) a List.mem_cons_self (hrank b hb)
      have hsorted' : (u ++ v).Pairwise (fun a b => rank a ≤ rank b) :=
        hl'.sublist ((List.sublist_cons_self a v).append_left u)
      rw [foldl_move hmove, List.foldl_cons, List.foldl_cons]
      exact ih hrest hsorted hsorted' (fun b hb c hc =>
        hcomm b (List.mem_cons_of_mem _ hb) c (List.mem_cons_of_mem _ hc)) (f z a)

/-- The order of `sort_by_key`: by rank, and of one rank as they came. -/
def sortByKey (rank : α → ρ) (l : List α) : List α := l.mergeSort (fun a b => rank a ≤ rank b)

theorem sortByKey_perm (rank : α → ρ) (l : List α) : (sortByKey rank l).Perm l :=
  List.mergeSort_perm l _

theorem mem_sortByKey {rank : α → ρ} {l : List α} {a : α} : a ∈ sortByKey rank l ↔ a ∈ l :=
  (sortByKey_perm rank l).mem_iff

theorem pairwise_sortByKey (rank : α → ρ) (l : List α) :
    (sortByKey rank l).Pairwise (fun a b => rank a ≤ rank b) := by
  have h : (sortByKey rank l).Pairwise (fun a b => decide (rank a ≤ rank b) = true) := by
    refine List.pairwise_mergeSort (fun a b c hab hbc => ?_) (fun a b => ?_) l
    · simpa using le_trans (by simpa using hab) (by simpa using hbc)
    · simpa using le_total (rank a) (rank b)
  exact h.imp fun hab => by simpa using hab

/-- Two entries of one rank stay as they are. -/
theorem sortByKey_pair {rank : α → ρ} {a b : α} (h : rank a = rank b) :
    sortByKey rank [a, b] = [a, b] := by
  refine List.mergeSort_of_pairwise ?_
  simp [h]

/-- The sort is stable: the entries of one rank stay in their order. -/
theorem filter_sortByKey (rank : α → ρ) (l : List α) (r : ρ) :
    (sortByKey rank l).filter (fun a => rank a = r) = l.filter (fun a => rank a = r) := by
  have hrank : ∀ a ∈ l.filter (fun a => rank a = r), rank a = r := fun a ha => by
    simpa using (List.mem_filter.mp ha).2
  have hpairwise : (l.filter (fun a => rank a = r)).Pairwise
      (fun a b => decide (rank a ≤ rank b) = true) := by
    refine List.pairwise_of_forall_mem_list fun a ha b hb => ?_
    simp [hrank a ha, hrank b hb]
  have hsub : (l.filter (fun a => rank a = r)).Sublist (sortByKey rank l) := by
    refine List.sublist_mergeSort (fun a b c hab hbc => ?_) (fun a b => ?_) hpairwise
      List.filter_sublist
    · simpa using le_trans (by simpa using hab) (by simpa using hbc)
    · simpa using le_total (rank a) (rank b)
  have hfilter := hsub.filter (fun a => decide (rank a = r))
  simp only [List.filter_filter, Bool.and_self] at hfilter
  exact (hfilter.eq_of_length ((sortByKey_perm rank l).filter _).length_eq.symm).symm

/-- The entries of the lowest rank stand first. -/
theorem filter_append_of_lowest {rank : α → ρ} {l : List α} {r : ρ}
    (hsorted : l.Pairwise (fun a b => rank a ≤ rank b)) (hle : ∀ a ∈ l, r ≤ rank a) :
    l = l.filter (fun a => rank a = r) ++ l.filter (fun a => rank a ≠ r) := by
  induction l with
  | nil => rfl
  | cons a l ih =>
      obtain ⟨hhead, htail⟩ := List.pairwise_cons.mp hsorted
      obtain ⟨hra, hrl⟩ := List.forall_mem_cons.mp hle
      by_cases ha : rank a = r
      · simp only [List.filter_cons, ha, decide_true, if_true, ne_eq, not_true_eq_false,
          decide_false, Bool.false_eq_true, if_false, List.cons_append]
        exact congrArg (a :: ·) (ih htail hrl)
      · have hlt : r < rank a := lt_of_le_of_ne hra (Ne.symm ha)
        have hnone : (a :: l).filter (fun a => rank a = r) = [] := by
          refine List.filter_eq_nil_iff.mpr (List.forall_mem_cons.mpr ⟨by simpa using ha, ?_⟩)
          intro b hb
          simpa using (hlt.trans_le (hhead b hb)).ne'
        have hall : (a :: l).filter (fun a => rank a ≠ r) = a :: l := by
          refine List.filter_eq_self.mpr (List.forall_mem_cons.mpr ⟨by simpa using ha, ?_⟩)
          intro b hb
          simpa using (hlt.trans_le (hhead b hb)).ne'
        rw [hnone, hall, List.nil_append]

/-- Entries in the order of their ranks are their tiers, one after the other. -/
theorem eq_flatMap_tiers {rank : α → ρ} {ranks : List ρ} (hranks : ranks.Pairwise (· < ·))
    {l : List α} (hsorted : l.Pairwise (fun a b => rank a ≤ rank b))
    (hmem : ∀ a ∈ l, rank a ∈ ranks) :
    l = ranks.flatMap fun r => l.filter (fun a => rank a = r) := by
  induction ranks generalizing l with
  | nil =>
      cases l with
      | nil => rfl
      | cons a l => exact absurd (hmem a List.mem_cons_self) List.not_mem_nil
  | cons r ranks ih =>
      obtain ⟨hlt, hranks⟩ := List.pairwise_cons.mp hranks
      have hle : ∀ a ∈ l, r ≤ rank a := by
        intro a ha
        rcases List.mem_cons.mp (hmem a ha) with heq | hin
        · exact heq.ge
        · exact (hlt _ hin).le
      have hrest := ih hranks (l := l.filter (fun a => rank a ≠ r)) (hsorted.filter _) (by
        intro a ha
        obtain ⟨ha, hne⟩ := List.mem_filter.mp ha
        exact (List.mem_cons.mp (hmem a ha)).resolve_left (by simpa using hne))
      have htiers : ∀ r' ∈ ranks, (l.filter (fun a => rank a ≠ r)).filter (fun a => rank a = r') =
          l.filter (fun a => rank a = r') := by
        intro r' hr'
        rw [List.filter_filter]
        refine List.filter_congr fun a _ => ?_
        by_cases ha : rank a = r'
        · simp [ha, (hlt r' hr').ne']
        · simp [ha]
      calc l = l.filter (fun a => rank a = r) ++ l.filter (fun a => rank a ≠ r) :=
            filter_append_of_lowest hsorted hle
        _ = l.filter (fun a => rank a = r) ++
              ranks.flatMap fun r' => (l.filter (fun a => rank a ≠ r)).filter
                (fun a => rank a = r') := by rw [← hrest]
        _ = l.filter (fun a => rank a = r) ++
              ranks.flatMap fun r' => l.filter (fun a => rank a = r') := by
            rw [List.flatMap_congr htiers]
        _ = (r :: ranks).flatMap fun r' => l.filter (fun a => rank a = r') := rfl

theorem sortByKey_eq_flatMap {rank : α → ρ} {ranks : List ρ} (hranks : ranks.Pairwise (· < ·))
    {l : List α} (hmem : ∀ a ∈ l, rank a ∈ ranks) :
    sortByKey rank l = ranks.flatMap fun r => l.filter (fun a => rank a = r) := by
  rw [eq_flatMap_tiers hranks (pairwise_sortByKey rank l) fun a ha =>
    hmem a (mem_sortByKey.mp ha)]
  exact List.flatMap_congr fun r _ => filter_sortByKey rank l r

/-! ### Sorting by a comparison -/

theorem pairwise_insertionSort (cmp : α → α → Ordering) [Std.TransCmp cmp] (l : List α) :
    (l.insertionSort fun a b => cmp a b ≠ .gt).Pairwise (fun a b => cmp a b ≠ .gt) := by
  have htotal : Std.Total (fun a b => cmp a b ≠ .gt) := by
    refine ⟨fun a b => ?_⟩
    rw [ne_eq, ne_eq, Std.OrientedCmp.gt_iff_lt (a := b)]
    cases cmp a b with
    | lt => exact Or.inl (by decide)
    | eq => exact Or.inl (by decide)
    | gt => exact Or.inr (by decide)
  have htrans : IsTrans α (fun a b => cmp a b ≠ .gt) := by
    refine ⟨fun a b c hab hbc => ?_⟩
    rw [ne_eq, Ordering.ne_gt_iff_isLE] at hab hbc ⊢
    exact Std.TransCmp.isLE_trans hab hbc
  exact List.pairwise_insertionSort _ l

/-- A sort without ties does not see the order in which the entries came. -/
theorem insertionSort_eq_of_perm {cmp : α → α → Ordering} [Std.TransCmp cmp] {l l' : List α}
    (hp : l.Perm l') (hties : ∀ a ∈ l, ∀ b ∈ l, cmp a b = .eq → a = b) :
    l.insertionSort (fun a b => cmp a b ≠ .gt) = l'.insertionSort (fun a b => cmp a b ≠ .gt) := by
  refine List.Perm.eq_of_pairwise ?_ (pairwise_insertionSort cmp l) (pairwise_insertionSort cmp l')
    ((List.perm_insertionSort _ l).trans (hp.trans (List.perm_insertionSort _ l').symm))
  intro a b ha hb hab hba
  refine hties a ((List.mem_insertionSort _).mp ha) b
    (hp.mem_iff.mpr ((List.mem_insertionSort _).mp hb)) ?_
  rw [ne_eq, Std.OrientedCmp.gt_iff_lt] at hba
  cases h : cmp a b with
  | lt => exact absurd h hba
  | eq => rfl
  | gt => exact absurd h hab

end Llmenv.Lib.Ranked
