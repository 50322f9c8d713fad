/-
# `Llmenv.Merge.Precedence` — the value of the highest precedence

`src/merge/precedence.rs`: the mergers of scalars and of maps, which fail when two
contributors of one precedence differ (`highestPrecedence_ok_iff`,
`resolvePerKey_ok_iff`), and the merger of native fragments, which lays them over
one another in ascending precedence.
-/
import Llmenv.Lib.Ranked
import Llmenv.Lib.Result
import Llmenv.Merge.Data

namespace Llmenv.Merge

open Llmenv.Lib Llmenv.Lib.Ranked

variable {P : Payload → Type}

/-- Why `HOME` cannot be used. -/
inductive HomeError where
  | unset
  | notUnicode
deriving DecidableEq

/-- How a merge fails; of a conflict, the field and the two contributors. -/
inductive MergeError where
  | conflict (what first second : String)
  | indexPath (raw : String) (reason : HomeError)
deriving DecidableEq

/-- A contributor with the value it sets. -/
abbrev Entry (P : Payload → Type) (V : Type) := CapabilityContributor P × V

def Entry.precedence {V : Type} (e : Entry P V) : Precedence := e.1.precedence

section

variable {V : Type} [DecidableEq V]

/-- Fail when two entries at the same precedence hold different values; `firstAt` has the first
entry of each precedence. -/
def checkSamePrecedenceTies (what : String) :
    List (Entry P V) → List (Precedence × Entry P V) → Except MergeError Unit
  | [], _ => .ok ()
  | (c, value) :: entries, firstAt =>
      match Fields.get c.precedence firstAt with
      | none =>
          checkSamePrecedenceTies what entries (Fields.insert c.precedence (c, value) firstAt)
      | some (first, firstValue) =>
          if firstValue ≠ value then .error (.conflict what first.name c.name)
          else checkSamePrecedenceTies what entries firstAt

/-- The contributors that set a field, with their values. -/
def entriesOf (contributors : List (CapabilityContributor P)) (pick : Capabilities P → Option V) :
    List (Entry P V) :=
  contributors.filterMap fun c => (pick c.capabilities).map fun v => (c, v)

/-- Resolve a scalar field. -/
def highestPrecedence (contributors : List (CapabilityContributor P)) (fieldName : String)
    (pick : Capabilities P → Option V) : Except MergeError (Option V) := do
  let entries := entriesOf contributors pick
  checkSamePrecedenceTies fieldName entries []
  .ok ((maxByKey Entry.precedence entries).map Prod.snd)

/-- The entries of each key, in the order of the contributors. -/
def byKey (contributors : List (CapabilityContributor P))
    (pick : Capabilities P → SortedMap String V) : List (String × List (Entry P V)) :=
  contributors.foldl (fun acc c =>
    (pick c.capabilities).items.foldl (fun acc e =>
      Fields.insert e.1 ((Fields.get e.1 acc).getD [] ++ [(c, e.2)]) acc) acc) []

/-- What a key of a map is called in errors. -/
def keyLabel (label key : String) : String := label ++ " '" ++ key ++ "'"

/-- The loop over the keys. -/
def resolveKeys (label : String) :
    List (String × List (Entry P V)) → SortedMap String V → Except MergeError (SortedMap String V)
  | [], result => .ok result
  | (key, entries) :: rest, result => do
      checkSamePrecedenceTies (keyLabel label key) entries []
      match maxByKey Entry.precedence entries with
      | some e => resolveKeys label rest (result.insert key e.2)
      | none => resolveKeys label rest result

/-- Merge one map field. -/
def resolvePerKey (contributors : List (CapabilityContributor P)) (label : String)
    (pick : Capabilities P → SortedMap String V) : Except MergeError (SortedMap String V) :=
  resolveKeys label (byKey contributors pick) .empty

/-! ## Ties -/

/-- The check passes exactly when the entries agree, with the first ones and with each other. -/
theorem checkSamePrecedenceTies_ok_iff {what : String} {entries : List (Entry P V)}
    {firstAt : List (Precedence × Entry P V)} :
    checkSamePrecedenceTies what entries firstAt = .ok () ↔
      (∀ e ∈ entries, ∀ first, Fields.get e.precedence firstAt = some first → first.2 = e.2) ∧
        Agree Entry.precedence Prod.snd entries := by
  induction entries generalizing firstAt with
  | nil => simp [checkSamePrecedenceTies, agree_nil]
  | cons e entries ih =>
      obtain ⟨c, value⟩ := e
      rw [checkSamePrecedenceTies, agree_cons, List.forall_mem_cons]
      show (match Fields.get c.precedence firstAt with
        | none => _
        | some (first, firstValue) => _) = _ ↔ ((∀ first, Fields.get c.precedence firstAt =
          some first → first.2 = value) ∧ _) ∧ (∀ b ∈ entries, c.precedence = b.precedence →
            value = b.2) ∧ _
      cases hget : Fields.get c.precedence firstAt with
      | none =>
          show checkSamePrecedenceTies what entries _ = _ ↔ _
          rw [ih]
          constructor
          · rintro ⟨hfirst, hagree⟩
            refine ⟨⟨by simp, fun b hb first hb' => ?_⟩, fun b hb heq => ?_, hagree⟩
            · refine hfirst b hb first ?_
              have hne : c.precedence ≠ b.precedence := by
                intro heq
                rw [← heq, hget] at hb'
                exact absurd hb' (by simp)
              rw [Fields.get_insert, if_neg hne, hb']
            · exact hfirst b hb (c, value) (by rw [Fields.get_insert, if_pos heq])
          · rintro ⟨⟨-, hfirst⟩, hhead, hagree⟩
            refine ⟨fun b hb first hb' => ?_, hagree⟩
            rw [Fields.get_insert] at hb'
            split at hb'
            · rename_i heq
              obtain rfl := Option.some.inj hb'
              exact hhead b hb heq
            · exact hfirst b hb first hb'
      | some first =>
          obtain ⟨first, firstValue⟩ := first
          show (if firstValue ≠ value then _ else _) = _ ↔ _
          by_cases hne : firstValue ≠ value
          · rw [if_pos hne]
            constructor
            · intro h
              exact absurd h (by simp)
            · rintro ⟨⟨hhead, -⟩, -⟩
              exact absurd (hhead (first, firstValue) rfl) hne
          · rw [if_neg hne, ih]
            have heq : firstValue = value := not_not.mp hne
            constructor
            · rintro ⟨hfirst, hagree⟩
              refine ⟨⟨by simp [heq], hfirst⟩, fun b hb hrank => ?_, hagree⟩
              rw [← heq]
              exact hfirst b hb (first, firstValue) (hrank ▸ hget)
            · rintro ⟨⟨-, hfirst⟩, -, hagree⟩
              exact ⟨hfirst, hagree⟩

theorem checkSamePrecedenceTies_nil {what : String} {entries : List (Entry P V)} :
    checkSamePrecedenceTies what entries [] = .ok () ↔
      Agree Entry.precedence Prod.snd entries := by
  rw [checkSamePrecedenceTies_ok_iff]
  simp

/-! ## Scalars -/

/-- No two contributors of one precedence set a field to different values. -/
def NoTie (contributors : List (CapabilityContributor P)) (pick : Capabilities P → Option V) :
    Prop :=
  ∀ a ∈ contributors, ∀ b ∈ contributors, a.precedence = b.precedence →
    ∀ v w, pick a.capabilities = some v → pick b.capabilities = some w → v = w

/-- The value of a contributor of the highest precedence that sets the field. -/
def Highest (contributors : List (CapabilityContributor P)) (pick : Capabilities P → Option V) :
    Option V → Prop
  | none => ∀ c ∈ contributors, pick c.capabilities = none
  | some v => ∃ c ∈ contributors, pick c.capabilities = some v ∧
      ∀ d ∈ contributors, pick d.capabilities ≠ none → d.precedence ≤ c.precedence

omit [DecidableEq V] in
theorem mem_entriesOf {contributors : List (CapabilityContributor P)}
    {pick : Capabilities P → Option V} {e : Entry P V} :
    e ∈ entriesOf contributors pick ↔ e.1 ∈ contributors ∧ pick e.1.capabilities = some e.2 := by
  obtain ⟨c, v⟩ := e
  rw [entriesOf, List.mem_filterMap]
  constructor
  · rintro ⟨d, hd, heq⟩
    obtain ⟨w, hw, heq⟩ := Option.map_eq_some_iff.mp heq
    obtain ⟨rfl, rfl⟩ := Prod.mk.inj heq
    exact ⟨hd, hw⟩
  · rintro ⟨hc, hv⟩
    exact ⟨c, hc, Option.map_eq_some_iff.mpr ⟨v, hv, rfl⟩⟩

omit [DecidableEq V] in
theorem agree_entriesOf {contributors : List (CapabilityContributor P)}
    {pick : Capabilities P → Option V} :
    Agree Entry.precedence Prod.snd (entriesOf contributors pick) ↔ NoTie contributors pick := by
  constructor
  · intro h a ha b hb hrank v w hv hw
    exact h (a, v) (mem_entriesOf.mpr ⟨ha, hv⟩) (b, w) (mem_entriesOf.mpr ⟨hb, hw⟩) hrank
  · intro h a ha b hb hrank
    obtain ⟨ha, hv⟩ := mem_entriesOf.mp ha
    obtain ⟨hb, hw⟩ := mem_entriesOf.mp hb
    exact h a.1 ha b.1 hb hrank a.2 b.2 hv hw

omit [DecidableEq V] in
theorem isHighest_entriesOf {contributors : List (CapabilityContributor P)}
    {pick : Capabilities P → Option V} {v : Option V} :
    IsHighest Entry.precedence Prod.snd (entriesOf contributors pick) v ↔
      Highest contributors pick v := by
  cases v with
  | none =>
      show entriesOf contributors pick = [] ↔ _
      rw [entriesOf, List.filterMap_eq_nil_iff]
      simp [Highest]
  | some v =>
      constructor
      · rintro ⟨e, he, rfl, hle⟩
        obtain ⟨hc, hv⟩ := mem_entriesOf.mp he
        refine ⟨e.1, hc, hv, fun d hd hne => ?_⟩
        obtain ⟨w, hw⟩ := Option.ne_none_iff_exists'.mp hne
        exact hle (d, w) (mem_entriesOf.mpr ⟨hd, hw⟩)
      · rintro ⟨c, hc, hv, hle⟩
        refine ⟨(c, v), mem_entriesOf.mpr ⟨hc, hv⟩, rfl, fun e he => ?_⟩
        obtain ⟨hd, hw⟩ := mem_entriesOf.mp he
        exact hle e.1 hd (by simp [hw])

/-- A scalar is resolved exactly when there is no tie, to the highest value. -/
theorem highestPrecedence_ok_iff {contributors : List (CapabilityContributor P)}
    {fieldName : String} {pick : Capabilities P → Option V} {v : Option V} :
    highestPrecedence contributors fieldName pick = .ok v ↔
      NoTie contributors pick ∧ Highest contributors pick v := by
  rw [← agree_entriesOf, ← isHighest_entriesOf]
  have hmax := (isHighest_maxByKey Entry.precedence (entriesOf contributors pick)).map
    Prod.snd
  constructor
  · intro h
    obtain ⟨hcheck, hv⟩ := bind_unit_eq_ok h
    exact ⟨checkSamePrecedenceTies_nil.mp hcheck, Except.ok.inj hv ▸ hmax⟩
  · rintro ⟨hagree, hv⟩
    rw [highestPrecedence, checkSamePrecedenceTies_nil.mpr hagree,
      IsHighest.unique hagree hv hmax]
    rfl

theorem highestPrecedence_succeeds {contributors : List (CapabilityContributor P)}
    (fieldName : String) {pick : Capabilities P → Option V} (h : NoTie contributors pick) :
    ∃ v, highestPrecedence contributors fieldName pick = .ok v :=
  ⟨_, highestPrecedence_ok_iff.mpr ⟨h, isHighest_entriesOf.mp
    ((isHighest_maxByKey Entry.precedence (entriesOf contributors pick)).map Prod.snd)⟩⟩

end

/-! ## The order of the contributors -/

section

variable {V : Type} {pick : Capabilities P → Option V} {cs cs' : List (CapabilityContributor P)}

theorem entriesOf_perm (hp : cs.Perm cs') : (entriesOf cs pick).Perm (entriesOf cs' pick) :=
  hp.filterMap _

theorem noTie_perm (hp : cs.Perm cs') : NoTie cs pick ↔ NoTie cs' pick :=
  agree_entriesOf.symm.trans ((agree_perm (entriesOf_perm hp)).trans agree_entriesOf)

theorem highest_perm (hp : cs.Perm cs') {v : Option V} (h : Highest cs pick v) :
    Highest cs' pick v :=
  isHighest_entriesOf.mp ((isHighest_entriesOf.mpr h).perm (entriesOf_perm hp))

/-- Without a tie there is one highest value. -/
theorem highest_unique (hnotie : NoTie cs pick) {v w : Option V} (hv : Highest cs pick v)
    (hw : Highest cs pick w) : v = w :=
  IsHighest.unique (agree_entriesOf.mpr hnotie) (isHighest_entriesOf.mpr hv)
    (isHighest_entriesOf.mpr hw)

/-- Which value is the highest depends only on who sets what at which precedence. -/
theorem Highest.congr
    (h : ∀ p v, (∃ c ∈ cs, c.precedence = p ∧ pick c.capabilities = some v) ↔
      ∃ c ∈ cs', c.precedence = p ∧ pick c.capabilities = some v)
    {v : Option V} (hv : Highest cs pick v) : Highest cs' pick v := by
  cases v with
  | none =>
      intro c hc
      cases hpick : pick c.capabilities with
      | none => rfl
      | some w =>
          obtain ⟨d, hd, -, hw⟩ := (h c.precedence w).mpr ⟨c, hc, rfl, hpick⟩
          rw [hv d hd] at hw
          exact absurd hw (by simp)
  | some v =>
      obtain ⟨c, hc, hpick, hle⟩ := hv
      obtain ⟨c', hc', hprec, hpick'⟩ := (h c.precedence v).mp ⟨c, hc, rfl, hpick⟩
      refine ⟨c', hc', hpick', fun d hd hne => ?_⟩
      obtain ⟨w, hw⟩ := Option.ne_none_iff_exists'.mp hne
      obtain ⟨d', hd', hdprec, hw'⟩ := (h d.precedence w).mpr ⟨d, hd, rfl, hw⟩
      rw [hprec, ← hdprec]
      exact hle d' hd' (by simp [hw'])

end

section

variable {V : Type} [DecidableEq V]

/-! ## Maps -/

/-- What a source has under one key of a map. -/
def pickKey (key : String) (pick : Capabilities P → SortedMap String V) (c : Capabilities P) :
    Option V := Fields.get key (pick c).items

/-- Entries behind the old ones, if there are any. -/
def addEntries {α : Type} (old : Option (List α)) : List α → Option (List α)
  | [] => old
  | e :: es => some (old.getD [] ++ e :: es)

theorem addEntries_append {α : Type} (old : Option (List α)) (as bs : List α) :
    addEntries (addEntries old as) bs = addEntries old (as ++ bs) := by
  cases as with
  | nil => rfl
  | cons a as =>
      cases bs with
      | nil => simp [addEntries]
      | cons b bs => simp [addEntries]

omit [DecidableEq V] in
/-- Under each key, the entries of the scalar that it is. -/
theorem get_byKey (contributors : List (CapabilityContributor P))
    (pick : Capabilities P → SortedMap String V) (key : String) :
    Fields.get key (byKey contributors pick) =
      addEntries none (entriesOf contributors (pickKey key pick)) := by
  have hacc : ∀ acc : List (String × List (Entry P V)),
      Fields.get key (contributors.foldl (fun acc c =>
        (pick c.capabilities).items.foldl (fun acc e =>
          Fields.insert e.1 ((Fields.get e.1 acc).getD [] ++ [(c, e.2)]) acc) acc) acc) =
        addEntries (Fields.get key acc) (entriesOf contributors (pickKey key pick)) := by
    induction contributors with
    | nil =>
        intro acc
        rfl
    | cons c contributors ih =>
        intro acc
        have hstep := Fields.get_foldl_insert
          (f := fun _ old v => old.getD [] ++ [((c, v) : Entry P V)])
          (pick c.capabilities).sorted key acc
        have hcons : entriesOf (c :: contributors) (pickKey key pick) =
            ((pickKey key pick c.capabilities).map fun v => (c, v)).toList ++
              entriesOf contributors (pickKey key pick) := by
          rw [entriesOf, List.filterMap_cons, entriesOf]
          cases pickKey key pick c.capabilities <;> rfl
        rw [List.foldl_cons, ih, hcons, ← addEntries_append]
        refine congrArg (addEntries · _) (hstep.trans ?_)
        rw [pickKey]
        cases Fields.get key (pick c.capabilities).items <;> rfl
  rw [byKey, hacc]
  rfl

omit [DecidableEq V] in
theorem sorted_byKey (contributors : List (CapabilityContributor P))
    (pick : Capabilities P → SortedMap String V) :
    Fields.Sorted (byKey contributors pick) := by
  refine List.foldlRecOn contributors _ Fields.sorted_nil fun acc hacc c _ => ?_
  exact List.foldlRecOn _ _ hacc fun acc hacc e _ => Fields.sorted_insert hacc

/-- What the loop over the keys has found when it is done. -/
theorem resolveKeys_ok {label : String} {entries : List (String × List (Entry P V))}
    (hs : Fields.Sorted entries) {result m : SortedMap String V}
    (h : resolveKeys label entries result = .ok m) (key : String) :
    match Fields.get key entries with
    | none => Fields.get key m.items = Fields.get key result.items
    | some es => Agree Entry.precedence Prod.snd es ∧ Fields.get key m.items =
        ((maxByKey Entry.precedence es).map Prod.snd).or (Fields.get key result.items) := by
  induction entries generalizing result with
  | nil =>
      obtain rfl := Except.ok.inj h
      rfl
  | cons e entries ih =>
      obtain ⟨j, es⟩ := e
      obtain ⟨hlt, hrest⟩ := Fields.sorted_cons.mp hs
      obtain ⟨hcheck, h⟩ := bind_unit_eq_ok h
      have hagree := checkSamePrecedenceTies_nil.mp hcheck
      -- The round has put the highest value under its own key and nothing else anywhere.
      obtain ⟨next, hnext, hget⟩ : ∃ next, resolveKeys label entries next = .ok m ∧
          ∀ k, Fields.get k next.items = if j = k then
            ((maxByKey Entry.precedence es).map Prod.snd).or (Fields.get k result.items)
            else Fields.get k result.items := by
        cases hmax : maxByKey Entry.precedence es with
        | none =>
            rw [hmax] at h
            refine ⟨result, h, fun k => ?_⟩
            simp
        | some e =>
            rw [hmax] at h
            refine ⟨result.insert j e.2, h, fun k => ?_⟩
            exact (Fields.get_insert j k e.2 result.items).trans (by simp)
      have hih := ih hrest hnext
      rw [Fields.get_cons]
      by_cases hj : j = key
      · subst hj
        have hnone : Fields.get j entries = none :=
          Fields.get_eq_none.mpr fun e he => (hlt e he).ne'
        rw [hnone] at hih
        rw [if_pos rfl]
        exact ⟨hagree, hih.trans ((hget j).trans (if_pos rfl))⟩
      · rw [if_neg hj]
        rw [hget key, if_neg hj] at hih
        exact hih

/-- Without a tie under any key the loop comes to its end. -/
theorem resolveKeys_succeeds {label : String} {entries : List (String × List (Entry P V))}
    (h : ∀ e ∈ entries, Agree Entry.precedence Prod.snd e.2) (result : SortedMap String V) :
    ∃ m, resolveKeys label entries result = .ok m := by
  induction entries generalizing result with
  | nil => exact ⟨result, rfl⟩
  | cons e entries ih =>
      obtain ⟨j, es⟩ := e
      obtain ⟨hes, hrest⟩ := List.forall_mem_cons.mp h
      rw [resolveKeys, checkSamePrecedenceTies_nil.mpr hes]
      cases hmax : maxByKey Entry.precedence es with
      | none => exact ih hrest result
      | some e => exact ih hrest (result.insert j e.2)

theorem resolvePerKey_succeeds {contributors : List (CapabilityContributor P)} (label : String)
    {pick : Capabilities P → SortedMap String V}
    (h : ∀ key, NoTie contributors (pickKey key pick)) :
    ∃ m, resolvePerKey contributors label pick = .ok m := by
  refine resolveKeys_succeeds (fun e he => ?_) SortedMap.empty
  have hget := Fields.get_of_mem (sorted_byKey contributors pick) he
  rw [get_byKey] at hget
  have hagree := agree_entriesOf.mpr (h e.1)
  cases hentries : entriesOf contributors (pickKey e.1 pick) with
  | nil =>
      rw [hentries] at hget
      exact absurd hget (by simp [addEntries])
  | cons a as =>
      rw [hentries] at hget hagree
      exact Option.some.inj hget ▸ hagree

/-- A map is resolved exactly when there is no tie under any key, to the highest values. -/
theorem resolvePerKey_ok_iff {contributors : List (CapabilityContributor P)} {label : String}
    {pick : Capabilities P → SortedMap String V} {m : SortedMap String V} :
    resolvePerKey contributors label pick = .ok m ↔
      ∀ key, NoTie contributors (pickKey key pick) ∧
        Highest contributors (pickKey key pick) (Fields.get key m.items) := by
  have hgot : ∀ {m : SortedMap String V}, resolvePerKey contributors label pick = .ok m →
      ∀ key, NoTie contributors (pickKey key pick) ∧
        Highest contributors (pickKey key pick) (Fields.get key m.items) := by
    intro m h key
    have hkey := resolveKeys_ok (sorted_byKey contributors pick) h key
    rw [get_byKey] at hkey
    have hmax := (isHighest_maxByKey Entry.precedence
      (entriesOf contributors (pickKey key pick))).map Prod.snd
    rw [← agree_entriesOf, ← isHighest_entriesOf]
    cases hentries : entriesOf contributors (pickKey key pick) with
    | nil =>
        rw [hentries] at hkey
        exact ⟨agree_nil _ _, hkey ▸ rfl⟩
    | cons e es =>
        rw [hentries] at hkey hmax
        obtain ⟨hagree, hget⟩ := hkey
        refine ⟨hagree, ?_⟩
        rw [hget]
        show IsHighest _ _ _ (Option.or _ none)
        rw [Option.or_none]
        exact hmax
  refine ⟨hgot, fun h => ?_⟩
  obtain ⟨m', hm'⟩ := resolvePerKey_succeeds label fun key => (h key).1
  obtain ⟨items, sorted⟩ := m
  obtain ⟨items', sorted'⟩ := m'
  have heq : items' = items := by
    refine Fields.eq_of_get sorted' sorted fun key => ?_
    obtain ⟨hnotie, hhigh⟩ := h key
    obtain ⟨-, hhigh'⟩ := hgot hm' key
    exact highest_unique hnotie hhigh' hhigh
  subst heq
  exact hm'

end

/-! ## Native fragments -/

/-- `merge_yaml` on well-formed values. -/
def Value.merge (dst src : Value) : Value := ⟨mergeYaml dst.1 src.1, wf_mergeYaml dst.2 src.2⟩

/-- `normalize_yaml` on a well-formed value. -/
def Value.normalize (y : Value) : Value := ⟨normalizeYaml y.1, wf_normalizeYaml y.2⟩

/-- A fragment over what was merged before it. -/
def mergeFragment (old : Option Value) (fragment : Value) : Value :=
  match old with
  | some existing => existing.merge fragment
  | none => fragment.normalize

/-- Merge one of the native maps: the fragments of each engine in ascending precedence. -/
def mergeNativeFeature (contributors : List (CapabilityContributor P))
    (select : Capabilities P → NativeMap) : NativeMap :=
  let ordered := sortByKey CapabilityContributor.precedence contributors
  ordered.foldl (fun merged c =>
    (select c.capabilities).items.foldl (fun merged e =>
      merged.insert e.1 (mergeFragment (Fields.get e.1 merged.items) e.2)) merged) .empty

/-- The same for one engine: `fragment` is what a contributor has for it. -/
def mergeFragments (ordered : List (CapabilityContributor P))
    (fragment : Capabilities P → Option Value) (old : Option Value) : Option Value :=
  ordered.foldl (fun old c =>
    match fragment c.capabilities with
    | none => old
    | some f => some (mergeFragment old f)) old

theorem get_mergeNativeFeature (contributors : List (CapabilityContributor P))
    (select : Capabilities P → NativeMap) (engine : String) :
    Fields.get engine (mergeNativeFeature contributors select).items =
      mergeFragments (sortByKey CapabilityContributor.precedence contributors)
        (pickKey engine select) none := by
  have hacc : ∀ (ordered : List (CapabilityContributor P)) (merged : NativeMap),
      Fields.get engine (ordered.foldl (fun merged c =>
        (select c.capabilities).items.foldl (fun merged e =>
          merged.insert e.1 (mergeFragment (Fields.get e.1 merged.items) e.2)) merged)
        merged).items =
        mergeFragments ordered (pickKey engine select) (Fields.get engine merged.items) := by
    intro ordered
    induction ordered with
    | nil =>
        intro merged
        rfl
    | cons c ordered ih =>
        intro merged
        have hstep := Fields.look_foldl_step
          (fun k (m : NativeMap) => Fields.get k m.items)
          (f := fun m j v => m.insert j (mergeFragment (Fields.get j m.items) v))
          (g := fun _ v old => some (mergeFragment old v))
          (fun m j v k => Fields.get_insert j k _ m.items)
          (select c.capabilities).sorted engine merged
        rw [List.foldl_cons, ih, hstep]
        show _ = mergeFragments ordered (pickKey engine select)
          (match pickKey engine select c.capabilities with
            | none => Fields.get engine merged.items
            | some f => some (mergeFragment (Fields.get engine merged.items) f))
        rw [pickKey]
        cases Fields.get engine (select c.capabilities).items <;> rfl
  exact hacc _ SortedMap.empty

end Llmenv.Merge
