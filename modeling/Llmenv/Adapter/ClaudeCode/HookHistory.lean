/-
# `Llmenv.Adapter.ClaudeCode.HookHistory` — the hooks of a second render

A folder has the hooks of one render, in some order, and with empty lists for
events of earlier ones.  The next render takes out what llmenv no longer writes
and merges the new hooks in.  Event by event (`freshEvent_reconciled`) the result
is what the new render alone writes, in some order, under two conditions: a value
of the old render that is no list is absorbed by the new one, and no entry loses a
part of its handlers to the purge of disabled plugins.
-/
import Llmenv.Adapter.ClaudeCode.Reconcile

namespace Llmenv.Adapter.ClaudeCode

open Llmenv.Lib Llmenv.Manifest

/-! ## Equal hooks -/

/-- Equal values of an event, up to the order of the entries; an empty list is as
good as nothing. -/
inductive SameEvent : Option Json → Option Json → Prop
  | same (v : Option Json) : SameEvent v v
  | order {entries entries' : List Json} : entries.Perm entries' →
      SameEvent (some (.arr entries)) (some (.arr entries'))
  | leftover : SameEvent (some (.arr [])) none

/-- Equal hooks, event by event. -/
inductive SameHooks : Json → Json → Prop
  | same (v : Json) : SameHooks v v
  | events {hooks hooks' : List (String × Json)} :
      (∀ event, SameEvent (Fields.get event hooks) (Fields.get event hooks')) →
      SameHooks (.obj hooks) (.obj hooks')

theorem SameHooks.obj {hooks : List (String × Json)} {j : Json} (h : SameHooks (.obj hooks) j) :
    ∃ hooks', j = .obj hooks' ∧
      ∀ event, SameEvent (Fields.get event hooks) (Fields.get event hooks') := by
  cases h with
  | same => exact ⟨hooks, rfl, fun event => .same _⟩
  | events hsame => exact ⟨_, rfl, hsame⟩

theorem SameHooks.eq_of_not_obj {v j : Json} (h : SameHooks v j) (hv : v.asObject? = none) :
    v = j := by
  cases h with
  | same => rfl
  | events hsame => exact absurd hv (by simp [Json.asObject?])

/-! ## The purges, event by event -/

/-- What the first purge leaves of an event. -/
def staleValue (fresh : Json) (event : String) (prev old : Option Json) : Option Json :=
  match prev, old with
  | some (.arr prevArr), some (.arr entries) => some (.arr (entries.filter
      (fun e => normalizedHook e ∉ staleEntries fresh event prevArr)))
  | _, old => old

theorem get_purgeStaleOwnedHooks (fresh : Json) (hooks : List (String × Json))
    {prev : List (String × Json)} (hprev : Fields.Sorted prev) :
    ∃ left, purgeStaleOwnedHooks (.obj hooks) (some (.obj prev)) fresh = .obj left ∧
      ∀ event, Fields.get event left =
        staleValue fresh event (Fields.get event prev) (Fields.get event hooks) := by
  refine ⟨_, rfl, fun event => ?_⟩
  have hstep : ∀ acc j v k, Fields.get k (purgeEvent fresh acc j v) =
      if j = k then staleValue fresh j (some v) (Fields.get j acc) else Fields.get k acc := by
    intro acc j v k
    unfold purgeEvent staleValue
    split
    · rename_i prevArr entries hentries
      simp [hentries, Fields.get_insert]
    · rename_i hno
      split
      · rename_i hjk
        subst hjk
        split
        · rename_i prevArr entries hv hentries
          exact absurd hentries (hno _ _ (Option.some.inj hv))
        · rfl
      · rfl
  rw [Fields.get_foldl_step hstep hprev]
  cases Fields.get event prev with
  | some v => rfl
  | none => rfl

/-- What the second purge leaves of an event. -/
def purgedValue (host : Host) (roots : List String) (v : Json) : Json :=
  if roots.isEmpty then v else purgeEntries host roots v

theorem get_purgeHooksFromDisabledPlugins (host : Host) (hooks paths : List (String × Json))
    (enabled : Option Json) :
    ∃ left, purgeHooksFromDisabledPlugins host (.obj hooks) (some (.obj paths)) enabled =
        .obj left ∧
      ∀ event, Fields.get event left =
        (Fields.get event hooks).map (purgedValue host (disabledRoots host paths enabled)) := by
  simp only [purgeHooksFromDisabledPlugins]
  by_cases hroots : (disabledRoots host paths enabled).isEmpty
  · refine ⟨hooks, by rw [if_pos hroots], fun event => ?_⟩
    have hid : purgedValue host (disabledRoots host paths enabled) = id := by
      funext v
      simp [purgedValue, hroots]
    rw [hid, Option.map_id]
    rfl
  · refine ⟨_, by rw [if_neg hroots], fun event => ?_⟩
    have hpurge : purgedValue host (disabledRoots host paths enabled) =
        purgeEntries host (disabledRoots host paths enabled) := by
      funext v
      simp [purgedValue, hroots]
    rw [Fields.get_mapValues, hpurge]

/-- A value that is no list is left alone. -/
theorem purgedValue_not_arr {host : Host} {roots : List String} {v : Json}
    (h : v.asArray? = none) : purgedValue host roots v = v := by
  unfold purgedValue purgeEntries
  split
  · rfl
  · split
    · exact absurd h (by simp [Json.asArray?])
    · rfl

/-! ## One event -/

theorem normalizedHook_of_normal {entry : Json} (h : Normal entry) : normalizedHook entry = entry :=
  stripJsonNullsDepth_of_normal h 0

/-- What is left of the old entries of an event is among the new ones. -/
theorem mem_of_left {host : Host} {roots : List String} {fresh : Json} {event : String}
    {entries prev new left : List Json}
    (hnew : entriesAt fresh event = new) (hperm : entries.Perm prev)
    (hprev : ∀ e ∈ prev, Normal e) (hnewNormal : ∀ e ∈ new, Normal e)
    (hhandlers : ∀ e left, e ∈ prev → e ∈ new → purgeEntry host roots e = some left → left ∈ new)
    (hleft : purgedValue host roots (.arr (entries.filter
      (fun e => normalizedHook e ∉ staleEntries fresh event prev))) = .arr left) :
    ∀ e ∈ left, e ∈ new := by
  have hkept : ∀ e ∈ entries.filter (fun e => normalizedHook e ∉ staleEntries fresh event prev),
      e ∈ prev ∧ e ∈ new := by
    intro e he
    obtain ⟨hmem, hstale⟩ := List.mem_filter.mp he
    have hmem := hperm.mem_iff.mp hmem
    refine ⟨hmem, ?_⟩
    by_contra hno
    refine absurd hstale ?_
    rw [normalizedHook_of_normal (hprev e hmem), staleEntries, hnew]
    simp only [decide_not, Bool.not_eq_eq_eq_not, Bool.not_true, decide_eq_false_iff_not, not_not]
    refine List.mem_filter.mpr ⟨?_, ?_⟩
    · exact List.mem_map.mpr ⟨e, hmem, normalizedHook_of_normal (hprev e hmem)⟩
    · simp only [Bool.not_eq_eq_eq_not, Bool.not_true, decide_eq_false_iff_not]
      intro hin
      obtain ⟨e', he', heq⟩ := List.mem_map.mp hin
      rw [normalizedHook_of_normal (hnewNormal e' he')] at heq
      exact hno (heq ▸ he')
  intro e he
  unfold purgedValue at hleft
  split at hleft
  · obtain rfl := Json.arr.inj hleft
    exact (hkept e he).2
  · obtain rfl := Json.arr.inj hleft
    obtain ⟨x, hx, hpurged⟩ := List.mem_filterMap.mp he
    obtain ⟨hxprev, hxnew⟩ := hkept x hx
    exact hhandlers x e hxprev hxnew hpurged

/-- Entries that are there already only change the order. -/
theorem mergeJson_arr_perm {left new : List Json} (hleft : ∀ e ∈ left, e ∈ new)
    (hnew : Normal (.arr new)) :
    ∃ merged, mergeJson (.arr left) (.arr new) = .arr merged ∧ merged.Perm new := by
  cases hnew with
  | arr hnodup hitems =>
      have hall : ∀ e ∈ left ++ new, Normal e := by
        intro e he
        rcases List.mem_append.mp he with he | he
        · exact hitems e (hleft e he)
        · exact hitems e he
      have hid : normalizeItems (left ++ new) = left ++ new := by
        rw [normalizeItems_eq_map, map_normalizeJson_of_normal hall]
      refine ⟨dedup (left ++ new), by rw [mergeJson, hid], ?_⟩
      refine (List.perm_ext_iff_of_nodup (nodup_dedup _) hnodup).mpr fun e => ?_
      rw [mem_dedup, List.mem_append]
      exact ⟨fun h => h.elim (hleft e) id, Or.inr⟩

theorem SameEvent.arr {entries : List Json} {v : Option Json}
    (h : SameEvent (some (.arr entries)) v) :
    (∃ prev, v = some (.arr prev) ∧ entries.Perm prev) ∨ v = none ∧ entries = [] := by
  cases h with
  | same => exact Or.inl ⟨entries, rfl, .refl _⟩
  | order hperm => exact Or.inl ⟨_, rfl, hperm⟩
  | leftover => exact Or.inr ⟨rfl, rfl⟩

theorem SameEvent.eq_of_not_arr {o v : Option Json} (h : SameEvent o v)
    (ho : ∀ entries, o ≠ some (.arr entries)) : o = v := by
  cases h with
  | same => rfl
  | order hperm => exact absurd rfl (ho _)
  | leftover => exact absurd rfl (ho _)

/-- The entries of an event after both purges, among the new ones. -/
theorem left_of_arr {host : Host} {roots : List String} {fresh : Json} {event : String}
    {entries : List Json} {v : Option Json} (hsame : SameEvent (some (.arr entries)) v)
    (hnormal : ∀ x, v = some x → Normal x)
    (hnew : ∀ e ∈ entriesAt fresh event, Normal e)
    (hhandlers : ∀ prev e left, v = some (.arr prev) → e ∈ prev →
      e ∈ entriesAt fresh event → purgeEntry host roots e = some left →
      left ∈ entriesAt fresh event) :
    ∃ left, (staleValue fresh event v (some (.arr entries))).map (purgedValue host roots) =
        some (.arr left) ∧
      ∀ e ∈ left, e ∈ entriesAt fresh event := by
  have harr : ∀ l, ∃ left, purgedValue host roots (.arr l) = .arr left := by
    intro l
    unfold purgedValue
    split
    · exact ⟨l, rfl⟩
    · exact ⟨_, rfl⟩
  rcases hsame.arr with ⟨prev, rfl, hperm⟩ | ⟨rfl, rfl⟩
  · obtain ⟨left, hleft⟩ := harr (entries.filter
      (fun e => normalizedHook e ∉ staleEntries fresh event prev))
    have hprev : ∀ e ∈ prev, Normal e := by
      cases hnormal _ rfl with
      | arr _ hitems => exact hitems
    refine ⟨left, ?_, ?_⟩
    · rw [← hleft]
      rfl
    · exact mem_of_left rfl hperm hprev hnew (fun e left => hhandlers prev e left rfl) hleft
  · refine ⟨[], ?_, by simp⟩
    unfold purgedValue purgeEntries
    simp [staleValue]

/-- The value `r` of an event is the fresh one, and needs no cleaning. -/
structure FreshEvent (fresh r : Option Json) : Prop where
  same : SameEvent r fresh
  clean : ∀ x, r = some x → Normal x ∧ x ≠ .null

/-- The cleaning at the end of a reconcile leaves it alone. -/
theorem FreshEvent.settle {fresh r : Option Json} (h : FreshEvent fresh r) :
    (r.bind fun v => if v = .null then none else some (stripJsonNullsDepth v 1)).map
      dedupEntries = r := by
  cases r with
  | none => rfl
  | some x =>
      obtain ⟨hx, hnull⟩ := h.clean x rfl
      simp [hnull, stripJsonNullsDepth_of_normal hx, dedupEntries_of_normal hx]

/-- Over entries that are all fresh the fresh list is merged. -/
theorem freshEvent_of_list {left : List Json} {w : Option Json}
    (hw : ∀ x, w = some x → Normal x ∧ x ≠ .null)
    (hleft : ∀ e ∈ left, e ∈ (w.bind Json.asArray?).getD []) :
    FreshEvent w (mergeOption (some (.arr left)) w) := by
  cases w with
  | none =>
      have hnil : left = [] :=
        List.eq_nil_iff_forall_not_mem.mpr fun e he => absurd (hleft e he) (by simp)
      subst hnil
      refine ⟨.leftover, ?_⟩
      intro x hx
      exact Option.some.inj hx ▸ ⟨.arr List.nodup_nil (by simp), by simp⟩
  | some w =>
      obtain ⟨hnormal, hnull⟩ := hw w rfl
      cases w with
      | arr new =>
          have hmem : ∀ e ∈ left, e ∈ new := by
            intro e he
            simpa [Json.asArray?] using hleft e he
          obtain ⟨merged, hmerged, hperm⟩ := mergeJson_arr_perm hmem hnormal
          rw [mergeOption_some, mergeValue, hmerged]
          refine ⟨.order hperm, ?_⟩
          intro x hx
          refine Option.some.inj hx ▸ ⟨?_, by simp⟩
          exact hmerged ▸ normal_mergeJson_arr left (.arr new)
      | _ =>
          rw [mergeOption_some, mergeValue, mergeJson, normalizeJson_of_normal hnormal]
          · exact ⟨.same _, fun x hx => Option.some.inj hx ▸ ⟨hnormal, hnull⟩⟩
          all_goals simp

/-- Over a value that it absorbs the fresh one is merged. -/
theorem freshEvent_of_absorbs {v w : Option Json} (hv : ∀ x, v = some x → Normal x)
    (hw : ∀ x, w = some x → Normal x ∧ x ≠ .null)
    (habsorbs : ∀ x, v = some x → ∃ y, w = some y ∧ Absorbs x y) :
    FreshEvent w (mergeOption v w) := by
  cases v with
  | none =>
      cases w with
      | none => exact ⟨.same _, fun x hx => absurd hx (by simp)⟩
      | some w =>
          obtain ⟨hnormal, hnull⟩ := hw w rfl
          rw [mergeOption_some, mergeValue, if_neg hnull, normalizeJson_of_normal hnormal]
          exact ⟨.same _, hw⟩
  | some x =>
      obtain ⟨y, rfl, hxy⟩ := habsorbs x rfl
      rw [Absorbs, normalizeJson_of_normal (hv x rfl), normalizeJson_of_normal (hw y rfl).1] at hxy
      rw [mergeOption_some, mergeValue, hxy]
      exact ⟨.same _, hw⟩

/-- One event after the purges and the merge is the one of the new render. -/
theorem freshEvent_reconciled (host : Host) (roots : List String) (fresh : Json) (event : String)
    {o v : Option Json} (hsame : SameEvent o v) (hnormal : ∀ x, v = some x → Normal x)
    (hfresh : ∀ x, fresh.get? event = some x → Normal x ∧ x ≠ .null)
    (hvalues : ∀ x, v = some x → x.asArray? = none →
      ∃ w, fresh.get? event = some w ∧ Absorbs x w)
    (hhandlers : ∀ prev new e left, v = some (.arr prev) → fresh.get? event = some (.arr new) →
      e ∈ prev → e ∈ new → purgeEntry host roots e = some left → left ∈ new) :
    FreshEvent (fresh.get? event)
      (mergeOption ((staleValue fresh event v o).map (purgedValue host roots))
        (fresh.get? event)) := by
  by_cases harr : ∃ entries, o = some (.arr entries)
  · obtain ⟨entries, rfl⟩ := harr
    have hnew : ∀ e ∈ entriesAt fresh event,
        ∃ new, fresh.get? event = some (.arr new) ∧ entriesAt fresh event = new := by
      intro e he
      cases hw : fresh.get? event with
      | none => exact absurd he (by simp [entriesAt, hw])
      | some w =>
          cases w with
          | arr new => exact ⟨new, rfl, by simp [entriesAt, hw, Json.asArray?]⟩
          | _ => exact absurd he (by simp [entriesAt, hw, Json.asArray?])
    have hnewNormal : ∀ e ∈ entriesAt fresh event, Normal e := by
      intro e he
      obtain ⟨new, hw, hat⟩ := hnew e he
      cases (hfresh _ hw).1 with
      | arr _ hitems => exact hitems e (hat ▸ he)
    have hkept : ∀ prev e left, v = some (.arr prev) → e ∈ prev → e ∈ entriesAt fresh event →
        purgeEntry host roots e = some left → left ∈ entriesAt fresh event := by
      intro prev e left hv he hin hpurged
      obtain ⟨new, hw, hat⟩ := hnew e hin
      rw [hat] at hin ⊢
      exact hhandlers prev new e left hv hw he hin hpurged
    obtain ⟨left, hleft, hmem⟩ := left_of_arr hsame hnormal hnewNormal hkept
    rw [hleft]
    exact freshEvent_of_list hfresh hmem
  · -- What is no list is as the previous render wrote it, and absorbed.
    obtain rfl := hsame.eq_of_not_arr fun entries h => harr ⟨entries, h⟩
    have hno : ∀ x, o = some x → x.asArray? = none := by
      intro x hx
      cases x with
      | arr entries => exact absurd ⟨entries, hx⟩ harr
      | _ => rfl
    have hstale : (staleValue fresh event o o).map (purgedValue host roots) = o := by
      cases o with
      | none => rfl
      | some x =>
          cases x with
          | arr entries => exact absurd ⟨entries, rfl⟩ harr
          | _ => exact congrArg some (purgedValue_not_arr rfl)
    rw [hstale]
    exact freshEvent_of_absorbs hnormal hfresh fun x hx => hvalues x hx (hno x hx)

/-! ## All hooks -/

/-- What the next hooks have to keep of the previous ones, so that the folder ends
up with the next ones.  Of two lists in the place of all hooks the second absorbs
the first; a value of an event that is no list is absorbed by the one of that
event; and an entry of both renders is not cut down to another one when handlers
of the folders are taken out. -/
structure HooksCarried (host : Host) (roots : List String) (hooks hooks' : Json) : Prop where
  lists : ∀ l l', hooks = .arr l → hooks' = .arr l' → Absorbs hooks hooks'
  values : ∀ fields event v, hooks' = .obj fields → hooks.get? event = some v →
    v.asArray? = none → ∃ w, hooks'.get? event = some w ∧ Absorbs v w
  handlers : ∀ event prev new entry left, hooks.get? event = some (.arr prev) →
    hooks'.get? event = some (.arr new) → entry ∈ prev → entry ∈ new →
    purgeEntry host roots entry = some left → left ∈ new

theorem Normal.get? {hooks v : Json} {event : String} (h : Normal hooks)
    (hv : hooks.get? event = some v) : Normal v ∧ v ≠ .null := by
  cases h with
  | obj hnull hvalues =>
      have hmem := Fields.mem_of_get hv
      exact ⟨hvalues _ hmem, hnull _ hmem⟩
  | _ => exact absurd hv (by simp [Json.get?])

theorem dedupHooksDoc_of_normal {hooks : Json} (h : Normal hooks) : dedupHooksDoc hooks = hooks := by
  rw [dedupHooksDoc, stripJsonNulls, stripJsonNullsDepth_of_normal h]
  cases h with
  | @obj fields _ hvalues =>
      have hid : Fields.mapValues dedupEntries fields = fields := by
        refine (List.map_congr_left fun f hf => ?_).trans (List.map_id fields)
        exact Prod.ext rfl (dedupEntries_of_normal (hvalues f hf))
      simp only [hid]
  | _ => rfl

section

variable {host : Host} {out : SettingsFolder} {enabled : Option Json}
  {old hooks hooks' : Json} {paths : List (String × Json)}

/-- Hooks that are no object are left alone by the purges. -/
theorem purges_not_obj (hold : old.asObject? = none) (prevOwned prevPaths : Option Json) :
    purgeHooksFromDisabledPlugins host (purgeStaleOwnedHooks old prevOwned hooks') prevPaths
      enabled = old := by
  have hstale : purgeStaleOwnedHooks old prevOwned hooks' = old := by
    unfold purgeStaleOwnedHooks
    split
    · exact absurd hold (by simp [Json.asObject?])
    · rfl
  rw [hstale]
  unfold purgeHooksFromDisabledPlugins
  split
  · exact absurd hold (by simp [Json.asObject?])
  · rfl

/-- Two objects are reconciled event by event. -/
theorem sameHooks_reconciled_obj {events events' : List (String × Json)} (hold : old.Wf)
    (hsame : SameHooks old (.obj events)) (holdObj : old.asObject? ≠ none)
    (hwf : Json.Wf (.obj events)) (hnormal : Normal (.obj events))
    (hwf' : Json.Wf (.obj events')) (hnormal' : Normal (.obj events'))
    (hsidecar : out.hooksSidecar = some (.obj events))
    (hpaths : out.pluginPathsSidecar = some (.obj paths))
    (hcarried : HooksCarried host (disabledRoots host paths enabled) (.obj events)
      (.obj events')) :
    SameHooks (reconcileHooks host out enabled old (.obj events')) (.obj events') := by
  obtain ⟨oldEvents, hobj⟩ := Option.ne_none_iff_exists'.mp holdObj
  obtain rfl := Json.asObject?_eq_some.mp hobj
  obtain ⟨_, heq, hevents⟩ := hsame.obj
  obtain rfl := Json.obj.inj heq
  obtain ⟨stale, hstale, hgetStale⟩ :=
    get_purgeStaleOwnedHooks (.obj events') oldEvents (Json.wf_obj.mp hwf).sorted
  obtain ⟨left, hleft, hgetLeft⟩ := get_purgeHooksFromDisabledPlugins host stale paths enabled
  have hleftWf : Json.Wf (.obj left) := by
    rw [← hleft, ← hstale]
    exact wf_purgeHooksFromDisabledPlugins (wf_purgeStaleOwnedHooks hold _ _) _ _
  have hsorted : Fields.Sorted (mergeFields left events') :=
    sorted_mergeFields (Json.wf_obj.mp hleftWf).sorted
  rw [reconcileHooks, hsidecar, hpaths, hstale, hleft, mergeJson_obj, dedupHooksDoc,
    stripJsonNulls_obj]
  refine .events fun event => ?_
  have hget : Fields.get event events' = (Json.obj events').get? event := rfl
  have hevent := freshEvent_reconciled host (disabledRoots host paths enabled) (.obj events') event
    (hevents event) (fun x hx => (Normal.get? hnormal hx).1) (fun x hx => Normal.get? hnormal' hx)
    (fun x hx hno => hcarried.values events' event x rfl hx hno)
    (fun prev new e left hv hw => hcarried.handlers event prev new e left hv hw)
  rw [Fields.get_mapValues, get_stripFields hsorted,
    get_mergeFields (Json.wf_obj.mp hwf').sorted, hgetLeft, hgetStale, hget, hevent.settle]
  exact hevent.same

/-- Over the hooks of the previous render the result is what the next one renders. -/
theorem sameHooks_reconciled (hold : old.Wf) (hsame : SameHooks old hooks) (hwf : hooks.Wf)
    (hnormal : Normal hooks) (hwf' : hooks'.Wf) (hnormal' : Normal hooks')
    (hsidecar : out.hooksSidecar = some hooks)
    (hpaths : out.pluginPathsSidecar = some (.obj paths))
    (hcarried : HooksCarried host (disabledRoots host paths enabled) hooks hooks') :
    SameHooks (reconcileHooks host out enabled old hooks') hooks' := by
  cases hobj : old.asObject? with
  | none =>
      obtain rfl := hsame.eq_of_not_obj hobj
      have hmerge : mergeJson old hooks' = hooks' := by
        by_cases harr : ∃ l l', old = .arr l ∧ hooks' = .arr l'
        · obtain ⟨l, l', hl, hl'⟩ := harr
          have habsorbs := hcarried.lists l l' hl hl'
          rwa [Absorbs, normalizeJson_of_normal hnormal, normalizeJson_of_normal hnormal']
            at habsorbs
        · rw [mergeJson_replace (Or.inl hobj) ?_, normalizeJson_of_normal hnormal']
          by_contra hno
          obtain ⟨h, h'⟩ := not_or.mp hno
          obtain ⟨l, hl⟩ := Option.ne_none_iff_exists'.mp h
          obtain ⟨l', hl'⟩ := Option.ne_none_iff_exists'.mp h'
          exact harr ⟨l, l', Json.asArray?_eq_some.mp hl, Json.asArray?_eq_some.mp hl'⟩
      rw [reconcileHooks, purges_not_obj hobj, hmerge, dedupHooksDoc_of_normal hnormal']
      exact .same _
  | some oldEvents =>
      obtain rfl := Json.asObject?_eq_some.mp hobj
      obtain ⟨events, rfl, -⟩ := hsame.obj
      cases hobj' : hooks'.asObject? with
      | some events' =>
          obtain rfl := Json.asObject?_eq_some.mp hobj'
          exact sameHooks_reconciled_obj hold hsame (by simp [hobj]) hwf hnormal hwf' hnormal'
            hsidecar hpaths hcarried
      | none =>
          obtain ⟨stale, hstale, -⟩ :=
            get_purgeStaleOwnedHooks hooks' oldEvents (Json.wf_obj.mp hwf).sorted
          obtain ⟨left, hleft, -⟩ := get_purgeHooksFromDisabledPlugins host stale paths enabled
          rw [reconcileHooks, hsidecar, hpaths, hstale, hleft, mergeJson_obj_left hobj',
            normalizeJson_of_normal hnormal', dedupHooksDoc_of_normal hnormal']
          exact .same _

end

end Llmenv.Adapter.ClaudeCode
