/-
# `Llmenv.Adapter.ClaudeCode.ForeignKept` — what a reconcile keeps of the file

The other keys of `settings.json` stay, the owned ones are replaced, and the
hooks of both sides are merged, event by event.  Of the old entries of an event
those go that llmenv wrote the last time and does not write now, and the handlers
of plugins that are no longer enabled.

What the lists of an event come to is one function of the old entries that are
left and the new ones (`mergedEntries`), and applying it to its own result changes
nothing.  In a file without hooks the new ones are written as they are, with no
merge; so there two equal entries stay two, and the next call merges them.
-/
import Llmenv.Adapter.ClaudeCode.HookHistory

namespace Llmenv.Adapter.ClaudeCode

open Llmenv.Lib

/-! ## Which entries are left -/

/-- An object with a list under each event. -/
def HookLists (hooks : Json) : Prop :=
  ∃ events, hooks = .obj events ∧ ∀ e ∈ events, ∃ entries, e.2 = .arr entries

/-- The list of an event, if there is one. -/
def listAt (hooks : Option Json) (event : String) : Option (List Json) :=
  (hooks.bind (Json.get? event)).bind Json.asArray?

/-- The entries of an event. -/
def entriesOf (hooks : Option Json) (event : String) : List Json := (listAt hooks event).getD []

/-- Up to nulls, llmenv wrote the entry the last time (`prev`) and does not now. -/
def Stale (prev : Option Json) (new : Json) (event : String) (entry : Json) : Prop :=
  normalizedHook entry ∈ (entriesOf prev event).map normalizedHook ∧
    normalizedHook entry ∉ (entriesOf (some new) event).map normalizedHook

instance (prev : Option Json) (new : Json) (event : String) (entry : Json) :
    Decidable (Stale prev new event entry) := inferInstanceAs (Decidable (_ ∧ _))

/-- The folders of the remembered plugins that are not enabled. -/
def purgeRoots (host : Host) (paths enabled : Option Json) : List String :=
  match paths with
  | some (.obj paths) => disabledRoots host paths enabled
  | _ => []

/-- What the purge of disabled plugins leaves of an entry. -/
def purgedEntry (host : Host) (roots : List String) (entry : Json) : Option Json :=
  if roots.isEmpty then some entry else purgeEntry host roots entry

/-- What is left of the old entries of an event. -/
def leftEntries (host : Host) (roots : List String) (prev : Option Json) (new : Json)
    (event : String) (entries : List Json) : List Json :=
  (entries.filter (fun e => ¬ Stale prev new event e)).filterMap (purgedEntry host roots)

/-- What is written for an event, of the old entries that are left and the new ones. -/
def mergedEntries (left : Option (List Json)) : Option (List Json) → Option (List Json)
  | none => left.map (fun left => dedup (left.map (fun e => stripJsonNullsDepth e 2)))
  | some new => some (dedup ((left.getD [] ++ new).map normalizeJson))

/-! ## The lists of an event -/

section

variable {left new : Option (List Json)}

theorem nodup_mergedEntries {entries : List Json} (h : mergedEntries left new = some entries) :
    entries.Nodup := by
  cases new with
  | some new =>
      simp only [mergedEntries, Option.some.injEq] at h
      exact h ▸ nodup_dedup _
  | none =>
      cases left with
      | none => exact absurd h (by simp [mergedEntries])
      | some left =>
          simp only [mergedEntries, Option.map_some, Option.some.injEq] at h
          exact h ▸ nodup_dedup _

/-- In normal form nothing is lost and nothing is added. -/
theorem mem_mergedEntries (n : Json) :
    n ∈ ((mergedEntries left new).getD []).map normalizeJson ↔
      n ∈ (new.getD [] ++ left.getD []).map normalizeJson := by
  have hmem : ∀ (f : Json → Json) (l : List Json), (∀ e, normalizeJson (f e) = normalizeJson e) →
      (n ∈ (dedup (l.map f)).map normalizeJson ↔ n ∈ l.map normalizeJson) := by
    intro f l hf
    simp only [List.mem_map, mem_dedup]
    constructor
    · rintro ⟨_, ⟨e, he, rfl⟩, rfl⟩
      exact ⟨e, he, (hf e).symm⟩
    · rintro ⟨e, he, rfl⟩
      exact ⟨_, ⟨e, he, rfl⟩, hf e⟩
  cases new with
  | none =>
      cases left with
      | none => exact Iff.rfl
      | some left => exact hmem _ left fun e => normalizeJson_strip e 2
  | some new =>
      refine (hmem normalizeJson (left.getD [] ++ new) normalizeJson_again).trans ?_
      rw [List.map_append, List.map_append, List.mem_append, List.mem_append, or_comm]
      rfl

/-- The new entries merged over the result leave it as it is. -/
theorem mergedEntries_again : mergedEntries (mergedEntries left new) new = mergedEntries left new := by
  cases new with
  | none =>
      cases left with
      | none => rfl
      | some left =>
          have hid : (dedup (left.map fun e => stripJsonNullsDepth e 2)).map
              (fun e => stripJsonNullsDepth e 2) =
                dedup (left.map fun e => stripJsonNullsDepth e 2) := by
            refine (List.map_congr_left fun e he => ?_).trans (List.map_id _)
            obtain ⟨x, -, rfl⟩ := List.mem_map.mp (mem_dedup.mp he)
            exact stripJsonNullsDepth_again x 2
          simp only [mergedEntries, Option.map_some, hid, dedup_of_nodup (nodup_dedup _)]
  | some new =>
      have hid : (dedup ((left.getD [] ++ new).map normalizeJson)).map normalizeJson =
          dedup ((left.getD [] ++ new).map normalizeJson) := by
        refine (List.map_congr_left fun e he => ?_).trans (List.map_id _)
        obtain ⟨x, -, rfl⟩ := List.mem_map.mp (mem_dedup.mp he)
        exact normalizeJson_again x
      have hmem : ∀ e ∈ new.map normalizeJson,
          e ∈ dedup ((left.getD [] ++ new).map normalizeJson) := by
        intro e he
        rw [mem_dedup, List.map_append]
        exact List.mem_append_right _ he
      simp only [mergedEntries, Option.getD_some]
      rw [List.map_append, hid, dedup_append_of_mem (nodup_dedup _) hmem]

/-- The end of a reconcile, for lists. -/
theorem settle_mergedEntries :
    ((mergeOption (left.map Json.arr) (new.map Json.arr)).bind
        fun v => if v = .null then none else some (stripJsonNullsDepth v 1)).map dedupEntries =
      (mergedEntries left new).map Json.arr := by
  have hsettled : ∀ l : List Json, (some (normalizeJson (.arr l))).bind
      (fun v => if v = .null then none else some (stripJsonNullsDepth v 1)) =
        some (.arr (dedup (l.map normalizeJson))) := by
    intro l
    have hnormal := normal_normalizeJson (.arr l)
    rw [Option.bind_some, if_neg (by simp), stripJsonNullsDepth_of_normal hnormal, normalizeJson,
      normalizeItems_eq_map]
  have hdedup : ∀ l : List Json, dedupEntries (.arr (dedup l)) = .arr (dedup l) := by
    intro l
    rw [dedupEntries, dedup_of_nodup (nodup_dedup l)]
  cases new with
  | none =>
      cases left with
      | none => rfl
      | some left =>
          simp [mergedEntries, stripJsonNullsDepth, stripItems_eq_map, dedupEntries]
  | some new =>
      cases left with
      | none =>
          have hmerged : mergeOption ((none : Option (List Json)).map Json.arr)
              ((some new).map Json.arr) = some (normalizeJson (.arr new)) := by
            simp [mergeValue]
          rw [hmerged, hsettled]
          exact congrArg some (hdedup _)
      | some left =>
          have hmerged : mergeOption ((some left).map Json.arr) ((some new).map Json.arr) =
              some (normalizeJson (.arr (left ++ new))) := by
            simp [mergeValue, mergeJson, normalizeJson]
          rw [hmerged, hsettled]
          exact congrArg some (hdedup _)

end

/-! ## The purges, and all hooks -/

section

variable {host : Host} {out : SettingsFolder} {enabled prev paths : Option Json}
  {old new : List (String × Json)}

theorem listAt_obj (hooks : List (String × Json)) (event : String) :
    listAt (some (.obj hooks)) event = (Fields.get event hooks).bind Json.asArray? := rfl

theorem HookLists.get (h : HookLists (.obj old)) (event : String) :
    Fields.get event old = (listAt (some (.obj old)) event).map Json.arr := by
  obtain ⟨events, heq, hlists⟩ := h
  obtain rfl := Json.obj.inj heq
  rw [listAt_obj]
  cases hget : Fields.get event old with
  | none => rfl
  | some v =>
      obtain ⟨entries, rfl⟩ := hlists _ (Fields.mem_of_get hget)
      rfl

/-- The first purge takes out the stale entries of a list. -/
theorem staleValue_arr (new : Json) (event : String) (entries : List Json) :
    staleValue new event (prev.bind (Json.get? event)) (some (.arr entries)) =
      some (.arr (entries.filter (fun e => ¬ Stale prev new event e))) := by
  have hstale : ∀ prevArr, listAt prev event = some prevArr → ∀ e,
      normalizedHook e ∈ staleEntries new event prevArr ↔ Stale prev new event e := by
    intro prevArr hprev e
    have hentries : entriesOf prev event = prevArr := by
      rw [entriesOf, hprev]
      rfl
    rw [Stale, hentries]
    simp [staleEntries, entriesOf, listAt, entriesAt]
  cases hlist : listAt prev event with
  | some prevArr =>
      obtain ⟨v, hv, harr⟩ := Option.bind_eq_some_iff.mp hlist
      obtain rfl := Json.asArray?_eq_some.mp harr
      simp only [hv, staleValue, hstale prevArr hlist]
  | none =>
      have hno : ∀ e, ¬ Stale prev new event e := fun e h => by
        simpa [entriesOf, hlist] using h.1
      have hid : entries.filter (fun e => ¬ Stale prev new event e) = entries :=
        List.filter_eq_self.mpr fun e _ => by simp [hno e]
      rw [hid]
      cases hv : prev.bind (Json.get? event) with
      | none => rfl
      | some v =>
          cases v with
          | arr prevArr => exact absurd hlist (by simp [listAt, hv, Json.asArray?])
          | _ => rfl

/-- The second purge takes out the handlers of disabled plugins. -/
theorem purgedValue_arr (roots : List String) (entries : List Json) :
    purgedValue host roots (.arr entries) = .arr (entries.filterMap (purgedEntry host roots)) := by
  unfold purgedValue
  split
  · rename_i hroots
    have hid : purgedEntry host roots = some := by
      funext e
      rw [purgedEntry, if_pos hroots]
    rw [hid, List.filterMap_some]
  · rename_i hroots
    have hpurge : purgedEntry host roots = purgeEntry host roots := by
      funext e
      rw [purgedEntry, if_neg hroots]
    rw [hpurge, purgeEntries]

variable (host paths enabled) in
/-- Both purges, event by event, with any two sidecars. -/
theorem get_purges (hprev : ∀ p, prev = some p → p.Wf) (hooks : List (String × Json))
    (new : Json) :
    ∃ left, purgeHooksFromDisabledPlugins host (purgeStaleOwnedHooks (.obj hooks) prev new) paths
        enabled = .obj left ∧
      ∀ event, Fields.get event left =
        (staleValue new event (prev.bind (Json.get? event)) (Fields.get event hooks)).map
          (purgedValue host (purgeRoots host paths enabled)) := by
  have hfirst : ∃ left, purgeStaleOwnedHooks (.obj hooks) prev new = .obj left ∧
      ∀ event, Fields.get event left =
        staleValue new event (prev.bind (Json.get? event)) (Fields.get event hooks) := by
    cases prev with
    | none => exact ⟨hooks, rfl, fun event => rfl⟩
    | some p =>
        cases p with
        | obj fields =>
            exact get_purgeStaleOwnedHooks new hooks (Json.wf_obj.mp (hprev _ rfl)).sorted
        | _ => exact ⟨hooks, rfl, fun event => rfl⟩
  obtain ⟨kept, hkept, hget⟩ := hfirst
  rw [hkept]
  -- Without plugin paths nothing is purged.
  have hkeep : ∀ event, Fields.get event kept =
      (staleValue new event (prev.bind (Json.get? event)) (Fields.get event hooks)).map
        (purgedValue host []) := by
    intro event
    have hid : purgedValue host [] = id := by
      funext v
      rfl
    rw [hget, hid, Option.map_id]
    rfl
  cases paths with
  | none => exact ⟨kept, rfl, hkeep⟩
  | some p =>
      cases p with
      | obj fields =>
          obtain ⟨left, hleft, hpurged⟩ :=
            get_purgeHooksFromDisabledPlugins host kept fields enabled
          refine ⟨left, hleft, fun event => ?_⟩
          rw [hpurged, hget]
          rfl
      | _ => exact ⟨kept, rfl, hkeep⟩

/-- What is left of the lists of an event. -/
def leftLists (host : Host) (out : SettingsFolder) (enabled : Option Json) (old new : Json)
    (event : String) : Option (List Json) :=
  (listAt (some old) event).map (leftEntries host (purgeRoots host out.pluginPathsSidecar enabled)
    out.hooksSidecar new event)

theorem wf_of_reconcileHooks {events : List (String × Json)} (hold : Json.WfFields old)
    (hnew : Json.WfFields new)
    (h : reconcileHooks host out enabled (.obj old) (.obj new) = .obj events) :
    Json.WfFields events := by
  rw [← Json.wf_obj, ← h]
  exact wf_reconcileHooks (Json.wf_obj.mpr hold) (Json.wf_obj.mpr hnew)

variable (host out enabled) in
/-- The reconciled hooks, event by event. -/
theorem get_reconcileHooks (hold : Json.WfFields old) (hnew : Json.WfFields new)
    (holdLists : HookLists (.obj old)) (hnewLists : HookLists (.obj new))
    (hsidecar : ∀ p, out.hooksSidecar = some p → p.Wf) :
    ∃ events, reconcileHooks host out enabled (.obj old) (.obj new) = .obj events ∧
      ∀ event, Fields.get event events =
        (mergedEntries (leftLists host out enabled (.obj old) (.obj new) event)
          (listAt (some (.obj new)) event)).map Json.arr := by
  obtain ⟨left, hleft, hget⟩ :=
    get_purges host enabled out.pluginPathsSidecar hsidecar old
      (.obj new)
  have hleftWf : Json.WfFields left := by
    rw [← Json.wf_obj, ← hleft]
    exact wf_purgeHooksFromDisabledPlugins
      (wf_purgeStaleOwnedHooks (Json.wf_obj.mpr hold) _ _) _ _
  have hmerged : Fields.Sorted (mergeFields left new) := sorted_mergeFields hleftWf.sorted
  refine ⟨_, by rw [reconcileHooks, hleft, mergeJson_obj, dedupHooksDoc, stripJsonNulls_obj],
    fun event => ?_⟩
  have hlists : Fields.get event left =
      (leftLists host out enabled (.obj old) (.obj new) event).map Json.arr := by
    rw [hget, holdLists.get, leftLists]
    cases listAt (some (.obj old)) event with
    | none =>
        cases hprev : out.hooksSidecar.bind (Json.get? event) with
        | none => rfl
        | some v => cases v <;> rfl
    | some entries =>
        simp only [Option.map_some]
        rw [staleValue_arr, Option.map_some, purgedValue_arr]
        rfl
  rw [Fields.get_mapValues, get_stripFields hmerged, get_mergeFields hnew.sorted, hlists,
    hnewLists.get, settle_mergedEntries]

theorem hookLists_of_get {events : List (String × Json)} (hsorted : Fields.Sorted events)
    {lists : String → Option (List Json)}
    (h : ∀ event, Fields.get event events = (lists event).map Json.arr) :
    HookLists (.obj events) ∧ ∀ event, listAt (some (.obj events)) event = lists event := by
  refine ⟨⟨events, rfl, fun e he => ?_⟩, fun event => ?_⟩
  · have hget := h e.1
    rw [Fields.get_of_mem hsorted he] at hget
    obtain ⟨entries, -, hentries⟩ := Option.map_eq_some_iff.mp hget.symm
    exact ⟨entries, hentries.symm⟩
  · rw [listAt_obj, h]
    cases lists event with
    | none => rfl
    | some entries => rfl

/-- With a sidecar that has the new hooks nothing is stale, and without folders
nothing is purged. -/
theorem leftEntries_current (new : Json) (event : String) (entries : List Json) :
    leftEntries host [] (some new) new event entries = entries := by
  have hkeep : entries.filter (fun e => ¬ Stale (some new) new event e) = entries :=
    List.filter_eq_self.mpr fun e _ => by simpa using fun h : Stale _ _ _ e => h.2 h.1
  have hid : purgedEntry host [] = some := by
    funext e
    rfl
  rw [leftEntries, hkeep, hid, List.filterMap_some]

/-- All remembered plugins are enabled. -/
def OnlyEnabled (paths enabled : Option Json) : Prop :=
  ∀ fields, paths = some (.obj fields) → ∀ id ∈ Fields.keys fields,
    id ∈ ((enabled.bind Json.asObject?).map Fields.keys).getD []

theorem purgeRoots_eq_nil (h : OnlyEnabled paths enabled) : purgeRoots host paths enabled = [] := by
  unfold purgeRoots
  split
  · rename_i fields
    have hnil : fields.filter (fun p =>
        p.1 ∉ ((enabled.bind Json.asObject?).map Fields.keys).getD []) = [] := by
      refine List.filter_eq_nil_iff.mpr fun p hp => ?_
      simpa using h fields rfl p.1 (List.mem_map.mpr ⟨p, hp, rfl⟩)
    simp only [disabledRoots]
    rw [hnil, List.filterMap_nil]
  · rfl

/-- The sidecars of a folder. -/
def sidecars (hooks paths : Option Json) : SettingsFolder :=
  { SettingsFolder.empty with hooksSidecar := hooks, pluginPathsSidecar := paths }

variable (host) in
/-- The new hooks merged into hooks that are there, with nothing to purge. -/
theorem get_reconcileHooks_current (hold : Json.WfFields old) (hnew : Json.WfFields new)
    (holdLists : HookLists (.obj old)) (hnewLists : HookLists (.obj new))
    (honly : OnlyEnabled paths enabled) :
    ∃ events, reconcileHooks host (sidecars (some (.obj new)) paths) enabled (.obj old) (.obj new) =
        .obj events ∧
      ∀ event, Fields.get event events =
        (mergedEntries (listAt (some (.obj old)) event) (listAt (some (.obj new)) event)).map
          Json.arr := by
  obtain ⟨events, heq, hget⟩ := get_reconcileHooks host
    (sidecars (some (.obj new)) paths) enabled hold hnew holdLists hnewLists
    fun p hp => Option.some.inj hp ▸ Json.wf_obj.mpr hnew
  refine ⟨events, heq, fun event => ?_⟩
  have hleft : leftLists host (sidecars (some (.obj new)) paths) enabled (.obj old) (.obj new)
      event = listAt (some (.obj old)) event := by
    have hid : leftEntries host [] (some (.obj new)) (.obj new) event = id := by
      funext entries
      exact leftEntries_current _ event entries
    rw [leftLists, sidecars, purgeRoots_eq_nil honly, hid, Option.map_id]
    rfl
  rw [hget, hleft]

/-- Merging the new hooks once more into what a reconcile left of old ones. -/
theorem reconcileHooks_again (hold : Json.WfFields old) (hnew : Json.WfFields new)
    (holdLists : HookLists (.obj old)) (hnewLists : HookLists (.obj new))
    (hsidecar : ∀ p, out.hooksSidecar = some p → p.Wf) (honly : OnlyEnabled paths enabled) :
    reconcileHooks host (sidecars (some (.obj new)) paths) enabled
        (reconcileHooks host out enabled (.obj old) (.obj new)) (.obj new) =
      reconcileHooks host out enabled (.obj old) (.obj new) := by
  obtain ⟨events, heq, hget⟩ :=
    get_reconcileHooks host out enabled hold hnew holdLists hnewLists hsidecar
  have hwf : Json.WfFields events := wf_of_reconcileHooks hold hnew heq
  obtain ⟨hlists, hlistAt⟩ := hookLists_of_get hwf.sorted hget
  obtain ⟨again, hagain, hgetAgain⟩ := get_reconcileHooks_current host hwf hnew hlists
    hnewLists honly
  have hwfAgain : Json.WfFields again := wf_of_reconcileHooks hwf hnew hagain
  rw [heq, hagain]
  refine congrArg Json.obj (Fields.eq_of_get hwfAgain.sorted hwf.sorted fun event => ?_)
  rw [hgetAgain, hlistAt, mergedEntries_again, hget]

/-- Hooks merged into themselves stay as they are when they are in normal form, and
only then. -/
theorem reconcileHooks_self (hnew : Json.WfFields new) (hlists : HookLists (.obj new))
    (honly : OnlyEnabled paths enabled) :
    reconcileHooks host (sidecars (some (.obj new)) paths) enabled (.obj new) (.obj new) =
      .obj new ↔ Normal (.obj new) := by
  obtain ⟨events, heq, hget⟩ :=
    get_reconcileHooks_current host hnew hnew hlists hlists honly
  have hwf : Json.WfFields events := wf_of_reconcileHooks hnew hnew heq
  rw [heq]
  constructor
  · intro h
    obtain rfl := Json.obj.inj h
    have hvalue : ∀ f ∈ events, ∃ entries : List Json,
        f.2 = .arr (dedup ((entries ++ entries).map normalizeJson)) := by
      intro f hf
      have hf := hget f.1 ▸ Fields.get_of_mem hwf.sorted hf
      cases hlist : listAt (some (.obj events)) f.1 with
      | none => exact absurd (hlist ▸ hf) (by simp [mergedEntries])
      | some entries =>
          rw [hlist] at hf
          exact ⟨entries, (Option.some.inj hf).symm⟩
    refine .obj (fun f hf => ?_) (fun f hf => ?_)
    · obtain ⟨entries, hentries⟩ := hvalue f hf
      exact hentries ▸ by simp
    · obtain ⟨entries, hentries⟩ := hvalue f hf
      rw [hentries]
      refine normal_arr_dedup fun j hj => ?_
      obtain ⟨e, -, rfl⟩ := List.mem_map.mp hj
      exact normal_normalizeJson e
  · intro hnormal
    refine congrArg Json.obj (Fields.eq_of_get hwf.sorted hnew.sorted fun event => ?_)
    rw [hget, hlists.get]
    cases hlist : listAt (some (.obj new)) event with
    | none => rfl
    | some entries =>
        have hvalue : (Json.obj new).get? event = some (.arr entries) := by
          rw [Json.get?_obj, hlists.get, hlist]
          rfl
        have hentries : Normal (.arr entries) := (Normal.get? hnormal hvalue).1
        cases hentries with
        | arr hnodup hitems =>
            rw [mergedEntries, Option.getD_some, List.map_append, map_normalizeJson_of_normal hitems,
              dedup_append_of_mem hnodup fun _ h => h]

/-- The hooks that are written: without old ones the new ones as they are. -/
def writtenHooks (host : Host) (out : SettingsFolder) (enabled old : Option Json) (new : Json) :
    Json :=
  old.elim new (fun old => reconcileHooks host out enabled old new)

variable {oldHooks : Option Json}

variable (host out enabled) in
/-- What is written for an event, when there are old hooks. -/
theorem entriesOf_reconcileHooks (hold : Json.WfFields old) (hnew : Json.WfFields new)
    (holdLists : HookLists (.obj old)) (hnewLists : HookLists (.obj new))
    (hsidecar : ∀ p, out.hooksSidecar = some p → p.Wf) (event : String) :
    entriesOf (some (reconcileHooks host out enabled (.obj old) (.obj new))) event =
      (mergedEntries (leftLists host out enabled (.obj old) (.obj new) event)
        (listAt (some (.obj new)) event)).getD [] := by
  obtain ⟨events, heq, hget⟩ :=
    get_reconcileHooks host out enabled hold hnew holdLists hnewLists hsidecar
  have hwf : Json.WfFields events := wf_of_reconcileHooks hold hnew heq
  rw [heq, entriesOf, (hookLists_of_get hwf.sorted hget).2]

theorem mem_writtenHooks (hold : ∀ o, oldHooks = some o → o.Wf ∧ HookLists o)
    (hnew : Json.WfFields new) (hnewLists : HookLists (.obj new))
    (hsidecar : ∀ p, out.hooksSidecar = some p → p.Wf) (event : String) (n : Json) :
    n ∈ (entriesOf (some (writtenHooks host out enabled oldHooks (.obj new))) event).map
        normalizeJson ↔
      n ∈ (entriesOf (some (.obj new)) event ++
        leftEntries host (purgeRoots host out.pluginPathsSidecar enabled) out.hooksSidecar
          (.obj new) event (entriesOf oldHooks event)).map normalizeJson := by
  cases oldHooks with
  | none =>
      have hnil : leftEntries host (purgeRoots host out.pluginPathsSidecar enabled)
          out.hooksSidecar (.obj new) event (entriesOf none event) = [] := rfl
      rw [hnil, List.append_nil]
      rfl
  | some o =>
      obtain ⟨hwf, hlists⟩ := hold o rfl
      obtain ⟨old, rfl, -⟩ := id hlists
      have hleft : (leftLists host out enabled (.obj old) (.obj new) event).getD [] =
          leftEntries host (purgeRoots host out.pluginPathsSidecar enabled) out.hooksSidecar
            (.obj new) event (entriesOf (some (.obj old)) event) := by
        rw [leftLists, entriesOf]
        cases listAt (some (.obj old)) event with
        | none => rfl
        | some entries => rfl
      have hentries := entriesOf_reconcileHooks host out enabled
        (Json.wf_obj.mp hwf) hnew hlists hnewLists hsidecar event
      rw [writtenHooks, Option.elim_some, hentries, mem_mergedEntries, hleft]
      rfl

theorem nodup_writtenHooks (hold : ∀ o, oldHooks = some o → o.Wf ∧ HookLists o)
    (hnew : Json.WfFields new) (hnewLists : HookLists (.obj new))
    (hsidecar : ∀ p, out.hooksSidecar = some p → p.Wf) :
    (∀ event,
        (entriesOf (some (writtenHooks host out enabled oldHooks (.obj new))) event).Nodup) ↔
      oldHooks ≠ none ∨ ∀ event, (entriesOf (some (.obj new)) event).Nodup := by
  cases oldHooks with
  | none => exact ⟨Or.inr, fun h => h.resolve_left (fun hne => hne rfl)⟩
  | some o =>
      obtain ⟨hwf, hlists⟩ := hold o rfl
      obtain ⟨old, rfl, -⟩ := id hlists
      refine iff_of_true (fun event => ?_) (Or.inl (by simp))
      have hentries := entriesOf_reconcileHooks host out enabled
        (Json.wf_obj.mp hwf) hnew hlists hnewLists hsidecar event
      rw [writtenHooks, Option.elim_some, hentries]
      cases hmerged : mergedEntries (leftLists host out enabled (.obj old) (.obj new) event)
          (listAt (some (.obj new)) event) with
      | none => exact List.nodup_nil
      | some entries => exact nodup_mergedEntries hmerged

theorem writtenHooks_again_iff (hold : ∀ o, oldHooks = some o → o.Wf ∧ HookLists o)
    (hnew : Json.WfFields new) (hnewLists : HookLists (.obj new))
    (hsidecar : ∀ p, out.hooksSidecar = some p → p.Wf) (honly : OnlyEnabled paths enabled) :
    reconcileHooks host (sidecars (some (.obj new)) paths) enabled
        (writtenHooks host out enabled oldHooks (.obj new)) (.obj new) =
      writtenHooks host out enabled oldHooks (.obj new) ↔
      oldHooks ≠ none ∨ Normal (.obj new) := by
  cases oldHooks with
  | none =>
      refine (reconcileHooks_self hnew hnewLists honly).trans ⟨Or.inr, fun h => ?_⟩
      exact h.resolve_left (fun hne => hne rfl)
  | some o =>
      obtain ⟨hwf, hlists⟩ := hold o rfl
      obtain ⟨old, rfl, -⟩ := id hlists
      refine iff_of_true ?_ (Or.inl (by simp))
      exact reconcileHooks_again (Json.wf_obj.mp hwf) hnew hlists hnewLists hsidecar honly

end

/-! ## All settings -/

/-- What a reconcile of the fresh settings with those of the file makes of both. -/
structure Reconciled (host : Host) (out : SettingsFolder) (disk fresh : List (String × Json))
    (new : Json) (doc : List (String × Json)) : Prop where
  /-- The keys of others stay. -/
  foreign : ∀ k, k ∉ llmenvOwnedSettingsKeys → Fields.get k fresh = none → k ≠ "advisorSize" →
    Fields.get k doc = Fields.get k disk
  /-- The owned keys are the fresh ones. -/
  owned : ∀ k ∈ llmenvOwnedSettingsKeys, k ≠ "hooks" → Fields.get k doc = Fields.get k fresh
  /-- The entries of an event are the new ones and what is left of the old ones, up to
  nulls and repeated elements. -/
  entries : ∀ event n, n ∈ (entriesOf (Fields.get "hooks" doc) event).map normalizeJson ↔
    n ∈ (entriesOf (some new) event ++
      leftEntries host (purgeRoots host out.pluginPathsSidecar (Fields.get "enabledPlugins" fresh))
        out.hooksSidecar new event (entriesOf (Fields.get "hooks" disk) event)).map normalizeJson
  /-- No two entries of an event are equal, unless the file has no hooks and the new
  ones have equal entries. -/
  distinct : (∀ event, (entriesOf (Fields.get "hooks" doc) event).Nodup) ↔
    Fields.get "hooks" disk ≠ none ∨ ∀ event, (entriesOf (some new) event).Nodup
  /-- The next call changes nothing, unless the file has no hooks and the new ones are
  not in normal form. -/
  again : ∀ paths, OnlyEnabled paths (Fields.get "enabledPlugins" fresh) →
    (reconcileSettings host (sidecars (some new) paths) (some (.obj doc)) (.obj fresh) = .obj doc ↔
      Fields.get "hooks" disk ≠ none ∨ Normal new)

section

variable {host : Host} {out : SettingsFolder} {disk fresh doc : List (String × Json)} {new : Json}

theorem wf_of_reconcileSettings (hdisk : Json.WfFields disk) (hfresh : Json.WfFields fresh)
    (h : reconcileSettings host out (some (.obj disk)) (.obj fresh) = .obj doc) :
    Json.WfFields doc := by
  rw [← Json.wf_obj, ← h]
  exact wf_reconcileSettings (fun e he => Option.some.inj he ▸ Json.wf_obj.mpr hdisk)
    (Json.wf_obj.mpr hfresh)

/-- A reconcile of its own result changes at most the hooks. -/
theorem reconcileSettings_again_iff (hdisk : Json.WfFields disk) (hfresh : Json.WfFields fresh)
    (hnew : Fields.get "hooks" fresh = some new)
    (hdoc : reconcileSettings host out (some (.obj disk)) (.obj fresh) = .obj doc) {hooks : Json}
    (hhooks : Fields.get "hooks" doc = some hooks) (out' : SettingsFolder) :
    reconcileSettings host out' (some (.obj doc)) (.obj fresh) = .obj doc ↔
      reconcileHooks host out' (Fields.get "enabledPlugins" fresh) hooks new = hooks := by
  have hdocWf : Json.WfFields doc := wf_of_reconcileSettings hdisk hfresh hdoc
  obtain ⟨_, heq, hget⟩ := get_reconcileSettings host out disk hfresh.sorted
  obtain rfl := Json.obj.inj (hdoc.symm.trans heq)
  obtain ⟨doc', hdoc', hget'⟩ := get_reconcileSettings host out' doc hfresh.sorted
  have hdocWf' : Json.WfFields doc' := wf_of_reconcileSettings hdocWf hfresh hdoc'
  have howned : ∀ o old, ownedValue host o fresh "hooks" (some old) =
      some (reconcileHooks host o (Fields.get "enabledPlugins" fresh) old new) := by
    intro o old
    simp [ownedValue, hnew]
  have hhooks' : Fields.get "hooks" doc' =
      some (reconcileHooks host out' (Fields.get "enabledPlugins" fresh) hooks new) := by
    rw [hget', if_pos (by decide), hhooks, howned]
  rw [hdoc']
  constructor
  · intro h
    rw [Json.obj.inj h, hhooks] at hhooks'
    exact (Option.some.inj hhooks').symm
  · intro h
    refine congrArg Json.obj (Fields.eq_of_get hdocWf'.sorted hdocWf.sorted fun k => ?_)
    by_cases hk : k = "hooks"
    · rw [hk, hhooks', h, hhooks]
    · rw [hget', hget]
      split
      · simp only [ownedValue, if_neg hk]
      · cases Fields.get k fresh with
        | some v => rfl
        | none =>
            by_cases hadvisor : k = "advisorSize"
            · simp [hadvisor]
            · simp [hadvisor]

/-- New hooks in normal form, as every render writes them (`normal_hooksValue`), need
no old ones. -/
theorem Reconciled.of_normal (h : Reconciled host out disk fresh new doc) (hnew : Normal new) :
    (∀ event, (entriesOf (Fields.get "hooks" doc) event).Nodup) ∧
      ∀ paths, OnlyEnabled paths (Fields.get "enabledPlugins" fresh) →
        reconcileSettings host (sidecars (some new) paths) (some (.obj doc)) (.obj fresh) =
          .obj doc := by
  refine ⟨h.distinct.mpr (Or.inr fun event => ?_), fun paths honly =>
    (h.again paths honly).mpr (Or.inr hnew)⟩
  rw [entriesOf]
  cases hlist : listAt (some new) event with
  | none => exact List.nodup_nil
  | some entries =>
      obtain ⟨v, hv, harr⟩ := Option.bind_eq_some_iff.mp hlist
      obtain rfl := Json.asArray?_eq_some.mp harr
      cases (Normal.get? hnew hv).1 with
      | arr hnodup _ => exact hnodup

/-- Fresh settings whose hooks are lists, reconciled with a file whose hooks, if there
are any, are lists too. -/
theorem reconcile_keeps_foreign (host : Host) (out : SettingsFolder)
    (hsidecar : ∀ p, out.hooksSidecar = some p → p.Wf) (hdisk : Json.WfFields disk)
    (hfresh : Json.WfFields fresh) (hold : ∀ old, Fields.get "hooks" disk = some old → HookLists old)
    (hnew : Fields.get "hooks" fresh = some new) (hnewLists : HookLists new) :
    ∃ doc, reconcileSettings host out (some (.obj disk)) (.obj fresh) = .obj doc ∧
      Reconciled host out disk fresh new doc := by
  obtain ⟨doc, hdoc, hget⟩ := get_reconcileSettings host out disk hfresh.sorted
  obtain ⟨newEvents, rfl, -⟩ := id hnewLists
  have hnewWf : Json.WfFields newEvents := Json.wf_obj.mp (hfresh.get hnew)
  have hhooks : Fields.get "hooks" doc = some (writtenHooks host out
      (Fields.get "enabledPlugins" fresh) (Fields.get "hooks" disk) (.obj newEvents)) := by
    rw [hget, if_pos (by decide)]
    simp [ownedValue, writtenHooks, hnew]
  have hold : ∀ o, Fields.get "hooks" disk = some o → o.Wf ∧ HookLists o :=
    fun o ho => ⟨hdisk.get ho, hold o ho⟩
  have hagain := reconcileSettings_again_iff hdisk hfresh hnew hdoc hhooks
  refine ⟨doc, hdoc, ⟨fun k hk hnone hadvisor => ?_, fun k hk hk' => ?_, fun event n => ?_, ?_,
    fun paths honly => (hagain _).trans ?_⟩⟩
  · rw [hget, if_neg hk, hnone, if_neg hadvisor, Option.none_or]
  · rw [hget, if_pos hk, ownedValue]
    simp [hk']
  · rw [hhooks]
    exact mem_writtenHooks hold hnewWf hnewLists hsidecar event n
  · rw [hhooks]
    exact nodup_writtenHooks hold hnewWf hnewLists hsidecar
  · exact writtenHooks_again_iff hold hnewWf hnewLists hsidecar honly

end

/-- Settings with a command for each entry of `Stop`. -/
def stopHooks (commands : List String) : Json :=
  .obj [("Stop", .arr (commands.map (commandEntry none)))]

theorem wf_stopHooks (commands : List String) : (stopHooks commands).Wf := by
  refine Json.wf_obj.mpr (wf_singleton (Json.wf_arr.mpr fun j hj => ?_))
  obtain ⟨command, -, rfl⟩ := List.mem_map.mp hj
  exact (rendered_commandEntry none command).wf

theorem hookLists_stopHooks (commands : List String) : HookLists (stopHooks commands) :=
  ⟨_, rfl, fun _ he => List.mem_singleton.mp he ▸ ⟨_, rfl⟩⟩

/-- A file with a theme, a hook that llmenv wrote and one of the user. -/
def themedFile : List (String × Json) :=
  [("hooks", stopHooks ["guard", "mine"]), ("theme", .str "dark")]

/-- The guard is no longer rendered: it goes, the theme stays, and the next call
changes nothing. -/
theorem reconcile_keeps_foreign_theme :
    ∃ doc, reconcileSettings bareHost (sidecars (some (stopHooks ["guard"])) none)
        (some (.obj themedFile)) (.obj [("hooks", stopHooks ["report"])]) = .obj doc ∧
      Fields.get "theme" doc = some (.str "dark") ∧
      entriesOf (Fields.get "hooks" doc) "Stop" =
        [commandEntry none "mine", commandEntry none "report"] ∧
      reconcileSettings bareHost (sidecars (some (stopHooks ["report"])) none) (some (.obj doc))
        (.obj [("hooks", stopHooks ["report"])]) = .obj doc := by
  have hdisk : Json.WfFields themedFile := by
    refine ⟨?_, fun f hf => ?_⟩
    · simpa [themedFile, Fields.Sorted] using (by decide : "hooks" < "theme")
    · rcases List.mem_pair.mp hf with rfl | rfl
      · exact wf_stopHooks _
      · exact .str _
  obtain ⟨doc, hdoc, h⟩ := reconcile_keeps_foreign bareHost
    (sidecars (some (stopHooks ["guard"])) none) (fun p hp => Option.some.inj hp ▸ wf_stopHooks _)
    hdisk (wf_singleton (k := "hooks") (wf_stopHooks ["report"]))
    (fun old ho => Option.some.inj ho ▸ hookLists_stopHooks _) rfl (hookLists_stopHooks _)
  refine ⟨doc, hdoc, h.foreign "theme" (by decide) rfl (by decide), ?_, ?_⟩
  · obtain rfl := Json.obj.inj hdoc
    decide +kernel
  · exact (h.again none fun _ hp => absurd hp (by simp)).mpr
      (Or.inl (by simp [themedFile, Fields.get_cons]))

/-- In a file without hooks two equal new entries are written, and the next call
leaves one of them. -/
theorem equal_hooks_kept :
    HookLists (stopHooks ["report", "report"]) ∧
      reconcileSettings bareHost (sidecars none none) (some (.obj []))
          (.obj [("hooks", stopHooks ["report", "report"])]) =
        .obj [("hooks", stopHooks ["report", "report"])] ∧
      ¬ (entriesOf (some (stopHooks ["report", "report"])) "Stop").Nodup ∧
      reconcileSettings bareHost (sidecars (some (stopHooks ["report", "report"])) none)
          (some (.obj [("hooks", stopHooks ["report", "report"])]))
          (.obj [("hooks", stopHooks ["report", "report"])]) =
        .obj [("hooks", stopHooks ["report"])] := by
  refine ⟨hookLists_stopHooks _, rfl, by decide, ?_⟩
  decide +kernel

end Llmenv.Adapter.ClaudeCode
