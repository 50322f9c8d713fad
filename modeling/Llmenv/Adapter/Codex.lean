/-
# `Llmenv.Adapter.Codex` — the permission profile of Codex

`classify_permission_profile` of `src/adapter/codex.rs`: the neutral rules
become one access for each path, or nothing is rendered at all.  The paths are
keyed by a normal form of their text, and of two accesses under one key the
stronger stays, so a deny beats an allow that is written the same way.

The normal form takes away one leading `./` and one trailing `/`.  A path has
more spellings than that: `src//`, `././src` and `a/./b` keep a key of their
own, and `.//src` even gets the key of `/src`.  `denyWins_iff` says for which
rule sets the deny wins all the same.
-/
import Llmenv.Lib.JoinMap
import Llmenv.Lib.Text
import Llmenv.Adapter.Tools
import Mathlib.Data.List.Forall2
import Mathlib.Data.String.Basic

namespace Llmenv.Adapter.Codex

open Llmenv.Lib

/-! ## The code -/

/-- The access of a path, in the order of their strength. -/
inductive CodexFsAccess where
  | read
  | write
  | deny
deriving DecidableEq

def CodexFsAccess.rank : CodexFsAccess → Nat
  | read => 0
  | write => 1
  | deny => 2

theorem CodexFsAccess.rank_injective : Function.Injective CodexFsAccess.rank := by
  intro a b h
  cases a <;> cases b <;> first | rfl | exact absurd h (by decide)

instance : LinearOrder CodexFsAccess :=
  LinearOrder.lift' CodexFsAccess.rank CodexFsAccess.rank_injective

theorem CodexFsAccess.le_deny (a : CodexFsAccess) : a ≤ .deny := by
  cases a <;> decide

inductive PermissionProfileDecision where
  | empty
  | rendered (entries : SortedMap String CodexFsAccess)
  | refused (unmappableRuleCount mappableRuleCount : Nat)

/-- `str::strip_suffix('/')`, but not down to the empty text. -/
def stripTrailingSlash (cs : List Char) : List Char :=
  if cs.getLast? = some '/' ∧ cs.dropLast ≠ [] then cs.dropLast else cs

def normalizePermissionPath (path : String) : String :=
  let trimmed := (Text.stripPrefix ['.', '/'] path.toList).getD path.toList
  String.ofList (stripTrailingSlash trimmed)

def mappableFsAccess (tool : String) : Option CodexFsAccess :=
  if tool = "Read" then some .read
  else if tool = "Edit" ∨ tool = "Write" ∨ tool = "MultiEdit" then some .write
  else none

/-- The access that a rule with paths and no pattern stands for. -/
def ruleAccess (rule : PermissionRule) : Option CodexFsAccess :=
  if !rule.paths.isEmpty && rule.pattern.isNone then mappableFsAccess rule.tool else none

/-- The counters and the map of the loop. -/
structure Classified where
  entries : SortedMap String CodexFsAccess
  unmappable : Nat
  mappable : Nat

/-- The body of the loop: a deny rule comes with the access it forces. -/
def classifyRule (s : Classified) (rule : PermissionRule × Option CodexFsAccess) : Classified :=
  match ruleAccess rule.1 with
  | none => { s with unmappable := s.unmappable + 1 }
  | some fsKind =>
      let access := rule.2.getD fsKind
      { entries := s.entries.joinAll
          (rule.1.paths.map fun path => (normalizePermissionPath path, access))
        unmappable := s.unmappable
        mappable := s.mappable + 1 }

/-- The allow rules, then the deny rules. -/
def Permissions.forced (perms : Permissions) : List (PermissionRule × Option CodexFsAccess) :=
  (perms.allow.map fun rule => (rule, none)) ++
    perms.deny.map fun rule => (rule, some .deny)

def classifyPermissionProfile (perms : Permissions) : PermissionProfileDecision :=
  let total := perms.allow.length + perms.ask.length + perms.deny.length
  if total = 0 then .empty
  else
    let s := (Permissions.forced perms).foldl classifyRule ⟨.empty, perms.ask.length, 0⟩
    if 0 < s.unmappable then .refused s.unmappable s.mappable else .rendered s.entries

/-! ## The paths that two texts name -/

/-- The parts between the slashes, without the ones that stay in place. -/
def components (path : String) : List (List Char) :=
  (Text.split (· == '/') path.toList).filter fun part => !(part == [] || part == ['.'])

def isAbsolute (path : String) : Bool := path.toList.head? == some '/'

/-- The two texts name one path. -/
def SamePath (a b : String) : Prop := isAbsolute a = isAbsolute b ∧ components a = components b

instance (a b : String) : Decidable (SamePath a b) := inferInstanceAs (Decidable (_ ∧ _))

def paths (rules : List PermissionRule) : List String := rules.flatMap PermissionRule.paths

/-- Every path of a deny rule has an entry, and no entry that allows anything
names a path of a deny rule. -/
structure DenyWins (perms : Permissions) (entries : SortedMap String CodexFsAccess) : Prop where
  entry : ∀ p ∈ paths perms.deny, ∃ e ∈ entries.items, SamePath e.1 p
  denied : ∀ p ∈ paths perms.deny, ∀ e ∈ entries.items, SamePath e.1 p →
    e.2 ≠ .read ∧ e.2 ≠ .write

/-- The two rules differ in the order of their paths at most. -/
structure SameRule (rule rule' : PermissionRule) : Prop where
  tool : rule.tool = rule'.tool
  pattern : rule.pattern = rule'.pattern
  paths : rule.paths.Perm rule'.paths

/-- The two lists differ in the order of rules and paths at most. -/
def SameRules (rules rules' : List PermissionRule) : Prop :=
  ∃ l, rules.Perm l ∧ List.Forall₂ SameRule l rules'

structure SamePermissions (perms perms' : Permissions) : Prop where
  allow : SameRules perms.allow perms'.allow
  ask : SameRules perms.ask perms'.ask
  deny : SameRules perms.deny perms'.deny

/-- Some rule's key names each denied path, and an allowed path whose key names
a denied one has the key of a deny rule. -/
structure SpellingsAgree (perms : Permissions) : Prop where
  keyed : ∀ p ∈ paths perms.deny, ∃ q ∈ paths perms.allow ++ paths perms.deny,
    SamePath (normalizePermissionPath q) p
  shared : ∀ p ∈ paths perms.deny, ∀ q ∈ paths perms.allow,
    SamePath (normalizePermissionPath q) p →
      ∃ r ∈ paths perms.deny, normalizePermissionPath r = normalizePermissionPath q

/-! ## What the loop builds -/

/-- The writes of one rule. -/
def ruleWrites (rule : PermissionRule × Option CodexFsAccess) : List (String × CodexFsAccess) :=
  match ruleAccess rule.1 with
  | none => []
  | some fsKind => rule.1.paths.map fun path => (normalizePermissionPath path, rule.2.getD fsKind)

def unmappableCount (rules : List (PermissionRule × Option CodexFsAccess)) : Nat :=
  rules.countP fun rule => (ruleAccess rule.1).isNone

def mappableCount (rules : List (PermissionRule × Option CodexFsAccess)) : Nat :=
  rules.countP fun rule => (ruleAccess rule.1).isSome

theorem foldl_classifyRule (rules : List (PermissionRule × Option CodexFsAccess))
    (s : Classified) :
    rules.foldl classifyRule s =
      ⟨s.entries.joinAll (rules.flatMap ruleWrites), s.unmappable + unmappableCount rules,
        s.mappable + mappableCount rules⟩ := by
  induction rules generalizing s with
  | nil => rfl
  | cons rule rules ih =>
      rw [List.foldl_cons, ih, List.flatMap_cons]
      simp only [unmappableCount, mappableCount, List.countP_cons]
      cases haccess : ruleAccess rule.1 with
      | none =>
          simp only [classifyRule, ruleWrites, haccess, Option.isNone_none, Option.isSome_none,
            List.nil_append]
          simp [Nat.add_assoc, Nat.add_comm]
      | some fsKind =>
          simp only [classifyRule, ruleWrites, haccess, Option.isNone_some, Option.isSome_some]
          simp [SortedMap.joinAll, Nat.add_assoc, Nat.add_comm]

/-- The decision in terms of the counts and the writes. -/
theorem classifyPermissionProfile_eq (perms : Permissions) :
    classifyPermissionProfile perms =
      if perms.allow.length + perms.ask.length + perms.deny.length = 0 then .empty
      else if 0 < perms.ask.length + unmappableCount (Permissions.forced perms) then
        .refused (perms.ask.length + unmappableCount (Permissions.forced perms))
          (mappableCount (Permissions.forced perms))
      else .rendered (SortedMap.joinAll .empty
        ((Permissions.forced perms).flatMap ruleWrites)) := by
  rw [classifyPermissionProfile, foldl_classifyRule, Nat.zero_add]

/-! ## The order of rules and paths -/

/-- The two lists of rules differ in the order of rules and paths at most. -/
def SameForced (rules rules' : List (PermissionRule × Option CodexFsAccess)) : Prop :=
  ∃ l, rules.Perm l ∧ List.Forall₂ (fun a b => SameRule a.1 b.1 ∧ a.2 = b.2) l rules'

theorem SameRules.length_eq {rules rules' : List PermissionRule} (h : SameRules rules rules') :
    rules.length = rules'.length := by
  obtain ⟨l, hperm, hsame⟩ := h
  rw [hperm.length_eq, hsame.length_eq]

theorem SameRules.forced {rules rules' : List PermissionRule} (h : SameRules rules rules')
    (access : Option CodexFsAccess) :
    SameForced (rules.map fun rule => (rule, access)) (rules'.map fun rule => (rule, access)) := by
  obtain ⟨l, hperm, hsame⟩ := h
  refine ⟨l.map fun rule => (rule, access), hperm.map _, ?_⟩
  rw [List.forall₂_map_left_iff, List.forall₂_map_right_iff]
  exact hsame.imp fun a b hab => ⟨hab, rfl⟩

theorem SamePermissions.forced {perms perms' : Permissions} (h : SamePermissions perms perms') :
    SameForced (Permissions.forced perms) (Permissions.forced perms') := by
  obtain ⟨l, hl, hlf⟩ := h.allow.forced none
  obtain ⟨m, hm, hmf⟩ := h.deny.forced (some .deny)
  exact ⟨l ++ m, hl.append hm, List.rel_append hlf hmf⟩

theorem SameRule.ruleAccess_eq {rule rule' : PermissionRule} (h : SameRule rule rule') :
    ruleAccess rule = ruleAccess rule' := by
  have hempty : rule.paths.isEmpty = rule'.paths.isEmpty := by
    rw [Bool.eq_iff_iff, List.isEmpty_iff_length_eq_zero, List.isEmpty_iff_length_eq_zero,
      h.paths.length_eq]
  rw [ruleAccess, ruleAccess, hempty, h.pattern, h.tool]

theorem SameRule.perm_ruleWrites {a b : PermissionRule × Option CodexFsAccess}
    (h : SameRule a.1 b.1) (hforced : a.2 = b.2) : (ruleWrites a).Perm (ruleWrites b) := by
  rw [ruleWrites, ruleWrites, h.ruleAccess_eq, hforced]
  cases ruleAccess b.1 with
  | none => exact .nil
  | some fsKind => exact h.paths.map _

theorem SameForced.perm_writes {rules rules' : List (PermissionRule × Option CodexFsAccess)}
    (h : SameForced rules rules') : (rules.flatMap ruleWrites).Perm (rules'.flatMap ruleWrites) := by
  obtain ⟨l, hperm, hsame⟩ := h
  refine (hperm.flatMap_right ruleWrites).trans ?_
  clear hperm
  induction hsame with
  | nil => exact .nil
  | cons hab _ ih =>
      rw [List.flatMap_cons, List.flatMap_cons]
      exact (hab.1.perm_ruleWrites hab.2).append ih

theorem SameForced.countP_eq {rules rules' : List (PermissionRule × Option CodexFsAccess)}
    (h : SameForced rules rules') (p : Option CodexFsAccess → Bool) :
    rules.countP (fun rule => p (ruleAccess rule.1)) =
      rules'.countP (fun rule => p (ruleAccess rule.1)) := by
  obtain ⟨l, hperm, hsame⟩ := h
  rw [hperm.countP_eq]
  clear hperm
  induction hsame with
  | nil => rfl
  | cons hab _ ih => rw [List.countP_cons, List.countP_cons, ih, hab.1.ruleAccess_eq]

/-- The profile does not depend on the order of the rules and of their paths. -/
theorem classifyPermissionProfile_order {perms perms' : Permissions}
    (h : SamePermissions perms perms') :
    classifyPermissionProfile perms' = classifyPermissionProfile perms := by
  have hforced := h.forced
  have hun : unmappableCount (Permissions.forced perms) =
      unmappableCount (Permissions.forced perms') := hforced.countP_eq Option.isNone
  have hmap : mappableCount (Permissions.forced perms) =
      mappableCount (Permissions.forced perms') := hforced.countP_eq Option.isSome
  rw [classifyPermissionProfile_eq, classifyPermissionProfile_eq, h.allow.length_eq,
    h.ask.length_eq, h.deny.length_eq, hun, hmap, SortedMap.joinAll_perm hforced.perm_writes]

/-! ## Which spellings the normal form keeps -/

theorem split_append_slash (cs : List Char) :
    Text.split (· == '/') (cs ++ ['/']) = Text.split (· == '/') cs ++ [[]] := by
  induction cs with
  | nil => rfl
  | cons c cs ih =>
      simp only [List.cons_append, Text.split, ih]
      cases hsplit : Text.split (· == '/') cs with
      | nil =>
          cases cs with
          | nil => exact absurd hsplit (by simp [Text.split])
          | cons d ds =>
              simp only [Text.split] at hsplit
              split at hsplit <;> simp at hsplit
      | cons part parts => cases c == '/' <;> rfl

theorem samePath_stripTrailingSlash (cs : List Char) :
    SamePath (String.ofList (stripTrailingSlash cs)) (String.ofList cs) := by
  rw [stripTrailingSlash]
  split
  · rename_i h
    obtain ⟨hlast, hne⟩ := h
    have hcs : cs.dropLast ++ ['/'] = cs := List.dropLast_append_getLast? _ hlast
    refine ⟨?_, ?_⟩
    · simp only [isAbsolute, String.toList_ofList]
      cases hd : cs.dropLast with
      | nil => exact absurd hd hne
      | cons c rest => rw [← hcs, hd]; rfl
    · simp only [components, String.toList_ofList]
      conv_rhs => rw [← hcs, split_append_slash]
      simp
  · exact ⟨rfl, rfl⟩

/-- The normal form of a path names the same path, unless the text starts with
a dot and two slashes. -/
theorem samePath_normalizePermissionPath {path : String}
    (h : Text.stripPrefix ['.', '/', '/'] path.toList = none) :
    SamePath (normalizePermissionPath path) path := by
  have hpath : path = String.ofList path.toList := by simp
  rw [normalizePermissionPath]
  cases hstrip : Text.stripPrefix ['.', '/'] path.toList with
  | none => simpa [hstrip] using samePath_stripTrailingSlash path.toList
  | some rest =>
      have hlist := Text.eq_append_of_stripPrefix hstrip
      obtain ⟨habs, hcomp⟩ := samePath_stripTrailingSlash rest
      refine ⟨habs.trans ?_, hcomp.trans ?_⟩
      · simp only [isAbsolute, String.toList_ofList, hlist]
        cases rest with
        | nil => rfl
        | cons c cs =>
            have hc : c ≠ '/' := by
              rintro rfl
              rw [hlist] at h
              exact absurd h (by simp [Text.stripPrefix])
            simp [hc]
      · simp [components, hlist, Text.split]

/-! ## When a deny wins -/

theorem ruleAccess_ne_deny {rule : PermissionRule} : ruleAccess rule ≠ some .deny := by
  simp only [ruleAccess, mappableFsAccess]
  split
  · split
    · simp
    · split <;> simp
  · simp

/-- What is rendered: every rule has an access, and the writes are joined. -/
theorem rendered_cases {perms : Permissions} {entries : SortedMap String CodexFsAccess}
    (h : classifyPermissionProfile perms = .rendered entries) :
    (∀ rule ∈ perms.allow ++ perms.deny, ∃ access, ruleAccess rule = some access) ∧
      entries = SortedMap.joinAll .empty ((Permissions.forced perms).flatMap ruleWrites) := by
  rw [classifyPermissionProfile_eq] at h
  split at h
  · exact absurd h (by simp)
  · split at h
    · exact absurd h (by simp)
    · rename_i hcount
      refine ⟨fun rule hrule => ?_, (PermissionProfileDecision.rendered.inj h).symm⟩
      have hzero : unmappableCount (Permissions.forced perms) = 0 := by omega
      have hforced : ∃ r ∈ Permissions.forced perms, r.1 = rule := by
        rcases List.mem_append.mp hrule with hrule | hrule
        · exact ⟨(rule, none), List.mem_append_left _ (List.mem_map_of_mem hrule), rfl⟩
        · exact ⟨(rule, some .deny), List.mem_append_right _ (List.mem_map_of_mem hrule), rfl⟩
      obtain ⟨r, hr, rfl⟩ := hforced
      have hsome := List.countP_eq_zero.mp hzero r hr
      rw [Option.isNone_iff_eq_none] at hsome
      exact Option.ne_none_iff_exists'.mp hsome

theorem mem_writes {perms : Permissions} {key : String} {access : CodexFsAccess} :
    (key, access) ∈ (Permissions.forced perms).flatMap ruleWrites ↔
      (∃ rule ∈ perms.allow, ruleAccess rule = some access ∧
        ∃ q ∈ rule.paths, normalizePermissionPath q = key) ∨
      (access = .deny ∧ ∃ rule ∈ perms.deny, (∃ a, ruleAccess rule = some a) ∧
        ∃ q ∈ rule.paths, normalizePermissionPath q = key) := by
  simp only [Permissions.forced, List.flatMap_append, List.mem_append, List.mem_flatMap,
    List.mem_map]
  refine or_congr ?_ ?_
  · constructor
    · rintro ⟨_, ⟨rule, hrule, rfl⟩, hmem⟩
      cases haccess : ruleAccess rule with
      | none => exact absurd hmem (by simp [ruleWrites, haccess])
      | some a =>
          simp only [ruleWrites, haccess, Option.getD_none, List.mem_map, Prod.mk.injEq] at hmem
          obtain ⟨q, hq, hkey, rfl⟩ := hmem
          exact ⟨rule, hrule, haccess, q, hq, hkey⟩
    · rintro ⟨rule, hrule, haccess, q, hq, rfl⟩
      exact ⟨_, ⟨rule, hrule, rfl⟩, by simpa [ruleWrites, haccess] using ⟨q, hq, rfl⟩⟩
  · constructor
    · rintro ⟨_, ⟨rule, hrule, rfl⟩, hmem⟩
      cases haccess : ruleAccess rule with
      | none => exact absurd hmem (by simp [ruleWrites, haccess])
      | some a =>
          simp only [ruleWrites, haccess, Option.getD_some, List.mem_map, Prod.mk.injEq] at hmem
          obtain ⟨q, hq, hkey, rfl⟩ := hmem
          exact ⟨rfl, rule, hrule, ⟨a, haccess⟩, q, hq, hkey⟩
    · rintro ⟨rfl, rule, hrule, ⟨a, haccess⟩, q, hq, rfl⟩
      exact ⟨_, ⟨rule, hrule, rfl⟩, by simpa [ruleWrites, haccess] using ⟨q, hq, rfl⟩⟩

theorem mem_paths {rules : List PermissionRule} {q : String} :
    q ∈ paths rules ↔ ∃ rule ∈ rules, q ∈ rule.paths := List.mem_flatMap

/-- An entry has the key of some path, and denies exactly when that is the key
of a denied path. -/
theorem rendered_entry {perms : Permissions} {entries : SortedMap String CodexFsAccess}
    (h : classifyPermissionProfile perms = .rendered entries) {e : String × CodexFsAccess}
    (he : e ∈ entries.items) :
    (∃ q ∈ paths perms.allow ++ paths perms.deny, normalizePermissionPath q = e.1) ∧
      (e.2 = .deny ↔ ∃ r ∈ paths perms.deny, normalizePermissionPath r = e.1) := by
  obtain ⟨hall, rfl⟩ := rendered_cases h
  obtain ⟨hwritten, hmax⟩ := SortedMap.get_joinAll_iff.mp (Fields.get_of_mem (SortedMap.sorted _) he)
  constructor
  · rcases mem_writes.mp hwritten with ⟨rule, hrule, -, q, hq, hkey⟩ | ⟨-, rule, hrule, -, q, hq, hkey⟩
    · exact ⟨q, List.mem_append_left _ (mem_paths.mpr ⟨rule, hrule, hq⟩), hkey⟩
    · exact ⟨q, List.mem_append_right _ (mem_paths.mpr ⟨rule, hrule, hq⟩), hkey⟩
  · constructor
    · intro hdeny
      rcases mem_writes.mp hwritten with ⟨rule, -, haccess, -⟩ | ⟨-, rule, hrule, -, q, hq, hkey⟩
      · exact absurd (hdeny ▸ haccess) ruleAccess_ne_deny
      · exact ⟨q, mem_paths.mpr ⟨rule, hrule, hq⟩, hkey⟩
    · rintro ⟨r, hr, hkey⟩
      obtain ⟨rule, hrule, hr⟩ := mem_paths.mp hr
      have hdeny : (e.1, CodexFsAccess.deny) ∈ (Permissions.forced perms).flatMap ruleWrites :=
        mem_writes.mpr (Or.inr ⟨rfl, rule, hrule, hall rule (List.mem_append_right _ hrule), r, hr,
          hkey⟩)
      exact le_antisymm e.2.le_deny (hmax _ hdeny)

/-- Every path has an entry under its key. -/
theorem exists_entry {perms : Permissions} {entries : SortedMap String CodexFsAccess}
    (h : classifyPermissionProfile perms = .rendered entries) {q : String}
    (hq : q ∈ paths perms.allow ++ paths perms.deny) :
    ∃ e ∈ entries.items, e.1 = normalizePermissionPath q := by
  obtain ⟨hall, rfl⟩ := rendered_cases h
  have hwritten : ∃ access, (normalizePermissionPath q, access) ∈
      (Permissions.forced perms).flatMap ruleWrites := by
    rcases List.mem_append.mp hq with hq | hq
    · obtain ⟨rule, hrule, hq⟩ := mem_paths.mp hq
      obtain ⟨access, haccess⟩ := hall rule (List.mem_append_left _ hrule)
      exact ⟨access, mem_writes.mpr (Or.inl ⟨rule, hrule, haccess, q, hq, rfl⟩)⟩
    · obtain ⟨rule, hrule, hq⟩ := mem_paths.mp hq
      exact ⟨.deny, mem_writes.mpr (Or.inr ⟨rfl, rule, hrule,
        hall rule (List.mem_append_right _ hrule), q, hq, rfl⟩)⟩
  obtain ⟨access, hwritten⟩ := hwritten
  obtain ⟨a, ha, -⟩ := SortedMap.le_joinAll_of_mem hwritten
    (m := (SortedMap.empty : SortedMap String CodexFsAccess))
  exact ⟨_, Fields.mem_of_get ha, rfl⟩

/-- In a rendered profile the deny wins over every spelling of its path, whatever
the order of rules and paths, exactly when the spellings agree. -/
theorem denyWins_iff {perms : Permissions} {entries : SortedMap String CodexFsAccess}
    (h : classifyPermissionProfile perms = .rendered entries) :
    (DenyWins perms entries ∧ ∀ perms', SamePermissions perms perms' →
      classifyPermissionProfile perms' = .rendered entries) ↔ SpellingsAgree perms := by
  constructor
  · rintro ⟨hwins, -⟩
    refine ⟨fun p hp => ?_, fun p hp q hq hsame => ?_⟩
    · obtain ⟨e, he, hep⟩ := hwins.entry p hp
      obtain ⟨⟨q, hq, hkey⟩, -⟩ := rendered_entry h he
      exact ⟨q, hq, hkey ▸ hep⟩
    · obtain ⟨e, he, hkey⟩ := exists_entry h (List.mem_append_left _ hq)
      obtain ⟨hread, hwrite⟩ := hwins.denied p hp e he (hkey ▸ hsame)
      have hdeny : e.2 = .deny := by
        cases haccess : e.2 with
        | read => exact absurd haccess hread
        | write => exact absurd haccess hwrite
        | deny => rfl
      rw [← hkey]
      exact (rendered_entry h he).2.mp hdeny
  · intro hagree
    refine ⟨⟨fun p hp => ?_, fun p hp e he hep => ?_⟩, fun perms' hsame => ?_⟩
    · obtain ⟨q, hq, hqp⟩ := hagree.keyed p hp
      obtain ⟨e, he, hkey⟩ := exists_entry h hq
      exact ⟨e, he, hkey ▸ hqp⟩
    · obtain ⟨⟨q, hq, hkey⟩, hdeny⟩ := rendered_entry h he
      have hshared : ∃ r ∈ paths perms.deny, normalizePermissionPath r = e.1 := by
        rcases List.mem_append.mp hq with hq | hq
        · rw [← hkey]
          exact hagree.shared p hp q hq (hkey ▸ hep)
        · exact ⟨q, hq, hkey⟩
      rw [hdeny.mpr hshared]
      exact ⟨by simp, by simp⟩
    · rw [classifyPermissionProfile_order hsame, h]

/-- Without a path that starts with a dot and two slashes, the spellings agree
when an allowed path that is denied too has the key of a deny rule. -/
theorem spellingsAgree_of_plain {perms : Permissions}
    (hplain : ∀ q ∈ paths perms.allow ++ paths perms.deny,
      Text.stripPrefix ['.', '/', '/'] q.toList = none) :
    SpellingsAgree perms ↔ ∀ p ∈ paths perms.deny, ∀ q ∈ paths perms.allow, SamePath q p →
      ∃ r ∈ paths perms.deny, normalizePermissionPath r = normalizePermissionPath q := by
  constructor
  · intro hagree p hp q hq hqp
    obtain ⟨habs, hcomp⟩ := samePath_normalizePermissionPath (hplain q (List.mem_append_left _ hq))
    exact hagree.shared p hp q hq ⟨habs.trans hqp.1, hcomp.trans hqp.2⟩
  · intro hshared
    refine ⟨fun p hp => ?_, fun p hp q hq hkey => ?_⟩
    · have hp := List.mem_append_right (paths perms.allow) hp
      exact ⟨p, hp, samePath_normalizePermissionPath (hplain p hp)⟩
    · obtain ⟨habs, hcomp⟩ :=
        samePath_normalizePermissionPath (hplain q (List.mem_append_left _ hq))
      exact hshared p hp q hq ⟨habs.symm.trans hkey.1, hcomp.symm.trans hkey.2⟩

/-- `Read` is allowed on one path and denied on another. -/
def readRules (allowed denied : String) : Permissions :=
  ⟨[⟨"Read", none, [allowed]⟩], [], [⟨"Read", none, [denied]⟩]⟩

/-- `./src/` and `src` have one key, and the deny is the entry. -/
theorem denyWins_src :
    DenyWins (readRules "src" "./src/") ⟨[("src", .deny)], by simp⟩ ∧
      ∀ perms', SamePermissions (readRules "src" "./src/") perms' →
        classifyPermissionProfile perms' = .rendered ⟨[("src", .deny)], by simp⟩ :=
  (@denyWins_iff (readRules "src" "./src/") _ rfl).mpr
    ⟨by decide, by decide⟩

/-- A second trailing slash is a second key, and the allow on `src` stays; a
deny of `.//src` has no entry, only `/src` has one. -/
theorem not_denyWins_slashes :
    (classifyPermissionProfile (readRules "src" "src//") =
        .rendered ⟨[("src", .read), ("src/", .deny)], by decide⟩ ∧
      SamePath "src" "src//" ∧
      ¬ DenyWins (readRules "src" "src//") ⟨[("src", .read), ("src/", .deny)], by decide⟩) ∧
    (classifyPermissionProfile (readRules "doc" ".//src") =
        .rendered ⟨[("/src", .deny), ("doc", .read)], by decide⟩ ∧
      ¬ DenyWins (readRules "doc" ".//src") ⟨[("/src", .deny), ("doc", .read)], by decide⟩) := by
  refine ⟨⟨rfl, by decide, fun h => ?_⟩, rfl, fun h => ?_⟩
  · have hread := h.denied "src//" (by decide) ("src", .read) (by decide) (by decide)
    exact absurd rfl hread.1
  · obtain ⟨e, he, hsame⟩ := h.entry ".//src" (by decide)
    revert hsame
    revert e
    decide

end Llmenv.Adapter.Codex
