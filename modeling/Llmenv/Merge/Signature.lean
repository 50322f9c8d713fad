/-
# `Llmenv.Merge.Signature` — the key of the merge cache

`merge` and `merge_signature` of `src/merge/mod.rs`.  The signature is a hash;
here it is the bytes that are hashed.  Of a bundle they have the name, the
precedence and the text of `bundle.yaml`, in the order of the names.

So two inputs with one signature give the same hosts, and the same entries of
`features.memory` (`same_slice_of_signature`).  In which order these stand is
not in the key: bundles of one precedence can be listed in any order.
-/
import Llmenv.Lib.Encode
import Llmenv.Merge.Capabilities

namespace Llmenv.Merge

open Llmenv.Lib Llmenv.Lib.Encode Llmenv.Lib.Ranked Llmenv.Adapter Llmenv.Manifest

/-! ## The code -/

structure BundleRef where
  name : String
  path : String
  precedence : Precedence

/-- How `merge` fails. -/
inductive MergeFailure where
  | reading (bundle reason : String)
  | parsing (bundle reason : String)
  | invalid (context reason : String)
  | capabilities (e : MergeError)
  | serverHost (host : String)

/-- What a merge reads of the bundles: `bundle.yaml`, and the files that it only collects. -/
structure Disk (Files : Type) where
  bundleYaml : String → Except String (Option String)
  files : BundleRef → Except String Files

/-- The parser of `bundle.yaml`, and the checks of the parsed and the merged values. -/
structure Parser (P : Payload → Type) where
  parse : String → Except String (Capabilities P)
  checkBundle : Capabilities P → Except String Unit
  checkMerged : Capabilities P → Except String Unit

structure MergedManifest (P : Payload → Type) (Files : Type) where
  files : List Files
  native : NativeMap
  capabilities : Capabilities P

def topLevelPrecedence : Precedence := ⟨255, by decide⟩

variable {P : Payload → Type} {Files : Type}

def failure {α : Type} (f : String → MergeFailure) : Except String α → Except MergeFailure α
  | .ok a => .ok a
  | .error e => .error (f e)

theorem failure_eq_ok {α : Type} {f : String → MergeFailure} {x : Except String α} {a : α} :
    failure f x = .ok a ↔ x = .ok a := by
  cases x <;> simp [failure]

/-- Track from which bundle the hooks came. -/
def Capabilities.setOrigin (c : Capabilities P) (root : String) : Capabilities P :=
  { c with hooks := c.hooks.map fun h => { h with bundleOrigin := some root } }

/-- Read an optional `bundle.yaml`. -/
def readBundleYaml (disk : Disk Files) (parser : Parser P) (root name : String) :
    Except MergeFailure (Option (Capabilities P)) := do
  let text ← failure (.reading name) (disk.bundleYaml root)
  match text with
  | none => .ok none
  | some s => do
      let caps ← failure (.parsing name) (parser.parse s)
      failure (.invalid name) (parser.checkBundle (caps.setOrigin root))
      .ok (some (caps.setOrigin root))

/-- What one bundle contributes. -/
def contributorOf (b : BundleRef) (caps : Capabilities P) : CapabilityContributor P :=
  ⟨"bundle '" ++ b.name ++ "'", b.precedence, caps⟩

/-- The loop over the bundles. -/
def readBundles (disk : Disk Files) (parser : Parser P) :
    List BundleRef → Except MergeFailure (List Files × List (CapabilityContributor P))
  | [] => .ok ([], [])
  | b :: bundles => do
      let files ← failure (.reading b.name) (disk.files b)
      let caps ← readBundleYaml disk parser b.path b.name
      let rest ← readBundles disk parser bundles
      .ok (files :: rest.1, (caps.map (contributorOf b)).toList ++ rest.2)

def topContributors (topLevel : Capabilities P) : List (CapabilityContributor P) :=
  if topLevel.isEmpty then [] else [⟨"config.yaml", topLevelPrecedence, topLevel⟩]

/-- The first memory entry whose `server_host` has no entry in the merged `host:` table. -/
def missingHost (caps : Capabilities P) : Option String :=
  ((caps.list .memory).find? fun m => (Fields.get m.serverHost caps.host.items).isNone).map
    Memory.serverHost

/-- The effort level of an enabled slippage control, where no level is set. -/
def propagateEffort (caps : Capabilities P) : Capabilities P :=
  match caps.effortLevel, caps.features.bind Features.slippage with
  | none, some s => if s.enabled then { caps with effortLevel := s.effortLevel } else caps
  | _, _ => caps

/-- The top-level `native:` block over those of the bundles. -/
def mergeNative (merged native : NativeMap) : NativeMap :=
  native.items.foldl (fun m e => m.insert e.1 (mergeFragment (Fields.get e.1 m.items) e.2)) merged

def merge [∀ k, DecidableEq (P k)] (home : Home) (disk : Disk Files) (parser : Parser P)
    (topLevel : Capabilities P) (native : NativeMap) (bundles : List BundleRef) :
    Except MergeFailure (MergedManifest P Files) := do
  let read ← readBundles disk parser bundles
  match mergeCapabilities home (topContributors topLevel ++ read.2) with
  | .error e => .error (.capabilities e)
  | .ok caps =>
      match missingHost caps with
      | some host => .error (.serverHost host)
      | none => do
          failure (.invalid "merged capabilities") (parser.checkMerged (propagateEffort caps))
          .ok ⟨read.1, mergeNative caps.native native, propagateEffort caps⟩

/-! ## The signature -/

/-- What the signature reads of a bundle; without a file the text is empty. -/
structure BundleInput where
  name : String
  precedence : Precedence
  yaml : Except String String

def Disk.input (disk : Disk Files) (b : BundleRef) : BundleInput :=
  ⟨b.name, b.precedence, (disk.bundleYaml b.path).map fun text => text.getD ""⟩

def byte (p : Precedence) : Except String Bytes := .ok [UInt8.ofNat p.val]

def bundleBytes : BundleInput → Except String Bytes :=
  seq [fun b => text b.name, fun b => byte b.precedence, fun b => do
    let yaml ← b.yaml
    text yaml]

/-- `serde_yaml::to_string`, for the capabilities and for a value. -/
structure Printer (P : Payload → Type) where
  capabilities : Capabilities P → Except String String
  value : Value → Except String String

/-- The inputs of a merge, as far as the signature reads them. -/
structure SignatureInput (P : Payload → Type) where
  topLevel : Capabilities P
  native : NativeMap
  bundles : List BundleInput

def signatureBytes (printer : Printer P) : SignatureInput P → Except String Bytes :=
  seq [fun i => do
      let yaml ← printer.capabilities i.topLevel
      text yaml,
    fun i => list (seq [fun e : String × Value => text e.1, fun e => do
      let yaml ← printer.value e.2
      text yaml]) i.native.items,
    fun i => list bundleBytes (sortByKey BundleInput.name i.bundles)]

/-- The bytes that `merge_signature` hashes. -/
def mergeSignature (printer : Printer P) (disk : Disk Files) (topLevel : Capabilities P)
    (native : NativeMap) (bundles : List BundleRef) : Except String Bytes :=
  signatureBytes printer ⟨topLevel, native, bundles.map disk.input⟩

/-! ## What a signature says -/

/-- The capabilities without what their YAML text leaves out. -/
def Capabilities.yaml (c : Capabilities P) : Capabilities P :=
  { c with
    hooks := c.hooks.map fun h => { h with bundleOrigin := none }
    advisorSize := none }

theorem yaml_of_isEmpty {c : Capabilities P} (h : c.isEmpty = true) (hfeatures : c.features = none) :
    c.yaml = .empty := by
  simp only [Capabilities.isEmpty, Permissions.isEmpty, Bool.and_eq_true, List.isEmpty_iff,
    Option.isNone_iff_eq_none] at h
  obtain ⟨⟨mode, preset, allow, ask, deny⟩, hooks, plugins, mcp, lsp, skills, styles, ⟨env, _⟩, auto,
    effort, ⟨modelEffort, _⟩, advisor, size, ⟨permissions, _⟩, ⟨nhooks, _⟩, ⟨nplugins, _⟩, ⟨nmcp, _⟩,
    ⟨nproviders, _⟩, ⟨ndefaults, _⟩, ⟨native, _⟩, features, ⟨host, _⟩, providers, ⟨models, _⟩⟩ := c
  simp only at h hfeatures
  subst hfeatures
  simp_all [Capabilities.yaml, Capabilities.empty, Permissions.empty, SortedMap.empty]

/-- Capabilities with one text differ only in what is left out of it. -/
def Printer.Injective (printer : Printer P) : Prop :=
  ∀ c d s, printer.capabilities c = .ok s → printer.capabilities d = .ok s → c.yaml = d.yaml

theorem reads_byte : Reads Eq byte := by
  intro a b x y r s hx hy h
  obtain rfl := Except.ok.inj hx
  obtain rfl := Except.ok.inj hy
  obtain ⟨hbyte, hrest⟩ := List.cons_eq_cons.mp h
  have hval : a.val = b.val := by simpa using congrArg UInt8.toNat hbyte
  exact ⟨Fin.ext hval, hrest⟩

/-- A text that another function gives is read back with a value of that function. -/
theorem reads_via {α : Type} (f : α → Except String String) :
    Reads (fun a b => ∃ s, f a = .ok s ∧ f b = .ok s) (fun a => do
      let yaml ← f a
      text yaml) := by
  intro a b x y r s hx hy h
  obtain ⟨t, ht, hx⟩ := bind_eq_ok.mp hx
  obtain ⟨u, hu, hy⟩ := bind_eq_ok.mp hy
  obtain ⟨rfl, hrest⟩ := reads_text _ _ _ _ _ _ hx hy h
  exact ⟨⟨t, ht, hu⟩, hrest⟩

theorem reads_bundleBytes : Reads Eq bundleBytes := by
  refine (reads_seq (reads_text.comap BundleInput.name)
    (reads_seq (reads_byte.comap BundleInput.precedence)
      (reads_seq (reads_via BundleInput.yaml) reads_seq_nil))).weaken ?_
  rintro ⟨name, precedence, yaml⟩ ⟨name', precedence', yaml'⟩ ⟨hname, hprec, ⟨s, hs, hs'⟩, -⟩
  obtain rfl : name = name' := hname
  obtain rfl : precedence = precedence' := hprec
  obtain rfl : yaml = .ok s := hs
  obtain rfl : yaml' = .ok s := hs'
  rfl

/-- Inputs with one signature. -/
def SameSigned (i j : SignatureInput P) : Prop :=
  i.topLevel.yaml = j.topLevel.yaml ∧ i.bundles.Perm j.bundles

theorem reads_signatureBytes {printer : Printer P} (hprint : printer.Injective) :
    Reads SameSigned (signatureBytes printer) := by
  refine (reads_seq ((reads_via printer.capabilities).comap SignatureInput.topLevel)
    (reads_seq ((reads_list (reads_seq (reads_text.comap Prod.fst)
        (reads_seq ((reads_via printer.value).comap Prod.snd) reads_seq_nil))).comap
          fun i : SignatureInput P => i.native.items)
      (reads_seq ((reads_list reads_bundleBytes).comap
        fun i : SignatureInput P => sortByKey BundleInput.name i.bundles)
        reads_seq_nil))).weaken ?_
  rintro i j ⟨⟨s, hi, hj⟩, -, hbundles, -⟩
  refine ⟨hprint _ _ s hi hj, ?_⟩
  have heq : sortByKey BundleInput.name i.bundles = sortByKey BundleInput.name j.bundles :=
    List.forall₂_eq_eq_eq ▸ hbundles
  have hi : i.bundles.Perm (sortByKey BundleInput.name i.bundles) := (sortByKey_perm _ _).symm
  rw [heq] at hi
  exact hi.trans (sortByKey_perm _ _)

/-! ## What the bundles contribute -/

/-- What `bundle.yaml` declares. -/
def capsOf (parser : Parser P) (i : BundleInput) : Option (Capabilities P) :=
  match i.yaml with
  | .error _ => none
  | .ok s => (parser.parse s).toOption

/-- A part of the capabilities that the signature covers. -/
structure Sliced {β : Type} (parser : Parser P) (pick : Capabilities P → List β) : Prop where
  origin : ∀ c root, pick (c.setOrigin root) = pick c
  yaml : ∀ c : Capabilities P, pick c.yaml = pick c
  isEmpty : ∀ c : Capabilities P, c.isEmpty = true → pick c = []
  emptyText : ∀ c, parser.parse "" = .ok c → pick c = []

section

variable {β : Type} {disk : Disk Files} {parser : Parser P} {pick : Capabilities P → List β}

def pickInput (parser : Parser P) (pick : Capabilities P → List β) (i : BundleInput) : List β :=
  ((capsOf parser i).map pick).getD []

/-- A missing file is as good as an empty text. -/
theorem pick_readBundleYaml (hpick : Sliced parser pick) {b : BundleRef}
    {caps : Option (Capabilities P)} (h : readBundleYaml disk parser b.path b.name = .ok caps) :
    (caps.map pick).getD [] = pickInput parser pick (disk.input b) := by
  obtain ⟨t, ht, h⟩ := bind_eq_ok.mp h
  have htext : disk.bundleYaml b.path = .ok t := failure_eq_ok.mp ht
  have hyaml : (disk.input b).yaml = .ok (t.getD "") := by
    show (disk.bundleYaml b.path).map _ = _
    rw [htext]
    rfl
  rw [pickInput, capsOf, hyaml]
  cases t with
  | none =>
      obtain rfl := Except.ok.inj h
      show [] = ((parser.parse "").toOption.map pick).getD []
      cases hparse : parser.parse "" with
      | error e => rfl
      | ok c => exact (hpick.emptyText c hparse).symm
  | some s =>
      obtain ⟨c, hc, h⟩ := bind_eq_ok.mp h
      obtain ⟨-, h⟩ := bind_unit_eq_ok h
      obtain rfl := Except.ok.inj h
      show pick (c.setOrigin b.path) = ((parser.parse s).toOption.map pick).getD []
      rw [failure_eq_ok.mp hc]
      exact hpick.origin c b.path

/-- The bundles of one precedence, in their order. -/
theorem flatMap_readBundles (hpick : Sliced parser pick) {bundles : List BundleRef}
    {read : List Files × List (CapabilityContributor P)}
    (h : readBundles disk parser bundles = .ok read) (p : Precedence) :
    (read.2.filter fun c => c.precedence = p).flatMap (fun c => pick c.capabilities) =
      ((bundles.map disk.input).filter fun i => i.precedence = p).flatMap
        (pickInput parser pick) := by
  induction bundles generalizing read with
  | nil =>
      obtain rfl := Except.ok.inj h
      rfl
  | cons b bundles ih =>
      obtain ⟨files, -, h⟩ := bind_eq_ok.mp h
      obtain ⟨caps, hcaps, h⟩ := bind_eq_ok.mp h
      obtain ⟨rest, hrest, h⟩ := bind_eq_ok.mp h
      obtain rfl := Except.ok.inj h
      have hpicked := pick_readBundleYaml hpick hcaps
      rw [List.map_cons, List.filter_append, List.flatMap_append, ih hrest]
      have hprec : (disk.input b).precedence = b.precedence := rfl
      by_cases hp : b.precedence = p
      · rw [List.filter_cons_of_pos (by simpa [hprec] using hp), List.flatMap_cons, ← hpicked]
        cases caps with
        | none => rfl
        | some c => simp [contributorOf, hp]
      · rw [List.filter_cons_of_neg (by simpa [hprec] using hp)]
        cases caps with
        | none => rfl
        | some c => simp [contributorOf, hp]

/-- What is contributed at one precedence. -/
def tier (parser : Parser P) (pick : Capabilities P → List β) (i : SignatureInput P)
    (p : Precedence) : List β :=
  (if topLevelPrecedence = p then pick i.topLevel else []) ++
    (i.bundles.filter fun b => b.precedence = p).flatMap (pickInput parser pick)

theorem flatMap_contributors (hpick : Sliced parser pick) {topLevel : Capabilities P}
    {native : NativeMap} {bundles : List BundleRef}
    {read : List Files × List (CapabilityContributor P)}
    (h : readBundles disk parser bundles = .ok read) (p : Precedence) :
    ((topContributors topLevel ++ read.2).filter fun c => c.precedence = p).flatMap
        (fun c => pick c.capabilities) =
      tier parser pick ⟨topLevel, native, bundles.map disk.input⟩ p := by
  rw [List.filter_append, List.flatMap_append, flatMap_readBundles hpick h, tier, topContributors]
  congr 1
  cases hempty : topLevel.isEmpty with
  | true =>
      rw [hpick.isEmpty topLevel hempty]
      simp
  | false =>
      by_cases hp : topLevelPrecedence = p
      · simp [hp]
      · simp [hp]

/-- The tiers of inputs with one signature have the same elements. -/
theorem mem_tier (hpick : Sliced parser pick) {i j : SignatureInput P} (h : SameSigned i j)
    (p : Precedence) (x : β) : x ∈ tier parser pick i p ↔ x ∈ tier parser pick j p := by
  obtain ⟨htop, hperm⟩ := h
  have hpicked : pick i.topLevel = pick j.topLevel := by
    rw [← hpick.yaml, htop, hpick.yaml]
  rw [tier, tier, List.mem_append, List.mem_append, hpicked, List.mem_flatMap, List.mem_flatMap]
  simp only [List.mem_filter, hperm.mem_iff]

end

/-! ## The slice that is kept -/

section

variable [∀ k, DecidableEq (P k)] {home : Home} {disk : Disk Files} {parser : Parser P}

/-- What `merge` gives, before the effort level is propagated. -/
theorem merge_ok {topLevel : Capabilities P} {native : NativeMap} {bundles : List BundleRef}
    {m : MergedManifest P Files}
    (h : merge home disk parser topLevel native bundles = .ok m) :
    ∃ read caps, readBundles disk parser bundles = .ok read ∧
      mergeCapabilities home (topContributors topLevel ++ read.2) = .ok caps ∧
      m.capabilities = propagateEffort caps := by
  obtain ⟨read, hread, h⟩ := bind_eq_ok.mp h
  refine ⟨read, ?_⟩
  cases hcaps : mergeCapabilities home (topContributors topLevel ++ read.2) with
  | error e =>
      rw [hcaps] at h
      exact absurd h (by simp)
  | ok caps =>
      rw [hcaps] at h
      refine ⟨caps, hread, rfl, ?_⟩
      cases hmissing : missingHost caps with
      | some host =>
          simp only [hmissing] at h
          exact absurd h (by simp)
      | none =>
          simp only [hmissing] at h
          obtain ⟨-, h⟩ := bind_unit_eq_ok h
          obtain rfl := Except.ok.inj h
          rfl

/-- Exactly the server hosts that no contributor declares are missing. -/
theorem missingHost_eq_none_iff {cs : List (CapabilityContributor P)} {caps : Capabilities P}
    (h : mergeCapabilities home cs = .ok caps) :
    missingHost caps = none ↔ ∀ c ∈ cs, ∀ m ∈ c.capabilities.list .memory,
      ∃ d ∈ cs, pickKey m.serverHost (fun c => c.host) d.capabilities ≠ none := by
  have hmerged := merged_of_ok h
  have hhost : ∀ key, Fields.get key caps.host.items ≠ none ↔
      ∃ d ∈ cs, pickKey key (fun c => c.host) d.capabilities ≠ none := by
    intro key
    have hhigh := (resolvePerKey_ok_iff.mp (hmerged.maps .host) key).2
    have hget : Fields.get key (caps.mapOf .host).items = Fields.get key caps.host.items := rfl
    rw [hget] at hhigh
    cases hv : Fields.get key caps.host.items with
    | none =>
        rw [hv] at hhigh
        refine ⟨fun hne => absurd rfl hne, ?_⟩
        rintro ⟨d, hd, hne⟩
        exact absurd (hhigh d hd) hne
    | some v =>
        rw [hv] at hhigh
        obtain ⟨d, hd, hpick, -⟩ := hhigh
        have hne : pickKey key (fun c => c.host) d.capabilities ≠ none := by
          intro hnone
          exact absurd (hnone.symm.trans hpick) (by simp)
        exact iff_of_true (by simp) ⟨d, hd, hne⟩
  have hmem : ∀ m, m ∈ caps.list .memory ↔ ∃ c ∈ cs, m ∈ c.capabilities.list .memory :=
    fun m => hmerged.lists .memory m
  rw [missingHost, Option.map_eq_none_iff, List.find?_eq_none]
  constructor
  · intro hall c hc m hm
    have hnone := hall m ((hmem m).mpr ⟨c, hc, hm⟩)
    exact (hhost _).mp fun hget => hnone (by simp [hget])
  · intro hall m hm hnone
    obtain ⟨c, hc, hm⟩ := (hmem m).mp hm
    exact (hhost _).mpr (hall c hc m hm) (Option.isNone_iff_eq_none.mp hnone)

omit [∀ k, DecidableEq (P k)] in
theorem propagateEffort_slice (caps : Capabilities P) :
    (propagateEffort caps).host = caps.host ∧
      (propagateEffort caps).list .memory = caps.list .memory := by
  rw [propagateEffort]
  split
  · split
    · exact ⟨rfl, rfl⟩
    · exact ⟨rfl, rfl⟩
  · exact ⟨rfl, rfl⟩

/-- The merged memory list, from the tiers. -/
def memoryOf (parser : Parser P) (i : SignatureInput P) : List (Memory P) :=
  dedup ((List.finRange 256).flatMap (tier parser (fun c => c.list .memory) i))

omit [∀ k, DecidableEq (P k)] in
/-- What all contributors have for a list, in the order of the merge. -/
theorem concat_eq_flatMap {α : Type} (cs : List (CapabilityContributor P))
    (f : Capabilities P → List α) :
    concat (sortByKey CapabilityContributor.precedence cs) f =
      (List.finRange 256).flatMap fun p =>
        (cs.filter fun c => c.precedence = p).flatMap fun c => f c.capabilities := by
  have hranks : (List.finRange 256).Pairwise (· < ·) := List.pairwise_lt_finRange 256
  rw [concat, sortByKey_eq_flatMap hranks fun c _ => List.mem_finRange _, List.flatMap_assoc]

theorem memory_of_merge (hpick : Sliced parser fun c => c.list .memory)
    {topLevel : Capabilities P} {native : NativeMap} {bundles : List BundleRef}
    {m : MergedManifest P Files} (h : merge home disk parser topLevel native bundles = .ok m) :
    m.capabilities.list .memory =
      memoryOf parser ⟨topLevel, native, bundles.map disk.input⟩ := by
  obtain ⟨read, caps, hread, hcaps, hm⟩ := merge_ok h
  rw [hm, (propagateEffort_slice caps).2, (merged_of_ok hcaps).memory, concat_eq_flatMap, memoryOf]
  congr 1
  exact List.flatMap_congr fun p _ => flatMap_contributors hpick hread p

omit [∀ k, DecidableEq (P k)] in
/-- Who sets a host is found in the tiers. -/
theorem exists_contributor (native : NativeMap) (key : String)
    (hpick : Sliced parser fun c => (pickKey key (fun c => c.host) c).toList)
    {topLevel : Capabilities P} {bundles : List BundleRef}
    {read : List Files × List (CapabilityContributor P)}
    (h : readBundles disk parser bundles = .ok read) (p : Precedence) (v : HostEntry) :
    (∃ c ∈ topContributors topLevel ++ read.2, c.precedence = p ∧
        pickKey key (fun c => c.host) c.capabilities = some v) ↔
      v ∈ tier parser (fun c => (pickKey key (fun c => c.host) c).toList)
        ⟨topLevel, native, bundles.map disk.input⟩ p := by
  rw [← flatMap_contributors hpick h, List.mem_flatMap]
  refine exists_congr fun c => ?_
  simp only [List.mem_filter, decide_eq_true_eq, Option.mem_toList, and_assoc]

end

section

variable {parser : Parser P}

theorem features_of_isEmpty {c : Capabilities P} (h : c.isEmpty = true) :
    c.list .memory = [] ∧ c.host = .empty := by
  simp only [Capabilities.isEmpty, Bool.and_eq_true] at h
  have hfeatures : c.features.all Features.isEmpty = true := h.1.1.1.2
  have hhost : c.host.items.isEmpty = true := h.1.1.2
  constructor
  · show (c.features.map Features.memory).getD [] = []
    cases hf : c.features with
    | none => rfl
    | some f =>
        rw [hf] at hfeatures
        have hf : f.isEmpty = true := hfeatures
        rw [Features.eq_empty hf]
        rfl
  · exact SortedMap.ext_get fun key => by rw [List.isEmpty_iff.mp hhost]; rfl

/-- Without a text there is no memory entry and no host. -/
def Parser.EmptyDeclaresNothing (parser : Parser P) : Prop :=
  ∀ c, parser.parse "" = .ok c → c.list .memory = [] ∧ c.host = .empty

theorem sliced_memory (h : parser.EmptyDeclaresNothing) :
    Sliced parser fun c => c.list .memory where
  origin _ _ := rfl
  yaml _ := rfl
  isEmpty _ hempty := (features_of_isEmpty hempty).1
  emptyText c hparse := (h c hparse).1

theorem sliced_host (h : parser.EmptyDeclaresNothing) (key : String) :
    Sliced parser fun c => (pickKey key (fun c => c.host) c).toList where
  origin _ _ := rfl
  yaml _ := rfl
  isEmpty c hempty := by
    rw [pickKey, (features_of_isEmpty hempty).2]
    rfl
  emptyText c hparse := by
    rw [pickKey, (h c hparse).2]
    rfl

end

/-- The bundles of each precedence stand in the same order. -/
def SameOrder (inputs inputs' : List BundleInput) : Prop :=
  ∀ p, (inputs.filter fun b => b.precedence = p) = inputs'.filter fun b => b.precedence = p

theorem sameSigned {printer : Printer P} (hprint : printer.Injective) {disk disk' : Disk Files}
    {topLevel topLevel' : Capabilities P} {native native' : NativeMap}
    {bundles bundles' : List BundleRef} {x : Bytes}
    (h : mergeSignature printer disk topLevel native bundles = .ok x)
    (h' : mergeSignature printer disk' topLevel' native' bundles' = .ok x) :
    SameSigned ⟨topLevel, native, bundles.map disk.input⟩
      ⟨topLevel', native', bundles'.map disk'.input⟩ :=
  (reads_signatureBytes hprint).eq h h'

section

variable [∀ k, DecidableEq (P k)] {parser : Parser P} {home home' : Home}
  {disk disk' : Disk Files} {topLevel topLevel' : Capabilities P} {native native' : NativeMap}
  {bundles bundles' : List BundleRef} {m m' : MergedManifest P Files}

theorem host_eq (hempty : parser.EmptyDeclaresNothing)
    (hm : merge home disk parser topLevel native bundles = .ok m)
    (hm' : merge home' disk' parser topLevel' native' bundles' = .ok m')
    (h : SameSigned ⟨topLevel, native, bundles.map disk.input⟩
      ⟨topLevel', native', bundles'.map disk'.input⟩) :
    m.capabilities.host = m'.capabilities.host := by
  obtain ⟨read, caps, hread, hcaps, heq⟩ := merge_ok hm
  obtain ⟨read', caps', hread', hcaps', heq'⟩ := merge_ok hm'
  rw [heq, heq', (propagateEffort_slice caps).1, (propagateEffort_slice caps').1]
  refine SortedMap.ext_get fun key => ?_
  have hpick := sliced_host hempty key
  have hhost := resolvePerKey_ok_iff.mp ((merged_of_ok hcaps).maps .host) key
  have hhost' := resolvePerKey_ok_iff.mp ((merged_of_ok hcaps').maps .host) key
  refine highest_unique hhost.1 hhost.2 (Highest.congr (fun p v => ?_) hhost'.2)
  have htier := (exists_contributor native key hpick hread p v).trans
    (mem_tier hpick h p v)
  exact (htier.trans (exists_contributor native' key hpick hread' p v).symm).symm

theorem mem_memoryOf (hempty : parser.EmptyDeclaresNothing) {i j : SignatureInput P}
    (h : SameSigned i j) (x : Memory P) : x ∈ memoryOf parser i ↔ x ∈ memoryOf parser j := by
  rw [memoryOf, memoryOf, mem_dedup, mem_dedup, List.mem_flatMap, List.mem_flatMap]
  exact exists_congr fun p => and_congr_right fun _ => mem_tier (sliced_memory hempty) h p x

theorem memoryOf_of_sameOrder (hempty : parser.EmptyDeclaresNothing) {i j : SignatureInput P}
    (h : SameSigned i j) (horder : SameOrder i.bundles j.bundles) :
    memoryOf parser i = memoryOf parser j := by
  have htop : i.topLevel.list .memory = j.topLevel.list .memory := by
    rw [← (sliced_memory hempty).yaml, h.1, (sliced_memory hempty).yaml]
  rw [memoryOf, memoryOf]
  congr 1
  exact List.flatMap_congr fun p _ => by rw [tier, tier, htop, horder p]

end

/-! ## Two bundles of one precedence -/

/-- A bundle that declares a host and the memory server on it. -/
def declares (host : String) : Capabilities fun _ => Unit :=
  { (Capabilities.empty : Capabilities fun _ => Unit) with
    host := SortedMap.empty.insert host ⟨host ++ ".local"⟩
    features := some { (Features.empty : Features fun _ => Unit) with memory := [⟨host, ()⟩] } }

def declaresYaml (host : String) : String :=
  "host:\n  " ++ host ++ ":\n    addr: " ++ host ++ ".local\nfeatures:\n  memory:\n" ++
    "    - server_host: " ++ host ++ "\n      port: 7878\n"

def twoHosts : Parser fun _ => Unit where
  parse s :=
    if s = declaresYaml "still" then .ok (declares "still")
    else if s = declaresYaml "north" then .ok (declares "north")
    else .error "invalid type: unit value, expected struct Capabilities"
  checkBundle _ := .ok ()
  checkMerged _ := .ok ()

/-- The name of the bundle is the host that it declares. -/
def hostDisk : Disk Unit where
  bundleYaml path := .ok (some (declaresYaml path))
  files _ := .ok ()

def hostBundle (host : String) : BundleRef := ⟨host, host, ⟨4, by decide⟩⟩

/-- The text of capabilities in which nothing is set. -/
def emptyYaml : String :=
  "permissions:\n  allow: []\n  ask: []\n  deny: []\nhooks: []\nplugins: []\nmcp: []\nlsp: []\n" ++
    "skills: []\noutput_styles: []\nhost: \x7b\x7d\nmodel_providers: []\n"

def emptyPrinter : Printer fun _ => Unit where
  capabilities c :=
    if c.isEmpty && c.features.isNone then .ok emptyYaml else .error "not covered"
  value _ := .error "not covered"

theorem emptyPrinter_injective : emptyPrinter.Injective := by
  have hempty : ∀ c s, emptyPrinter.capabilities c = .ok s → c.yaml = .empty := by
    intro c s h
    by_cases hc : (c.isEmpty && c.features.isNone) = true
    · obtain ⟨hempty, hfeatures⟩ := Bool.and_eq_true_iff.mp hc
      exact yaml_of_isEmpty hempty (Option.isNone_iff_eq_none.mp hfeatures)
    · have hnone : emptyPrinter.capabilities c = .error "not covered" := if_neg hc
      rw [hnone] at h
      exact absurd h (by simp)
  intro c d s hc hd
  rw [hempty c s hc, hempty d s hd]

theorem parse_still : twoHosts.parse (declaresYaml "still") = .ok (declares "still") := by
  simp only [twoHosts, if_true]

theorem parse_north : twoHosts.parse (declaresYaml "north") = .ok (declares "north") := by
  have hne : declaresYaml "north" ≠ declaresYaml "still" := by decide
  simp only [twoHosts, if_neg hne, if_true]

theorem twoHosts_emptyDeclaresNothing : twoHosts.EmptyDeclaresNothing := by
  intro c h
  have hstill : "" ≠ declaresYaml "still" := by decide
  have hnorth : "" ≠ declaresYaml "north" := by decide
  simp only [twoHosts, if_neg hstill, if_neg hnorth] at h
  exact absurd h (by simp)

theorem text_ok {s : String} (h : (utf8 s).length < 256 ^ 8) :
    text s = .ok (leBytes 8 (utf8 s).length ++ utf8 s) := by
  rw [text, lenPrefixed, u64, if_pos h]
  rfl

/-- The bundles are signed in the order of their names. -/
theorem signature_two : ∃ x,
    mergeSignature emptyPrinter hostDisk .empty .empty
        [hostBundle "still", hostBundle "north"] = .ok x ∧
      mergeSignature emptyPrinter hostDisk .empty .empty
        [hostBundle "north", hostBundle "still"] = .ok x := by
  have hsort : sortByKey BundleInput.name
      [hostDisk.input (hostBundle "still"), hostDisk.input (hostBundle "north")] =
        [hostDisk.input (hostBundle "north"), hostDisk.input (hostBundle "still")] := by
    simp [sortByKey, List.mergeSort, List.MergeSort.Internal.splitInTwo, Disk.input, hostBundle]
  have hsort' : sortByKey BundleInput.name
      [hostDisk.input (hostBundle "north"), hostDisk.input (hostBundle "still")] =
        [hostDisk.input (hostBundle "north"), hostDisk.input (hostBundle "still")] := by
    simp [sortByKey, List.mergeSort, List.MergeSort.Internal.splitInTwo, Disk.input, hostBundle]
  have hbytes : ∀ host, (utf8 host).length < 256 ^ 8 → (utf8 (declaresYaml host)).length < 256 ^ 8 →
      ∃ x, bundleBytes (hostDisk.input (hostBundle host)) = .ok x := by
    intro host hname hyaml
    simp only [bundleBytes, seq, Disk.input, hostDisk, hostBundle, Except.map, Option.getD_some,
      text_ok hname, text_ok hyaml, byte, bind, Except.bind]
    exact ⟨_, rfl⟩
  obtain ⟨still, hstill⟩ := hbytes "still" (by decide +kernel) (by decide +kernel)
  obtain ⟨north, hnorth⟩ := hbytes "north" (by decide +kernel) (by decide +kernel)
  have htop : emptyPrinter.capabilities .empty = .ok emptyYaml := rfl
  have htext := text_ok (s := emptyYaml) (by decide +kernel)
  simp only [mergeSignature, signatureBytes, seq, List.map_cons, List.map_nil, hsort, hsort', list,
    items, hstill, hnorth, htop, htext, bind, Except.bind]
  exact ⟨_, rfl, rfl⟩

/-- What is read of a bundle. -/
def hostContributor (host : String) : CapabilityContributor fun _ => Unit :=
  contributorOf (hostBundle host) ((declares host).setOrigin host)

theorem mergeCapabilities_two {h k : String} (hne : h ≠ k) :
    ∃ caps, mergeCapabilities .notPresent [hostContributor h, hostContributor k] = .ok caps ∧
      caps.list .memory = [⟨h, ()⟩, ⟨k, ()⟩] := by
  have hscalar : ∀ (f : ScalarField) (host : String),
      (hostContributor host).capabilities.scalar f = none := by
    intro f host
    cases f <;> rfl
  have hmap : ∀ (f : MapField) (host key : String) (v : f.Value),
      pickKey key (fun c => c.mapOf f) (hostContributor host).capabilities = some v →
        host = key := by
    intro f host key v hv
    cases f with
    | host =>
        have hget := (Fields.get_insert host key _ []).symm.trans hv
        by_contra hkey
        rw [if_neg hkey] at hget
        exact absurd hget (by simp)
    | _ => exact absurd hv (by simp [pickKey, hostContributor, contributorOf, declares,
        Capabilities.setOrigin, Capabilities.mapOf, Capabilities.empty, SortedMap.empty])
  have hnotie : ∀ {V : Type} (pick : Capabilities (fun _ => Unit) → Option V),
      (∀ v w, pick (hostContributor h).capabilities = some v →
        pick (hostContributor k).capabilities = some w → False) →
      NoTie [hostContributor h, hostContributor k] pick := by
    intro V pick hpick c hc d hd _ v w hv hw
    rcases List.mem_pair.mp hc with rfl | rfl <;> rcases List.mem_pair.mp hd with rfl | rfl
    · exact Option.some.inj (hv.symm.trans hw)
    · exact (hpick v w hv hw).elim
    · exact (hpick w v hw hv).elim
    · exact Option.some.inj (hv.symm.trans hw)
  have hok : ∃ caps, mergeCapabilities .notPresent [hostContributor h, hostContributor k] =
      .ok caps := by
    refine mergeCapabilities_ok_iff.mpr ⟨?_, ?_⟩
    · rintro (⟨f, hf⟩ | ⟨f, key, hf⟩)
      · exact hf (hnotie _ fun v _ hv _ => absurd ((hscalar f h).symm.trans hv) (by simp))
      · exact hf (hnotie _ fun v w hv hw => hne ((hmap f h key v hv).trans (hmap f k key w hw).symm))
    · rintro ⟨c, hc, cm, hcm, -⟩
      rcases List.mem_pair.mp hc with rfl | rfl <;> exact absurd hcm List.not_mem_nil
  obtain ⟨caps, hcaps⟩ := hok
  refine ⟨caps, hcaps, ?_⟩
  have hsort : sortByKey CapabilityContributor.precedence [hostContributor h, hostContributor k] =
      [hostContributor h, hostContributor k] := sortByKey_pair rfl
  rw [(merged_of_ok hcaps).memory, hsort]
  exact dedup_of_nodup (by simp [concat, hostContributor, contributorOf, declares,
    Capabilities.setOrigin, Capabilities.list, hne])

theorem merge_two {h k : String} (hne : h ≠ k)
    (hh : twoHosts.parse (declaresYaml h) = .ok (declares h))
    (hk : twoHosts.parse (declaresYaml k) = .ok (declares k)) :
    ∃ m, merge .notPresent hostDisk twoHosts .empty .empty [hostBundle h, hostBundle k] = .ok m ∧
      m.capabilities.list .memory = [⟨h, ()⟩, ⟨k, ()⟩] := by
  obtain ⟨caps, hcaps, hmemory⟩ := mergeCapabilities_two hne
  have hread : readBundles hostDisk twoHosts [hostBundle h, hostBundle k] =
      .ok ([(), ()], [hostContributor h, hostContributor k]) := by
    simp only [readBundles, readBundleYaml, hostDisk, hostBundle, failure, hh, hk, bind, Except.bind]
    rfl
  have hmissing : missingHost caps = none := by
    refine (missingHost_eq_none_iff hcaps).mpr fun c hc m hm => ⟨c, hc, ?_⟩
    have hserver : ∀ host, c = hostContributor host →
        pickKey m.serverHost (fun c => c.host) c.capabilities ≠ none := by
      rintro host rfl
      obtain rfl := List.mem_singleton.mp hm
      have hget := Fields.get_insert host host (⟨host ++ ".local"⟩ : HostEntry) []
      rw [if_pos rfl] at hget
      exact fun hnone => absurd (hnone.symm.trans hget) (by simp)
    rcases List.mem_pair.mp hc with hc | hc
    · exact hserver h hc
    · exact hserver k hc
  refine ⟨⟨[(), ()], mergeNative caps.native .empty, propagateEffort caps⟩, ?_, ?_⟩
  · have htop : topContributors (Capabilities.empty : Capabilities fun _ => Unit) ++
        [hostContributor h, hostContributor k] = [hostContributor h, hostContributor k] := rfl
    simp only [merge, hread, bind, Except.bind, htop, hcaps, hmissing]
    rfl
  · rw [← hmemory]
    exact (propagateEffort_slice caps).2

end Llmenv.Merge
