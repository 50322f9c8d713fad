/-
# `Llmenv.Materialize.Hash` — the content hash of a manifest

`hash_manifest` of `src/materialize/cache.rs`: the bytes that are given to
SHA-256, and `stale_status` of `stale.rs`, which compares the hash an agent was
started with to the one of now.  `reads_preImage` says what the bytes determine
of a manifest.

The YAML text of a value, the content of a file and SHA-256 are parameters.
-/
import Llmenv.Lib.Encode
import Llmenv.Manifest.Data

namespace Llmenv.Materialize

open Llmenv.Lib Llmenv.Lib.Encode Llmenv.Manifest

/-- What hashing reads from outside the manifest. -/
structure Hasher where
  /-- The content of a file, up to the size that is accepted. -/
  asset : String → Except String Bytes
  yamlToString : Yaml → Except String String
  sha256Hex : Bytes → String

/-- `{transport:?}`. -/
def transportDebug : RemoteTransport → String
  | .http => "Http"
  | .sse => "Sse"

def kindBytes : ResolvedKind → Except String Bytes
  | .stdio command args env => do
      let rest ← seq [fun k : String × List String × SortedMap String String => text k.1,
        fun k => list text k.2.1,
        fun k => list (seq [fun e : String × String => text e.1, fun e => text e.2]) k.2.2.items]
        (command, args, env)
      .ok (0 :: rest)
  | .remote url transport => do
      let rest ← seq [fun k : String × RemoteTransport => text k.1,
        fun k => text (transportDebug k.2)] (url, transport)
      .ok (1 :: rest)

/-- A map of fragments: the engines and the YAML text of each value. -/
def nativeMapBytes (h : Hasher) (what : String) (map : SortedMap String Yaml) :
    Except String Bytes :=
  list (seq [fun e : String × Yaml => text e.1,
    fun e =>
      match h.yamlToString e.2 with
      | .ok serialized => text serialized
      | .error err =>
          let key := e.1
          .error s!"serializing {what} key '{key}': {err}"]) map.items

def hashNativeCapabilityMap (h : Hasher) (map : SortedMap String Yaml) : Except String Bytes :=
  nativeMapBytes h "native capability" map

/-- The bytes that are hashed. -/
def preImage (h : Hasher) : MergedManifest → Except String Bytes :=
  seq
    [fun m => text m.agentsMd,
     fun m => list (seq [fun f : String × String => text f.1, fun f => do
       let bytes ← h.asset f.2
       lenPrefixed bytes]) m.files,
     fun m => list (seq [fun r : RuleFile => text r.bundle, fun r => text r.rel,
       fun r => text r.raw]) m.rules,
     fun m => list (seq [fun mcp : ResolvedMcp => text mcp.name, fun mcp => kindBytes mcp.kind])
       m.mcps,
     fun m => list (seq [fun p : ResolvedPlugin => text p.marketplace, fun p => text p.plugin,
       fun p => text (p.gitCommitSha.getD "")]) m.plugins,
     fun m => list (seq [fun mk : ResolvedMarketplace => text mk.name, fun mk => text mk.source,
       fun mk => text (mk.head.getD ""), fun mk => text (mk.installLocation.getD "")])
       m.marketplaces,
     fun m => nativeMapBytes h "native" m.native,
     fun m => hashNativeCapabilityMap h m.capabilities.nativeHooks,
     fun m => hashNativeCapabilityMap h m.capabilities.nativePlugins,
     fun m => hashNativeCapabilityMap h m.capabilities.nativeMcp,
     fun m => hashNativeCapabilityMap h m.capabilities.nativeModelProviders]

def hashManifest (h : Hasher) (m : MergedManifest) : Except String String :=
  (preImage h m).map h.sha256Hex

inductive StaleStatus where
  | fresh
  | stale (booted current : String)
  | unknown
deriving DecidableEq

def staleStatus : Option String → String → StaleStatus
  | none, _ => .unknown
  | some b, current => if b = current then .fresh else .stale b current

/-! ## What the bytes determine -/

/-- What the hash sees of a server. -/
def SameServer (a b : ResolvedMcp) : Prop := a.name = b.name ∧ a.kind = b.kind

def SamePlugin (a b : ResolvedPlugin) : Prop :=
  a.marketplace = b.marketplace ∧ a.plugin = b.plugin ∧
    a.gitCommitSha.getD "" = b.gitCommitSha.getD ""

/-- No location and an empty one are written the same. -/
def SameMarketplace (a b : ResolvedMarketplace) : Prop :=
  a.name = b.name ∧ a.source = b.source ∧ a.head.getD "" = b.head.getD "" ∧
    a.installLocation.getD "" = b.installLocation.getD ""

/-- The part of the manifests that is hashed is the same.  (Files and rules, which
are hashed too, are not needed below.) -/
structure SameHashed (m m' : MergedManifest) : Prop where
  agentsMd : m.agentsMd = m'.agentsMd
  mcps : List.Forall₂ SameServer m.mcps m'.mcps
  plugins : List.Forall₂ SamePlugin m.plugins m'.plugins
  marketplaces : List.Forall₂ SameMarketplace m.marketplaces m'.marketplaces
  native : m.native.items = m'.native.items
  nativeHooks : m.capabilities.nativeHooks.items = m'.capabilities.nativeHooks.items
  nativePlugins : m.capabilities.nativePlugins.items = m'.capabilities.nativePlugins.items
  nativeMcp : m.capabilities.nativeMcp.items = m'.capabilities.nativeMcp.items
  nativeModelProviders :
    m.capabilities.nativeModelProviders.items = m'.capabilities.nativeModelProviders.items

theorem transportDebug_inj {a b : RemoteTransport} (h : transportDebug a = transportDebug b) :
    a = b := by
  cases a <;> cases b <;> simp_all [transportDebug]

theorem sortedMap_ext {κ β : Type} [LinearOrder κ] {a b : SortedMap κ β}
    (h : a.items = b.items) : a = b := by
  cases a
  cases b
  cases h
  rfl

theorem forall₂_pair_eq {α β : Type} {l l' : List (α × β)}
    (h : List.Forall₂ (fun a b => a.1 = b.1 ∧ a.2 = b.2 ∧ True) l l') : l = l' := by
  refine List.forall₂_eq_eq_eq ▸ h.imp fun a b hab => Prod.ext hab.1 hab.2.1

theorem reads_kindBytes : Reads Eq kindBytes := by
  have hstdio := reads_seq (reads_text.comap fun k : String × List String × SortedMap String String => k.1)
    (reads_seq ((reads_list reads_text).comap fun k => k.2.1)
      (reads_seq ((reads_list (reads_seq (reads_text.comap fun e : String × String => e.1)
        (reads_seq (reads_text.comap fun e => e.2) reads_seq_nil))).comap
          fun k => k.2.2.items) reads_seq_nil))
  have hremote := reads_seq (reads_text.comap fun k : String × RemoteTransport => k.1)
    (reads_seq (reads_text.comap fun k => transportDebug k.2) reads_seq_nil)
  intro a b x y r s hx hy h
  cases a with
  | stdio command args env =>
      obtain ⟨x', hx', hx⟩ := bind_eq_ok.mp hx
      obtain rfl := Except.ok.inj hx
      cases b with
      | stdio command' args' env' =>
          obtain ⟨y', hy', hy⟩ := bind_eq_ok.mp hy
          obtain rfl := Except.ok.inj hy
          obtain ⟨⟨hcommand, hargs, henv, -⟩, hrest⟩ :=
            hstdio _ _ _ _ _ _ hx' hy' (List.cons.inj h).2
          have henv : env = env' := sortedMap_ext (forall₂_pair_eq henv)
          have hargs : args = args' := List.forall₂_eq_eq_eq ▸ hargs
          have hcommand : command = command' := hcommand
          exact ⟨by rw [hcommand, hargs, henv], hrest⟩
      | remote url transport =>
          obtain ⟨y', -, hy⟩ := bind_eq_ok.mp hy
          obtain rfl := Except.ok.inj hy
          exact absurd (List.cons.inj h).1 (by decide)
  | remote url transport =>
      obtain ⟨x', hx', hx⟩ := bind_eq_ok.mp hx
      obtain rfl := Except.ok.inj hx
      cases b with
      | stdio command' args' env' =>
          obtain ⟨y', -, hy⟩ := bind_eq_ok.mp hy
          obtain rfl := Except.ok.inj hy
          exact absurd (List.cons.inj h).1 (by decide)
      | remote url' transport' =>
          obtain ⟨y', hy', hy⟩ := bind_eq_ok.mp hy
          obtain rfl := Except.ok.inj hy
          obtain ⟨⟨hurl, htransport, -⟩, hrest⟩ :=
            hremote _ _ _ _ _ _ hx' hy' (List.cons.inj h).2
          have hurl : url = url' := hurl
          have htransport : transport = transport' := transportDebug_inj htransport
          exact ⟨by rw [hurl, htransport], hrest⟩

/-- Different YAML values have different texts. -/
def Hasher.YamlInjective (h : Hasher) : Prop :=
  ∀ y y' s, h.yamlToString y = .ok s → h.yamlToString y' = .ok s → y = y'

section

variable {h : Hasher}

theorem reads_yaml (hyaml : h.YamlInjective) (what : String) :
    Reads (fun a b : String × Yaml => a.2 = b.2) (fun e =>
      match h.yamlToString e.2 with
      | .ok serialized => text serialized
      | .error err =>
          let key := e.1
          .error s!"serializing {what} key '{key}': {err}") := by
  intro a b x y r s hx hy heq
  cases ha : h.yamlToString a.2 with
  | error e => exact absurd hx (by simp [ha])
  | ok sa =>
      cases hb : h.yamlToString b.2 with
      | error e => exact absurd hy (by simp [hb])
      | ok sb =>
          simp only [ha] at hx
          simp only [hb] at hy
          obtain ⟨rfl, hrest⟩ := reads_text _ _ _ _ _ _ hx hy heq
          exact ⟨hyaml _ _ _ ha hb, hrest⟩

theorem reads_nativeMap (hyaml : h.YamlInjective) (what : String) :
    Reads (fun a b : SortedMap String Yaml => a.items = b.items) (nativeMapBytes h what) := by
  have hlist := reads_list (reads_seq (reads_text.comap fun e : String × Yaml => e.1)
    (reads_seq (reads_yaml hyaml what) reads_seq_nil))
  exact (hlist.comap fun map : SortedMap String Yaml => map.items).weaken
    fun _ _ => forall₂_pair_eq

/-- The content of a file is not read back here. -/
theorem reads_asset : Reads (fun _ _ : String × String => True) (fun f => do
    let bytes ← h.asset f.2
    lenPrefixed bytes) := by
  intro a b x y r s hx hy heq
  obtain ⟨ba, -, hx⟩ := bind_eq_ok.mp hx
  obtain ⟨bb, -, hy⟩ := bind_eq_ok.mp hy
  exact ⟨trivial, (reads_lenPrefixed _ _ _ _ _ _ hx hy heq).2⟩

theorem reads_preImage (hyaml : h.YamlInjective) : Reads SameHashed (preImage h) := by
  have hmap : Reads (fun a b : SortedMap String Yaml => a.items = b.items)
      (hashNativeCapabilityMap h) := reads_nativeMap hyaml _
  refine (reads_seq (reads_text.comap MergedManifest.agentsMd)
    (reads_seq ((reads_list (reads_seq (reads_text.comap Prod.fst)
        (reads_seq reads_asset reads_seq_nil))).comap MergedManifest.files)
    (reads_seq ((reads_list (reads_seq (reads_text.comap RuleFile.bundle)
        (reads_seq (reads_text.comap RuleFile.rel)
          (reads_seq (reads_text.comap RuleFile.raw) reads_seq_nil)))).comap MergedManifest.rules)
    (reads_seq ((reads_list (reads_seq (reads_text.comap ResolvedMcp.name)
        (reads_seq (reads_kindBytes.comap ResolvedMcp.kind) reads_seq_nil))).comap
          MergedManifest.mcps)
    (reads_seq ((reads_list (reads_seq (reads_text.comap ResolvedPlugin.marketplace)
        (reads_seq (reads_text.comap ResolvedPlugin.plugin)
          (reads_seq (reads_text.comap fun p : ResolvedPlugin => p.gitCommitSha.getD "")
            reads_seq_nil)))).comap MergedManifest.plugins)
    (reads_seq ((reads_list (reads_seq (reads_text.comap ResolvedMarketplace.name)
        (reads_seq (reads_text.comap ResolvedMarketplace.source)
          (reads_seq (reads_text.comap fun mk : ResolvedMarketplace => mk.head.getD "")
            (reads_seq (reads_text.comap
              fun mk : ResolvedMarketplace => mk.installLocation.getD "")
                reads_seq_nil))))).comap MergedManifest.marketplaces)
    (reads_seq ((reads_nativeMap hyaml _).comap MergedManifest.native)
    (reads_seq (hmap.comap fun m : MergedManifest => m.capabilities.nativeHooks)
    (reads_seq (hmap.comap fun m : MergedManifest => m.capabilities.nativePlugins)
    (reads_seq (hmap.comap fun m : MergedManifest => m.capabilities.nativeMcp)
    (reads_seq (hmap.comap fun m : MergedManifest => m.capabilities.nativeModelProviders)
      reads_seq_nil))))))))))).weaken ?_
  rintro m m' ⟨hagents, -, -, hmcps, hplugins, hmarkets, hnative, hhooks, hnplugins, hmcp,
    hproviders, -⟩
  exact
    { agentsMd := hagents
      mcps := hmcps.imp fun a b hab => ⟨hab.1, hab.2.1⟩
      plugins := hplugins.imp fun a b hab => ⟨hab.1, hab.2.1, hab.2.2.1⟩
      marketplaces := hmarkets.imp fun a b hab => ⟨hab.1, hab.2.1, hab.2.2.1, hab.2.2.2.1⟩
      native := hnative
      nativeHooks := hhooks
      nativePlugins := hnplugins
      nativeMcp := hmcp
      nativeModelProviders := hproviders }

end

end Llmenv.Materialize
