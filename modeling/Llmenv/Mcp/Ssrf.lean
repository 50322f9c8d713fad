/-
# `Llmenv.Mcp.Ssrf` — which addresses may an MCP client connect to?

`validate_url_production` judges the address of a literal host, or every
address that a domain resolves to, by `blocked_reason`.  Under
`AllowPrivateNetwork` a second classifier, `is_link_local`, first drops the
link-local addresses of a domain.  `require_https_for_public` then asks for
`https://` unless every address is on the operator's own network.

The URL parser and the resolver are parameters.  `ssrf_gate` is the result for
every policy and every list of resolved addresses.
-/
import Llmenv.Mcp.Cleartext

namespace Llmenv.Mcp

open Llmenv.Lib

/-! ## The code -/

inductive SsrfPolicy where
  | publicOnly
  | allowPrivateNetwork
deriving DecidableEq

inductive Host where
  | domain (name : String)
  | ipv4 (ip : Ipv4)
  | ipv6 (ip : Ipv6)

inductive SocketAddr where
  | v4 (ip : Ipv4) (port : UInt16)
  | v6 (ip : Ipv6) (port : UInt16) (flowinfo scopeId : UInt32)
deriving DecidableEq

def SocketAddr.ip : SocketAddr → IpAddr
  | .v4 ip _ => .v4 ip
  | .v6 ip _ _ _ => .v6 ip

/-- `SocketAddr::new`. -/
def SocketAddr.new (ip : IpAddr) (port : UInt16) : SocketAddr :=
  match ip with
  | .v4 ip => .v4 ip port
  | .v6 ip => .v6 ip port 0 0

@[simp] theorem SocketAddr.ip_new (ip : IpAddr) (port : UInt16) : (new ip port).ip = ip := by
  cases ip <;> rfl

/-- What the code reads of a parsed URL.  `redacted` is the URL without
credentials, query and fragment. -/
structure Url where
  scheme : String
  host : Option Host
  hostStr : Option String
  portOrKnownDefault : Option UInt16
  redacted : String

/-- How a lookup with a timeout ends. -/
inductive Lookup where
  | addrs (resolved : List SocketAddr)
  | failed (error : String)
  | timedOut
  | panicked

/-- The URL parser and the resolver.  A timeout is in nanoseconds. -/
structure Web where
  parse : String → Option Url
  lookup : String → UInt16 → Nat → Lookup
  showTimeout : Nat → String

/-- The IPv4 branch of `blocked_reason`. -/
def blockedReasonV4 (v4 : Ipv4) (policy : SsrfPolicy) : Option String :=
  let blockPrivate := policy = .publicOnly
  if v4.isLoopback then if blockPrivate then some "loopback IPv4" else none
  else if v4.isPrivate then if blockPrivate then some "private IPv4" else none
  else if v4.isLinkLocal then some "link-local IPv4"
  else if v4.isUnspecified then some "unspecified IPv4"
  else if v4.isBroadcast then some "broadcast IPv4"
  else none

/-- Why an address is blocked, or `none` when it is not. -/
def blockedReason (ip : IpAddr) (policy : SsrfPolicy) : Option String :=
  let blockPrivate := policy = .publicOnly
  match ip with
  | .v4 v4 => blockedReasonV4 v4 policy
  | .v6 v6 =>
      match embeddedIpv4 v6 with
      | some embedded => blockedReasonV4 embedded policy
      | none =>
          if v6.isLoopback then if blockPrivate then some "loopback IPv6" else none
          else if v6.isUnspecified then some "unspecified IPv6"
          else if v6.isUnicastLinkLocal then some "link-local IPv6"
          else if isUniqueLocalV6 v6 then
            if blockPrivate then some "unique-local IPv6 (ULA)" else none
          else none

/-- Link-local, also as an IPv4 address in an IPv6 form. -/
def isLinkLocal : IpAddr → Bool
  | .v4 v4 => v4.isLinkLocal
  | .v6 v6 =>
      match embeddedIpv4 v6 with
      | none => v6.isUnicastLinkLocal
      | some v4 => v4.isLinkLocal

section

variable (web : Web)

def redactUrl (url : String) : String :=
  match web.parse url with
  | none => "(invalid URL)"
  | some u => u.redacted

def resolveWithTimeout (host : String) (port : UInt16) (timeout : Nat) :
    Except String (List SocketAddr) :=
  match web.lookup host port timeout with
  | .addrs resolved => .ok resolved
  | .failed e => .error s!"failed to resolve host '{host}': {e}"
  | .timedOut =>
      let shown := web.showTimeout timeout
      .error s!"DNS resolution for host '{host}' timed out after {shown}"
  | .panicked => .error s!"DNS resolution for host '{host}' thread panicked"

/-- Refuse `http://` when an address is outside the operator's own network. -/
def requireHttpsForPublic (url : String) (addrs : List SocketAddr) : Except String Unit :=
  match web.parse url with
  | none => .error "invalid URL"
  | some parsed =>
      if parsed.scheme ≠ "http" then .ok ()
      else
        match addrs.find? (fun a => !isCleartextSafe a.ip) with
        | some addr =>
            let ip := addr.ip.toString
            let host := parsed.hostStr.getD "?"
            let shown := redactUrl web url
            .error s!"refusing cleartext http:// to {ip} ({host}) for {shown}: use https://, or move the server onto a loopback, private, or Tailscale address"
        | none => .ok ()

/-- Drop the link-local addresses of a domain under `AllowPrivateNetwork`. -/
def dropLinkLocalForDomain (resolved : List SocketAddr) (policy : SsrfPolicy) (url : String) :
    Except String (List SocketAddr) :=
  let shown := redactUrl web url
  if resolved.isEmpty then .error s!"host of URL {shown} resolved to no addresses"
  else if policy ≠ .allowPrivateNetwork then .ok resolved
  else
    let (dropped, kept) := resolved.partition (fun a => isLinkLocal a.ip)
    match kept.isEmpty, dropped.head? with
    | true, some first =>
        let ip := first.ip.toString
        .error s!"host of URL {shown} resolved only to link-local address {ip} (SSRF); no routable address is left"
    | _, _ => .ok kept

/-- Refuse a list with a blocked address. -/
def refuseBlocked (policy : SsrfPolicy) : List SocketAddr → Except String Unit
  | [] => .ok ()
  | addr :: addrs =>
      match blockedReason addr.ip policy with
      | some reason =>
          let ip := addr.ip.toString
          .error s!"{reason} address {ip} not allowed (SSRF)"
      | none => refuseBlocked policy addrs

/-- The addresses that the client may connect to, before they are judged. -/
def hostAddrs (host : Host) (port : UInt16) (policy : SsrfPolicy) (timeout : Nat) (url : String) :
    Except String (List SocketAddr) :=
  match host with
  | .ipv4 v4 => .ok [.new (.v4 v4) port]
  | .ipv6 v6 => .ok [.new (.v6 v6) port]
  | .domain name => do
      let resolved ← resolveWithTimeout web name port timeout
      dropLinkLocalForDomain web resolved policy url

def Host.key : Host → String
  | .ipv4 v4 => v4.toString
  | .ipv6 v6 => v6.toString
  | .domain name => name

/-- `validate_url_production`: the host and the addresses that it vetted. -/
def validateUrlProduction (url : String) (policy : SsrfPolicy) (timeout : Nat) :
    Except String (String × List SocketAddr) :=
  match web.parse url with
  | none => .error "invalid URL"
  | some parsed =>
      if parsed.scheme ≠ "http" ∧ parsed.scheme ≠ "https" then
        let scheme := parsed.scheme
        .error s!"unsupported URL scheme '{scheme}' (only http/https allowed)"
      else
        let shown := redactUrl web url
        match parsed.host with
        | none => .error s!"URL {shown} has no host"
        | some host =>
            match parsed.portOrKnownDefault with
            | none => .error s!"URL {shown} has no port and an unknown default"
            | some port => do
                let addrs ← hostAddrs web host port policy timeout url
                refuseBlocked policy addrs
                .ok (host.key, addrs)

end

/-! ## The two classifiers -/

theorem isLinkLocal_iff (ip : IpAddr) : isLinkLocal ip = true ↔ LinkLocal ip := by
  cases ip with
  | v4 v4 => exact v4.isLinkLocal_iff
  | v6 v6 =>
      rw [LinkLocal, isOrWraps_v6]
      · simp only [isLinkLocal]
        cases hemb : embeddedIpv4 v6 with
        | none => exact v6.isUnicastLinkLocal_iff
        | some v4 => exact v4.isLinkLocal_iff
      · exact fun v4 hemb => (no_block_of_embeddedIpv4 hemb).2.2.1
      · intro hemb v4 hw hkind
        rcases wraps_of_embeddedIpv4_none hemb hw with ⟨-, rfl⟩ | ⟨-, rfl⟩
        · exact absurd (Ipv4.isLinkLocal_iff _ |>.mpr hkind) (by decide)
        · exact absurd (Ipv4.isLinkLocal_iff _ |>.mpr hkind) (by decide)

instance (ip : IpAddr) : Decidable (LinkLocal ip) :=
  decidable_of_iff (isLinkLocal ip = true) (isLinkLocal_iff ip)

theorem blockedReasonV4_eq_none {v4 : Ipv4} {policy : SsrfPolicy} :
    blockedReasonV4 v4 policy = none ↔
      (¬ LinkLocalBlock v4 ∧ v4 ≠ ⟨0, 0, 0, 0⟩ ∧ v4 ≠ ⟨255, 255, 255, 255⟩) ∧
        (policy = .publicOnly → ¬ LoopbackBlock v4 ∧ ¬ Rfc1918 v4) := by
  rw [LinkLocalBlock, LoopbackBlock, Rfc1918, ← v4.isLinkLocal_iff, ← v4.isLoopback_iff,
    ← v4.isPrivate_iff, ne_eq, ne_eq, ← v4.isUnspecified_iff, ← v4.isBroadcast_iff]
  unfold blockedReasonV4
  cases hloop : v4.isLoopback with
  | true =>
      obtain ⟨hlink, hzero, hbroad⟩ := Ipv4.not_special_of_isLoopback_or_isPrivate (Or.inl hloop)
      simp [hlink, hzero, hbroad]
  | false =>
      cases hpriv : v4.isPrivate with
      | true =>
          obtain ⟨hlink, hzero, hbroad⟩ :=
            Ipv4.not_special_of_isLoopback_or_isPrivate (Or.inr hpriv)
          simp [hlink, hzero, hbroad]
      | false => cases v4.isLinkLocal <;> cases v4.isUnspecified <;> cases v4.isBroadcast <;> simp

/-- An address without an IPv4 address inside is judged by itself: only `::` and
`::1` wrap an address then, and 0.0.0.1 is of no kind. -/
theorem isOrWraps_plain {kind4 : Ipv4 → Prop} {kind6 : Ipv6 → Prop} {v6 : Ipv6}
    (hemb : embeddedIpv4 v6 = none)
    (hzero : kind4 ⟨0, 0, 0, 0⟩ → kind6 ⟨0, 0, 0, 0, 0, 0, 0, 0⟩) (hone : ¬ kind4 ⟨0, 0, 0, 1⟩) :
    IsOrWraps kind4 kind6 (.v6 v6) ↔ kind6 v6 := by
  rw [isOrWraps_v6 (fun w hw => absurd (hemb.symm.trans hw) (by simp)), hemb]
  intro _ w hw hkind
  rcases wraps_of_embeddedIpv4_none hemb hw with ⟨rfl, rfl⟩ | ⟨-, rfl⟩
  · exact hzero hkind
  · exact absurd hkind hone

/-- The kinds of an address without an IPv4 address inside, as the code tests
them. -/
theorem kinds_plain {v6 : Ipv6} (hemb : embeddedIpv4 v6 = none) :
    (Unspecified (.v6 v6) ↔ v6.isUnspecified = true) ∧ ¬ Broadcast (.v6 v6) ∧
      (Loopback (.v6 v6) ↔ v6.isLoopback = true) ∧
      (Private (.v6 v6) ↔ isUniqueLocalV6 v6 = true) := by
  have hloop : ∀ v4 : Ipv4, v4.isLoopback = false → ¬ LoopbackBlock v4 := by
    intro v4 hv
    rw [LoopbackBlock, ← v4.isLoopback_iff, hv]
    simp
  have hpriv : ∀ v4 : Ipv4, v4.isPrivate = false → ¬ Rfc1918 v4 := by
    intro v4 hv
    rw [Rfc1918, ← v4.isPrivate_iff, hv]
    simp
  refine ⟨?_, ?_, ?_, ?_⟩
  · rw [v6.isUnspecified_iff]
    exact isOrWraps_plain hemb (fun _ => rfl) (by decide)
  · exact (isOrWraps_plain hemb (fun h => absurd h (by decide)) (by decide)).not.mpr not_false
  · rw [v6.isLoopback_iff]
    exact isOrWraps_plain hemb (fun h => absurd h (hloop _ rfl)) (hloop _ rfl)
  · rw [isUniqueLocalV6_iff]
    exact isOrWraps_plain hemb (fun h => absurd h (hpriv _ rfl)) (hpriv _ rfl)

/-- `blocked_reason` lets exactly the addresses through that are of no kind that
the policy rules out. -/
theorem blockedReason_eq_none {ip : IpAddr} {policy : SsrfPolicy} :
    blockedReason ip policy = none ↔
      (¬ LinkLocal ip ∧ ¬ Unspecified ip ∧ ¬ Broadcast ip) ∧
        (policy = .publicOnly → ¬ Loopback ip ∧ ¬ Private ip) := by
  cases ip with
  | v4 v4 => exact blockedReasonV4_eq_none
  | v6 v6 =>
      cases hemb : embeddedIpv4 v6 with
      | some v4 =>
          obtain ⟨hzero, hloop, hlink, hunique⟩ := no_block_of_embeddedIpv4 hemb
          have hjudge : ∀ {kind4 : Ipv4 → Prop} {kind6 : Ipv6 → Prop}, ¬ kind6 v6 →
              (IsOrWraps kind4 kind6 (.v6 v6) ↔ kind4 v4) := by
            intro kind4 kind6 hkind
            rw [isOrWraps_v6 (fun _ _ => hkind)
              (fun hnone => absurd (hemb.symm.trans hnone) (by simp)), hemb]
          rw [LinkLocal, Unspecified, Broadcast, Loopback, Private, hjudge hlink, hjudge hzero,
            hjudge (by simp), hjudge hloop, hjudge hunique]
          simp only [blockedReason, hemb]
          exact blockedReasonV4_eq_none
      | none =>
          obtain ⟨hzero, hbroad, hloop, hpriv⟩ := kinds_plain hemb
          have hlink : LinkLocal (.v6 v6) ↔ v6.isUnicastLinkLocal = true := by
            rw [← isLinkLocal_iff, isLinkLocal, hemb]
          rw [hlink, hzero, hloop, hpriv]
          simp only [blockedReason, hemb, hbroad, not_false_eq_true, and_true]
          cases hl : v6.isLoopback with
          | true =>
              obtain rfl := v6.isLoopback_iff.mp hl
              simp [Ipv6.isUnicastLinkLocal, Ipv6.isUnspecified, isUniqueLocalV6, Ipv6.firstOctet]
          | false =>
              cases v6.isUnspecified <;> cases v6.isUnicastLinkLocal <;>
                cases isUniqueLocalV6 v6 <;> simp

/-! ## The gate -/

theorem refuseBlocked_eq_ok {policy : SsrfPolicy} {addrs : List SocketAddr} :
    refuseBlocked policy addrs = .ok () ↔ ∀ a ∈ addrs, blockedReason a.ip policy = none := by
  induction addrs with
  | nil => simp [refuseBlocked]
  | cons addr addrs ih =>
      simp only [refuseBlocked, List.forall_mem_cons]
      cases blockedReason addr.ip policy with
      | some reason => simp
      | none => simpa using ih

section

variable {web : Web} {url : String} {policy : SsrfPolicy}

theorem dropLinkLocalForDomain_ok {resolved addrs : List SocketAddr}
    (h : dropLinkLocalForDomain web resolved policy url = .ok addrs) :
    resolved ≠ [] ∧ (policy = .publicOnly → addrs = resolved) ∧
      (policy = .allowPrivateNetwork →
        addrs = resolved.filter (fun a => ¬ LinkLocal a.ip)) := by
  unfold dropLinkLocalForDomain at h
  split at h
  · exact absurd h (by simp)
  · rename_i hne
    refine ⟨by simpa using hne, ?_⟩
    cases policy with
    | publicOnly => exact ⟨fun _ => (Except.ok.inj h).symm, fun hp => absurd hp (by simp)⟩
    | allowPrivateNetwork =>
        refine ⟨fun hp => absurd hp (by simp), fun _ => ?_⟩
        have hkept : resolved.filter (fun a => ¬ LinkLocal a.ip) =
            resolved.filter (fun a => !isLinkLocal a.ip) := by
          refine List.filter_congr fun a _ => ?_
          cases hlink : isLinkLocal a.ip with
          | true => simp [(isLinkLocal_iff a.ip).mp hlink]
          | false => simp [← isLinkLocal_iff, hlink]
        rw [hkept]
        simp only [ne_eq, not_true_eq_false, if_false, List.partition_eq_filter_filter] at h
        split at h
        · exact absurd h (by simp)
        · exact (Except.ok.inj h).symm

/-- The list that a host stands for: itself, or what it resolves to without
the link-local addresses that the policy drops. -/
inductive Vetted (web : Web) (policy : SsrfPolicy) (timeout : Nat) (port : UInt16) :
    Host → List SocketAddr → Prop
  | ipv4 (v4 : Ipv4) : Vetted web policy timeout port (.ipv4 v4) [.v4 v4 port]
  | ipv6 (v6 : Ipv6) : Vetted web policy timeout port (.ipv6 v6) [.v6 v6 port 0 0]
  | all {name : String} {resolved : List SocketAddr} : policy = .publicOnly →
      web.lookup name port timeout = .addrs resolved → resolved ≠ [] →
      Vetted web policy timeout port (.domain name) resolved
  | routable {name : String} {resolved : List SocketAddr} : policy = .allowPrivateNetwork →
      web.lookup name port timeout = .addrs resolved → resolved ≠ [] →
      Vetted web policy timeout port (.domain name) (resolved.filter (fun a => ¬ LinkLocal a.ip))

theorem hostAddrs_ok {host : Host} {port : UInt16} {timeout : Nat} {addrs : List SocketAddr}
    (h : hostAddrs web host port policy timeout url = .ok addrs) :
    Vetted web policy timeout port host addrs := by
  cases host with
  | ipv4 v4 => exact Except.ok.inj h ▸ .ipv4 v4
  | ipv6 v6 => exact Except.ok.inj h ▸ .ipv6 v6
  | domain name =>
      simp only [hostAddrs, resolveWithTimeout] at h
      cases hlookup : web.lookup name port timeout with
      | addrs resolved =>
          rw [hlookup] at h
          obtain ⟨hne, hall, hroutable⟩ := dropLinkLocalForDomain_ok h
          cases policy with
          | publicOnly => exact hall rfl ▸ .all rfl hlookup hne
          | allowPrivateNetwork => exact hroutable rfl ▸ .routable rfl hlookup hne
      | failed e =>
          rw [hlookup] at h
          exact absurd h (by simp [bind, Except.bind])
      | timedOut =>
          rw [hlookup] at h
          exact absurd h (by simp [bind, Except.bind])
      | panicked =>
          rw [hlookup] at h
          exact absurd h (by simp [bind, Except.bind])

/-- An accepted URL has a host and a port, and its list passed the check. -/
theorem validateUrlProduction_ok {timeout : Nat} {key : String} {addrs : List SocketAddr}
    (h : validateUrlProduction web url policy timeout = .ok (key, addrs)) :
    ∃ parsed host port, web.parse url = some parsed ∧ parsed.host = some host ∧
      parsed.portOrKnownDefault = some port ∧ Vetted web policy timeout port host addrs ∧
      ∀ a ∈ addrs, blockedReason a.ip policy = none := by
  unfold validateUrlProduction at h
  split at h
  · exact absurd h (by simp)
  · rename_i parsed hparsed
    split at h
    · exact absurd h (by simp)
    · dsimp only at h
      split at h
      · exact absurd h (by simp)
      · rename_i host hhost
        split at h
        · exact absurd h (by simp)
        · rename_i port hport
          cases haddrs : hostAddrs web host port policy timeout url with
          | error e =>
              rw [haddrs] at h
              exact absurd h (by simp [bind, Except.bind])
          | ok vetted =>
              rw [haddrs] at h
              cases hblocked : refuseBlocked policy vetted with
              | error e =>
                  simp only [bind, Except.bind, hblocked] at h
                  exact absurd h (by simp)
              | ok u =>
                  simp only [bind, Except.bind, hblocked] at h
                  obtain ⟨-, rfl⟩ := Prod.mk.inj (Except.ok.inj h)
                  exact ⟨parsed, host, port, hparsed, hhost, hport, hostAddrs_ok haddrs,
                    refuseBlocked_eq_ok.mp hblocked⟩

theorem requireHttpsForPublic_ok {addrs : List SocketAddr} {parsed : Url}
    (h : requireHttpsForPublic web url addrs = .ok ()) (hparsed : web.parse url = some parsed)
    (hscheme : parsed.scheme = "http") : ∀ a ∈ addrs, OwnNetwork a.ip := by
  simp only [requireHttpsForPublic, hparsed, hscheme, ne_eq, not_true_eq_false, if_false] at h
  split at h
  · exact absurd h (by simp)
  · rename_i hfind
    intro a ha
    have hsafe := List.find?_eq_none.mp hfind a ha
    exact ownNetwork_of_isCleartextSafe (by simpa using hsafe)

end

/-- The gate is sound and exact: no accepted address is of a kind that the
policy rules out, the accepted list is the one that the host stands for, and
over `http://` it is on the operator's own network. -/
theorem ssrf_gate (web : Web) (url : String) (policy : SsrfPolicy) (timeout : Nat)
    {key : String} {addrs : List SocketAddr}
    (h : validateUrlProduction web url policy timeout = .ok (key, addrs)) :
    (∀ a ∈ addrs, ¬ LinkLocal a.ip ∧ ¬ Unspecified a.ip ∧ ¬ Broadcast a.ip) ∧
      (policy = .publicOnly → ∀ a ∈ addrs, ¬ Loopback a.ip ∧ ¬ Private a.ip) ∧
      (∃ parsed host port, web.parse url = some parsed ∧ parsed.host = some host ∧
        parsed.portOrKnownDefault = some port ∧ Vetted web policy timeout port host addrs) ∧
      ∀ url' parsed, web.parse url' = some parsed → parsed.scheme = "http" →
        requireHttpsForPublic web url' addrs = .ok () → ∀ a ∈ addrs, OwnNetwork a.ip := by
  obtain ⟨parsed, host, port, hparsed, hhost, hport, hvetted, hfree⟩ := validateUrlProduction_ok h
  refine ⟨fun a ha => (blockedReason_eq_none.mp (hfree a ha)).1, fun hpolicy a ha =>
    (blockedReason_eq_none.mp (hfree a ha)).2 hpolicy,
    ⟨parsed, host, port, hparsed, hhost, hport, hvetted⟩, ?_⟩
  exact fun url' parsed' hparsed' hscheme hrequire =>
    requireHttpsForPublic_ok hrequire hparsed' hscheme

/-- Every URL is `http://nas.local:8080`, an mDNS name with a LAN address and a
link-local one. -/
def mdns : Web where
  parse _ := some ⟨"http", some (.domain "nas.local"), some "nas.local", some 8080,
    "http://nas.local:8080/"⟩
  lookup _ port _ :=
    .addrs [.v6 ⟨0xfe80, 0, 0, 0, 0, 0, 0, 1⟩ port 0 4, .v4 ⟨192, 168, 1, 7⟩ port]
  showTimeout _ := "5s"

theorem ssrf_gate_mdns :
    validateUrlProduction mdns "http://nas.local:8080" .allowPrivateNetwork 5000000000 =
        .ok ("nas.local", [.v4 ⟨192, 168, 1, 7⟩ 8080]) ∧
      requireHttpsForPublic mdns "http://nas.local:8080" [.v4 ⟨192, 168, 1, 7⟩ 8080] = .ok () ∧
      OwnNetwork (.v4 ⟨192, 168, 1, 7⟩) := by
  have hok : validateUrlProduction mdns "http://nas.local:8080" .allowPrivateNetwork 5000000000 =
      .ok ("nas.local", [.v4 ⟨192, 168, 1, 7⟩ 8080]) := by decide
  have hhttp : requireHttpsForPublic mdns "http://nas.local:8080" [.v4 ⟨192, 168, 1, 7⟩ 8080] =
      .ok () := by decide
  obtain ⟨-, -, -, hown⟩ := ssrf_gate mdns _ _ _ hok
  exact ⟨hok, hhttp, hown _ _ rfl rfl hhttp _ (List.mem_singleton_self _)⟩

end Llmenv.Mcp
