/-
# `Llmenv.Mcp.Cleartext` — which addresses are the operator's own network

`cleartext.rs` holds the address rules that the MCP resolver and the MCP client
share: the IPv4 address inside an IPv6 address, the unique-local block, and the
addresses to which `http://` may carry a token.

The kinds of addresses are stated next to the code as blocks of numbers, and
for IPv6 in two senses: the address itself, or an IPv4 address that it wraps.
-/
import Llmenv.Lib.Ip

namespace Llmenv.Mcp

open Llmenv.Lib

/-! ## The code -/

/-- The IPv4 address that an IPv6 address wraps: mapped, compatible, NAT64 or
6to4.  `::` and `::1` are not wrapped addresses. -/
def embeddedIpv4 (v6 : Ipv6) : Option Ipv4 :=
  match v6.toIpv4Mapped with
  | some mapped => some mapped
  | none =>
      if (v6.s0 = 0 ∧ v6.s1 = 0 ∧ v6.s2 = 0 ∧ v6.s3 = 0 ∧ v6.s4 = 0 ∧ v6.s5 = 0) ∧
          v6.isUnspecified = false ∧ v6.isLoopback = false then
        some (Ipv4.ofHalves v6.s6 v6.s7)
      else if v6.s0 = 0x64 ∧ v6.s1 = 0xff9b ∧
          (v6.s2 = 0 ∧ v6.s3 = 0 ∧ v6.s4 = 0 ∧ v6.s5 = 0) then
        some (Ipv4.ofHalves v6.s6 v6.s7)
      else if v6.s0 = 0x2002 then some (Ipv4.ofHalves v6.s1 v6.s2)
      else none

/-- `fc00::/7`, tested on the first octet. -/
def isUniqueLocalV6 (v6 : Ipv6) : Bool := v6.firstOctet &&& 0xfe == 0xfc

/-- The IPv4 branch of `is_cleartext_safe`. -/
def isCleartextSafeV4 (v4 : Ipv4) : Bool :=
  let cgnat := v4.a == 100 && v4.b &&& 0xc0 == 0x40
  v4.isLoopback || v4.isPrivate || cgnat

/-- Whether a token may cross the network in clear text to `ip`.  Only an
IPv4-mapped address is judged by the address inside. -/
def isCleartextSafe : IpAddr → Bool
  | .v4 v4 => isCleartextSafeV4 v4
  | .v6 v6 =>
      match v6.toIpv4Mapped with
      | some mapped => isCleartextSafeV4 mapped
      | none => v6.isLoopback || isUniqueLocalV6 v6

/-! ## Kinds of addresses -/

/-- The address is of a kind, directly or as the IPv4 address inside it. -/
def IsOrWraps (kind4 : Ipv4 → Prop) (kind6 : Ipv6 → Prop) : IpAddr → Prop
  | .v4 v4 => kind4 v4
  | .v6 v6 => kind6 v6 ∨ ∃ v4, Wraps v6 v4 ∧ kind4 v4

/-- RFC 1918. -/
def Rfc1918 (v4 : Ipv4) : Prop :=
  Ipv4.InBlock ⟨10, 0, 0, 0⟩ 8 v4 ∨ Ipv4.InBlock ⟨172, 16, 0, 0⟩ 12 v4 ∨
    Ipv4.InBlock ⟨192, 168, 0, 0⟩ 16 v4

def LoopbackBlock (v4 : Ipv4) : Prop := Ipv4.InBlock ⟨127, 0, 0, 0⟩ 8 v4

def Cgnat (v4 : Ipv4) : Prop := Ipv4.InBlock ⟨100, 64, 0, 0⟩ 10 v4

def LinkLocalBlock (v4 : Ipv4) : Prop := Ipv4.InBlock ⟨169, 254, 0, 0⟩ 16 v4

def UniqueLocalBlock (v6 : Ipv6) : Prop := Ipv6.InBlock ⟨0xfc00, 0, 0, 0, 0, 0, 0, 0⟩ 7 v6

def LinkLocal (ip : IpAddr) : Prop :=
  IsOrWraps LinkLocalBlock (Ipv6.InBlock ⟨0xfe80, 0, 0, 0, 0, 0, 0, 0⟩ 10) ip

def Unspecified (ip : IpAddr) : Prop :=
  IsOrWraps (· = ⟨0, 0, 0, 0⟩) (· = ⟨0, 0, 0, 0, 0, 0, 0, 0⟩) ip

def Broadcast (ip : IpAddr) : Prop :=
  IsOrWraps (· = ⟨255, 255, 255, 255⟩) (fun _ => False) ip

def Loopback (ip : IpAddr) : Prop :=
  IsOrWraps LoopbackBlock (· = ⟨0, 0, 0, 0, 0, 0, 0, 1⟩) ip

/-- RFC 1918 or unique-local. -/
def Private (ip : IpAddr) : Prop := IsOrWraps Rfc1918 UniqueLocalBlock ip

/-- The operator's own network: loopback, RFC 1918 or CGNAT, directly or
IPv4-mapped, or unique-local. -/
def OwnNetwork : IpAddr → Prop
  | .v4 v4 => LoopbackBlock v4 ∨ Rfc1918 v4 ∨ Cgnat v4
  | .v6 v6 => v6 = ⟨0, 0, 0, 0, 0, 0, 0, 1⟩ ∨ UniqueLocalBlock v6 ∨
      ∃ v4, v6.value = 0xffff * 2 ^ 32 + v4.value ∧
        (LoopbackBlock v4 ∨ Rfc1918 v4 ∨ Cgnat v4)

/-! ## The code tests these kinds -/

theorem isUniqueLocalV6_iff (v6 : Ipv6) : isUniqueLocalV6 v6 = true ↔ UniqueLocalBlock v6 := by
  have := v6.bounds
  have hmask := land_first_bits (k := 1) (m := 7) v6.firstOctet.toNat_lt
  simp only [isUniqueLocalV6, beq_iff_eq, ← UInt8.toNat_inj, UInt8.toNat_and, UniqueLocalBlock,
    Ipv6.InBlock, Ipv6.value]
  have hoctet : v6.firstOctet.toNat = v6.s0.toNat / 256 := by
    simp only [Ipv6.firstOctet, UInt16.toNat_toUInt8, UInt16.toNat_shiftRight,
      Nat.shiftRight_eq_div_pow, UInt16.reduceToNat, Nat.reduceMod, Nat.reducePow]
    omega
  simp only [UInt8.reduceToNat, UInt16.reduceToNat, Nat.reduceSub, Nat.reducePow,
    Nat.reduceMul] at hmask ⊢
  rw [hmask, hoctet]
  omega

theorem isCleartextSafeV4_iff (v4 : Ipv4) :
    isCleartextSafeV4 v4 = true ↔ LoopbackBlock v4 ∨ Rfc1918 v4 ∨ Cgnat v4 := by
  have hcgnat : (v4.a == 100 && v4.b &&& 0xc0 == 0x40) = true ↔ Cgnat v4 := by
    have := v4.bounds
    have hmask := land_first_bits (k := 6) (m := 2) v4.b.toNat_lt
    simp only [Bool.and_eq_true, beq_iff_eq, ← UInt8.toNat_inj, UInt8.toNat_and, Cgnat,
      Ipv4.InBlock, Ipv4.value]
    simp only [UInt8.reduceToNat, Nat.reduceSub, Nat.reducePow, Nat.reduceMul] at hmask ⊢
    rw [hmask]
    omega
  simp only [isCleartextSafeV4, Bool.or_eq_true, hcgnat, v4.isLoopback_iff, v4.isPrivate_iff,
    or_assoc, LoopbackBlock, Rfc1918]

theorem toIpv4Mapped_eq_some {v6 : Ipv6} {v4 : Ipv4} :
    v6.toIpv4Mapped = some v4 ↔ v6.value = 0xffff * 2 ^ 32 + v4.value := by
  have := v6.bounds
  have := v4.value_lt
  unfold Ipv6.toIpv4Mapped
  split
  · rename_i h
    simp only [← UInt16.toNat_inj, UInt16.reduceToNat] at h
    rw [Option.some.injEq, eq_comm, Ipv4.eq_ofHalves]
    simp only [Ipv6.value]
    omega
  · rename_i h
    simp only [← UInt16.toNat_inj, UInt16.reduceToNat] at h
    simp only [reduceCtorEq, false_iff, Ipv6.value]
    omega

/-- What passes the cleartext rule is the operator's own network. -/
theorem ownNetwork_of_isCleartextSafe {ip : IpAddr} (h : isCleartextSafe ip = true) :
    OwnNetwork ip := by
  cases ip with
  | v4 v4 => exact (isCleartextSafeV4_iff v4).mp h
  | v6 v6 =>
      simp only [isCleartextSafe] at h
      split at h
      · rename_i mapped hmapped
        exact Or.inr (Or.inr ⟨mapped, toIpv4Mapped_eq_some.mp hmapped,
          (isCleartextSafeV4_iff mapped).mp h⟩)
      · rcases Bool.or_eq_true_iff.mp h with hloop | hunique
        · exact Or.inl (v6.isLoopback_iff.mp hloop)
        · exact Or.inr (Or.inl ((isUniqueLocalV6_iff v6).mp hunique))

/-- The cases of `embedded_ipv4` that find an address. -/
theorem embeddedIpv4_cases {v6 : Ipv6} {v4 : Ipv4} (h : embeddedIpv4 v6 = some v4) :
    (v6.s0 = 0 ∧ v6.s1 = 0 ∧ v6.s2 = 0 ∧ v6.s3 = 0 ∧ v6.s4 = 0 ∧ (v6.s5 = 0xffff ∨ v6.s5 = 0) ∧
        v6 ≠ ⟨0, 0, 0, 0, 0, 0, 0, 0⟩ ∧ v6 ≠ ⟨0, 0, 0, 0, 0, 0, 0, 1⟩ ∧
        v4 = Ipv4.ofHalves v6.s6 v6.s7) ∨
      (v6.s0 = 0x64 ∧ v6.s1 = 0xff9b ∧ v6.s2 = 0 ∧ v6.s3 = 0 ∧ v6.s4 = 0 ∧ v6.s5 = 0 ∧
        v4 = Ipv4.ofHalves v6.s6 v6.s7) ∨
      (v6.s0 = 0x2002 ∧ v4 = Ipv4.ofHalves v6.s1 v6.s2) := by
  unfold embeddedIpv4 Ipv6.toIpv4Mapped at h
  split at h
  · rename_i mapped hmapped
    obtain rfl := Option.some.inj h
    split at hmapped
    · rename_i hs
      obtain ⟨h0, h1, h2, h3, h4, h5⟩ := hs
      have hne : ∀ t : Ipv6, t.s5 = 0 → v6 ≠ t := by
        rintro t ht rfl
        rw [h5] at ht
        exact absurd ht (by decide)
      exact Or.inl ⟨h0, h1, h2, h3, h4, Or.inl h5, hne _ rfl, hne _ rfl,
        (Option.some.inj hmapped).symm⟩
    · exact absurd hmapped (by simp)
  · split at h
    · rename_i hs
      obtain ⟨⟨h0, h1, h2, h3, h4, h5⟩, hunspecified, hloop⟩ := hs
      exact Or.inl ⟨h0, h1, h2, h3, h4, Or.inr h5, beq_eq_false_iff_ne.mp hunspecified,
        beq_eq_false_iff_ne.mp hloop, (Option.some.inj h).symm⟩
    · split at h
      · rename_i hs
        obtain ⟨h0, h1, h2, h3, h4, h5⟩ := hs
        exact Or.inr (Or.inl ⟨h0, h1, h2, h3, h4, h5, (Option.some.inj h).symm⟩)
      · split at h
        · rename_i hs
          exact Or.inr (Or.inr ⟨hs, (Option.some.inj h).symm⟩)
        · exact absurd h (by simp)

/-- The address that `embedded_ipv4` finds is the one that is wrapped. -/
theorem wraps_of_embeddedIpv4 {v6 : Ipv6} {v4 w : Ipv4} (h : embeddedIpv4 v6 = some v4) :
    Wraps v6 w ↔ w = v4 := by
  rw [wraps_iff]
  rcases embeddedIpv4_cases h with
    ⟨h0, h1, h2, h3, h4, h5 | h5, -, -, rfl⟩ | ⟨h0, h1, h2, h3, h4, h5, rfl⟩ | ⟨h0, rfl⟩
  · simp [h0, h1, h2, h3, h4, h5]
  · simp [h0, h1, h2, h3, h4, h5]
  · simp [h0, h1, h2, h3, h4, h5]
  · simp [h0]

/-- When it finds nothing, the address wraps at most 0.0.0.0 or 0.0.0.1, as
`::` and `::1` do. -/
theorem wraps_of_embeddedIpv4_none {v6 : Ipv6} {w : Ipv4} (h : embeddedIpv4 v6 = none)
    (hw : Wraps v6 w) :
    (v6 = ⟨0, 0, 0, 0, 0, 0, 0, 0⟩ ∧ w = ⟨0, 0, 0, 0⟩) ∨
      (v6 = ⟨0, 0, 0, 0, 0, 0, 0, 1⟩ ∧ w = ⟨0, 0, 0, 1⟩) := by
  unfold embeddedIpv4 Ipv6.toIpv4Mapped at h
  rcases wraps_iff.mp hw with ⟨h0, h1, h2, h3, h4, h5, -⟩ | ⟨h0, h1, h2, h3, h4, h5, rfl⟩ |
    ⟨h0, h1, h2, h3, h4, h5, -⟩ | ⟨h0, -⟩
  · simp [h0, h1, h2, h3, h4, h5] at h
  · simp only [h0, h1, h2, h3, h4, h5] at h
    cases hu : v6.isUnspecified with
    | true =>
        obtain rfl := v6.isUnspecified_iff.mp hu
        exact Or.inl ⟨rfl, by decide⟩
    | false =>
        cases hl : v6.isLoopback with
        | true =>
            obtain rfl := v6.isLoopback_iff.mp hl
            exact Or.inr ⟨rfl, by decide⟩
        | false => simp [hu, hl] at h
  · simp [h0, h1, h2, h3, h4, h5] at h
  · simp [h0] at h

/-- An address that wraps another is in none of the IPv6 blocks. -/
theorem no_block_of_embeddedIpv4 {v6 : Ipv6} {v4 : Ipv4} (h : embeddedIpv4 v6 = some v4) :
    v6 ≠ ⟨0, 0, 0, 0, 0, 0, 0, 0⟩ ∧ v6 ≠ ⟨0, 0, 0, 0, 0, 0, 0, 1⟩ ∧
      ¬ Ipv6.InBlock ⟨0xfe80, 0, 0, 0, 0, 0, 0, 0⟩ 10 v6 ∧ ¬ UniqueLocalBlock v6 := by
  rw [← v6.isUnicastLinkLocal_iff, ← isUniqueLocalV6_iff, Ipv6.isUnicastLinkLocal,
    isUniqueLocalV6, Ipv6.firstOctet]
  rcases embeddedIpv4_cases h with
    ⟨h0, -, -, -, -, -, hne, hne', -⟩ | ⟨h0, -⟩ | ⟨h0, -⟩
  · rw [h0]
    exact ⟨hne, hne', by decide, by decide⟩
  · have hne : ∀ t : Ipv6, t.s0 = 0 → v6 ≠ t := by
      rintro t ht rfl
      exact absurd (h0.symm.trans ht) (by decide)
    rw [h0]
    exact ⟨hne _ rfl, hne _ rfl, by decide, by decide⟩
  · have hne : ∀ t : Ipv6, t.s0 = 0 → v6 ≠ t := by
      rintro t ht rfl
      exact absurd (h0.symm.trans ht) (by decide)
    rw [h0]
    exact ⟨hne _ rfl, hne _ rfl, by decide, by decide⟩

/-- What the two senses mean for the code: an address with an IPv4 address
inside is judged by it, any other by itself. -/
theorem isOrWraps_v6 {kind4 : Ipv4 → Prop} {kind6 : Ipv6 → Prop} {v6 : Ipv6}
    (hwrapped : ∀ v4, embeddedIpv4 v6 = some v4 → ¬ kind6 v6)
    (hplain : embeddedIpv4 v6 = none → ∀ v4, Wraps v6 v4 → kind4 v4 → kind6 v6) :
    IsOrWraps kind4 kind6 (.v6 v6) ↔
      match embeddedIpv4 v6 with
      | some v4 => kind4 v4
      | none => kind6 v6 := by
  cases hemb : embeddedIpv4 v6 with
  | some v4 =>
      constructor
      · rintro (hkind | ⟨w, hw, hkind⟩)
        · exact absurd hkind (hwrapped v4 hemb)
        · exact (wraps_of_embeddedIpv4 hemb).mp hw ▸ hkind
      · intro hkind
        exact Or.inr ⟨v4, (wraps_of_embeddedIpv4 hemb).mpr rfl, hkind⟩
  | none =>
      constructor
      · rintro (hkind | ⟨w, hw, hkind⟩)
        · exact hkind
        · exact hplain hemb w hw hkind
      · exact Or.inl

end Llmenv.Mcp
