/-
# `Llmenv.Lib.Ip` — IP addresses, address blocks, and wrapped IPv4 addresses

An address is kept the way programs take it apart: four octets, or eight
16-bit segments.  Standards speak about it as a number instead: a block
`base/len` is the set of addresses that agree with `base` on the first `len`
bits, and an IPv6 address wraps an IPv4 address when its number has the IPv4
number in a fixed place.  The predicates below test octets and segments, and
each comes with a lemma that says which block it tests.
-/
import Mathlib.Data.Nat.Bitwise
import Mathlib.Tactic.Tauto

namespace Llmenv.Lib

/-- An IPv4 address: its octets, the first one first. -/
structure Ipv4 where
  a : UInt8
  b : UInt8
  c : UInt8
  d : UInt8
deriving DecidableEq

/-- An IPv6 address: its segments, the first one first. -/
structure Ipv6 where
  s0 : UInt16
  s1 : UInt16
  s2 : UInt16
  s3 : UInt16
  s4 : UInt16
  s5 : UInt16
  s6 : UInt16
  s7 : UInt16
deriving DecidableEq

inductive IpAddr where
  | v4 (ip : Ipv4)
  | v6 (ip : Ipv6)
deriving DecidableEq

/-! ## Addresses as numbers -/

def Ipv4.value (v : Ipv4) : Nat :=
  ((v.a.toNat * 256 + v.b.toNat) * 256 + v.c.toNat) * 256 + v.d.toNat

def Ipv6.value (v : Ipv6) : Nat :=
  ((((((v.s0.toNat * 65536 + v.s1.toNat) * 65536 + v.s2.toNat) * 65536 + v.s3.toNat) * 65536 +
    v.s4.toNat) * 65536 + v.s5.toNat) * 65536 + v.s6.toNat) * 65536 + v.s7.toNat

/-- The block `base/len` has the address. -/
def Ipv4.InBlock (base : Ipv4) (len : Nat) (v : Ipv4) : Prop :=
  v.value / 2 ^ (32 - len) = base.value / 2 ^ (32 - len)

def Ipv6.InBlock (base : Ipv6) (len : Nat) (v : Ipv6) : Prop :=
  v.value / 2 ^ (128 - len) = base.value / 2 ^ (128 - len)

/-- The IPv4 address with the halves `hi` and `lo`. -/
def Ipv4.ofHalves (hi lo : UInt16) : Ipv4 :=
  ⟨(hi >>> 8).toUInt8, hi.toUInt8, (lo >>> 8).toUInt8, lo.toUInt8⟩

theorem Ipv4.value_ofHalves (hi lo : UInt16) :
    (Ipv4.ofHalves hi lo).value = hi.toNat * 65536 + lo.toNat := by
  have hhi := hi.toNat_lt
  have hlo := lo.toNat_lt
  simp only [Ipv4.ofHalves, Ipv4.value, UInt16.toNat_toUInt8, UInt16.toNat_shiftRight,
    Nat.shiftRight_eq_div_pow]
  simp only [UInt16.reduceToNat, Nat.reduceMod, Nat.reducePow] at *
  omega

theorem Ipv4.value_injective {v w : Ipv4} (h : v.value = w.value) : v = w := by
  obtain ⟨a, b, c, d⟩ := v
  obtain ⟨a', b', c', d'⟩ := w
  have := a.toNat_lt
  have := b.toNat_lt
  have := c.toNat_lt
  have := d.toNat_lt
  have := a'.toNat_lt
  have := b'.toNat_lt
  have := c'.toNat_lt
  have := d'.toNat_lt
  simp only [Ipv4.value] at h
  simp only [Ipv4.mk.injEq, ← UInt8.toNat_inj]
  omega

/-- A mask of the first `m` of `k + m` bits clears the last `k`. -/
theorem land_first_bits {x k m : Nat} (hx : x < 2 ^ (k + m)) :
    x &&& 2 ^ k * (2 ^ m - 1) = 2 ^ k * (x / 2 ^ k) := by
  refine Nat.eq_of_testBit_eq fun i => ?_
  rw [Nat.testBit_and, Nat.testBit_two_pow_mul, Nat.testBit_two_pow_mul,
    Nat.testBit_two_pow_sub_one, Nat.testBit_div_two_pow]
  by_cases hk : k ≤ i
  · rw [Nat.sub_add_cancel hk]
    by_cases hm : i - k < m
    · simp [hk, hm]
    · have hbit : x.testBit i = false :=
        Nat.testBit_lt_two_pow (lt_of_lt_of_le hx (Nat.pow_le_pow_right (by decide) (by omega)))
      simp [hk, hm, hbit]
  · simp [hk]

/-! ## Kinds of IPv4 addresses -/

namespace Ipv4

/-- 127.0.0.0/8 -/
def isLoopback (v : Ipv4) : Bool := v.a == 127

/-- 10.0.0.0/8, 172.16.0.0/12 and 192.168.0.0/16 -/
def isPrivate (v : Ipv4) : Bool :=
  v.a == 10 || (v.a == 172 && 16 ≤ v.b && v.b ≤ 31) || (v.a == 192 && v.b == 168)

/-- 169.254.0.0/16 -/
def isLinkLocal (v : Ipv4) : Bool := v.a == 169 && v.b == 254

/-- 0.0.0.0 -/
def isUnspecified (v : Ipv4) : Bool := v == ⟨0, 0, 0, 0⟩

/-- 255.255.255.255 -/
def isBroadcast (v : Ipv4) : Bool := v == ⟨255, 255, 255, 255⟩

end Ipv4

/-! ## Kinds of IPv6 addresses -/

namespace Ipv6

/-- ::1 -/
def isLoopback (v : Ipv6) : Bool := v == ⟨0, 0, 0, 0, 0, 0, 0, 1⟩

/-- :: -/
def isUnspecified (v : Ipv6) : Bool := v == ⟨0, 0, 0, 0, 0, 0, 0, 0⟩

/-- fe80::/10 -/
def isUnicastLinkLocal (v : Ipv6) : Bool := v.s0 &&& 0xffc0 == 0xfe80

/-- The first eight bits. -/
def firstOctet (v : Ipv6) : UInt8 := (v.s0 >>> 8).toUInt8

/-- The IPv4 address in `::ffff:a.b.c.d`. -/
def toIpv4Mapped (v : Ipv6) : Option Ipv4 :=
  if v.s0 = 0 ∧ v.s1 = 0 ∧ v.s2 = 0 ∧ v.s3 = 0 ∧ v.s4 = 0 ∧ v.s5 = 0xffff then
    some (Ipv4.ofHalves v.s6 v.s7)
  else none

end Ipv6

/-! ## The blocks they test -/

theorem Ipv4.bounds (v : Ipv4) :
    v.a.toNat < 256 ∧ v.b.toNat < 256 ∧ v.c.toNat < 256 ∧ v.d.toNat < 256 :=
  ⟨v.a.toNat_lt, v.b.toNat_lt, v.c.toNat_lt, v.d.toNat_lt⟩

theorem Ipv6.bounds (v : Ipv6) :
    v.s0.toNat < 65536 ∧ v.s1.toNat < 65536 ∧ v.s2.toNat < 65536 ∧ v.s3.toNat < 65536 ∧
      v.s4.toNat < 65536 ∧ v.s5.toNat < 65536 ∧ v.s6.toNat < 65536 ∧ v.s7.toNat < 65536 :=
  ⟨v.s0.toNat_lt, v.s1.toNat_lt, v.s2.toNat_lt, v.s3.toNat_lt, v.s4.toNat_lt, v.s5.toNat_lt,
    v.s6.toNat_lt, v.s7.toNat_lt⟩

namespace Ipv4

theorem isLoopback_iff (v : Ipv4) : v.isLoopback = true ↔ InBlock ⟨127, 0, 0, 0⟩ 8 v := by
  have := v.bounds
  simp only [isLoopback, beq_iff_eq, ← UInt8.toNat_inj, InBlock, value]
  simp only [UInt8.reduceToNat, Nat.reduceSub, Nat.reducePow]
  omega

theorem isPrivate_iff (v : Ipv4) :
    v.isPrivate = true ↔ InBlock ⟨10, 0, 0, 0⟩ 8 v ∨ InBlock ⟨172, 16, 0, 0⟩ 12 v ∨
      InBlock ⟨192, 168, 0, 0⟩ 16 v := by
  have := v.bounds
  simp only [isPrivate, Bool.or_eq_true, Bool.and_eq_true, beq_iff_eq, decide_eq_true_eq,
    UInt8.le_iff_toNat_le, ← UInt8.toNat_inj, InBlock, value]
  simp only [UInt8.reduceToNat, Nat.reduceSub, Nat.reducePow]
  omega

theorem isLinkLocal_iff (v : Ipv4) :
    v.isLinkLocal = true ↔ InBlock ⟨169, 254, 0, 0⟩ 16 v := by
  have := v.bounds
  simp only [isLinkLocal, Bool.and_eq_true, beq_iff_eq, ← UInt8.toNat_inj, InBlock, value]
  simp only [UInt8.reduceToNat, Nat.reduceSub, Nat.reducePow]
  omega

/-- A loopback or private address is told from the other kinds by its first
octet. -/
theorem not_special_of_isLoopback_or_isPrivate {v : Ipv4}
    (h : v.isLoopback = true ∨ v.isPrivate = true) :
    v.isLinkLocal = false ∧ v.isUnspecified = false ∧ v.isBroadcast = false := by
  have ha : v.a = 127 ∨ v.a = 10 ∨ v.a = 172 ∨ v.a = 192 := by
    simp only [isLoopback, isPrivate, Bool.or_eq_true, Bool.and_eq_true, beq_iff_eq] at h
    tauto
  refine ⟨?_, ?_, ?_⟩
  · rcases ha with ha | ha | ha | ha <;> simp [isLinkLocal, ha]
  · refine beq_eq_false_iff_ne.mpr ?_
    rintro rfl
    exact absurd ha (by decide)
  · refine beq_eq_false_iff_ne.mpr ?_
    rintro rfl
    exact absurd ha (by decide)

theorem isUnspecified_iff (v : Ipv4) : v.isUnspecified = true ↔ v = ⟨0, 0, 0, 0⟩ := beq_iff_eq

theorem isBroadcast_iff (v : Ipv4) : v.isBroadcast = true ↔ v = ⟨255, 255, 255, 255⟩ := beq_iff_eq

end Ipv4

theorem Ipv6.isLoopback_iff (v : Ipv6) :
    v.isLoopback = true ↔ v = ⟨0, 0, 0, 0, 0, 0, 0, 1⟩ := beq_iff_eq

theorem Ipv6.isUnspecified_iff (v : Ipv6) :
    v.isUnspecified = true ↔ v = ⟨0, 0, 0, 0, 0, 0, 0, 0⟩ := beq_iff_eq

theorem Ipv6.isUnicastLinkLocal_iff (v : Ipv6) :
    v.isUnicastLinkLocal = true ↔ InBlock ⟨0xfe80, 0, 0, 0, 0, 0, 0, 0⟩ 10 v := by
  have := v.bounds
  have hmask := land_first_bits (k := 6) (m := 10) v.s0.toNat_lt
  simp only [isUnicastLinkLocal, beq_iff_eq, ← UInt16.toNat_inj, UInt16.toNat_and, InBlock, value]
  simp only [UInt16.reduceToNat, Nat.reduceSub, Nat.reducePow, Nat.reduceMul] at hmask ⊢
  rw [hmask]
  omega

/-! ## Wrapped IPv4 addresses -/

/-- The IPv6 address wraps the IPv4 address. -/
inductive Wraps (v : Ipv6) (w : Ipv4) : Prop
  /-- IPv4-mapped, `::ffff:0:0/96` -/
  | mapped : v.value = 0xffff * 2 ^ 32 + w.value → Wraps v w
  /-- IPv4-compatible, `::/96` -/
  | compatible : v.value = w.value → Wraps v w
  /-- NAT64, `64:ff9b::/96` -/
  | nat64 : v.value = 0x64ff9b * 2 ^ 96 + w.value → Wraps v w
  /-- 6to4, `2002::/16`: the address is in the next 32 bits. -/
  | sixToFour : v.value / 2 ^ 80 = 0x2002 * 2 ^ 32 + w.value → Wraps v w

theorem Ipv4.eq_ofHalves {w : Ipv4} {hi lo : UInt16} :
    w = ofHalves hi lo ↔ w.value = hi.toNat * 65536 + lo.toNat := by
  rw [← value_ofHalves]
  exact ⟨congrArg value, value_injective⟩

theorem Ipv4.value_lt (w : Ipv4) : w.value < 2 ^ 32 := by
  have := w.bounds
  simp only [value]
  omega

/-- The four ways, in the segments. -/
theorem wraps_iff {v : Ipv6} {w : Ipv4} :
    Wraps v w ↔
      (v.s0 = 0 ∧ v.s1 = 0 ∧ v.s2 = 0 ∧ v.s3 = 0 ∧ v.s4 = 0 ∧ v.s5 = 0xffff ∧
        w = Ipv4.ofHalves v.s6 v.s7) ∨
      (v.s0 = 0 ∧ v.s1 = 0 ∧ v.s2 = 0 ∧ v.s3 = 0 ∧ v.s4 = 0 ∧ v.s5 = 0 ∧
        w = Ipv4.ofHalves v.s6 v.s7) ∨
      (v.s0 = 0x64 ∧ v.s1 = 0xff9b ∧ v.s2 = 0 ∧ v.s3 = 0 ∧ v.s4 = 0 ∧ v.s5 = 0 ∧
        w = Ipv4.ofHalves v.s6 v.s7) ∨
      (v.s0 = 0x2002 ∧ w = Ipv4.ofHalves v.s1 v.s2) := by
  have hv := v.bounds
  have hw := w.value_lt
  simp only [← UInt16.toNat_inj, Ipv4.eq_ofHalves]
  simp only [UInt16.reduceToNat]
  constructor
  · intro h
    cases h with
    | mapped h =>
        left
        simp only [Ipv6.value] at h
        omega
    | compatible h =>
        right; left
        simp only [Ipv6.value] at h
        omega
    | nat64 h =>
        right; right; left
        simp only [Ipv6.value] at h
        omega
    | sixToFour h =>
        right; right; right
        simp only [Ipv6.value] at h
        omega
  · rintro (⟨h0, h1, h2, h3, h4, h5, h⟩ | ⟨h0, h1, h2, h3, h4, h5, h⟩ |
      ⟨h0, h1, h2, h3, h4, h5, h⟩ | ⟨h0, h⟩)
    · refine .mapped ?_
      simp only [Ipv6.value]
      omega
    · refine .compatible ?_
      simp only [Ipv6.value]
      omega
    · refine .nat64 ?_
      simp only [Ipv6.value]
      omega
    · refine .sixToFour ?_
      simp only [Ipv6.value]
      omega

/-! ## Texts -/

protected def Ipv4.toString (v : Ipv4) : String :=
  s!"{v.a.toNat}.{v.b.toNat}.{v.c.toNat}.{v.d.toNat}"

/-- A run of zero segments: where it starts, and how long it is. -/
structure ZeroRun where
  start : Nat
  len : Nat

/-- The longest run of zeros, the first of several; `current` is the run that
ends right before the segment number `i`. -/
def longestZeroRun : List UInt16 → Nat → ZeroRun → ZeroRun → ZeroRun
  | [], _, _, longest => longest
  | s :: rest, i, current, longest =>
      if s = 0 then
        let current : ZeroRun := ⟨if current.len = 0 then i else current.start, current.len + 1⟩
        longestZeroRun rest (i + 1) current (if longest.len < current.len then current else longest)
      else longestZeroRun rest (i + 1) ⟨0, 0⟩ longest

def hexSegments (segments : List UInt16) : String :=
  ":".intercalate (segments.map (fun s => String.ofList (Nat.toDigits 16 s.toNat)))

def Ipv6.segments (v : Ipv6) : List UInt16 := [v.s0, v.s1, v.s2, v.s3, v.s4, v.s5, v.s6, v.s7]

/-- The longest run of two or more zeros is written `::`. -/
protected def Ipv6.toString (v : Ipv6) : String :=
  match v.toIpv4Mapped with
  | some w => "::ffff:" ++ w.toString
  | none =>
      let zeros := longestZeroRun v.segments 0 ⟨0, 0⟩ ⟨0, 0⟩
      if 1 < zeros.len then
        hexSegments (v.segments.take zeros.start) ++ "::" ++
          hexSegments (v.segments.drop (zeros.start + zeros.len))
      else hexSegments v.segments

protected def IpAddr.toString : IpAddr → String
  | .v4 ip => ip.toString
  | .v6 ip => ip.toString

example : (Ipv6.mk 0xfe80 0 0 1 0 0 0 0xa).toString = "fe80:0:0:1::a" := by decide

end Llmenv.Lib
