/-
# `Llmenv.Scope.GatewayMac` — the two readers of a MAC address

`is_valid_mac_address` of `crates/llmenv-config/src/validate/scope_match.rs`,
which a config value passes at load time, and `normalize_mac` with
`gateway_mac_matches` of `crates/llmenv-scope/src/network.rs`, which compare
that value with the gateway of the machine.  One parses each octet as an
integer, the other one looks at its characters.

Both read one or two hex digits as an octet.  The integer parser takes a plus
sign too, so the validator accepts addresses such as `+1:2:3:4:5:6` that the
matcher does not read (`Signed`): on every other text the two agree.
-/
import Mathlib.Data.List.Forall2
import Mathlib.Tactic.Tauto
import Llmenv.Lib.Hex
import Llmenv.Lib.Slice
import Llmenv.Lib.Text

namespace Llmenv.Scope.GatewayMac

open Llmenv.Lib.Text

/-! ## The code -/

/-- `u8::from_str_radix(_, 16)`: an optional `+`, at least one digit, at most 255. -/
def fromStrRadix16 (cs : List Char) : Option Nat :=
  let digits := (stripPrefix ['+'] cs).getD cs
  if digits.isEmpty then none else (hexNumber? 0 digits).filter (fun n => decide (n ≤ 255))

/-- `(1..=2).contains(&part.len())`. -/
def oneOrTwoBytes (part : List Char) : Bool := 1 ≤ byteLen part && byteLen part ≤ 2

def isValidMacAddress (mac : List Char) : Bool :=
  let parts := split (· == ':') mac
  if parts.length ≠ 6 then false
  else parts.all fun part => oneOrTwoBytes part && (fromStrRadix16 part).isSome

/-- One turn of the loop of `normalize_mac`; `none` leaves the function. -/
def normalizeOctet (part : List Char) : Option (List Char) :=
  if !oneOrTwoBytes part || !part.all isAsciiHexdigit then none
  else some ((toAsciiLowercase part).leftpad 2 '0')

def normalizeMac (s : List Char) : Option (List Char) :=
  ((split (· == ':') s).mapM normalizeOctet).bind fun octets =>
    if octets.length = 6 then some (join [':'] octets) else none

/-- `str::eq_ignore_ascii_case`. -/
def eqIgnoreAsciiCase (a b : List Char) : Bool := toAsciiLowercase a == toAsciiLowercase b

/-- The second argument is `env.gateway_mac`. -/
def gatewayMacMatches (want : List Char) (gatewayMac : Option (List Char)) : Bool :=
  match gatewayMac with
  | none => false
  | some got =>
      match normalizeMac want, normalizeMac got with
      | some w, some g => w == g
      | _, _ => eqIgnoreAsciiCase got want

/-! ## Octets -/

theorem oneOrTwoBytes_iff {part : List Char} :
    oneOrTwoBytes part = true ↔ 1 ≤ byteLen part ∧ byteLen part ≤ 2 := by
  rw [oneOrTwoBytes, Bool.and_eq_true, decide_eq_true_iff, decide_eq_true_iff]

/-- One or two hex digits, and their value. -/
inductive HexOctet : List Char → Nat → Prop
  | one {c : Char} {v : Nat} (h : hexVal c = some v) : HexOctet [c] v
  | two {c d : Char} {x y : Nat} (hc : hexVal c = some x) (hd : hexVal d = some y) :
      HexOctet [c, d] (16 * x + y)

/-- A plus sign and one hex digit: an octet to the integer parser only. -/
def SignedOctet (part : List Char) : Prop := ∃ c v, hexVal c = some v ∧ part = ['+', c]

theorem utf8Size_of_hexVal {c : Char} {v : Nat} (h : hexVal c = some v) : c.utf8Size = 1 := by
  refine Char.utf8Size_eq_one_iff.mpr (UInt32.le_iff_toNat_le.mpr ?_)
  have hc := hexVal_cases h
  show c.toNat ≤ 127
  omega

theorem HexOctet.lt {part : List Char} {v : Nat} (h : HexOctet part v) : v < 256 := by
  cases h with
  | one h =>
      have := hexVal_lt h
      omega
  | two hc hd =>
      have := hexVal_lt hc
      have := hexVal_lt hd
      omega

theorem HexOctet.oneOrTwoBytes {part : List Char} {v : Nat} (h : HexOctet part v) :
    oneOrTwoBytes part = true := by
  cases h with
  | one h => simp [oneOrTwoBytes_iff, utf8Size_of_hexVal h]
  | two hc hd => simp [oneOrTwoBytes_iff, utf8Size_of_hexVal hc, utf8Size_of_hexVal hd]

theorem HexOctet.hexNumber? {part : List Char} {v : Nat} (h : HexOctet part v) :
    hexNumber? 0 part = some v := by
  cases h with
  | one h => simp [Lib.Text.hexNumber?, h]
  | two hc hd => simp [Lib.Text.hexNumber?, hc, hd]

/-- A text of one or two bytes that is made of digits is an octet. -/
theorem exists_hexOctet {part : List Char} (hlen : oneOrTwoBytes part = true)
    (hall : ∀ c ∈ part, isAsciiHexdigit c = true) : ∃ v, HexOctet part v := by
  have hdigit : ∀ c ∈ part, ∃ v, hexVal c = some v := fun c hc =>
    Option.isSome_iff_exists.mp (hall c hc)
  match part with
  | [] => exact absurd hlen (by decide)
  | [c] =>
      obtain ⟨v, hv⟩ := hdigit c List.mem_cons_self
      exact ⟨v, .one hv⟩
  | [c, d] =>
      obtain ⟨x, hx⟩ := hdigit c List.mem_cons_self
      obtain ⟨y, hy⟩ := hdigit d (List.mem_cons_of_mem _ List.mem_cons_self)
      exact ⟨16 * x + y, .two hx hy⟩
  | c :: d :: e :: rest =>
      have := c.utf8Size_pos
      have := d.utf8Size_pos
      have := e.utf8Size_pos
      have hle := (oneOrTwoBytes_iff.mp hlen).2
      simp only [byteLen_cons] at hle
      omega

/-- A digit is not a sign. -/
theorem stripPrefix_plus_of_hexVal {c : Char} {v : Nat} (h : hexVal c = some v)
    (cs : List Char) : stripPrefix ['+'] (c :: cs) = none := by
  have hplus : hexVal '+' = none := rfl
  have hne : '+' ≠ c := by
    rintro rfl
    rw [hplus] at h
    exact absurd h (by simp)
  rw [stripPrefix, if_neg hne]

theorem HexOctet.fromStrRadix16 {part : List Char} {v : Nat} (h : HexOctet part v) :
    fromStrRadix16 part = some v := by
  have hnum := h.hexNumber?
  have hlt := h.lt
  have hstrip : stripPrefix ['+'] part = none ∧ part.isEmpty = false := by
    cases h with
    | one h => exact ⟨stripPrefix_plus_of_hexVal h _, rfl⟩
    | two hc hd => exact ⟨stripPrefix_plus_of_hexVal hc _, rfl⟩
  simp only [GatewayMac.fromStrRadix16, hstrip, Option.getD_none, Bool.false_eq_true, if_false, hnum]
  exact Option.filter_some_pos (by simpa using Nat.le_of_lt_succ hlt)

theorem SignedOctet.isSome {part : List Char} (h : SignedOctet part) :
    oneOrTwoBytes part = true ∧ (GatewayMac.fromStrRadix16 part).isSome := by
  obtain ⟨c, v, hv, rfl⟩ := h
  have hlt := hexVal_lt hv
  have hplus : '+'.utf8Size = 1 := rfl
  have hnum : hexNumber? 0 [c] = some v := (HexOctet.one hv).hexNumber?
  refine ⟨by simp [oneOrTwoBytes_iff, utf8Size_of_hexVal hv, hplus], ?_⟩
  have hstrip : stripPrefix ['+'] ['+', c] = some [c] := rfl
  simp only [GatewayMac.fromStrRadix16, hstrip, Option.getD_some, List.isEmpty_cons,
    Bool.false_eq_true, if_false, hnum]
  rw [Option.filter_some_pos (by simp; omega)]
  rfl

/-- What the validator takes for an octet. -/
theorem validOctet_iff {part : List Char} :
    (oneOrTwoBytes part && (fromStrRadix16 part).isSome) = true ↔
      (∃ v, HexOctet part v) ∨ SignedOctet part := by
  rw [Bool.and_eq_true]
  constructor
  · rintro ⟨hlen, hsome⟩
    obtain ⟨v, hv⟩ := Option.isSome_iff_exists.mp hsome
    rw [fromStrRadix16] at hv
    split at hv
    · exact absurd hv (by simp)
    · rename_i hne
      have hnum := (Option.filter_eq_some_iff.mp hv).1
      cases hstrip : stripPrefix ['+'] part with
      | none =>
          rw [hstrip, Option.getD_none] at hnum
          exact .inl (exists_hexOctet hlen (isAsciiHexdigit_of_hexNumber? hnum))
      | some rest =>
          -- Behind the sign there is room for one digit.
          rw [hstrip, Option.getD_some] at hnum hne
          have hpart : part = '+' :: rest := eq_append_of_stripPrefix hstrip
          subst hpart
          match rest with
          | [] => exact absurd rfl hne
          | [c] =>
              obtain ⟨x, hx⟩ := Option.isSome_iff_exists.mp
                (isAsciiHexdigit_of_hexNumber? hnum c List.mem_cons_self)
              exact .inr ⟨c, x, hx, rfl⟩
          | c :: d :: rest =>
              have := c.utf8Size_pos
              have := d.utf8Size_pos
              have hplus : '+'.utf8Size = 1 := rfl
              have hle := (oneOrTwoBytes_iff.mp hlen).2
              simp only [byteLen_cons, hplus] at hle
              omega
  · rintro (⟨v, hv⟩ | hsigned)
    · exact ⟨hv.oneOrTwoBytes, by rw [hv.fromStrRadix16]; rfl⟩
    · exact hsigned.isSome

/-- An octet in the canonical form has the two digits of its value. -/
theorem HexOctet.leftpad {part : List Char} {v : Nat} (h : HexOctet part v) :
    (toAsciiLowercase part).leftpad 2 '0' = hexPadded 2 v := by
  cases h with
  | one h =>
      rw [hexPadded, Nat.toDigits_of_lt_base (hexVal_lt h), ← toLower_of_hexVal h]
      rfl
  | two hc hd =>
      rw [hexPadded_two (hexVal_lt hc) (hexVal_lt hd), ← toLower_of_hexVal hc,
        ← toLower_of_hexVal hd]
      rfl

/-- What the matcher takes for an octet, and how it writes it. -/
theorem normalizeOctet_eq_some {part out : List Char} :
    normalizeOctet part = some out ↔ ∃ v, HexOctet part v ∧ out = hexPadded 2 v := by
  rw [normalizeOctet]
  constructor
  · intro h
    split at h
    · exact absurd h (by simp)
    · rename_i hnot
      simp only [Bool.or_eq_true, Bool.not_eq_true', not_or, Bool.not_eq_false] at hnot
      obtain ⟨v, hv⟩ := exists_hexOctet hnot.1 (List.all_eq_true.mp hnot.2)
      exact ⟨v, hv, by rw [← hv.leftpad, ← Option.some.inj h]⟩
  · rintro ⟨v, hv, rfl⟩
    have hall : part.all isAsciiHexdigit = true :=
      List.all_eq_true.mpr (isAsciiHexdigit_of_hexNumber? hv.hexNumber?)
    simp only [hv.oneOrTwoBytes, hall, Bool.not_true, Bool.or_self, Bool.false_eq_true, if_false,
      hv.leftpad]

/-- The canonical form of an octet is an octet of the same value. -/
theorem hexOctet_hexPadded {v : Nat} (h : v < 256) : HexOctet (hexPadded 2 v) v := by
  have hhi : v / 16 < 16 := by omega
  have hlo : v % 16 < 16 := by omega
  have hv : 16 * (v / 16) + v % 16 = v := Nat.div_add_mod v 16
  have htwo : HexOctet (hexPadded 2 (16 * (v / 16) + v % 16)) (16 * (v / 16) + v % 16) := by
    rw [hexPadded_two hhi hlo]
    exact .two (hexVal_digitChar hhi) (hexVal_digitChar hlo)
  rwa [hv] at htwo

theorem HexOctet.colon_notMem {part : List Char} {v : Nat} (h : HexOctet part v) : ':' ∉ part := by
  intro hmem
  have hcolon : isAsciiHexdigit ':' = false := rfl
  have hdigit := isAsciiHexdigit_of_hexNumber? h.hexNumber? ':' hmem
  rw [hcolon] at hdigit
  exact absurd hdigit (by simp)

/-! ## Addresses -/

/-- Six octets with the values `vs`. -/
structure Mac (s : List Char) (vs : List Nat) : Prop where
  octets : List.Forall₂ HexOctet (split (· == ':') s) vs
  six : vs.length = 6

/-- Six octets, of which at least one has a sign in front of its digit. -/
structure Signed (s : List Char) : Prop where
  six : (split (· == ':') s).length = 6
  octets : ∀ part ∈ split (· == ':') s, (∃ v, HexOctet part v) ∨ SignedOctet part
  sign : ∃ part ∈ split (· == ':') s, SignedOctet part

/-- The six values, as the validator's parser reads them. -/
def octetValues (s : List Char) : Option (List Nat) := (split (· == ':') s).mapM fromStrRadix16

/-- A loop over the parts that leaves at the first part without a result. -/
theorem mapM_eq_some {α β : Type} {f : α → Option β} {xs : List α} {ys : List β} :
    xs.mapM f = some ys ↔ List.Forall₂ (fun x y => f x = some y) xs ys := by
  induction xs generalizing ys with
  | nil => simp [eq_comm]
  | cons x xs ih =>
      rw [List.mapM_cons, List.forall₂_cons_left_iff]
      constructor
      · intro h
        obtain ⟨y, hy, h⟩ := Option.bind_eq_some_iff.mp h
        obtain ⟨ys, hys, h⟩ := Option.bind_eq_some_iff.mp h
        exact ⟨y, ys, hy, ih.mp hys, (Option.some.inj h).symm⟩
      · rintro ⟨y, ys, hy, hys, rfl⟩
        exact Option.bind_eq_some_iff.mpr ⟨y, hy, Option.bind_eq_some_iff.mpr ⟨ys, ih.mpr hys, rfl⟩⟩

theorem Mac.octetValues {s : List Char} {vs : List Nat} (h : Mac s vs) :
    octetValues s = some vs :=
  mapM_eq_some.mpr (h.octets.imp fun _ _ hv => hv.fromStrRadix16)

theorem octet_values_lt {parts : List (List Char)} {vs : List Nat}
    (h : List.Forall₂ HexOctet parts vs) : ∀ v ∈ vs, v < 256 := by
  induction h with
  | nil => simp
  | cons hpart _ ih => exact List.forall_mem_cons.mpr ⟨hpart.lt, ih⟩

/-- The values behind canonical octets. -/
theorem exists_values {parts octets : List (List Char)}
    (h : List.Forall₂ (fun part out => ∃ v, HexOctet part v ∧ out = hexPadded 2 v) parts octets) :
    ∃ vs, List.Forall₂ HexOctet parts vs ∧ octets = vs.map (hexPadded 2) := by
  induction h with
  | nil => exact ⟨[], .nil, rfl⟩
  | cons hpart _ ih =>
      obtain ⟨v, hv, rfl⟩ := hpart
      obtain ⟨vs, hvs, rfl⟩ := ih
      exact ⟨v :: vs, .cons hv hvs, rfl⟩

/-- The canonical form of six values is an address with these values. -/
theorem mac_canonical {vs : List Nat} (hsix : vs.length = 6) (hlt : ∀ v ∈ vs, v < 256) :
    Mac (join [':'] (vs.map (hexPadded 2))) vs := by
  refine ⟨?_, hsix⟩
  have hne : vs.map (hexPadded 2) ≠ [] := by
    intro hnil
    rw [List.map_eq_nil_iff.mp hnil] at hsix
    exact absurd hsix (by simp)
  have hcolon : ∀ part ∈ vs.map (hexPadded 2), ':' ∉ part := by
    intro part hpart
    obtain ⟨v, hv, rfl⟩ := List.mem_map.mp hpart
    exact (hexOctet_hexPadded (hlt v hv)).colon_notMem
  rw [split_join hne hcolon, List.forall₂_map_left_iff, List.forall₂_same]
  exact fun v hv => hexOctet_hexPadded (hlt v hv)

/-- The matcher reads the addresses, and writes the canonical form of their values. -/
theorem normalizeMac_eq_some {s n : List Char} :
    normalizeMac s = some n ↔ ∃ vs, Mac s vs ∧ n = join [':'] (vs.map (hexPadded 2)) := by
  rw [normalizeMac, Option.bind_eq_some_iff]
  constructor
  · rintro ⟨octets, hmap, h⟩
    split at h
    · rename_i hsix
      have hparts := (mapM_eq_some.mp hmap).imp fun _ _ ho => normalizeOctet_eq_some.mp ho
      obtain ⟨vs, hvs, rfl⟩ := exists_values hparts
      exact ⟨vs, ⟨hvs, by simpa using hsix⟩, (Option.some.inj h).symm⟩
    · exact absurd h (by simp)
  · rintro ⟨vs, hmac, rfl⟩
    refine ⟨vs.map (hexPadded 2), mapM_eq_some.mpr ?_, if_pos (by simpa using hmac.six)⟩
    rw [List.forall₂_map_right_iff]
    exact hmac.octets.imp fun _ v hv => normalizeOctet_eq_some.mpr ⟨v, hv, rfl⟩

theorem isSome_normalizeMac_iff {s : List Char} : (normalizeMac s).isSome ↔ ∃ vs, Mac s vs := by
  rw [Option.isSome_iff_exists]
  constructor
  · rintro ⟨n, hn⟩
    obtain ⟨vs, hmac, -⟩ := normalizeMac_eq_some.mp hn
    exact ⟨vs, hmac⟩
  · rintro ⟨vs, hmac⟩
    exact ⟨_, normalizeMac_eq_some.mpr ⟨vs, hmac, rfl⟩⟩

theorem exists_octets {parts : List (List Char)} (h : ∀ part ∈ parts, ∃ v, HexOctet part v) :
    ∃ vs, List.Forall₂ HexOctet parts vs := by
  induction parts with
  | nil => exact ⟨[], .nil⟩
  | cons part parts ih =>
      obtain ⟨⟨v, hv⟩, hparts⟩ := List.forall_mem_cons.mp h
      obtain ⟨vs, hvs⟩ := ih hparts
      exact ⟨v :: vs, .cons hv hvs⟩

theorem exists_value_of_mem {parts : List (List Char)} {vs : List Nat}
    (h : List.Forall₂ HexOctet parts vs) : ∀ part ∈ parts, ∃ v, HexOctet part v := by
  induction h with
  | nil => simp
  | cons hpart _ ih => exact List.forall_mem_cons.mpr ⟨⟨_, hpart⟩, ih⟩

/-- The validator reads the addresses of the matcher, and those with a sign. -/
theorem isValidMacAddress_iff {s : List Char} :
    isValidMacAddress s = true ↔ (∃ vs, Mac s vs) ∨ Signed s := by
  have hcode : isValidMacAddress s = true ↔ (split (· == ':') s).length = 6 ∧
      ∀ part ∈ split (· == ':') s, (∃ v, HexOctet part v) ∨ SignedOctet part := by
    simp only [isValidMacAddress, ← validOctet_iff]
    split
    · rename_i hne
      exact iff_of_false (by simp) fun h => hne h.1
    · rename_i heq
      rw [List.all_eq_true, and_iff_right (not_not.mp heq)]
  rw [hcode]
  constructor
  · rintro ⟨hsix, hoctets⟩
    by_cases hsign : ∃ part ∈ split (· == ':') s, SignedOctet part
    · exact .inr ⟨hsix, hoctets, hsign⟩
    · refine .inl ?_
      obtain ⟨vs, hvs⟩ := exists_octets fun part hpart =>
        (hoctets part hpart).resolve_right fun h => hsign ⟨part, hpart, h⟩
      exact ⟨vs, hvs, hvs.length_eq ▸ hsix⟩
  · rintro (⟨vs, hmac⟩ | hsigned)
    · exact ⟨hmac.octets.length_eq.trans hmac.six,
        fun part hpart => .inl (exists_value_of_mem hmac.octets part hpart)⟩
    · exact ⟨hsigned.six, hsigned.octets⟩

theorem Signed.not_mac {s : List Char} (h : Signed s) : ¬ ∃ vs, Mac s vs := by
  rintro ⟨vs, hmac⟩
  obtain ⟨part, hpart, c, -, -, rfl⟩ := h.sign
  obtain ⟨v, hv⟩ := exists_value_of_mem hmac.octets _ hpart
  have hplus : isAsciiHexdigit '+' = false := rfl
  have hdigit := isAsciiHexdigit_of_hexNumber? hv.hexNumber? '+' List.mem_cons_self
  rw [hplus] at hdigit
  exact absurd hdigit (by simp)

theorem normalizeMac_idempotent {s n : List Char} (h : normalizeMac s = some n) :
    normalizeMac n = some n := by
  obtain ⟨vs, hmac, rfl⟩ := normalizeMac_eq_some.mp h
  have hcanon := mac_canonical hmac.six (octet_values_lt hmac.octets)
  exact normalizeMac_eq_some.mpr ⟨vs, hcanon, rfl⟩

/-- The canonical form says which values it is made of. -/
theorem canonical_inj {vs ws : List Nat} (hv : vs.length = 6 ∧ ∀ v ∈ vs, v < 256)
    (hw : ws.length = 6 ∧ ∀ w ∈ ws, w < 256)
    (h : join [':'] (vs.map (hexPadded 2)) = join [':'] (ws.map (hexPadded 2))) : vs = ws := by
  have hvs := (mac_canonical hv.1 hv.2).octetValues
  rw [h, (mac_canonical hw.1 hw.2).octetValues] at hvs
  exact (Option.some.inj hvs).symm

theorem Mac.gatewayMacMatches_iff {s t : List Char} {vs ws : List Nat} (hs : Mac s vs)
    (ht : Mac t ws) : gatewayMacMatches s (some t) = true ↔ vs = ws := by
  rw [gatewayMacMatches, normalizeMac_eq_some.mpr ⟨vs, hs, rfl⟩,
    normalizeMac_eq_some.mpr ⟨ws, ht, rfl⟩]
  dsimp only
  rw [beq_iff_eq]
  constructor
  · exact canonical_inj ⟨hs.six, octet_values_lt hs.octets⟩ ⟨ht.six, octet_values_lt ht.octets⟩
  · rintro rfl
    rfl

/-- The validator and the matcher agree on two texts exactly when neither of them is an
address with a sign in an octet. -/
theorem macReaders_agree_iff (s t : List Char) :
    ((isValidMacAddress s = true ↔ (normalizeMac s).isSome) ∧
      (isValidMacAddress t = true ↔ (normalizeMac t).isSome) ∧
      (∀ n, normalizeMac s = some n → normalizeMac n = some n) ∧
      (isValidMacAddress s = true → isValidMacAddress t = true →
        (gatewayMacMatches s (some t) = true ↔ octetValues s = octetValues t))) ↔
      ¬ Signed s ∧ ¬ Signed t := by
  have hsame : ∀ u, (isValidMacAddress u = true ↔ (normalizeMac u).isSome) ↔ ¬ Signed u := by
    intro u
    rw [isValidMacAddress_iff, isSome_normalizeMac_iff]
    have := @Signed.not_mac u
    tauto
  rw [hsame s, hsame t]
  constructor
  · rintro ⟨hs, ht, -, -⟩
    exact ⟨hs, ht⟩
  · rintro ⟨hs, ht⟩
    refine ⟨hs, ht, fun n => normalizeMac_idempotent, fun hvs hvt => ?_⟩
    obtain ⟨vs, hmacs⟩ := (isValidMacAddress_iff.mp hvs).resolve_right hs
    obtain ⟨ws, hmact⟩ := (isValidMacAddress_iff.mp hvt).resolve_right ht
    rw [hmacs.gatewayMacMatches_iff hmact, hmacs.octetValues, hmact.octetValues,
      Option.some.injEq]

/-- A sign in the first octet passes the validator, and the matcher reads no address. -/
theorem macReaders_disagree :
    ¬ ∀ s, isValidMacAddress s = true ↔ (normalizeMac s).isSome := by
  intro h
  have hvalid : isValidMacAddress "+1:2:3:4:5:6".toList = true := by decide
  have hnone : normalizeMac "+1:2:3:4:5:6".toList = none := by decide
  have hsome := (h _).mp hvalid
  rw [hnone] at hsome
  exact absurd hsome (by simp)

/-- The gateway has the six values that the config names, and does not match. -/
example : octetValues "+1:2:3:4:5:6".toList = octetValues "01:02:03:04:05:06".toList ∧
    gatewayMacMatches "+1:2:3:4:5:6".toList (some "01:02:03:04:05:06".toList) = false := by
  decide

end Llmenv.Scope.GatewayMac
