/-
# `Llmenv.Lib.HexBytes` — bytes as hex digits

Two digits for a byte, in lower case.  Digits of either case are read, and what
was written is read back (`hexDecode_hexEncode`).  No byte of the written text
is zero, so such a text can stand between zero bytes.
-/
import Llmenv.Lib.Encode
import Llmenv.Lib.Hex

namespace Llmenv.Lib.HexBytes

open Encode Text

/-- The two digits of a byte. -/
def digits (b : UInt8) : List Char := [(b.toNat / 16).digitChar, (b.toNat % 16).digitChar]

/-- `hex::encode`. -/
def hexEncode (bytes : Bytes) : String := String.ofList (bytes.flatMap digits)

def hexBytes? : List Char → Option Bytes
  | [] => some []
  | [_] => none
  | c :: d :: cs => do
      let high ← hexVal c
      let low ← hexVal d
      let rest ← hexBytes? cs
      some (UInt8.ofNat (16 * high + low) :: rest)

/-- `hex::decode`. -/
def hexDecode (s : String) : Option Bytes := hexBytes? s.toList

theorem hexBytes?_digits (bytes : Bytes) : hexBytes? (bytes.flatMap digits) = some bytes := by
  induction bytes with
  | nil => rfl
  | cons b bytes ih =>
      have hb := b.toNat_lt
      have hsum : 16 * (b.toNat / 16) + b.toNat % 16 = b.toNat := Nat.div_add_mod _ _
      simp only [List.flatMap_cons, digits, List.cons_append, List.nil_append, hexBytes?,
        hexVal_digitChar (Nat.mod_lt b.toNat (by decide)),
        hexVal_digitChar (show b.toNat / 16 < 16 by omega), Option.bind_eq_bind, Option.bind_some]
      rw [ih, Option.bind_some, hsum, UInt8.ofNat_toNat]

@[simp] theorem hexDecode_hexEncode (bytes : Bytes) : hexDecode (hexEncode bytes) = some bytes := by
  rw [hexDecode, hexEncode, String.toList_ofList, hexBytes?_digits]

/-! ## The written text -/

theorem utf8_ofList (cs : List Char) :
    utf8 (String.ofList cs) = cs.flatMap String.utf8EncodeChar := by
  rw [utf8, String.toByteArray_ofList]
  simp [List.utf8Encode]

theorem zero_notMem_digitChar {d : Nat} (hd : d < 16) :
    (0 : UInt8) ∉ String.utf8EncodeChar d.digitChar := by
  interval_cases d <;> decide

theorem zero_notMem_hexEncode (bytes : Bytes) : (0 : UInt8) ∉ utf8 (hexEncode bytes) := by
  rw [hexEncode, utf8_ofList]
  intro h
  obtain ⟨c, hc, hzero⟩ := List.mem_flatMap.mp h
  obtain ⟨b, -, hcb⟩ := List.mem_flatMap.mp hc
  have hb := b.toNat_lt
  simp only [digits, List.mem_cons, List.not_mem_nil, or_false] at hcb
  rcases hcb with rfl | rfl
  · exact zero_notMem_digitChar (by omega) hzero
  · exact zero_notMem_digitChar (Nat.mod_lt _ (by decide)) hzero

end Llmenv.Lib.HexBytes
