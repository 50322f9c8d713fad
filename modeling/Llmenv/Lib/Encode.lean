/-
# `Llmenv.Lib.Encode` — writing values so that they can be told apart

Values are written one after the other into one string of bytes.  `Reads rel
enc` says that the bytes that `enc` writes have an end that can be found: two
values whose bytes start the same text are related by `rel`, and what follows
them is the same.  So encodings can be put in sequence (`reads_seq`) and
repeated behind a count (`reads_list`), and stay readable.

A length is written in eight bytes.  A value with a longer one cannot be in
memory, and writing it fails.
-/
import Mathlib.Algebra.Group.Nat.Defs
import Mathlib.Data.List.Forall2
import Llmenv.Lib.Result

namespace Llmenv.Lib.Encode

abbrev Bytes := List UInt8

variable {α β : Type}

/-- What `enc` writes can be read back, up to `rel`, whatever comes after it. -/
def Reads (rel : α → α → Prop) (enc : α → Except String Bytes) : Prop :=
  ∀ a b x y r s, enc a = .ok x → enc b = .ok y → x ++ r = y ++ s → rel a b ∧ r = s

/-! ## Numbers and texts -/

/-- The last `k` bytes of a number, least first. -/
def leBytes : Nat → Nat → Bytes
  | 0, _ => []
  | k + 1, n => UInt8.ofNat n :: leBytes k (n / 256)

/-- A number as `u64::to_le_bytes`. -/
def u64 (n : Nat) : Except String Bytes :=
  if n < 256 ^ 8 then .ok (leBytes 8 n) else .error "capacity overflow"

/-- Bytes behind their number. -/
def lenPrefixed (bytes : Bytes) : Except String Bytes := do
  let len ← u64 bytes.length
  .ok (len ++ bytes)

/-- The bytes of a text. -/
def utf8 (s : String) : Bytes := s.toByteArray.data.toList

def text (s : String) : Except String Bytes := lenPrefixed (utf8 s)

theorem length_leBytes (k n : Nat) : (leBytes k n).length = k := by
  induction k generalizing n with
  | zero => rfl
  | succ k ih => rw [leBytes, List.length_cons, ih]

theorem leBytes_inj {k : Nat} : ∀ {n m : Nat}, n < 256 ^ k → m < 256 ^ k →
    leBytes k n = leBytes k m → n = m := by
  induction k with
  | zero =>
      intro n m hn hm _
      simp only [Nat.pow_zero, Nat.lt_one_iff] at hn hm
      rw [hn, hm]
  | succ k ih =>
      intro n m hn hm h
      rw [leBytes, leBytes, List.cons.injEq] at h
      have hlow : n % 256 = m % 256 := by
        simpa [UInt8.toNat_ofNat'] using congrArg UInt8.toNat h.1
      have hhigh : n / 256 = m / 256 := by
        refine ih ?_ ?_ h.2
        · rw [Nat.pow_succ] at hn
          omega
        · rw [Nat.pow_succ] at hm
          omega
      omega

theorem utf8_inj {s t : String} (h : utf8 s = utf8 t) : s = t :=
  String.toByteArray_inj.mp (ByteArray.ext (Array.toList_inj.mp h))

theorem reads_u64 : Reads Eq u64 := by
  intro n m x y r s hx hy h
  unfold u64 at hx hy
  split at hx
  · split at hy
    · rename_i hn hm
      obtain rfl := Except.ok.inj hx
      obtain rfl := Except.ok.inj hy
      have hlen : (leBytes 8 n).length = (leBytes 8 m).length := by
        rw [length_leBytes, length_leBytes]
      obtain ⟨hbytes, hrest⟩ := List.append_inj h hlen
      exact ⟨leBytes_inj hn hm hbytes, hrest⟩
    · exact absurd hy (by simp)
  · exact absurd hx (by simp)

theorem reads_lenPrefixed : Reads Eq lenPrefixed := by
  intro a b x y r s hx hy h
  obtain ⟨na, hna, hx⟩ := bind_eq_ok.mp hx
  obtain ⟨nb, hnb, hy⟩ := bind_eq_ok.mp hy
  obtain rfl := Except.ok.inj hx
  obtain rfl := Except.ok.inj hy
  rw [List.append_assoc, List.append_assoc] at h
  obtain ⟨hlen, h⟩ := reads_u64 _ _ _ _ _ _ hna hnb h
  exact List.append_inj h hlen

theorem Reads.comap {rel : β → β → Prop} {enc : β → Except String Bytes} (h : Reads rel enc)
    (f : α → β) : Reads (fun a b => rel (f a) (f b)) (fun a => enc (f a)) :=
  fun a b x y r s hx hy => h (f a) (f b) x y r s hx hy

theorem Reads.weaken {rel rel' : α → α → Prop} {enc : α → Except String Bytes}
    (h : Reads rel enc) (himp : ∀ a b, rel a b → rel' a b) : Reads rel' enc :=
  fun a b x y r s hx hy heq => (h a b x y r s hx hy heq).imp_left (himp a b)

theorem reads_text : Reads Eq text :=
  (reads_lenPrefixed.comap utf8).weaken fun _ _ => utf8_inj

/-! ## In sequence -/

/-- The encodings of one value, one after the other. -/
def seq : List (α → Except String Bytes) → α → Except String Bytes
  | [], _ => .ok []
  | enc :: encs, a => do
      let x ← enc a
      let rest ← seq encs a
      .ok (x ++ rest)

theorem reads_seq_nil : Reads (fun _ _ : α => True) (seq []) := by
  intro a b x y r s hx hy h
  obtain rfl := Except.ok.inj hx
  obtain rfl := Except.ok.inj hy
  exact ⟨trivial, h⟩

/-- Of two encodings one after the other the first is read, and the second is left. -/
theorem Reads.split {rel : α → α → Prop} {enc : α → Except String Bytes} (h : Reads rel enc)
    {a b : α} {fa fb : Except String Bytes} {x y r s : Bytes}
    (hx : (do let first ← enc a; let rest ← fa; Except.ok (first ++ rest)) = .ok x)
    (hy : (do let first ← enc b; let rest ← fb; Except.ok (first ++ rest)) = .ok y)
    (heq : x ++ r = y ++ s) :
    rel a b ∧ ∃ u v, fa = .ok u ∧ fb = .ok v ∧ u ++ r = v ++ s := by
  obtain ⟨x₁, hx₁, hx⟩ := bind_eq_ok.mp hx
  obtain ⟨x₂, hx₂, hx⟩ := bind_eq_ok.mp hx
  obtain ⟨y₁, hy₁, hy⟩ := bind_eq_ok.mp hy
  obtain ⟨y₂, hy₂, hy⟩ := bind_eq_ok.mp hy
  obtain rfl := Except.ok.inj hx
  obtain rfl := Except.ok.inj hy
  rw [List.append_assoc, List.append_assoc] at heq
  obtain ⟨hrel, heq⟩ := h _ _ _ _ _ _ hx₁ hy₁ heq
  exact ⟨hrel, x₂, y₂, hx₂, hy₂, heq⟩

theorem reads_seq {rel rel' : α → α → Prop} {enc : α → Except String Bytes}
    {encs : List (α → Except String Bytes)} (henc : Reads rel enc) (hrest : Reads rel' (seq encs)) :
    Reads (fun a b => rel a b ∧ rel' a b) (seq (enc :: encs)) := by
  intro a b x y r s hx hy h
  obtain ⟨hrel, x', y', hx', hy', h⟩ := henc.split hx hy h
  obtain ⟨hrel', h⟩ := hrest _ _ _ _ _ _ hx' hy' h
  exact ⟨⟨hrel, hrel'⟩, h⟩

/-! ## Lists -/

/-- The items, one after the other. -/
def items (enc : α → Except String Bytes) : List α → Except String Bytes
  | [] => .ok []
  | a :: l => do
      let x ← enc a
      let rest ← items enc l
      .ok (x ++ rest)

/-- A list behind its length. -/
def list (enc : α → Except String Bytes) (l : List α) : Except String Bytes := do
  let len ← u64 l.length
  let body ← items enc l
  .ok (len ++ body)

/-- Lists of one length are read item by item. -/
theorem reads_items {rel : α → α → Prop} {enc : α → Except String Bytes} (henc : Reads rel enc) :
    ∀ (l l' : List α) (x y r s : Bytes), l.length = l'.length → items enc l = .ok x →
      items enc l' = .ok y → x ++ r = y ++ s → List.Forall₂ rel l l' ∧ r = s := by
  intro l
  induction l with
  | nil =>
      intro l' x y r s hlen hx hy h
      obtain rfl : l' = [] := List.length_eq_zero_iff.mp hlen.symm
      obtain rfl := Except.ok.inj hx
      obtain rfl := Except.ok.inj hy
      exact ⟨.nil, h⟩
  | cons a l ih =>
      intro l' x y r s hlen hx hy h
      cases l' with
      | nil => exact absurd hlen (by simp)
      | cons b l' =>
          obtain ⟨hrel, x', y', hx', hy', h⟩ := henc.split hx hy h
          obtain ⟨hrest, h⟩ := ih l' x' y' r s (by simpa using hlen) hx' hy' h
          exact ⟨.cons hrel hrest, h⟩

/-- Items that each take some room are told apart without their number, when nothing comes
behind them. -/
theorem items_inj {rel : α → α → Prop} {enc : α → Except String Bytes} (henc : Reads rel enc)
    (hroom : ∀ a x, enc a = .ok x → x ≠ []) : ∀ {l l' : List α} {x : Bytes},
      items enc l = .ok x → items enc l' = .ok x → List.Forall₂ rel l l' := by
  have hne : ∀ {a : α} {l : List α}, items enc (a :: l) ≠ .ok [] := by
    intro a l h
    obtain ⟨first, hfirst, h⟩ := bind_eq_ok.mp h
    obtain ⟨rest, -, h⟩ := bind_eq_ok.mp h
    exact hroom a first hfirst (List.append_eq_nil_iff.mp (Except.ok.inj h)).1
  intro l
  induction l with
  | nil =>
      intro l' x hx hx'
      obtain rfl := Except.ok.inj hx
      cases l' with
      | nil => exact .nil
      | cons b l' => exact absurd hx' hne
  | cons a l ih =>
      intro l' x hx hx'
      cases l' with
      | nil =>
          obtain rfl := Except.ok.inj hx'
          exact absurd hx hne
      | cons b l' =>
          obtain ⟨hrel, u, v, hu, hv, huv⟩ := henc.split hx hx' (congrArg (· ++ []) (Eq.refl x))
          rw [List.append_nil, List.append_nil] at huv
          exact .cons hrel (ih hu (huv ▸ hv))

theorem reads_list {rel : α → α → Prop} {enc : α → Except String Bytes} (henc : Reads rel enc) :
    Reads (List.Forall₂ rel) (list enc) := by
  intro l l' x y r s hx hy h
  obtain ⟨hlen, x', y', hx', hy', h⟩ := reads_u64.split hx hy h
  exact reads_items henc l l' x' y' r s hlen hx' hy' h

/-- The bytes of a whole value, with nothing after them. -/
theorem Reads.eq {rel : α → α → Prop} {enc : α → Except String Bytes} (h : Reads rel enc)
    {a b : α} {x : Bytes} (ha : enc a = .ok x) (hb : enc b = .ok x) : rel a b :=
  (h a b x x [] [] ha hb rfl).1

end Llmenv.Lib.Encode
