/-
# `Llmenv.Materialize.Shape` — the bytes behind two short hashes

`shape` of `src/materialize/cache.rs`, the digest of the active tags and
bundles, and `request_id` of `src/hook_run/idempotency.rs`, the id of one
event.  Both hash a row of texts behind their lengths, the first one with the
number of texts in front of each group, the second one without a number.

`hashedBytes_injective`: the bytes determine what was hashed.  The two digests
are parameters; a length is cast to 64 bits, and the result is for lengths
that fit.
-/
import Mathlib.Data.Finset.Sort
import Mathlib.Data.String.Basic
import Llmenv.Lib.Encode

namespace Llmenv.Materialize

open Llmenv.Lib Llmenv.Lib.Encode

/-! ## The code -/

/-- `(n as u64).to_le_bytes()`. -/
def lenBytes (n : Nat) : Bytes := leBytes 8 n

/-- What `update_len_prefixed` feeds to the digest. -/
def updateLenPrefixed (data : Bytes) : Bytes := lenBytes data.length ++ data

/-- A `BTreeSet` is walked in order. -/
def elements (s : Finset String) : List String := s.sort (· ≤ ·)

/-- The bytes that `shape` hashes. -/
def shapeBytes (tags bundles : Finset String) : Bytes :=
  lenBytes tags.card ++ (elements tags).flatMap (fun tag => updateLenPrefixed (utf8 tag)) ++
    (lenBytes bundles.card ++
      (elements bundles).flatMap fun bundle => updateLenPrefixed (utf8 bundle))

/-- The first twelve digits of the digest. -/
def shape (sha256Hex : Bytes → List Char) (tags bundles : Finset String) : List Char :=
  (sha256Hex (shapeBytes tags bundles)).take 12

/-- The bytes that `request_id` hashes. -/
def requestIdBytes (parts : List String) : Bytes :=
  parts.flatMap fun part => lenBytes (utf8 part).length ++ utf8 part

def requestId (hashPrefix : Bytes → List Char) (parts : List String) : List Char :=
  hashPrefix (requestIdBytes parts)

/-! ## Reading the bytes -/

/-- A text whose length fits in 64 bits. -/
def Short (s : String) : Prop := (utf8 s).length < 2 ^ 64

theorem u64_lenBytes {n : Nat} (h : n < 2 ^ 64) : u64 n = .ok (lenBytes n) := by
  have hbound : (2 : Nat) ^ 64 = 256 ^ 8 := by decide
  exact if_pos (hbound ▸ h)

theorem text_short {s : String} (h : Short s) : text s = .ok (updateLenPrefixed (utf8 s)) := by
  rw [text, lenPrefixed, u64_lenBytes h]
  rfl

theorem items_short {l : List String} (h : ∀ s ∈ l, Short s) :
    items text l = .ok (l.flatMap fun s => updateLenPrefixed (utf8 s)) := by
  induction l with
  | nil => rfl
  | cons s l ih =>
      obtain ⟨hs, hl⟩ := List.forall_mem_cons.mp h
      rw [items, text_short hs, ih hl]
      rfl

theorem list_short {l : List String} (hlen : l.length < 2 ^ 64) (h : ∀ s ∈ l, Short s) :
    list text l = .ok (lenBytes l.length ++ l.flatMap fun s => updateLenPrefixed (utf8 s)) := by
  rw [list, u64_lenBytes hlen, items_short h]
  rfl

/-- A set of texts whose lengths and number fit in 64 bits. -/
structure Fits (s : Finset String) : Prop where
  card : s.card < 2 ^ 64
  short : ∀ x ∈ s, Short x

theorem Fits.list {s : Finset String} (h : Fits s) :
    list text (elements s) =
      .ok (lenBytes s.card ++ (elements s).flatMap fun x => updateLenPrefixed (utf8 x)) := by
  have hlen : (elements s).length = s.card := Finset.length_sort _
  have hshort : ∀ x ∈ elements s, Short x := fun x hx => h.short x ((Finset.mem_sort _).mp hx)
  rw [list_short (hlen ▸ h.card) hshort, hlen]

theorem elements_inj {s t : Finset String} (h : elements s = elements t) : s = t := by
  rw [← Finset.sort_toFinset s (· ≤ ·), ← Finset.sort_toFinset t (· ≤ ·)]
  exact congrArg List.toFinset h

theorem text_ne_nil {s : String} {x : Bytes} (h : text s = .ok x) : x ≠ [] := by
  obtain ⟨len, hlen, h⟩ := bind_eq_ok.mp h
  obtain rfl := Except.ok.inj h
  unfold u64 at hlen
  split at hlen
  · obtain rfl := Except.ok.inj hlen
    exact List.cons_ne_nil _ _
  · exact absurd hlen (by simp)

theorem shapeBytes_inj {tags bundles tags' bundles' : Finset String} (htags : Fits tags)
    (hbundles : Fits bundles) (htags' : Fits tags') (hbundles' : Fits bundles')
    (h : shapeBytes tags bundles = shapeBytes tags' bundles') : tags = tags' ∧ bundles = bundles' := by
  have hread : Reads (List.Forall₂ Eq) (list text) := reads_list reads_text
  obtain ⟨hfirst, hrest⟩ := hread _ _ _ _ _ _ htags.list htags'.list h
  have hsecond := hread.eq hbundles.list (hrest ▸ hbundles'.list)
  rw [List.forall₂_eq_eq_eq] at hfirst hsecond
  exact ⟨elements_inj hfirst, elements_inj hsecond⟩

theorem requestIdBytes_inj {parts parts' : List String} (hparts : ∀ part ∈ parts, Short part)
    (hparts' : ∀ part ∈ parts', Short part) (h : requestIdBytes parts = requestIdBytes parts') :
    parts = parts' := by
  have hitems := items_short hparts
  have hitems' := items_short hparts'
  have hbytes : (parts.flatMap fun s => updateLenPrefixed (utf8 s)) =
      parts'.flatMap fun s => updateLenPrefixed (utf8 s) := h
  rw [← hbytes] at hitems'
  have hequal := items_inj reads_text (fun _ _ => text_ne_nil) hitems hitems'
  rwa [List.forall₂_eq_eq_eq] at hequal

/-- The bytes that are hashed determine the tags and the bundles, and the parts of an event. -/
theorem hashedBytes_injective :
    (∀ tags bundles tags' bundles' : Finset String,
      Fits tags → Fits bundles → Fits tags' → Fits bundles' →
      (shapeBytes tags bundles = shapeBytes tags' bundles' ↔ tags = tags' ∧ bundles = bundles')) ∧
    ∀ parts parts' : List String, (∀ part ∈ parts, Short part) → (∀ part ∈ parts', Short part) →
      (requestIdBytes parts = requestIdBytes parts' ↔ parts = parts') := by
  refine ⟨fun tags bundles tags' bundles' ht hb ht' hb' => ⟨shapeBytes_inj ht hb ht' hb', ?_⟩,
    fun parts parts' hp hp' => ⟨requestIdBytes_inj hp hp', ?_⟩⟩
  · rintro ⟨rfl, rfl⟩
    rfl
  · rintro rfl
    rfl

theorem short_foo : Short "foo" := by
  rw [Short]
  decide

/-- A tag is not a bundle of the same name. -/
theorem hashedBytes_injective_foo :
    (shapeBytes {"foo"} ∅ = shapeBytes ∅ {"foo"} ↔
      ({"foo"} : Finset String) = ∅ ∧ (∅ : Finset String) = {"foo"}) ∧
    (requestIdBytes ["foo", ""] = requestIdBytes ["foo"] ↔ ["foo", ""] = ["foo"]) := by
  have hfoo : Fits {"foo"} := ⟨by simp, by simpa using short_foo⟩
  have hnone : Fits ∅ := ⟨by simp, by simp⟩
  have hempty : Short "" := by
    rw [Short]
    decide
  refine ⟨hashedBytes_injective.1 _ _ _ _ hfoo hnone hnone hfoo,
    hashedBytes_injective.2 _ _ ?_ ?_⟩
  · simpa using ⟨short_foo, hempty⟩
  · simpa using short_foo

end Llmenv.Materialize
