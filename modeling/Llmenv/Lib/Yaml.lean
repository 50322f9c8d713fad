/-
# `Llmenv.Lib.Yaml` — YAML values, and what they are in JSON

A mapping has keys of any kind, in the order of the text.  A conversion to JSON
writes a key as a text: a string as itself, a boolean and a number as they are
printed; other keys fail.  A tagged value becomes an object with the tag as its
one key, a number that is not finite becomes null.

A number prints with a digit or a minus sign first, so a key like `hooks` in
the JSON comes from the string `hooks` and from nothing else
(`eq_str_of_keyText`).
-/
import Llmenv.Lib.Json
import Llmenv.Lib.Result

namespace Llmenv.Lib

inductive NonFinite where
  | nan
  | infinity
  | negInfinity
deriving DecidableEq

inductive YamlNumber where
  | finite (n : Number)
  | nonFinite (x : NonFinite)
deriving DecidableEq

inductive Yaml where
  | null
  | bool (b : Bool)
  | num (n : YamlNumber)
  | str (s : String)
  | seq (items : List Yaml)
  | map (entries : List (Yaml × Yaml))
  | tagged (tag : String) (value : Yaml)

namespace Yaml

/-- Without its tags. -/
def untag : Yaml → Yaml
  | .tagged _ value => untag value
  | value => value

/-- The entries of a mapping, also of a tagged one. -/
def asMapping? (y : Yaml) : Option (List (Yaml × Yaml)) :=
  match y.untag with
  | .map entries => some entries
  | _ => none

/-- The key is the string `k`. -/
def isKey (k : String) : Yaml → Bool
  | .str s => s == k
  | _ => false

/-- The value under a string key.  The keys of a mapping are all different; in a
list that has one twice the last counts, as in the conversion. -/
def getKey (k : String) : List (Yaml × Yaml) → Option Yaml
  | [] => none
  | (key, value) :: entries => (getKey k entries).or (if key.isKey k then some value else none)

def removeKey (k : String) (entries : List (Yaml × Yaml)) : List (Yaml × Yaml) :=
  entries.filter (fun e => !e.1.isKey k)

/-- The value under a string key, of a mapping. -/
def get? (k : String) (y : Yaml) : Option Yaml := y.asMapping?.bind (getKey k)

/-! ## The conversion -/

/-- The text of a key. -/
def keyText : Yaml → Except String String
  | .str s => .ok s
  | .bool true => .ok "true"
  | .bool false => .ok "false"
  | .num (.finite n) => .ok n.text
  | .num (.nonFinite _) => .error "float key must be finite (got NaN or +/-inf)"
  | _ => .error "key must be a string"

mutual
def toJson : Yaml → Except String Json
  | .null => .ok .null
  | .bool b => .ok (.bool b)
  | .num (.finite n) => .ok (.num n)
  | .num (.nonFinite _) => .ok .null
  | .str s => .ok (.str s)
  | .seq items => do
      let items ← itemsToJson items
      .ok (.arr items)
  | .map entries => do
      let fields ← entriesToJson entries []
      .ok (.obj fields)
  | .tagged tag value => do
      let value ← toJson value
      .ok (.obj [("!" ++ tag, value)])

def itemsToJson : List Yaml → Except String (List Json)
  | [] => .ok []
  | item :: items => do
      let item ← toJson item
      let items ← itemsToJson items
      .ok (item :: items)

def entriesToJson : List (Yaml × Yaml) → List (String × Json) → Except String (List (String × Json))
  | [], fields => .ok fields
  | (k, v) :: entries, fields => do
      let key ← keyText k
      let value ← toJson v
      entriesToJson entries (Fields.insert key value fields)
end

/-! ## What the conversion keeps -/

theorem numeric_text (n : Number) : n.text.toList.head?.any numeric = true := by
  cases n with
  | float x => exact x.first
  | int n =>
      cases n with
      | ofNat n =>
          have htext : (Number.int (Int.ofNat n)).text.toList = Nat.toDigits 10 n := Nat.toList_repr
          rw [htext]
          cases hd : Nat.toDigits 10 n with
          | nil => exact absurd hd Nat.toDigits_ne_nil
          | cons c rest =>
              have hc : c.isDigit = true :=
                Nat.isDigit_of_mem_toDigits (b := 10) (n := n) (by decide) (by decide)
                  (hd ▸ List.mem_cons_self)
              simp [numeric, hc]
      | negSucc n =>
          have htext : (Number.int (Int.negSucc n)).text = "-" ++ Nat.repr (n + 1) := rfl
          rw [htext, String.toList_append]
          rfl

/-- A text that only a string key has. -/
structure PlainKey (k : String) : Prop where
  notNumber : k.toList.head?.any numeric = false
  notTrue : k ≠ "true"
  notFalse : k ≠ "false"

instance (k : String) : Decidable (PlainKey k) :=
  decidable_of_iff (k.toList.head?.any numeric = false ∧ k ≠ "true" ∧ k ≠ "false")
    ⟨fun ⟨h, ht, hf⟩ => ⟨h, ht, hf⟩, fun ⟨h, ht, hf⟩ => ⟨h, ht, hf⟩⟩

theorem eq_str_of_keyText {k : String} (hk : PlainKey k) {y : Yaml} (h : keyText y = .ok k) :
    y = .str k := by
  cases y with
  | str s => rw [Except.ok.inj h]
  | bool b =>
      cases b with
      | true => exact absurd (Except.ok.inj h).symm hk.notTrue
      | false => exact absurd (Except.ok.inj h).symm hk.notFalse
  | num n =>
      cases n with
      | finite n =>
          have hn := numeric_text n
          rw [Except.ok.inj h, hk.notNumber] at hn
          exact absurd hn (by simp)
      | nonFinite x => exact absurd h (by simp [keyText])
  | _ => exact absurd h (by simp [keyText])

theorem isKey_iff {k : String} {y : Yaml} : y.isKey k = true ↔ y = .str k := by
  cases y <;> simp [isKey]

theorem getKey_removeKey {k j : String} {entries : List (Yaml × Yaml)} :
    getKey k (removeKey j entries) = if k = j then none else getKey k entries := by
  induction entries with
  | nil => simp [removeKey, getKey]
  | cons e entries ih =>
      obtain ⟨key, value⟩ := e
      have ih : getKey k (entries.filter (fun e => !e.1.isKey j)) =
          if k = j then none else getKey k entries := ih
      simp only [removeKey, List.filter_cons]
      cases hj : key.isKey j with
      | true =>
          obtain rfl := isKey_iff.mp hj
          simp only [Bool.not_true, Bool.false_eq_true, if_false, ih]
          by_cases hk : k = j
          · simp [hk]
          · have hkey : (str j).isKey k = false := by simpa [isKey] using fun h => hk h.symm
            simp [hk, getKey, hkey]
      | false =>
          simp only [Bool.not_false, if_true, getKey, ih]
          by_cases hk : k = j
          · simp [hk, hj]
          · simp [hk]

/-- Under a plain key the fields have what the mapping has there. -/
theorem get_entriesToJson {k : String} (hk : PlainKey k) {entries : List (Yaml × Yaml)} :
    ∀ {acc fields : List (String × Json)}, entriesToJson entries acc = .ok fields →
      (getKey k entries = none ∧ Fields.get k fields = Fields.get k acc) ∨
        ∃ y j, getKey k entries = some y ∧ toJson y = .ok j ∧ Fields.get k fields = some j := by
  induction entries with
  | nil =>
      intro acc fields h
      rw [entriesToJson] at h
      exact Or.inl ⟨rfl, Except.ok.inj h ▸ rfl⟩
  | cons e entries ih =>
      intro acc fields h
      obtain ⟨key, value⟩ := e
      rw [entriesToJson] at h
      obtain ⟨text, htext, h⟩ := bind_eq_ok.mp h
      obtain ⟨j, hj, h⟩ := bind_eq_ok.mp h
      rcases ih h with ⟨hnone, hget⟩ | ⟨y, j', hsome, hy, hget⟩
      · rw [getKey, hnone, hget, Fields.get_insert]
        cases hkey : key.isKey k with
        | true =>
            obtain rfl := isKey_iff.mp hkey
            obtain rfl : k = text := Except.ok.inj htext
            exact Or.inr ⟨value, j, by simp, hj, by simp⟩
        | false =>
            have hne : text ≠ k := by
              rintro rfl
              rw [isKey_iff.mpr (eq_str_of_keyText hk htext)] at hkey
              exact absurd hkey (by simp)
            exact Or.inl ⟨by simp, by simp [hne]⟩
      · exact Or.inr ⟨y, j', by simp [getKey, hsome], hy, hget⟩

/-- Induction over the items of a sequence, the keys and values of a mapping and
the value under a tag. -/
theorem induct {P : Yaml → Prop} (null : P .null) (bool : ∀ b, P (.bool b))
    (num : ∀ n, P (.num n)) (str : ∀ s, P (.str s))
    (seq : ∀ items, (∀ y ∈ items, P y) → P (.seq items))
    (map : ∀ entries, (∀ e ∈ entries, P e.1 ∧ P e.2) → P (.map entries))
    (tagged : ∀ tag value, P value → P (.tagged tag value)) (y : Yaml) : P y :=
  @Yaml.rec P (fun l => ∀ y ∈ l, P y) (fun l => ∀ e ∈ l, P e.1 ∧ P e.2)
    (fun e => P e.1 ∧ P e.2) null bool num str seq map tagged (by simp)
    (fun h t ih iht => List.forall_mem_cons.mpr ⟨ih, iht⟩) (by simp)
    (fun h t ih iht => List.forall_mem_cons.mpr ⟨ih, iht⟩) (fun k v hk hv => ⟨hk, hv⟩) y

theorem wf_itemsToJson {items : List Yaml}
    (ih : ∀ y ∈ items, ∀ j, toJson y = .ok j → j.Wf) :
    ∀ {js : List Json}, itemsToJson items = .ok js → ∀ j ∈ js, j.Wf := by
  induction items with
  | nil =>
      intro js h
      rw [itemsToJson] at h
      exact Except.ok.inj h ▸ by simp
  | cons y items ihs =>
      intro js h
      obtain ⟨hy, hrest⟩ := List.forall_mem_cons.mp ih
      rw [itemsToJson] at h
      obtain ⟨j, hj, h⟩ := bind_eq_ok.mp h
      obtain ⟨js', hjs, h⟩ := bind_eq_ok.mp h
      obtain rfl := Except.ok.inj h
      exact List.forall_mem_cons.mpr ⟨hy j hj, ihs hrest hjs⟩

theorem wf_entriesToJson {entries : List (Yaml × Yaml)}
    (ih : ∀ e ∈ entries, ∀ j, toJson e.2 = .ok j → j.Wf) :
    ∀ {acc fields : List (String × Json)}, Json.WfFields acc →
      entriesToJson entries acc = .ok fields → Json.WfFields fields := by
  induction entries with
  | nil =>
      intro acc fields hacc h
      rw [entriesToJson] at h
      exact Except.ok.inj h ▸ hacc
  | cons e entries ihs =>
      intro acc fields hacc h
      obtain ⟨he, hrest⟩ := List.forall_mem_cons.mp ih
      obtain ⟨key, value⟩ := e
      rw [entriesToJson] at h
      obtain ⟨text, -, h⟩ := bind_eq_ok.mp h
      obtain ⟨j, hj, h⟩ := bind_eq_ok.mp h
      exact ihs hrest (hacc.insert (he j hj)) h

/-- The objects of a converted value have their keys in order. -/
theorem wf_toJson {y : Yaml} {j : Json} (h : toJson y = .ok j) : j.Wf := by
  induction y using induct generalizing j with
  | null => exact Except.ok.inj h ▸ .null
  | bool b => exact Except.ok.inj h ▸ .bool b
  | num n =>
      cases n with
      | finite n => exact Except.ok.inj h ▸ .num n
      | nonFinite x => exact Except.ok.inj h ▸ .null
  | str s => exact Except.ok.inj h ▸ .str s
  | seq items ih =>
      rw [toJson] at h
      obtain ⟨js, hjs, h⟩ := bind_eq_ok.mp h
      exact Except.ok.inj h ▸ .arr (wf_itemsToJson (fun y hy j hj => ih y hy hj) hjs)
  | map entries ih =>
      rw [toJson] at h
      obtain ⟨fields, hfields, h⟩ := bind_eq_ok.mp h
      refine Except.ok.inj h ▸ Json.wf_obj.mpr ?_
      exact wf_entriesToJson (fun e he j hj => (ih e he).2 hj) .nil hfields
  | tagged tag value ih =>
      rw [toJson] at h
      obtain ⟨v, hv, h⟩ := bind_eq_ok.mp h
      refine Except.ok.inj h ▸ .obj (List.pairwise_singleton _ _) fun f hf => ?_
      exact List.mem_singleton.mp hf ▸ ih hv

/-- A mapping becomes an object with the same values under plain keys. -/
theorem toJson_map {entries : List (Yaml × Yaml)} {j : Json} (h : toJson (.map entries) = .ok j) :
    ∃ fields, j = .obj fields ∧ entriesToJson entries [] = .ok fields := by
  rw [toJson] at h
  obtain ⟨fields, hfields, h⟩ := bind_eq_ok.mp h
  exact ⟨fields, (Except.ok.inj h).symm, hfields⟩

end Yaml

end Llmenv.Lib
