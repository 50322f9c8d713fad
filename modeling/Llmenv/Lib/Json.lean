/-
# `Llmenv.Lib.Json` — JSON values

A JSON value as a library keeps it in memory: an object is a list of fields in
the order of their keys, no key twice.  The type itself also has values with
fields out of order; `Wf` says that there are none, at any depth, and a `Doc`
is a value that has the proof with it.

An integer is an integer; any other number is its shortest decimal text, and
numbers with different texts count as different.
-/
import Mathlib.Data.String.Basic
import Llmenv.Lib.Fields

namespace Llmenv.Lib

/-- The first letter of a printed number. -/
def numeric (c : Char) : Bool := c.isDigit || c == '-'

/-- The shortest decimal text of a number that is not an integer. -/
structure FloatText where
  text : String
  first : text.toList.head?.any numeric = true
deriving DecidableEq

inductive Number where
  | int (n : Int)
  | float (x : FloatText)
deriving DecidableEq

def Number.text : Number → String
  | .int n => toString n
  | .float x => x.text

inductive Json where
  | null
  | bool (b : Bool)
  | num (n : Number)
  | str (s : String)
  | arr (items : List Json)
  | obj (fields : List (String × Json))

namespace Json

/-- Induction over the elements of an array and the values of an object. -/
theorem induct {P : Json → Prop} (null : P null) (bool : ∀ b, P (.bool b))
    (num : ∀ n, P (.num n)) (str : ∀ s, P (.str s))
    (arr : ∀ items, (∀ j ∈ items, P j) → P (.arr items))
    (obj : ∀ fields, (∀ f ∈ fields, P f.2) → P (.obj fields)) (j : Json) : P j :=
  @Json.rec P (fun l => ∀ j ∈ l, P j) (fun l => ∀ f ∈ l, P f.2) (fun f => P f.2)
    null bool num str arr obj (by simp) (fun h t ih iht => List.forall_mem_cons.mpr ⟨ih, iht⟩)
    (by simp) (fun h t ih iht => List.forall_mem_cons.mpr ⟨ih, iht⟩) (fun k v h => h) j

/-! ## Equality can be decided -/

mutual
def beq : Json → Json → Bool
  | .null, .null => true
  | .bool a, .bool b => a == b
  | .num a, .num b => a == b
  | .str a, .str b => a == b
  | .arr a, .arr b => beqItems a b
  | .obj a, .obj b => beqFields a b
  | _, _ => false

def beqItems : List Json → List Json → Bool
  | [], [] => true
  | a :: as, b :: bs => beq a b && beqItems as bs
  | _, _ => false

def beqFields : List (String × Json) → List (String × Json) → Bool
  | [], [] => true
  | (k, a) :: as, (l, b) :: bs => (k == l && beq a b) && beqFields as bs
  | _, _ => false
end

theorem beqItems_iff {as : List Json} (ih : ∀ a ∈ as, ∀ b, beq a b = true ↔ a = b) :
    ∀ bs, beqItems as bs = true ↔ as = bs := by
  induction as with
  | nil =>
      intro bs
      cases bs <;> simp [beqItems]
  | cons a as iha =>
      intro bs
      obtain ⟨ha, has⟩ := List.forall_mem_cons.mp ih
      cases bs with
      | nil => simp [beqItems]
      | cons b bs => simp [beqItems, ha, iha has]

theorem beqFields_iff {as : List (String × Json)} (ih : ∀ a ∈ as, ∀ b, beq a.2 b = true ↔ a.2 = b) :
    ∀ bs, beqFields as bs = true ↔ as = bs := by
  induction as with
  | nil =>
      intro bs
      cases bs <;> simp [beqFields]
  | cons a as iha =>
      intro bs
      obtain ⟨ha, has⟩ := List.forall_mem_cons.mp ih
      obtain ⟨k, v⟩ := a
      cases bs with
      | nil => simp [beqFields]
      | cons b bs =>
          obtain ⟨l, w⟩ := b
          simp [beqFields, ha, iha has]

theorem beq_iff (a b : Json) : beq a b = true ↔ a = b := by
  induction a using induct generalizing b with
  | null => cases b <;> simp [beq]
  | bool x => cases b <;> simp [beq]
  | num x => cases b <;> simp [beq]
  | str x => cases b <;> simp [beq]
  | arr items ih =>
      cases b with
      | arr items' => simpa [beq] using beqItems_iff ih items'
      | _ => simp [beq]
  | obj fields ih =>
      cases b with
      | obj fields' => simpa [beq] using beqFields_iff ih fields'
      | _ => simp [beq]

instance : DecidableEq Json := fun a b => decidable_of_iff (beq a b = true) (beq_iff a b)

/-! ## Values of a kind -/

def asObject? : Json → Option (List (String × Json))
  | .obj fields => some fields
  | _ => none

def asArray? : Json → Option (List Json)
  | .arr items => some items
  | _ => none

def asStr? : Json → Option String
  | .str s => some s
  | _ => none

/-- The value under a key, of an object. -/
def get? (k : String) : Json → Option Json
  | .obj fields => Fields.get k fields
  | _ => none

@[simp] theorem get?_obj (k : String) (fields : List (String × Json)) :
    get? k (.obj fields) = Fields.get k fields := rfl

theorem asObject?_eq_some {j : Json} {fields : List (String × Json)} :
    j.asObject? = some fields ↔ j = .obj fields := by
  cases j <;> simp [asObject?]

theorem asArray?_eq_some {j : Json} {items : List Json} :
    j.asArray? = some items ↔ j = .arr items := by
  cases j <;> simp [asArray?]

theorem get?_eq_none_of_not_obj {j : Json} (h : j.asObject? = none) (k : String) :
    j.get? k = none := by
  cases j with
  | obj fields => exact absurd h (by simp [asObject?])
  | _ => rfl

/-! ## Fields in order -/

/-- In every object the keys are in order, and no key is there twice. -/
inductive Wf : Json → Prop
  | null : Wf .null
  | bool (b : Bool) : Wf (.bool b)
  | num (n : Number) : Wf (.num n)
  | str (s : String) : Wf (.str s)
  | arr {items : List Json} : (∀ j ∈ items, Wf j) → Wf (.arr items)
  | obj {fields : List (String × Json)} : Fields.Sorted fields → (∀ f ∈ fields, Wf f.2) →
      Wf (.obj fields)

/-- The same of a list of fields. -/
structure WfFields (fields : List (String × Json)) : Prop where
  sorted : Fields.Sorted fields
  values : ∀ f ∈ fields, Wf f.2

theorem wf_obj {fields : List (String × Json)} : Wf (.obj fields) ↔ WfFields fields := by
  constructor
  · intro h
    cases h with
    | obj hs hv => exact ⟨hs, hv⟩
  · exact fun h => .obj h.sorted h.values

theorem wf_arr {items : List Json} : Wf (.arr items) ↔ ∀ j ∈ items, Wf j := by
  constructor
  · intro h
    cases h with
    | arr hi => exact hi
  · exact .arr

theorem WfFields.nil : WfFields [] := ⟨Fields.sorted_nil, by simp⟩

theorem WfFields.get {fields : List (String × Json)} (h : WfFields fields) {k : String} {v : Json}
    (hv : Fields.get k fields = some v) : Wf v :=
  h.values _ (Fields.mem_of_get hv)

/-- The fields of the object under a key, or none. -/
theorem WfFields.objectAt {fields : List (String × Json)} (h : WfFields fields) (k : String) :
    WfFields (((Fields.get k fields).bind asObject?).getD []) := by
  cases hget : Fields.get k fields with
  | none => exact WfFields.nil
  | some v =>
      cases v with
      | obj inner => exact wf_obj.mp (h.get hget)
      | _ => exact WfFields.nil

theorem WfFields.insert {fields : List (String × Json)} (h : WfFields fields) {k : String}
    {v : Json} (hv : Wf v) : WfFields (Fields.insert k v fields) := by
  refine ⟨Fields.sorted_insert h.sorted, fun f hf => ?_⟩
  rcases Fields.mem_of_mem_insert hf with rfl | hf
  · exact hv
  · exact h.values f hf

theorem WfFields.filter {fields : List (String × Json)} (h : WfFields fields)
    (p : String × Json → Bool) : WfFields (fields.filter p) :=
  ⟨Fields.sorted_filter h.sorted, fun f hf => h.values f (List.mem_of_mem_filter hf)⟩

theorem WfFields.erase {fields : List (String × Json)} (h : WfFields fields) (k : String) :
    WfFields (Fields.erase k fields) := h.filter _

theorem WfFields.foldl_insert {l fields : List (String × Json)} (h : WfFields fields)
    (hl : ∀ f ∈ l, Wf f.2) : WfFields (l.foldl (fun acc e => Fields.insert e.1 e.2 acc) fields) := by
  induction l generalizing fields with
  | nil => exact h
  | cons f l ih =>
      obtain ⟨hf, hrest⟩ := List.forall_mem_cons.mp hl
      exact ih (h.insert hf) hrest

/-- An object from its fields in any order. -/
def object (fields : List (String × Json)) : Json := .obj (Fields.ofList fields)

theorem WfFields.ofList {l : List (String × Json)} (hl : ∀ f ∈ l, Wf f.2) :
    WfFields (Fields.ofList l) := WfFields.nil.foldl_insert hl

theorem WfFields.tail {f : String × Json} {fields : List (String × Json)}
    (h : WfFields (f :: fields)) : WfFields fields :=
  ⟨(Fields.sorted_cons.mp h.sorted).2, fun g hg => h.values g (List.mem_cons_of_mem _ hg)⟩

end Json

/-- A JSON value whose objects have their keys in order. -/
structure Doc where
  value : Json
  wf : value.Wf

namespace Doc

def str (s : String) : Doc := ⟨.str s, .str s⟩

def int (n : Int) : Doc := ⟨.num (.int n), .num (.int n)⟩

/-- An object from its fields in any order. -/
def object (fields : List (String × Doc)) : Doc where
  value := Json.object (fields.map (fun f => (f.1, f.2.value)))
  wf := by
    refine Json.wf_obj.mpr (.ofList fun f hf => ?_)
    obtain ⟨g, -, rfl⟩ := List.mem_map.mp hf
    exact g.2.wf

end Doc

end Llmenv.Lib
