/-
# `Llmenv.Config.ProxyPath` — a place inside of a request body

`get_path`, `set_path` and `remove_path` of
`crates/llmenv-config/src/proxy_path.rs`.  A path is a list of keys and indices.
A write makes the objects and arrays that are missing, pads an array with nulls
up to its index, and replaces a value that is not of the kind that the segment
needs.

A segment is a step of `Llmenv.Lib.Access`, so the laws of reading and writing
along a path are those of the library (`setPath_lens`).
-/
import Llmenv.Lib.Access
import Llmenv.Lib.Json

namespace Llmenv.Config.ProxyPath

open Llmenv.Lib

/-! ## The code -/

inductive PathSegment where
  | key (k : String)
  | index (i : Nat)
deriving DecidableEq

/-- The value that the segments lead to. -/
def getPath : Json → List PathSegment → Option Json
  | current, [] => some current
  | .obj map, .key k :: segments => (Fields.get k map).bind fun next => getPath next segments
  | .arr arr, .index i :: segments => arr[i]?.bind fun next => getPath next segments
  | _, _ :: _ => none

/-- The fields of an object; of any other value, which is replaced by one, none. -/
def normalizedObject (current : Json) : List (String × Json) := current.asObject?.getD []

/-- The elements of an array, none of any other value, with nulls up to the index, which is below
`usize::MAX`. -/
def normalizedArray (current : Json) (i : Nat) : List Json :=
  let arr := current.asArray?.getD []
  if arr.length ≤ i then arr ++ List.replicate (i + 1 - arr.length) .null else arr

def setPath : Json → List PathSegment → Json → Json
  | _, [], newValue => newValue
  | current, [.key k], newValue => .obj (Fields.insert k newValue (normalizedObject current))
  | current, [.index i], newValue => .arr ((normalizedArray current i).set i newValue)
  | current, .key k :: seg :: rest, newValue =>
      let map := normalizedObject current
      let next := (Fields.get k map).getD .null
      .obj (Fields.insert k (setPath next (seg :: rest) newValue) map)
  | current, .index i :: seg :: rest, newValue =>
      let arr := normalizedArray current i
      let next := arr[i]?.getD .null
      .arr (arr.set i (setPath next (seg :: rest) newValue))

/-- The value that the segments lead to, with what is done to it in its place. -/
def getPathMut (f : Json → Json × Bool) : Json → List PathSegment → Json × Bool
  | current, [] => f current
  | .obj map, .key k :: segments =>
      match Fields.get k map with
      | none => (.obj map, false)
      | some next =>
          let (next, done) := getPathMut f next segments
          (.obj (Fields.insert k next map), done)
  | .arr arr, .index i :: segments =>
      match arr[i]? with
      | none => (.arr arr, false)
      | some next =>
          let (next, done) := getPathMut f next segments
          (.arr (arr.set i next), done)
  | current, _ :: _ => (current, false)

/-- What `remove_path` does to the parent. -/
def removeLast (last : PathSegment) (parent : Json) : Json × Bool :=
  match last, parent with
  | .key k, .obj map => (.obj (Fields.erase k map), (Fields.get k map).isSome)
  | .index i, .arr arr => if i < arr.length then (.arr (arr.eraseIdx i), true) else (.arr arr, false)
  | _, parent => (parent, false)

/-- The value after the call, and what the call returns. -/
def removePath (value : Json) (segments : List PathSegment) : Json × Bool :=
  match segments.getLast? with
  | none => (value, false)
  | some last => getPathMut (removeLast last) value segments.dropLast

/-! ## A segment is a step -/

def childAt : PathSegment → Json → Option Json
  | .key k, .obj map => Fields.get k map
  | .index i, .arr arr => arr[i]?
  | _, _ => none

def putAt : PathSegment → Json → Json → Json
  | .key k, current, next => .obj (Fields.insert k next (normalizedObject current))
  | .index i, current, next => .arr ((normalizedArray current i).set i next)

/-- The value is a container of the kind the segment needs. -/
def Takes : PathSegment → Json → Prop
  | .key _, current => ∃ map, current = .obj map
  | .index _, current => ∃ arr, current = .arr arr

theorem normalizedArray_eq (current : Json) (i : Nat) :
    normalizedArray current i = current.asArray?.getD [] ++
      List.replicate (i + 1 - (current.asArray?.getD []).length) .null := by
  simp only [normalizedArray]
  split
  · rfl
  · rename_i hlt
    rw [Nat.sub_eq_zero_of_le (by omega), List.replicate_zero, List.append_nil]

theorem lt_length_normalizedArray (current : Json) (i : Nat) :
    i < (normalizedArray current i).length := by
  rw [normalizedArray_eq, List.length_append, List.length_replicate]
  omega

theorem normalizedArray_arr {arr : List Json} {i : Nat} (h : i < arr.length) :
    normalizedArray (.arr arr) i = arr := if_neg (Nat.not_le.mpr h)

theorem getElem?_normalizedArray {arr : List Json} {i j : Nat} {d : Json} (h : arr[j]? = some d) :
    (normalizedArray (.arr arr) i)[j]? = some d := by
  rw [normalizedArray_eq]
  exact (List.getElem?_append_left (List.getElem?_eq_some_iff.mp h).1).trans h

theorem wf_normalizedArray {current : Json} (h : current.Wf) (i : Nat) :
    ∀ j ∈ normalizedArray current i, j.Wf := by
  intro j hj
  rw [normalizedArray_eq] at hj
  rcases List.mem_append.mp hj with hj | hj
  · cases current with
    | arr arr => exact Json.wf_arr.mp h j hj
    | _ => exact absurd hj List.not_mem_nil
  · rw [List.eq_of_mem_replicate hj]
    exact .null

/-- The element a write goes on into is null where it was missing. -/
theorem normalizedArray_getD (current : Json) (i : Nat) :
    (normalizedArray current i)[i]?.getD .null = (childAt (.index i) current).getD .null := by
  have hchild : childAt (.index i) current = (current.asArray?.getD [])[i]? := by
    cases current <;> rfl
  rw [hchild, normalizedArray_eq]
  generalize current.asArray?.getD [] = arr
  by_cases hlt : i < arr.length
  · rw [List.getElem?_append_left hlt]
  · have hle : arr.length ≤ i := Nat.not_lt.mp hlt
    rw [List.getElem?_append_right hle, List.getElem?_eq_none hle, List.getElem?_replicate]
    split
    · rfl
    · rfl

/-- To put back what a sorted object has under the key changes nothing. -/
theorem insert_get {map : List (String × Json)} (h : Fields.Sorted map) {k : String} {v : Json}
    (hget : Fields.get k map = some v) : Fields.insert k v map = map := by
  refine Fields.eq_of_get (Fields.sorted_insert h) h fun j => ?_
  rw [Fields.get_insert]
  split
  · rename_i heq
    rw [← heq, hget]
  · rfl

/-- The steps into a JSON value. -/
def access : Access PathSegment Json where
  child := childAt
  put := putAt
  blank := .null
  Ok := Json.Wf
  Takes := Takes
  child_put := by
    intro s v c
    cases s with
    | key k =>
        show Fields.get k (Fields.insert k c (normalizedObject v)) = some c
        rw [Fields.get_insert, if_pos rfl]
    | index i => exact List.getElem?_set_self (lt_length_normalizedArray v i)
  put_put := by
    intro s v c d
    cases s with
    | key k =>
        show Json.obj (Fields.insert k d (Fields.insert k c (normalizedObject v))) = _
        rw [Fields.insert_insert]
        rfl
    | index i =>
        show Json.arr ((normalizedArray (.arr ((normalizedArray v i).set i c)) i).set i d) = _
        rw [normalizedArray_arr (by rw [List.length_set]; exact lt_length_normalizedArray v i),
          List.set_set]
        rfl
  put_child := by
    intro s v c hv hc
    cases s with
    | key k =>
        cases v with
        | obj map => exact congrArg Json.obj (insert_get (Json.wf_obj.mp hv).sorted hc)
        | _ => exact absurd hc (by simp [childAt])
    | index i =>
        cases v with
        | arr arr =>
            obtain ⟨hlt, rfl⟩ := List.getElem?_eq_some_iff.mp hc
            show Json.arr ((normalizedArray (.arr arr) i).set i arr[i]) = _
            rw [normalizedArray_arr hlt, List.set_getElem_self]
        | _ => exact absurd hc (by simp [childAt])
  child_put_of_ne := by
    intro s t v d hst hs hd c
    cases s with
    | key k =>
        obtain ⟨map, rfl⟩ := hs
        cases t with
        | key l =>
            show Fields.get l (Fields.insert k c map) = some d
            rw [Fields.get_insert, if_neg fun heq : k = l => hst (congrArg _ heq)]
            exact hd
        | index j => exact absurd hd (by simp [childAt])
    | index i =>
        obtain ⟨arr, rfl⟩ := hs
        cases t with
        | key l => exact absurd hd (by simp [childAt])
        | index j =>
            show ((normalizedArray (.arr arr) i).set i c)[j]? = some d
            rw [List.getElem?_set_ne fun heq : i = j => hst (congrArg _ heq)]
            exact getElem?_normalizedArray hd
  ok_blank := .null
  ok_child := by
    intro s v c hv hc
    cases s with
    | key k =>
        cases v with
        | obj map => exact (Json.wf_obj.mp hv).get hc
        | _ => exact absurd hc (by simp [childAt])
    | index i =>
        cases v with
        | arr arr => exact Json.wf_arr.mp hv c (List.mem_of_getElem? hc)
        | _ => exact absurd hc (by simp [childAt])
  ok_put := by
    intro v c s hv hc
    cases s with
    | key k =>
        refine Json.wf_obj.mpr (Json.WfFields.insert ?_ hc)
        cases v with
        | obj map => exact Json.wf_obj.mp hv
        | _ => exact Json.WfFields.nil
    | index i =>
        refine Json.wf_arr.mpr fun j hj => ?_
        rcases List.mem_or_eq_of_mem_set hj with hj | rfl
        · exact wf_normalizedArray hv i j hj
        · exact hc

/-! ## The code reads and writes along a path -/

theorem getPath_eq (v : Json) (p : List PathSegment) : getPath v p = access.get v p := by
  induction p generalizing v with
  | nil => cases v <;> rfl
  | cons seg p ih =>
      have hchild : ∀ o : Option Json,
          (o.bind fun next => getPath next p) = o.bind fun next => access.get next p :=
        fun o => congrArg _ (funext ih)
      cases seg with
      | key k =>
          cases v with
          | obj map => exact hchild _
          | _ => rfl
      | index i =>
          cases v with
          | arr arr => exact hchild _
          | _ => rfl

theorem setPath_eq (v : Json) (p : List PathSegment) (x : Json) :
    setPath v p x = access.set v p x := by
  induction p generalizing v with
  | nil => rw [setPath, Access.set]
  | cons seg p ih =>
      cases p with
      | nil =>
          cases seg with
          | key k => rw [setPath, Access.set, Access.set]; rfl
          | index i => rw [setPath, Access.set, Access.set]; rfl
      | cons next p =>
          rw [Access.set, ← ih]
          cases seg with
          | key k =>
              have hchild : access.child (.key k) v = Fields.get k (normalizedObject v) := by
                cases v <;> rfl
              rw [setPath, hchild]
              rfl
          | index i =>
              have hchild : (access.child (.index i) v).getD access.blank =
                  (normalizedArray v i)[i]?.getD .null := (normalizedArray_getD v i).symm
              rw [setPath, hchild]
              rfl

theorem getPathMut_eq (f : Json → Json × Bool) (v : Json) (p : List PathSegment) :
    getPathMut f v p = access.modify f v p := by
  induction p generalizing v with
  | nil => cases v <;> rfl
  | cons seg p ih =>
      rw [Access.modify]
      cases seg with
      | key k =>
          cases v with
          | obj map =>
              have hchild : access.child (.key k) (.obj map) = Fields.get k map := rfl
              rw [getPathMut, hchild]
              cases Fields.get k map with
              | none => rfl
              | some next => simp only [ih]; rfl
          | _ => rfl
      | index i =>
          cases v with
          | arr arr =>
              have hchild : access.child (.index i) (.arr arr) = arr[i]? := rfl
              rw [getPathMut, hchild]
              cases harr : arr[i]? with
              | none => rfl
              | some next =>
                  have hlt : i < arr.length := (List.getElem?_eq_some_iff.mp harr).1
                  simp only [ih]
                  show _ = (Json.arr ((normalizedArray (.arr arr) i).set i _), _)
                  rw [normalizedArray_arr hlt]
          | _ => rfl

/-! ## The laws -/

theorem removeLast_unchanged {last : PathSegment} {parent : Json}
    (h : (removeLast last parent).2 = false) : (removeLast last parent).1 = parent := by
  cases last with
  | key k =>
      cases parent with
      | obj map =>
          have hnone : Fields.get k map = none :=
            Option.isNone_iff_eq_none.mp (Option.isSome_eq_false_iff.mp h)
          show Json.obj (Fields.erase k map) = _
          rw [Fields.erase_of_get_none hnone]
      | _ => rfl
  | index i =>
      cases parent with
      | arr arr =>
          simp only [removeLast] at h ⊢
          split
          · rename_i hlt
            rw [if_pos hlt] at h
            exact absurd h (by simp)
          · rfl
      | _ => rfl

theorem removeLast_changed_iff {last : PathSegment} {parent : Json} :
    (removeLast last parent).2 = true ↔ childAt last parent ≠ none := by
  cases last with
  | key k =>
      cases parent with
      | obj map => exact Option.isSome_iff_ne_none
      | _ => simp [removeLast, childAt]
  | index i =>
      cases parent with
      | arr arr =>
          show (if i < arr.length then (Json.arr (arr.eraseIdx i), true) else (.arr arr, false)).2 =
            true ↔ arr[i]? ≠ none
          rw [ne_eq, List.getElem?_eq_none_iff, Nat.not_le]
          by_cases hlt : i < arr.length
          · simp [hlt]
          · simp [hlt]
      | _ => simp [removeLast, childAt]

/-- Something is removed exactly when there is something at the path, below the root. -/
theorem removePath_iff (v : Json) (p : List PathSegment) :
    (removePath v p).2 = true ↔ p ≠ [] ∧ getPath v p ≠ none := by
  rcases List.eq_nil_or_concat' p with rfl | ⟨rest, last, rfl⟩
  · simp [removePath]
  · have hremove : removePath v (rest ++ [last]) = access.modify (removeLast last) v rest := by
      rw [removePath, List.getLast?_concat, List.dropLast_concat, ← getPathMut_eq]
    rw [hremove, Access.modify_changed_iff, getPath_eq, Access.get_append]
    have hone : ∀ w, access.get w [last] = childAt last w := by
      intro w
      show (childAt last w).bind some = childAt last w
      exact Option.bind_fun_some _
    simp only [hone, removeLast_changed_iff]
    cases access.get v rest with
    | none => simp
    | some w => simp

/-- Every node of the value along the path is a container of the kind the segment there needs, or
is absent. -/
def ContainersAlong (v : Json) (p : List PathSegment) : Prop :=
  ∀ p₁ seg p₂ node, p = p₁ ++ seg :: p₂ → getPath v p₁ = some node → Takes seg node

/-- A write of a document into a document makes a document. -/
theorem wf_setPath (v x : Doc) (p : List PathSegment) : (setPath v.value p x.value).Wf :=
  setPath_eq v.value p x.value ▸ access.ok_set v.wf x.wf

/-- Writes along a path and reads obey the laws of a lens, a write is not seen by a path that
parts from the written one, and a removal that finds nothing changes nothing. -/
theorem setPath_lens (v x y : Doc) (p : List PathSegment) :
    getPath (setPath v.value p x.value) p = some x.value ∧
      setPath (setPath v.value p x.value) p y.value = setPath v.value p y.value ∧
      (getPath v.value p = some x.value → setPath v.value p x.value = v.value) ∧
      (∀ q, ¬ p <+: q → ¬ q <+: p → getPath v.value q ≠ none → ContainersAlong v.value p →
        getPath (setPath v.value p x.value) q = getPath v.value q) ∧
      ((removePath v.value p).2 = false → (removePath v.value p).1 = v.value) := by
  simp only [setPath_eq, getPath_eq]
  refine ⟨Access.get_set _ _ _, Access.set_set _ _ _ _, Access.set_get v.wf, ?_, ?_⟩
  · intro q hpq hqp hq hp
    obtain ⟨w, hw⟩ := Option.ne_none_iff_exists'.mp hq
    have htakes : access.TakesAlong v.value p := by
      intro p₁ seg p₂ node heq hnode
      exact hp p₁ seg p₂ node heq ((getPath_eq _ _).trans hnode)
    rw [hw]
    exact Access.get_set_of_apart hpq hqp htakes hw _
  · rw [removePath]
    cases hlast : p.getLast? with
    | none => exact fun _ => rfl
    | some last =>
        simp only [getPathMut_eq]
        exact Access.modify_unchanged (fun _ _ h => removeLast_unchanged h) v.wf

end Llmenv.Config.ProxyPath
