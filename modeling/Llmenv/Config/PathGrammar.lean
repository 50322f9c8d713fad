/-
# `Llmenv.Config.PathGrammar` — which paths are read

`parse_path` of `crates/llmenv-config/src/proxy_path.rs`.  A path is made of
groups with a dot between any two, and a group of a key and indices in brackets,
where one of them may be missing.

The scanner reads every such path, and two more kinds of text: a key may contain
a `]` that closes nothing, and the integer parser takes a `+` in front of the
digits.  Every path that is read is made of groups in this wider sense
(`parsePath_iff`), the groups are determined by the text, and so the paths that
should have been refused are those with a `]` or a `+` of that kind in them
(`parsePath_exact_iff`).
-/
import Llmenv.Config.ProxyPath
import Llmenv.Lib.Text

namespace Llmenv.Config.ProxyPath

open Llmenv.Lib

/-! ## The code -/

structure PathParseError where
  message : String
deriving DecidableEq

def usizeMax : Nat := 18446744073709551615

theorem length_of_splitOnce {sep : Char} {cs before after : List Char}
    (h : Text.splitOnce sep cs = some (before, after)) : after.length < cs.length := by
  rw [(Text.splitOnce_eq_some.mp h).1, List.length_append, List.length_cons]
  omega

/-- The indices behind the key of a group. -/
def parseIndices (path : String) : List Char → Except PathParseError (List PathSegment)
  | [] => .ok []
  | c :: rest =>
      if c ≠ '[' then .error ⟨"expected '[' in path: " ++ path⟩
      else
        match h : Text.splitOnce ']' rest with
        | none => .error ⟨"unmatched '[' in path: " ++ path⟩
        | some (idxStr, after) =>
            match Text.parseUnsigned usizeMax idxStr with
            | none =>
                .error ⟨"invalid index '" ++ String.ofList idxStr ++ "' in path: " ++ path⟩
            | some idx =>
                have := length_of_splitOnce h
                (parseIndices path after).map (.index idx :: ·)
termination_by rest => rest.length

/-- What stands between two dots. -/
def parseGroup (path : String) (dotted : List Char) : Except PathParseError (List PathSegment) :=
  if dotted.isEmpty then .error ⟨"empty segment in path: " ++ path⟩
  else
    match Text.splitOnce '[' dotted with
    | none => .ok [.key (String.ofList dotted)]
    | some (key, rest) =>
        let segments := if key.isEmpty then [] else [.key (String.ofList key)]
        (parseIndices path ('[' :: rest)).map (segments ++ ·)

def parseGroups (path : String) : List (List Char) → Except PathParseError (List PathSegment)
  | [] => .ok []
  | dotted :: parts => do
      let segments ← parseGroup path dotted
      let more ← parseGroups path parts
      return segments ++ more

def parsePath (path : String) : Except PathParseError (List PathSegment) :=
  if path.toList.isEmpty then .error ⟨"path must not be empty"⟩
  else do
    let segments ← parseGroups path (Text.split (· == '.') path.toList)
    if segments.isEmpty then .error ⟨"no segments parsed from path: " ++ path⟩
    else return segments

/-! ## Groups -/

/-- A key, and the texts in the brackets behind it. -/
structure Group where
  key : List Char
  indices : List (List Char)
deriving DecidableEq

def bracketed (i : List Char) : List Char := '[' :: (i ++ [']'])

def Group.text (g : Group) : List Char := g.key ++ g.indices.flatMap bracketed

/-- A path from its groups. -/
def pathOf (gs : List Group) : List Char := Text.join ['.'] (gs.map Group.text)

/-- Digits, at least one, of a number that a `usize` can hold. -/
structure IsIndex (i : List Char) : Prop where
  nonempty : i ≠ []
  digits : ∀ c ∈ i, c.isDigit = true
  fits : Nat.ofDigitChars 10 i 0 ≤ usizeMax

/-- A group of the grammar. -/
structure Group.Proper (g : Group) : Prop where
  nonempty : g.text ≠ []
  key : ∀ c ∈ g.key, c ≠ '.' ∧ c ≠ '[' ∧ c ≠ ']'
  indices : ∀ i ∈ g.indices, IsIndex i

/-- The path is of the grammar: groups with a dot between any two. -/
def InGrammar (path : String) : Prop :=
  ∃ gs, gs ≠ [] ∧ (∀ g ∈ gs, g.Proper) ∧ path.toList = pathOf gs

/-- An index with or without a `+` in front. -/
def SignedIndex (i : List Char) : Prop := ∃ d, (i = d ∨ i = '+' :: d) ∧ IsIndex d

/-- A group that is read: the key may contain a `]`, and an index may have a sign. -/
structure Group.Readable (g : Group) : Prop where
  nonempty : g.text ≠ []
  key : ∀ c ∈ g.key, c ≠ '.' ∧ c ≠ '['
  indices : ∀ i ∈ g.indices, SignedIndex i

/-- There is a `]` in the key, or a sign in an index. -/
def Group.Slips (g : Group) : Prop := ']' ∈ g.key ∨ ∃ i ∈ g.indices, '+' ∈ i

/-- The path would be of the grammar but for a `]` in a key or a `+` in front of digits. -/
def Misread (path : String) : Prop :=
  ∃ gs, gs ≠ [] ∧ (∀ g ∈ gs, g.Readable) ∧ path.toList = pathOf gs ∧ ∃ g ∈ gs, g.Slips

/-! ## Indices -/

theorem IsIndex.notMem {i : List Char} (h : IsIndex i) {c : Char} (hc : c.isDigit = false) :
    c ∉ i := fun hmem => by simp [h.digits c hmem] at hc

theorem IsIndex.stripPlus {i : List Char} (h : IsIndex i) : Text.stripPrefix ['+'] i = none := by
  cases i with
  | nil => exact absurd rfl h.nonempty
  | cons c cs =>
      have hne : '+' ≠ c := fun heq => h.notMem (c := '+') (by decide) (heq ▸ List.mem_cons_self)
      simp [Text.stripPrefix, hne]

theorem IsIndex.digits? {i : List Char} (h : IsIndex i) :
    Text.digits? i = some (Nat.ofDigitChars 10 i 0) := by
  have hne : i.isEmpty = false := List.isEmpty_eq_false_iff.mpr h.nonempty
  simp [Text.digits?, hne, List.all_eq_true.mpr h.digits]

/-- An index is read by `parse::<usize>`, with or without a sign, and nothing else is. -/
theorem parseUnsigned_iff {i : List Char} {n : Nat} :
    Text.parseUnsigned usizeMax i = some n ↔
      ∃ d, (i = d ∨ i = '+' :: d) ∧ IsIndex d ∧ n = Nat.ofDigitChars 10 d 0 := by
  constructor
  · intro h
    obtain ⟨hdigits, hfits⟩ := Option.filter_eq_some_iff.mp h
    have hd : ∃ d, (i = d ∨ i = '+' :: d) ∧ (Text.stripPrefix ['+'] i).getD i = d := by
      cases hstrip : Text.stripPrefix ['+'] i with
      | none => exact ⟨i, .inl rfl, rfl⟩
      | some d => exact ⟨d, .inr (Text.eq_append_of_stripPrefix hstrip), rfl⟩
    obtain ⟨d, hi, hget⟩ := hd
    rw [hget, Text.digits?] at hdigits
    split at hdigits
    · rename_i hall
      obtain ⟨hne, hall⟩ := (Bool.and_eq_true _ _).mp hall
      obtain rfl := Option.some.inj hdigits
      refine ⟨d, hi, ⟨?_, List.all_eq_true.mp hall, of_decide_eq_true hfits⟩, rfl⟩
      rintro rfl
      exact absurd hne (by simp)
    · exact absurd hdigits (by simp)
  · rintro ⟨d, hi, hd, rfl⟩
    have hget : (Text.stripPrefix ['+'] i).getD i = d := by
      rcases hi with rfl | rfl
      · rw [hd.stripPlus, Option.getD_none]
      · rfl
    rw [Text.parseUnsigned, hget, hd.digits?]
    exact Option.filter_eq_some_iff.mpr ⟨rfl, decide_eq_true hd.fits⟩

def indexValue (i : List Char) : Nat := (Text.parseUnsigned usizeMax i).getD 0

theorem signedIndex_iff {i : List Char} :
    SignedIndex i ↔ Text.parseUnsigned usizeMax i = some (indexValue i) := by
  constructor
  · rintro ⟨d, hi, hd⟩
    have hparse := parseUnsigned_iff.mpr ⟨d, hi, hd, rfl⟩
    rw [indexValue, hparse, Option.getD_some]
  · intro h
    obtain ⟨d, hi, hd, -⟩ := parseUnsigned_iff.mp h
    exact ⟨d, hi, hd⟩

theorem SignedIndex.notMem {i : List Char} (h : SignedIndex i) {c : Char}
    (hc : c.isDigit = false) (hplus : c ≠ '+') : c ∉ i := by
  obtain ⟨d, rfl | rfl, hd⟩ := h
  · exact hd.notMem hc
  · intro hmem
    rcases List.mem_cons.mp hmem with heq | hmem
    · exact hplus heq
    · exact hd.notMem hc hmem

/-- An index without sign is one of the grammar. -/
theorem SignedIndex.isIndex {i : List Char} (h : SignedIndex i) (hplus : '+' ∉ i) : IsIndex i := by
  obtain ⟨d, rfl | rfl, hd⟩ := h
  · exact hd
  · exact absurd List.mem_cons_self hplus

theorem isIndex_toDigits {n : Nat} (h : n ≤ usizeMax) : IsIndex (Nat.toDigits 10 n) where
  nonempty := Nat.toDigits_ne_nil
  digits := fun c hc => Nat.isDigit_of_mem_toDigits (by decide) (by decide) hc
  fits := by
    rw [Nat.ofDigitChars_toDigits (by decide) (by decide)]
    exact h

theorem indexValue_toDigits {n : Nat} (h : n ≤ usizeMax) : indexValue (Nat.toDigits 10 n) = n := by
  have hparse := parseUnsigned_iff.mpr ⟨Nat.toDigits 10 n, .inl rfl, isIndex_toDigits h, rfl⟩
  rw [indexValue, hparse, Option.getD_some, Nat.ofDigitChars_toDigits (by decide) (by decide)]

/-! ## What is read -/

/-- The segments of a group. -/
def Group.segments (g : Group) : List PathSegment :=
  (if g.key.isEmpty then [] else [.key (String.ofList g.key)]) ++
    g.indices.map fun i => .index (indexValue i)

theorem parseIndices_bracketed (path : String) {i : List Char} (h : SignedIndex i)
    (after : List Char) :
    parseIndices path (bracketed i ++ after) =
      (parseIndices path after).map (.index (indexValue i) :: ·) := by
  have hsplit : Text.splitOnce ']' (i ++ [']'] ++ after) = some (i, after) :=
    Text.splitOnce_eq_some.mpr ⟨by simp, h.notMem (by decide) (by decide)⟩
  rw [bracketed, List.cons_append, parseIndices]
  simp only [ne_eq, not_true_eq_false, if_false]
  split
  · rename_i hnone
    rw [hsplit] at hnone
    exact absurd hnone (by simp)
  · rename_i idxStr after' hsome
    rw [hsplit] at hsome
    obtain ⟨rfl, rfl⟩ := Prod.mk.inj (Option.some.inj hsome)
    simp only [signedIndex_iff.mp h]

theorem parseIndices_eq (path : String) {indices : List (List Char)}
    (h : ∀ i ∈ indices, SignedIndex i) :
    parseIndices path (indices.flatMap bracketed) =
      .ok (indices.map fun i => .index (indexValue i)) := by
  induction indices with
  | nil =>
      rw [List.flatMap_nil, parseIndices]
      rfl
  | cons i indices ih =>
      obtain ⟨hi, hrest⟩ := List.forall_mem_cons.mp h
      rw [List.flatMap_cons, parseIndices_bracketed path hi, ih hrest]
      rfl

/-- Brackets that are read hold indices. -/
theorem exists_indices (path : String) (rest : List Char) :
    ∀ segments, parseIndices path rest = .ok segments →
      ∃ indices : List (List Char), (∀ i ∈ indices, SignedIndex i) ∧
        rest = indices.flatMap bracketed := by
  fun_induction parseIndices path rest with
  | case1 => exact fun _ _ => ⟨[], by simp, rfl⟩
  | case2 => exact fun _ h => absurd h (by simp)
  | case3 => exact fun _ h => absurd h (by simp)
  | case4 => exact fun _ h => absurd h (by simp)
  | case5 c rest hc idxStr after hsplit idx hidx hlt ih =>
      intro segments h
      obtain rfl : c = '[' := not_not.mp hc
      obtain ⟨hrest, -⟩ := Text.splitOnce_eq_some.mp hsplit
      have hidx : SignedIndex idxStr := by
        obtain ⟨d, hi, hd, -⟩ := parseUnsigned_iff.mp hidx
        exact ⟨d, hi, hd⟩
      cases hafter : parseIndices path after with
      | error e =>
          rw [hafter] at h
          exact absurd h (by simp [Except.map])
      | ok more =>
          obtain ⟨indices, hindices, rfl⟩ := ih more hafter
          refine ⟨idxStr :: indices, List.forall_mem_cons.mpr ⟨hidx, hindices⟩, ?_⟩
          rw [hrest]
          simp [bracketed]

/-- The brackets of a group begin behind its key. -/
theorem Group.splitOnce_text {g : Group} (h : '[' ∉ g.key) :
    Text.splitOnce '[' g.text =
      match g.indices with
      | [] => none
      | i :: indices => some (g.key, i ++ [']'] ++ indices.flatMap bracketed) := by
  obtain ⟨key, indices⟩ := g
  cases indices with
  | nil => exact Text.splitOnce_eq_none.mpr (by simpa [Group.text] using h)
  | cons i indices => exact Text.splitOnce_eq_some.mpr ⟨by simp [Group.text, bracketed], h⟩

theorem parseGroup_text (path : String) {g : Group} (h : g.Readable) :
    parseGroup path g.text = .ok g.segments := by
  have hkey : '[' ∉ g.key := fun hmem => (h.key _ hmem).2 rfl
  have hne : g.text.isEmpty = false := List.isEmpty_eq_false_iff.mpr h.nonempty
  rw [parseGroup, hne, Group.splitOnce_text hkey]
  obtain ⟨key, indices⟩ := g
  cases indices with
  | nil =>
      have hkey : key.isEmpty = false := by simpa [Group.text] using h.nonempty
      simp [Group.text, Group.segments, hkey]
  | cons i indices =>
      have hbrackets : '[' :: (i ++ [']'] ++ indices.flatMap bracketed) =
          (i :: indices).flatMap bracketed := by simp [bracketed]
      simp only [Bool.false_eq_true, if_false, hbrackets, parseIndices_eq path h.indices]
      rfl

/-- What is read between two dots is a group. -/
theorem exists_group (path : String) {dotted : List Char} (hdot : '.' ∉ dotted)
    {segments : List PathSegment} (h : parseGroup path dotted = .ok segments) :
    ∃ g : Group, g.Readable ∧ g.text = dotted := by
  rw [parseGroup] at h
  split at h
  · exact absurd h (by simp)
  · rename_i hne
    have hne : dotted ≠ [] := fun heq => hne (heq ▸ rfl)
    cases hsplit : Text.splitOnce '[' dotted with
    | none =>
        have hbracket := Text.splitOnce_eq_none.mp hsplit
        refine ⟨⟨dotted, []⟩, ⟨by simpa [Group.text] using hne, fun c hc => ⟨?_, ?_⟩, by simp⟩,
          by simp [Group.text]⟩
        · exact fun heq => hdot (heq ▸ hc)
        · exact fun heq => hbracket (heq ▸ hc)
    | some p =>
        obtain ⟨key, rest⟩ := p
        obtain ⟨rfl, hbracket⟩ := Text.splitOnce_eq_some.mp hsplit
        simp only [hsplit] at h
        cases hindices : parseIndices path ('[' :: rest) with
        | error e =>
            rw [hindices] at h
            exact absurd h (by simp [Except.map])
        | ok more =>
            obtain ⟨indices, hsigned, hrest⟩ := exists_indices path _ more hindices
            have htext : Group.text ⟨key, indices⟩ = key ++ '[' :: rest := by
              rw [hrest]
              rfl
            refine ⟨⟨key, indices⟩, ⟨htext ▸ hne, fun c hc => ⟨?_, ?_⟩, hsigned⟩, htext⟩
            · exact fun heq => hdot (heq ▸ List.mem_append_left _ hc)
            · exact fun heq => hbracket (heq ▸ hc)

theorem parseGroups_text (path : String) {gs : List Group} (h : ∀ g ∈ gs, g.Readable) :
    parseGroups path (gs.map Group.text) = .ok (gs.flatMap Group.segments) := by
  induction gs with
  | nil => rfl
  | cons g gs ih =>
      obtain ⟨hg, hgs⟩ := List.forall_mem_cons.mp h
      rw [List.map_cons, parseGroups, parseGroup_text path hg, ih hgs]
      rfl

theorem exists_groups (path : String) {parts : List (List Char)} (hdot : ∀ p ∈ parts, '.' ∉ p)
    {segments : List PathSegment} (h : parseGroups path parts = .ok segments) :
    ∃ gs : List Group, (∀ g ∈ gs, g.Readable) ∧ gs.map Group.text = parts := by
  induction parts generalizing segments with
  | nil => exact ⟨[], by simp, rfl⟩
  | cons part parts ih =>
      obtain ⟨hpart, hparts⟩ := List.forall_mem_cons.mp hdot
      rw [parseGroups] at h
      cases hgroup : parseGroup path part with
      | error e =>
          rw [hgroup] at h
          exact absurd h (by simp [bind, Except.bind])
      | ok first =>
          cases hgroups : parseGroups path parts with
          | error e =>
              rw [hgroup, hgroups] at h
              exact absurd h (by simp [bind, Except.bind])
          | ok more =>
              obtain ⟨g, hg, rfl⟩ := exists_group path hpart hgroup
              obtain ⟨gs, hgs, rfl⟩ := ih hparts hgroups
              exact ⟨g :: gs, List.forall_mem_cons.mpr ⟨hg, hgs⟩, rfl⟩

theorem Group.Readable.dot_notMem {g : Group} (h : g.Readable) : '.' ∉ g.text := by
  intro hmem
  rcases List.mem_append.mp hmem with hmem | hmem
  · exact (h.key _ hmem).1 rfl
  · obtain ⟨i, hi, hmem⟩ := List.mem_flatMap.mp hmem
    have hdot : '.' ∉ i := (h.indices i hi).notMem (by decide) (by decide)
    simp [bracketed, hdot] at hmem

theorem Group.Readable.segments_ne_nil {g : Group} (h : g.Readable) : g.segments ≠ [] := by
  obtain ⟨key, indices⟩ := g
  have hne := h.nonempty
  cases key with
  | nil =>
      cases indices with
      | nil => exact absurd rfl hne
      | cons i indices => simp [Group.segments]
  | cons c key => simp [Group.segments]

/-- The parts between the dots of a path are its groups. -/
theorem split_pathOf {gs : List Group} (hne : gs ≠ []) (h : ∀ g ∈ gs, g.Readable) :
    Text.split (· == '.') (pathOf gs) = gs.map Group.text := by
  refine Text.split_join (by simpa using hne) fun part hpart => ?_
  obtain ⟨g, hg, rfl⟩ := List.mem_map.mp hpart
  exact (h g hg).dot_notMem

theorem pathOf_ne_nil {gs : List Group} (hne : gs ≠ []) (h : ∀ g ∈ gs, g.Readable) :
    pathOf gs ≠ [] := by
  intro hnil
  have hsplit := split_pathOf hne h
  rw [hnil] at hsplit
  obtain ⟨g, gs, rfl⟩ := List.exists_cons_of_ne_nil hne
  exact (h g List.mem_cons_self).nonempty (List.cons.inj hsplit).1.symm

/-- The paths that are read are those made of readable groups. -/
theorem parsePath_iff {path : String} {segments : List PathSegment} :
    parsePath path = .ok segments ↔
      ∃ gs, gs ≠ [] ∧ (∀ g ∈ gs, g.Readable) ∧ path.toList = pathOf gs ∧
        segments = gs.flatMap Group.segments := by
  constructor
  · intro h
    rw [parsePath] at h
    split at h
    · exact absurd h (by simp)
    · cases hgroups : parseGroups path (Text.split (· == '.') path.toList) with
      | error e =>
          rw [hgroups] at h
          exact absurd h (by simp [bind, Except.bind])
      | ok more =>
          obtain ⟨gs, hgs, hparts⟩ :=
            exists_groups path (fun p => Text.notMem_of_mem_split) hgroups
          refine ⟨gs, ?_, hgs, ?_, ?_⟩
          · rintro rfl
            exact Text.split_ne_nil _ _ hparts.symm
          · rw [pathOf, hparts, Text.join_split]
          · rw [← hparts, parseGroups_text path hgs] at hgroups h
            simp only [bind, Except.bind] at h
            split at h
            · exact absurd h (by simp)
            · exact (Except.ok.inj h).symm
  · rintro ⟨gs, hne, hgs, hpath, rfl⟩
    have hpathne : path.toList.isEmpty = false := by
      rw [hpath]
      exact List.isEmpty_eq_false_iff.mpr (pathOf_ne_nil hne hgs)
    have hsegments : (gs.flatMap Group.segments).isEmpty = false := by
      obtain ⟨g, gs, rfl⟩ := List.exists_cons_of_ne_nil hne
      rw [List.flatMap_cons]
      refine List.isEmpty_eq_false_iff.mpr (List.append_ne_nil_of_left_ne_nil ?_ _)
      exact (hgs g List.mem_cons_self).segments_ne_nil
    rw [parsePath, hpathne, hpath, split_pathOf hne hgs, parseGroups_text path hgs]
    simp only [bind, Except.bind, hsegments]
    rfl

/-! ## The groups of a path -/

theorem bracketed_inj {is js : List (List Char)} (hi : ∀ i ∈ is, ']' ∉ i) (hj : ∀ j ∈ js, ']' ∉ j)
    (h : is.flatMap bracketed = js.flatMap bracketed) : is = js := by
  induction is generalizing js with
  | nil =>
      cases js with
      | nil => rfl
      | cons j js => exact absurd h (by simp [bracketed])
  | cons i is ih =>
      cases js with
      | nil => exact absurd h (by simp [bracketed])
      | cons j js =>
          obtain ⟨hfirst, his⟩ := List.forall_mem_cons.mp hi
          obtain ⟨hfirst', hjs⟩ := List.forall_mem_cons.mp hj
          have heq : i ++ ']' :: is.flatMap bracketed = j ++ ']' :: js.flatMap bracketed := by
            simpa [bracketed] using h
          -- Both are what stands before the first closing bracket.
          have hsplit := Text.splitOnce_eq_some.mpr ⟨heq.symm, hfirst⟩
          rw [Text.splitOnce_eq_some.mpr ⟨rfl, hfirst'⟩] at hsplit
          obtain ⟨rfl, hrest⟩ := Prod.mk.inj (Option.some.inj hsplit)
          rw [ih his hjs hrest.symm]

/-- A readable group is determined by its text. -/
theorem Group.text_inj {g g' : Group} (h : g.Readable) (h' : g'.Readable)
    (heq : g.text = g'.text) : g = g' := by
  have hbracket : ∀ {g : Group}, g.Readable → '[' ∉ g.key := fun h hmem => (h.key _ hmem).2 rfl
  have hclose : ∀ {g : Group}, g.Readable → ∀ i ∈ g.indices, ']' ∉ i :=
    fun h i hi => (h.indices i hi).notMem (by decide) (by decide)
  have hsplit := Group.splitOnce_text (hbracket h)
  rw [heq, Group.splitOnce_text (hbracket h')] at hsplit
  have hi := hclose h
  have hi' := hclose h'
  obtain ⟨key, indices⟩ := g
  obtain ⟨key', indices'⟩ := g'
  cases indices with
  | nil =>
      cases indices' with
      | nil => simpa [Group.text] using heq
      | cons i' indices' => exact absurd hsplit (by simp)
  | cons i indices =>
      cases indices' with
      | nil => exact absurd hsplit (by simp)
      | cons i' indices' =>
          obtain ⟨rfl, -⟩ := Prod.mk.inj (Option.some.inj hsplit)
          exact congrArg (Group.mk _) (bracketed_inj hi hi' (List.append_cancel_left heq))

theorem map_text_inj {gs gs' : List Group} (h : ∀ g ∈ gs, g.Readable)
    (h' : ∀ g ∈ gs', g.Readable) (heq : gs.map Group.text = gs'.map Group.text) : gs = gs' := by
  induction gs generalizing gs' with
  | nil => exact (List.map_eq_nil_iff.mp heq.symm).symm
  | cons g gs ih =>
      cases gs' with
      | nil => exact absurd heq (by simp)
      | cons g' gs' =>
          obtain ⟨hg, hgs⟩ := List.forall_mem_cons.mp h
          obtain ⟨hg', hgs'⟩ := List.forall_mem_cons.mp h'
          obtain ⟨hfirst, hrest⟩ := List.cons.inj heq
          rw [Group.text_inj hg hg' hfirst, ih hgs hgs' hrest]

/-- The groups of a path are determined by it. -/
theorem pathOf_inj {gs gs' : List Group} (hne : gs ≠ []) (hne' : gs' ≠ [])
    (h : ∀ g ∈ gs, g.Readable) (h' : ∀ g ∈ gs', g.Readable) (heq : pathOf gs = pathOf gs') :
    gs = gs' := by
  refine map_text_inj h h' ?_
  rw [← split_pathOf hne h, heq, split_pathOf hne' h']

/-! ## The grammar -/

theorem Group.Proper.readable {g : Group} (h : g.Proper) : g.Readable where
  nonempty := h.nonempty
  key := fun c hc => ⟨(h.key c hc).1, (h.key c hc).2.1⟩
  indices := fun i hi => ⟨i, .inl rfl, h.indices i hi⟩

theorem Group.Proper.not_slips {g : Group} (h : g.Proper) : ¬ g.Slips := by
  rintro (hmem | ⟨i, hi, hmem⟩)
  · exact (h.key _ hmem).2.2 rfl
  · exact (h.indices i hi).notMem (by decide) hmem

theorem Group.Readable.proper {g : Group} (h : g.Readable) (hslips : ¬ g.Slips) : g.Proper where
  nonempty := h.nonempty
  key := fun c hc => ⟨(h.key c hc).1, (h.key c hc).2, fun heq => hslips (.inl (heq ▸ hc))⟩
  indices := fun i hi => (h.indices i hi).isIndex fun hmem => hslips (.inr ⟨i, hi, hmem⟩)

theorem not_inGrammar_of_misread {path : String} (h : Misread path) : ¬ InGrammar path := by
  rintro ⟨gs', hne', hgs', hpath'⟩
  obtain ⟨gs, hne, hgs, hpath, g, hg, hslips⟩ := h
  obtain rfl := pathOf_inj hne hne' hgs (fun g hg => (hgs' g hg).readable) (hpath.symm.trans hpath')
  exact (hgs' g hg).not_slips hslips

/-- Outside of the misread paths, what is read is the grammar. -/
theorem parses_iff_of_not_misread {path : String} (h : ¬ Misread path) :
    (∃ segments, parsePath path = .ok segments) ↔ InGrammar path := by
  constructor
  · rintro ⟨segments, hparse⟩
    obtain ⟨gs, hne, hgs, hpath, -⟩ := parsePath_iff.mp hparse
    refine ⟨gs, hne, fun g hg => (hgs g hg).proper fun hslips => h ?_, hpath⟩
    exact ⟨gs, hne, hgs, hpath, g, hg, hslips⟩
  · rintro ⟨gs, hne, hgs, hpath⟩
    exact ⟨_, parsePath_iff.mpr ⟨gs, hne, fun g hg => (hgs g hg).readable, hpath, rfl⟩⟩

/-! ## Printing -/

def printSegment : PathSegment → List Char
  | .key k => k.toList
  | .index i => bracketed (Nat.toDigits 10 i)

/-- Behind another segment a key has a dot in front. -/
def printRest : List PathSegment → List Char
  | [] => []
  | .key k :: rest => '.' :: (printSegment (.key k) ++ printRest rest)
  | .index i :: rest => printSegment (.index i) ++ printRest rest

def printChars : List PathSegment → List Char
  | [] => []
  | seg :: rest => printSegment seg ++ printRest rest

/-- The path of the segments, with a dot between keys and the indices in brackets. -/
def printPath (segments : List PathSegment) : String := String.ofList (printChars segments)

def Printable : PathSegment → Prop
  | .key k => k.toList ≠ [] ∧ ∀ c ∈ k.toList, c ≠ '.' ∧ c ≠ '['
  | .index i => i ≤ usizeMax

theorem Group.Readable.printable {g : Group} (h : g.Readable) : ∀ s ∈ g.segments, Printable s := by
  intro s hs
  rcases List.mem_append.mp hs with hs | hs
  · split at hs
    · exact absurd hs List.not_mem_nil
    · rename_i hne
      obtain rfl := List.mem_singleton.mp hs
      refine ⟨?_, ?_⟩
      · rw [String.toList_ofList]
        exact fun heq => hne (by rw [heq]; rfl)
      · rw [String.toList_ofList]
        exact h.key
  · obtain ⟨i, hi, rfl⟩ := List.mem_map.mp hs
    obtain ⟨d, -, hd, hvalue⟩ := parseUnsigned_iff.mp (signedIndex_iff.mp (h.indices i hi))
    show indexValue i ≤ usizeMax
    rw [hvalue]
    exact hd.fits

/-- The group of one segment. -/
def single : PathSegment → Group
  | .key k => ⟨k.toList, []⟩
  | .index i => ⟨[], [Nat.toDigits 10 i]⟩

theorem single_text (seg : PathSegment) : (single seg).text = printSegment seg := by
  cases seg with
  | key k => exact List.append_nil _
  | index i => exact List.append_nil _

theorem single_segments {seg : PathSegment} (h : Printable seg) :
    (single seg).segments = [seg] := by
  cases seg with
  | key k =>
      have hne : k.toList.isEmpty = false := List.isEmpty_eq_false_iff.mpr h.1
      simp only [single, Group.segments, hne, Bool.false_eq_true, if_false, String.ofList_toList]
      rfl
  | index i =>
      show [PathSegment.index (indexValue (Nat.toDigits 10 i))] = _
      rw [indexValue_toDigits h]

theorem readable_single {seg : PathSegment} (h : Printable seg) : (single seg).Readable := by
  have htext := single_text seg
  cases seg with
  | key k => exact ⟨by rw [htext]; exact h.1, h.2, by simp [single]⟩
  | index i =>
      refine ⟨by rw [htext]; simp [printSegment, bracketed], by simp [single], ?_⟩
      intro j hj
      obtain rfl := List.mem_singleton.mp hj
      exact ⟨_, .inl rfl, isIndex_toDigits h⟩

/-- Whether a dot stands in front depends on the key of the first group. -/
theorem printRest_single {seg : PathSegment} (h : Printable seg) (rest : List PathSegment) :
    (single seg).key = [] ∧ printRest (seg :: rest) = printChars (seg :: rest) ∨
      (single seg).key ≠ [] ∧ printRest (seg :: rest) = '.' :: printChars (seg :: rest) := by
  cases seg with
  | key k => exact .inr ⟨h.1, rfl⟩
  | index i => exact .inl ⟨rfl, rfl⟩

/-- The indices of a group without key, behind another group. -/
def Group.withIndices (g : Group) (indices : List (List Char)) : Group :=
  ⟨g.key, g.indices ++ indices⟩

theorem Group.withIndices_text (g : Group) {g' : Group} (h : g'.key = []) :
    (g.withIndices g'.indices).text = g.text ++ g'.text := by
  simp [Group.withIndices, Group.text, h]

theorem Group.withIndices_segments (g : Group) {g' : Group} (h : g'.key = []) :
    (g.withIndices g'.indices).segments = g.segments ++ g'.segments := by
  simp [Group.withIndices, Group.segments, h]

theorem Group.Readable.withIndices {g g' : Group} (h : g.Readable) (h' : g'.Readable) :
    (g.withIndices g'.indices).Readable where
  nonempty := by
    have hne := h.nonempty
    simp only [Group.text, ne_eq, List.append_eq_nil_iff, not_and] at hne
    simp only [Group.withIndices, Group.text, List.flatMap_append, ne_eq, List.append_eq_nil_iff,
      not_and]
    exact fun hkey hindices => absurd hindices (hne hkey)
  key := h.key
  indices := fun i hi => (List.mem_append.mp hi).elim (h.indices i) (h'.indices i)

/-- The printed path is made of groups again, with the same segments. -/
theorem exists_printed (segments : List PathSegment) (hne : segments ≠ [])
    (h : ∀ s ∈ segments, Printable s) :
    ∃ g gs, (∀ x ∈ g :: gs, Group.Readable x) ∧ (g :: gs).flatMap Group.segments = segments ∧
      pathOf (g :: gs) = printChars segments ∧
      (g.key = [] ∧ printRest segments = printChars segments ∨
        g.key ≠ [] ∧ printRest segments = '.' :: printChars segments) := by
  induction segments with
  | nil => exact absurd rfl hne
  | cons seg rest ih =>
      obtain ⟨hseg, hrest⟩ := List.forall_mem_cons.mp h
      have hsingle := readable_single hseg
      have hhead := printRest_single hseg rest
      cases rest with
      | nil =>
          refine ⟨single seg, [], by simpa using hsingle, ?_, ?_, hhead⟩
          · rw [List.flatMap_cons, single_segments hseg]
            rfl
          · show (single seg).text = printSegment seg ++ []
            rw [single_text, List.append_nil]
      | cons next rest =>
          obtain ⟨g, gs, hgs, hsegments, hpath, hdot⟩ := ih (by simp) hrest
          obtain ⟨hg, htail⟩ := List.forall_mem_cons.mp hgs
          rcases hdot with ⟨hkey, hdot⟩ | ⟨hkey, hdot⟩
          · -- The indices of the next group go on in the group of this segment.
            refine ⟨(single seg).withIndices g.indices, gs,
              List.forall_mem_cons.mpr ⟨hsingle.withIndices hg, htail⟩, ?_, ?_, hhead⟩
            · rw [List.flatMap_cons, Group.withIndices_segments _ hkey, single_segments hseg,
                List.append_assoc, ← List.flatMap_cons, hsegments]
              rfl
            · rw [pathOf, List.map_cons, Group.withIndices_text _ hkey, Text.join_append_cons,
                ← List.map_cons, ← pathOf, hpath, single_text, ← hdot]
              rfl
          · refine ⟨single seg, g :: gs, List.forall_mem_cons.mpr ⟨hsingle, hgs⟩, ?_, ?_, hhead⟩
            · rw [List.flatMap_cons, single_segments hseg, hsegments]
              rfl
            · rw [pathOf, List.map_cons, Text.join_cons (by simp), ← pathOf, hpath, single_text,
                List.append_assoc, List.singleton_append, ← hdot]
              rfl

/-- What was read is read again from its printed path. -/
theorem parsePath_printPath {path : String} {segments : List PathSegment}
    (h : parsePath path = .ok segments) : parsePath (printPath segments) = .ok segments := by
  obtain ⟨gs, hne, hgs, -, rfl⟩ := parsePath_iff.mp h
  have hprintable : ∀ s ∈ gs.flatMap Group.segments, Printable s := by
    intro s hs
    obtain ⟨g, hg, hs⟩ := List.mem_flatMap.mp hs
    exact (hgs g hg).printable s hs
  have hsegments : gs.flatMap Group.segments ≠ [] := by
    obtain ⟨g, gs, rfl⟩ := List.exists_cons_of_ne_nil hne
    exact List.append_ne_nil_of_left_ne_nil (hgs g List.mem_cons_self).segments_ne_nil _
  obtain ⟨g, gs', hgs', heq, hpath, -⟩ := exists_printed _ hsegments hprintable
  refine parsePath_iff.mpr ⟨g :: gs', by simp, hgs', ?_, heq.symm⟩
  rw [printPath, String.toList_ofList, hpath]

/-- `parse_path` reads exactly the grammar, and reads again what it has read and is printed,
unless a `]` in a key or a `+` in front of digits is all that keeps the path from the grammar. -/
theorem parsePath_exact_iff (path : String) :
    (((∃ segments, parsePath path = .ok segments) ↔ InGrammar path) ∧
      ∀ segments, parsePath path = .ok segments → parsePath (printPath segments) = .ok segments) ↔
      ¬ Misread path := by
  constructor
  · rintro ⟨hexact, -⟩ hmisread
    have hnot := not_inGrammar_of_misread hmisread
    obtain ⟨gs, hne, hgs, hpath, -⟩ := hmisread
    have hparses : parsePath path = .ok (gs.flatMap Group.segments) :=
      parsePath_iff.mpr ⟨gs, hne, hgs, hpath, rfl⟩
    exact hnot (hexact.mp ⟨_, hparses⟩)
  · intro hmisread
    exact ⟨parses_iff_of_not_misread hmisread, fun _ => parsePath_printPath⟩

/-- The `]` of `a]b` closes nothing, and `+1` is not a run of digits. -/
theorem unmatched_bracket_read :
    (parsePath "a]b" = .ok [.key "a]b"] ∧ ¬ InGrammar "a]b") ∧
      parsePath "a[+1]" = .ok [.key "a", .index 1] ∧ ¬ InGrammar "a[+1]" := by
  have hkey : ∀ g ∈ [(⟨['a', ']', 'b'], []⟩ : Group)], g.Readable := by
    intro g hg
    obtain rfl := List.mem_singleton.mp hg
    exact ⟨by decide, by simp, by simp⟩
  have hsigned : ∀ g ∈ [(⟨['a'], [['+', '1']]⟩ : Group)], g.Readable := by
    intro g hg
    obtain rfl := List.mem_singleton.mp hg
    refine ⟨by decide, by simp, ?_⟩
    intro i hi
    obtain rfl := List.mem_singleton.mp hi
    exact ⟨['1'], .inr rfl, ⟨by decide, by simp, by decide⟩⟩
  refine ⟨⟨parsePath_iff.mpr ⟨_, by simp, hkey, by decide, by decide⟩, ?_⟩,
    parsePath_iff.mpr ⟨_, by simp, hsigned, by decide, by decide⟩, ?_⟩
  · exact not_inGrammar_of_misread ⟨_, by simp, hkey, by decide, _, List.mem_singleton_self _,
      .inl (by simp)⟩
  · exact not_inGrammar_of_misread ⟨_, by simp, hsigned, by decide, _, List.mem_singleton_self _,
      .inr ⟨_, List.mem_singleton_self _, by simp⟩⟩

end Llmenv.Config.ProxyPath
