/-
# `Llmenv.HookRun.Getopt` — the options of a wrapper, and what `getopt` makes of them

`getopt` reads a cluster of short options from the left: flags one by one, up to
the first letter that takes a value.  What follows in the cluster is the value,
and only when nothing follows is it the next word.  `takes_value` of
`src/hook_run/shell_split.rs` looks at the last letter alone.

The two agree on a cluster exactly when no value of the cluster ends in a letter
that is a value option itself (`takesValue_iff_getopt`).  On the lists of words
that both read alike word by word, `skip_wrappers` stops where `getopt` does;
a cluster that is misread hides a command.

The options end at `--` for `getopt`, and a `-` alone is no option; the source
knows neither, so the lists that are read alike have no option-like word there.
-/
import Llmenv.HookRun.ShellSplit

namespace Llmenv.HookRun.ShellSplit

open Llmenv.Lib

/-! ## Clusters -/

section Cluster

variable {α : Type} {isValue : α → Bool}

/-- Whether the value of a cluster is the next word, read from the left. -/
def takesNext (isValue : α → Bool) : List α → Bool
  | [] => false
  | c :: cs => if isValue c then cs.isEmpty else takesNext isValue cs

/-- The first value letter is the last letter. -/
def FirstIsLast (isValue : α → Bool) (cluster : List α) : Prop :=
  ∃ flags last, cluster = flags ++ [last] ∧ isValue last = true ∧ ∀ c ∈ flags, isValue c = false

/-- A value that is attached to its letter ends in a value letter. -/
def ValueInside (isValue : α → Bool) (cluster : List α) : Prop :=
  ∃ init last, cluster = init ++ [last] ∧ isValue last = true ∧ ∃ c ∈ init, isValue c = true

theorem takesNext_iff {cluster : List α} :
    takesNext isValue cluster = true ↔ FirstIsLast isValue cluster := by
  induction cluster with
  | nil => simp [takesNext, FirstIsLast]
  | cons c cs ih =>
      rw [takesNext]
      cases hc : isValue c with
      | true =>
          rw [if_pos rfl, List.isEmpty_iff]
          constructor
          · rintro rfl
            exact ⟨[], c, rfl, hc, fun _ h => absurd h List.not_mem_nil⟩
          · rintro ⟨flags, last, heq, -, hflags⟩
            cases flags with
            | nil => exact (List.cons.inj heq).2
            | cons d flags =>
                obtain ⟨rfl, -⟩ := List.cons.inj heq
                exact absurd (hc.symm.trans (hflags c List.mem_cons_self)) (by simp)
      | false =>
          rw [if_neg (by simp), ih]
          constructor
          · rintro ⟨flags, last, rfl, hlast, hflags⟩
            exact ⟨c :: flags, last, rfl, hlast, List.forall_mem_cons.mpr ⟨hc, hflags⟩⟩
          · rintro ⟨flags, last, heq, hlast, hflags⟩
            cases flags with
            | nil =>
                obtain ⟨rfl, -⟩ := List.cons.inj heq
                exact absurd (hc.symm.trans hlast) (by simp)
            | cons d flags =>
                exact ⟨flags, last, (List.cons.inj heq).2, hlast,
                  (List.forall_mem_cons.mp hflags).2⟩

/-- To look at the last letter alone is right unless a value letter comes before it. -/
theorem last_iff_firstIsLast {cluster : List α} :
    ((cluster.getLast?.any isValue = true) ↔ FirstIsLast isValue cluster) ↔
      ¬ ValueInside isValue cluster := by
  rcases List.eq_nil_or_concat' cluster with rfl | ⟨init, last, rfl⟩
  · simp [FirstIsLast, ValueInside]
  · have hlast : ∀ {flags : List α} {c : α}, init ++ [last] = flags ++ [c] →
        init = flags ∧ last = c :=
      fun h => by simpa using List.append_inj' h rfl
    rw [List.getLast?_concat, Option.any_some]
    constructor
    · rintro hiff ⟨flags, c, heq, hc, d, hd, hvalue⟩
      obtain ⟨rfl, rfl⟩ := hlast heq
      obtain ⟨flags, c, heq, -, hflags⟩ := hiff.mp hc
      obtain ⟨rfl, rfl⟩ := hlast heq
      exact absurd (hvalue.symm.trans (hflags d hd)) (by simp)
    · intro hno
      constructor
      · intro hvalue
        refine ⟨init, last, rfl, hvalue, fun c hc => ?_⟩
        by_contra hne
        exact hno ⟨init, last, rfl, hvalue, c, hc, by simpa using hne⟩
      · rintro ⟨flags, c, heq, hc, -⟩
        obtain ⟨-, rfl⟩ := hlast heq
        exact hc

end Cluster

/-! ## What `getopt` makes of the words of a wrapper -/

def isValueLetter (valueOpts : List Word) (c : Char) : Bool := valueOpts.contains ['-', c]

def isLong (word : Word) : Bool := startsWith word.tail '-'

/-- Whether an option takes the next word as its value. -/
def getoptTakesValue (word : Word) (valueOpts : List Word) : Bool :=
  if isLong word then valueOpts.contains word
  else takesNext (isValueLetter valueOpts) word.tail

/-- The number of words that a wrapper takes after its name; `ended` says that
the options have ended. -/
def getoptArgs (valueOpts : List Word) : Bool → Nat → List Word → Nat
  | _, _, [] => 0
  | ended, operands, word :: words =>
      if !ended && word == "--".toList then 1 + getoptArgs valueOpts true operands words
      else if !ended && startsWith word '-' && word != "-".toList then
        if getoptTakesValue word valueOpts then
          match words with
          | [] => 1
          | _ :: words => 2 + getoptArgs valueOpts false operands words
        else 1 + getoptArgs valueOpts false operands words
      else if '=' ∈ word ∨ 0 < operands then 1 + getoptArgs valueOpts ended (operands - 1) words
      else 0

/-- `skip_wrappers` with another count of the words of a wrapper. -/
def skipWith (args : Wrapper → List Word → Nat) : Nat → List Word → List Word
  | _, [] => []
  | skip + 1, _ :: tail => skipWith args skip tail
  | 0, word :: tail =>
      if isAssignment word then skipWith args 0 tail
      else
        match wrappers.find? fun w => w.name == program word with
        | some w => skipWith args (args w tail) tail
        | none => word :: tail

def getoptSkip : List Word → List Word :=
  skipWith (fun w => getoptArgs w.valueOpts false w.operands) 0

theorem skipWrappers_eq (skip : Nat) (words : List Word) :
    skipWrappers skip words =
      skipWith (fun w => wrapperArgs w.valueOpts w.operands) skip words := by
  induction words generalizing skip with
  | nil => cases skip <;> rfl
  | cons word tail ih =>
      cases skip with
      | zero =>
          rw [skipWrappers, skipWith, ih]
          split
          · rfl
          · cases wrappers.find? fun w => w.name == program word with
            | none => rfl
            | some w => exact ih _
      | succ skip => exact ih skip

/-! ## Words that both read alike -/

/-- Behind `--`: no word up to the command looks like an option. -/
def Plain : Nat → List Word → Prop
  | _, [] => True
  | operands, word :: words =>
      startsWith word '-' = false ∧ ('=' ∈ word ∨ 0 < operands → Plain (operands - 1) words)

/-- No cluster up to the command has a value that ends in a value letter. -/
def ReadAlike (valueOpts : List Word) : Nat → List Word → Prop
  | _, [] => True
  | operands, word :: words =>
      if word = "--".toList then Plain operands words
      else if startsWith word '-' then
        word ≠ "-".toList ∧
          (isLong word = false → ¬ ValueInside (isValueLetter valueOpts) word.tail) ∧
          if getoptTakesValue word valueOpts then
            match words with
            | [] => True
            | _ :: words => ReadAlike valueOpts operands words
          else ReadAlike valueOpts operands words
      else if '=' ∈ word ∨ 0 < operands then ReadAlike valueOpts (operands - 1) words
      else True

/-- The same for every wrapper on the way to the command. -/
def SkippedAlike : Nat → List Word → Prop
  | _, [] => True
  | skip + 1, _ :: tail => SkippedAlike skip tail
  | 0, word :: tail =>
      if isAssignment word then SkippedAlike 0 tail
      else
        match wrappers.find? fun w => w.name == program word with
        | some w => ReadAlike w.valueOpts w.operands tail ∧
            SkippedAlike (getoptArgs w.valueOpts false w.operands tail) tail
        | none => True

/-- An option: a dash and a letter, or two dashes and a name. -/
def isOption : Word → Bool
  | ['-', c] => c != '-'
  | '-' :: '-' :: _ :: _ => true
  | _ => false

theorem isOption_valueOpts : ∀ w ∈ wrappers, ∀ o ∈ w.valueOpts, isOption o = true := by decide

section Options

variable {valueOpts : List Word} (hopts : ∀ o ∈ valueOpts, isOption o = true)

include hopts

/-- A cluster takes the next word for `takes_value` when its last letter is a
value letter. -/
theorem takesValue_cluster {cluster : Word} (hshort : startsWith cluster '-' = false) :
    takesValue ('-' :: cluster) valueOpts = cluster.getLast?.any (isValueLetter valueOpts) := by
  rw [takesValue]
  split
  · rename_i hmem
    -- The options of the table are single letters or long.
    have hopt := hopts _ hmem
    cases cluster with
    | nil => exact absurd hopt (by simp [isOption])
    | cons c cs =>
        cases cs with
        | nil => simp [isValueLetter, hmem]
        | cons d cs =>
            have hc : c ≠ '-' := by simpa [startsWith] using hshort
            exact absurd hopt (by simp [isOption, hc])
  · simp only [Text.stripPrefix, if_true, hshort, Bool.not_false, Bool.true_and]
    show _ = cluster.getLast?.any fun c => valueOpts.contains ['-', c]
    simp only [List.contains_eq_mem]

end Options

theorem exists_cluster {word : Word} (h : startsWith word '-' = true) :
    ∃ cluster, word = '-' :: cluster := by
  cases word with
  | nil => exact absurd h (by simp [startsWith])
  | cons c cs => exact ⟨cs, by simpa [startsWith] using h⟩

/-- A long option is one of the table or takes nothing. -/
theorem takesValue_long {valueOpts : List Word} {word : Word} (hword : startsWith word '-' = true)
    (hlong : isLong word = true) : takesValue word valueOpts = valueOpts.contains word := by
  obtain ⟨cluster, rfl⟩ := exists_cluster hword
  have hcluster : startsWith cluster '-' = true := hlong
  rw [takesValue]
  split
  · rename_i hmem
    simp [hmem]
  · rename_i hmem
    simp [Text.stripPrefix, hcluster, hmem]

section Reading

variable {valueOpts : List Word}

theorem takesValue_eq (hopts : ∀ o ∈ valueOpts, isOption o = true) {word : Word}
    (hword : startsWith word '-' = true)
    (hinside : isLong word = false → ¬ ValueInside (isValueLetter valueOpts) word.tail) :
    takesValue word valueOpts = getoptTakesValue word valueOpts := by
  rw [getoptTakesValue]
  cases hlong : isLong word with
  | true => rw [if_pos rfl, takesValue_long hword hlong]
  | false =>
      obtain ⟨cluster, rfl⟩ := exists_cluster hword
      have hshort : startsWith cluster '-' = false := hlong
      rw [if_neg (by simp), takesValue_cluster hopts hshort, Bool.eq_iff_iff, takesNext_iff]
      exact last_iff_firstIsLast.mpr (hinside hlong)

/-- An option is taken, and the word behind it where it has a value. -/
theorem wrapperArgs_option {word : Word} (h : startsWith word '-' = true) (operands : Nat)
    (words : List Word) :
    wrapperArgs valueOpts operands (word :: words) =
      if takesValue word valueOpts then
        match words with
        | [] => 1
        | _ :: words => 2 + wrapperArgs valueOpts operands words
      else 1 + wrapperArgs valueOpts operands words := by
  rw [wrapperArgs.eq_def]
  simp only [h, if_true]
  cases takesValue word valueOpts with
  | false => simp
  | true =>
      cases words with
      | nil => simp [wrapperArgs]
      | cons next words => simp

theorem wrapperArgs_other {word : Word} (h : startsWith word '-' = false) (operands : Nat)
    (words : List Word) :
    wrapperArgs valueOpts operands (word :: words) =
      if '=' ∈ word ∨ 0 < operands then 1 + wrapperArgs valueOpts (operands - 1) words else 0 := by
  rw [wrapperArgs.eq_def]
  simp [h]

theorem getoptArgs_end (operands : Nat) (words : List Word) :
    getoptArgs valueOpts false operands ("--".toList :: words) =
      1 + getoptArgs valueOpts true operands words := by
  rw [getoptArgs.eq_def]
  rfl

theorem getoptArgs_option {word : Word} (h : startsWith word '-' = true)
    (hend : word ≠ "--".toList) (hsingle : word ≠ "-".toList) (operands : Nat)
    (words : List Word) :
    getoptArgs valueOpts false operands (word :: words) =
      if getoptTakesValue word valueOpts then
        match words with
        | [] => 1
        | _ :: words => 2 + getoptArgs valueOpts false operands words
      else 1 + getoptArgs valueOpts false operands words := by
  have hend : (word == "--".toList) = false := beq_eq_false_iff_ne.mpr hend
  have hsingle : (word != "-".toList) = true := bne_iff_ne.mpr hsingle
  rw [getoptArgs.eq_def]
  simp only [h, hend, hsingle, Bool.not_false, Bool.and_false, Bool.and_true, Bool.false_eq_true,
    if_false, if_true]

/-- Behind the options, or before them, the words of a wrapper are its operands. -/
theorem getoptArgs_other {ended : Bool} {word : Word} (h : startsWith word '-' = false)
    (operands : Nat) (words : List Word) :
    getoptArgs valueOpts ended operands (word :: words) =
      if '=' ∈ word ∨ 0 < operands then
        1 + getoptArgs valueOpts ended (operands - 1) words
      else 0 := by
  have hend : (word == "--".toList) = false := by
    rw [beq_eq_false_iff_ne]
    rintro rfl
    exact absurd h (by decide)
  rw [getoptArgs.eq_def]
  simp only [h, hend, Bool.and_false, Bool.false_and, Bool.false_eq_true, if_false]

theorem wrapperArgs_plain :
    ∀ {operands : Nat} {words : List Word}, Plain operands words →
      wrapperArgs valueOpts operands words = getoptArgs valueOpts true operands words
  | _, [], _ => rfl
  | operands, word :: words, h => by
      obtain ⟨hdash, hrest⟩ := h
      rw [wrapperArgs_other hdash, getoptArgs_other hdash]
      split
      · rename_i htaken
        rw [wrapperArgs_plain (hrest htaken)]
      · rfl

/-- On words that both read alike, both take as many. -/
theorem wrapperArgs_eq (hopts : ∀ o ∈ valueOpts, isOption o = true) :
    ∀ {operands : Nat} {words : List Word}, ReadAlike valueOpts operands words →
      wrapperArgs valueOpts operands words = getoptArgs valueOpts false operands words
  | _, [], _ => rfl
  | operands, word :: words, h => by
      rw [ReadAlike.eq_def] at h
      simp only at h
      by_cases hend : word = "--".toList
      · subst hend
        have htakes : takesValue "--".toList valueOpts = false := by
          rw [takesValue_long (by decide) (by decide), List.contains_eq_mem,
            decide_eq_false_iff_not]
          exact fun hmem => absurd (hopts _ hmem) (by decide)
        rw [if_pos rfl] at h
        rw [wrapperArgs_option (by decide), htakes, if_neg (by simp), wrapperArgs_plain h,
          getoptArgs_end]
      · rw [if_neg hend] at h
        cases hdash : startsWith word '-' with
        | false =>
            rw [hdash, if_neg (by simp)] at h
            rw [wrapperArgs_other hdash, getoptArgs_other hdash]
            split
            · rename_i htaken
              rw [if_pos htaken] at h
              rw [wrapperArgs_eq hopts h]
            · rfl
        | true =>
            rw [hdash, if_pos rfl] at h
            obtain ⟨hsingle, hinside, hrest⟩ := h
            rw [wrapperArgs_option hdash, getoptArgs_option hdash hend hsingle,
              takesValue_eq hopts hdash hinside]
            cases htakes : getoptTakesValue word valueOpts with
            | false =>
                rw [htakes, if_neg (by simp)] at hrest
                rw [if_neg (by simp), if_neg (by simp), wrapperArgs_eq hopts hrest]
            | true =>
                rw [htakes, if_pos rfl] at hrest
                rw [if_pos rfl, if_pos rfl]
                cases words with
                | nil => rfl
                | cons next words => exact congrArg (2 + ·) (wrapperArgs_eq hopts hrest)

end Reading

/-- Where every wrapper is read alike the same command is left. -/
theorem skipWrappers_eq_getoptSkip {words : List Word} (h : SkippedAlike 0 words) :
    skipWrappers 0 words = getoptSkip words := by
  have hskip : ∀ {words : List Word} {skip : Nat}, SkippedAlike skip words →
      skipWrappers skip words =
        skipWith (fun w => getoptArgs w.valueOpts false w.operands) skip words := by
    intro words
    induction words with
    | nil => intro skip _; cases skip <;> rfl
    | cons word tail ih =>
        intro skip h
        cases skip with
        | succ skip => exact ih h
        | zero =>
            rw [SkippedAlike] at h
            rw [skipWrappers, skipWith]
            split
            · rename_i hassign
              rw [if_pos hassign] at h
              exact ih h
            · rename_i hassign
              rw [if_neg hassign] at h
              cases hfind : wrappers.find? fun w => w.name == program word with
              | none => rfl
              | some w =>
                  rw [hfind] at h
                  obtain ⟨halike, hrest⟩ := h
                  have hopts := isOption_valueOpts w (List.mem_of_find?_eq_some hfind)
                  simp only
                  rw [wrapperArgs_eq hopts halike]
                  exact ih hrest
  exact hskip h

/-! ## What a misread cluster hides -/

/-- As many operands as the wrapper takes, and a command. -/
def operandsAndGit (n : Nat) : List Word := List.replicate n "5".toList ++ ["git".toList]

theorem skipWith_zero (args : Wrapper → List Word → Nat) (skip : Nat) (words : List Word) :
    skipWith args skip words = skipWith args 0 (words.drop skip) := by
  induction words generalizing skip with
  | nil => cases skip <;> rfl
  | cons word tail ih =>
      cases skip with
      | zero => rfl
      | succ skip => exact ih skip

/-- Operands of a wrapper are taken one by one. -/
theorem getoptArgs_operands (valueOpts : List Word) (n : Nat) :
    getoptArgs valueOpts false n (operandsAndGit n) = n := by
  induction n with
  | zero => rfl
  | succ n ih =>
      have hcons : operandsAndGit (n + 1) = "5".toList :: operandsAndGit n := rfl
      rw [hcons, getoptArgs_other (by decide), if_pos (Or.inr n.succ_pos), Nat.add_sub_cancel, ih,
        Nat.add_comm]

/-- Words that are all operands. -/
theorem wrapperArgs_all {valueOpts : List Word} :
    ∀ {operands : Nat} {words : List Word}, words.length ≤ operands →
      (∀ word ∈ words, startsWith word '-' = false) →
      wrapperArgs valueOpts operands words = words.length
  | _, [], _, _ => rfl
  | operands, word :: words, hlen, h => by
      obtain ⟨hword, hrest⟩ := List.forall_mem_cons.mp h
      rw [List.length_cons] at hlen ⊢
      rw [wrapperArgs_other hword, if_pos (Or.inr (by omega)), wrapperArgs_all (by omega) hrest,
        Nat.add_comm]

theorem startsWith_operandsAndGit (n : Nat) :
    ∀ word ∈ operandsAndGit n, startsWith word '-' = false := by
  intro word hword
  rcases List.mem_append.mp hword with h | h
  · rw [List.eq_of_mem_replicate h]
    rfl
  · rw [List.mem_singleton.mp h]
    rfl

theorem nodup_wrappers : (wrappers.map Wrapper.name).Nodup := by decide +kernel

/-- The name of a wrapper is a program, without a path or an assignment. -/
theorem wrappers_name : ∀ w ∈ wrappers, isAssignment w.name = false ∧ program w.name = w.name := by
  decide +kernel

/-- Each wrapper is found under its name. -/
theorem find?_wrappers (w : Wrapper) (hw : w ∈ wrappers) :
    isAssignment w.name = false ∧ wrappers.find? (fun v => v.name == program w.name) = some w := by
  obtain ⟨hname, hprogram⟩ := wrappers_name w hw
  refine ⟨hname, ?_⟩
  rw [hprogram]
  cases hfind : wrappers.find? (fun v => v.name == w.name) with
  | none => exact absurd (beq_self_eq_true w.name) (List.find?_eq_none.mp hfind w hw)
  | some v =>
      have hv := List.mem_of_find?_eq_some hfind
      have hname := List.find?_some hfind
      rw [List.inj_on_of_nodup_map nodup_wrappers hv hw (beq_iff_eq.mp hname)]

theorem skipWith_wrapper {args : Wrapper → List Word → Nat} {w : Wrapper} (hw : w ∈ wrappers)
    (tail : List Word) :
    skipWith args 0 (w.name :: tail) = skipWith args 0 (tail.drop (args w tail)) := by
  obtain ⟨hname, hfind⟩ := find?_wrappers w hw
  rw [skipWith, hname, if_neg (by simp), hfind, ← skipWith_zero]

section Misread

variable {valueOpts : List Word} {cluster : Word} (hshort : startsWith cluster '-' = false)
  (h : ValueInside (isValueLetter valueOpts) cluster)

include hshort h

theorem takesValue_of_valueInside (hopts : ∀ o ∈ valueOpts, isOption o = true) :
    takesValue ('-' :: cluster) valueOpts = true := by
  obtain ⟨init, last, rfl, hlast, -⟩ := h
  rw [takesValue_cluster hopts hshort, List.getLast?_concat]
  exact hlast

theorem getoptTakesValue_of_valueInside :
    getoptTakesValue ('-' :: cluster) valueOpts = false := by
  have hlong : isLong ('-' :: cluster) = false := hshort
  rw [getoptTakesValue, hlong, if_neg (by simp), List.tail_cons, ← Bool.not_eq_true, takesNext_iff]
  intro hfirst
  refine last_iff_firstIsLast.mp ⟨fun _ => hfirst, ?_⟩ h
  rintro ⟨flags, last, rfl, hlast, -⟩
  rw [List.getLast?_concat]
  exact hlast

/-- For `getopt` the words behind such a cluster follow at once. -/
theorem getoptArgs_of_valueInside (operands : Nat) (words : List Word) :
    getoptArgs valueOpts false operands (('-' :: cluster) :: words) =
      1 + getoptArgs valueOpts false operands words := by
  have hend : '-' :: cluster ≠ "--".toList := by
    intro heq
    rw [(List.cons.inj heq).2] at hshort
    exact absurd hshort (by decide)
  have hsingle : '-' :: cluster ≠ "-".toList := by
    obtain ⟨init, last, rfl, -⟩ := h
    simp
  rw [getoptArgs_option rfl hend hsingle, getoptTakesValue_of_valueInside hshort h,
    if_neg (by simp)]

end Misread

/-- A misread cluster takes a word of the command, so that no command is left. -/
theorem hidden_of_valueInside {w : Wrapper} (hw : w ∈ wrappers) {cluster : Word}
    (hshort : startsWith cluster '-' = false)
    (h : ValueInside (isValueLetter w.valueOpts) cluster) :
    skipWrappers 0 (w.name :: ('-' :: cluster) :: operandsAndGit w.operands) = [] ∧
      getoptSkip (w.name :: ('-' :: cluster) :: operandsAndGit w.operands) = ["git".toList] := by
  obtain ⟨first, rest, hwords, hlen⟩ : ∃ first rest, operandsAndGit w.operands = first :: rest ∧
      rest.length = w.operands := by
    cases hwords : operandsAndGit w.operands with
    | nil => exact absurd hwords (by simp [operandsAndGit])
    | cons first rest =>
        have htotal := congrArg List.length hwords
        exact ⟨first, rest, rfl, by simpa [operandsAndGit] using htotal.symm⟩
  constructor
  · have hrest : ∀ word ∈ rest, startsWith word '-' = false := fun word hword =>
      startsWith_operandsAndGit w.operands word (hwords ▸ List.mem_cons_of_mem _ hword)
    rw [skipWrappers_eq, skipWith_wrapper hw, wrapperArgs_option rfl,
      takesValue_of_valueInside hshort h (isOption_valueOpts w hw), hwords]
    simp only [if_true]
    rw [wrapperArgs_all hlen.le hrest, Nat.add_comm]
    simp [skipWith]
  · rw [getoptSkip, skipWith_wrapper hw, getoptArgs_of_valueInside hshort h, getoptArgs_operands,
      Nat.add_comm, List.drop_succ_cons, operandsAndGit, List.drop_left' List.length_replicate]
    rfl

/-- Of a short cluster `takes_value` says what `getopt` does exactly when no value
attached in it ends in a value letter, and one that is misread hides a command.
Where every word is read alike, `skip_wrappers` finds the command of `getopt`. -/
theorem takesValue_iff_getopt {w : Wrapper} (hw : w ∈ wrappers) :
    (∀ cluster : Word, startsWith cluster '-' = false →
      ((takesValue ('-' :: cluster) w.valueOpts = true ↔
          FirstIsLast (isValueLetter w.valueOpts) cluster) ↔
        ¬ ValueInside (isValueLetter w.valueOpts) cluster) ∧
      (ValueInside (isValueLetter w.valueOpts) cluster → ∃ args,
        skipWrappers 0 (w.name :: ('-' :: cluster) :: args) ≠
          getoptSkip (w.name :: ('-' :: cluster) :: args))) ∧
    ∀ args, SkippedAlike 0 (w.name :: args) →
      skipWrappers 0 (w.name :: args) = getoptSkip (w.name :: args) := by
  refine ⟨fun cluster hshort => ⟨?_, fun hinside => ?_⟩, fun args => skipWrappers_eq_getoptSkip⟩
  · rw [takesValue_cluster (isOption_valueOpts w hw) hshort]
    exact last_iff_firstIsLast
  · obtain ⟨hcode, hgetopt⟩ := hidden_of_valueInside hw hshort hinside
    refine ⟨operandsAndGit w.operands, fun heq => ?_⟩
    rw [hcode, hgetopt] at heq
    exact absurd heq (by simp)

/-- The entry of `sudo`. -/
def sudoEntry : Wrapper :=
  ⟨"sudo".toList, texts ["-u", "--user", "-g", "--group", "-C", "--close-from", "-p", "--prompt",
    "-U", "--other-user", "-r", "--role", "-t", "--type", "-D", "--chdir", "-R", "--chroot", "-T",
    "--command-timeout"], 0⟩

theorem not_valueInside_of_last {α : Type} {isValue : α → Bool} {init : List α} {last : α}
    (h : isValue last = false) : ¬ ValueInside isValue (init ++ [last]) := by
  rintro ⟨init', last', heq, hlast, -⟩
  obtain ⟨-, heq⟩ := List.append_inj' heq rfl
  rw [(List.cons.inj heq).1, hlast] at h
  exact absurd h (by simp)

/-- `sudo -u root -nE git commit`: the value of `-u` is the next word, and `-nE` is two flags. -/
theorem takesValue_iff_getopt_sudo :
    skipWrappers 0 (texts ["sudo", "-u", "root", "-nE", "git", "commit"]) =
      getoptSkip (texts ["sudo", "-u", "root", "-nE", "git", "commit"]) := by
  have hw : sudoEntry ∈ wrappers := List.mem_cons_of_mem _ List.mem_cons_self
  have huser : ¬ ValueInside (isValueLetter sudoEntry.valueOpts) ['u'] := by
    rintro ⟨init, last, heq, -, c, hc, -⟩
    cases init with
    | nil => exact absurd hc List.not_mem_nil
    | cons d init => exact absurd heq (by simp)
  have hflags : ¬ ValueInside (isValueLetter sudoEntry.valueOpts) (['n'] ++ ['E']) :=
    not_valueInside_of_last (by decide)
  have halike : ReadAlike sudoEntry.valueOpts 0 (texts ["-u", "root", "-nE", "git", "commit"]) := by
    show _ ∧ _ ∧ _ ∧ _ ∧ _
    exact ⟨by decide, fun _ => huser, by decide, fun _ => hflags, trivial⟩
  refine (takesValue_iff_getopt hw).2 (texts ["-u", "root", "-nE", "git", "commit"]) ?_
  show _ ∧ _
  exact ⟨halike, trivial⟩

/-- `sudo -uroot git commit`: the value `root` ends in `t`, a value letter of
`sudo`, and the command word is taken for its value. -/
theorem attached_value_misread :
    takesValue "-uroot".toList sudoEntry.valueOpts = true ∧
      ¬ FirstIsLast (isValueLetter sudoEntry.valueOpts) "uroot".toList ∧
      skipWrappers 0 (texts ["sudo", "-uroot", "git", "commit"]) = texts ["commit"] ∧
      getoptSkip (texts ["sudo", "-uroot", "git", "commit"]) = texts ["git", "commit"] ∧
      runsCommitOrPr "sudo -uroot git commit" = false := by
  refine ⟨by decide, ?_, by decide, by decide, by decide +kernel⟩
  rw [← takesNext_iff]
  decide

end Llmenv.HookRun.ShellSplit
