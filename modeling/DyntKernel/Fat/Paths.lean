/-
  File:      DyntKernel/Fat/Paths.lean
  Subject:   THE TWO WALKS ALONG A PATH (fs/fat32.c): that of `fat32_open`, and that of
             `fat32_update_size`, `fat32_write_file` and `fat32_remove` over an array of components.

  * `resolve` -- the walk over the array, with the entry it finds; `fat32UpdateSize_resolve`;
  * `walk` -- the components of a path one after the other, without a limit;
  * `openLoop_walk`, `openLoop_slash` -- `fat32_open` is the walk, unless the path ends in a slash;
    `resolve_walk` -- the other one is, unless there are more than eight components;
  * `finds_same_iff` -- when the two agree; that what is found can be updated stands where entries
    are written.
-/
import DyntKernel.Fat.Files
import Mathlib.Data.List.TakeWhile

namespace DyntKernel.Fat

open Library Prog List

variable {v : Volume} {d : Disk 512} {fuel n c : Nat}
  {path rest component : List UInt8} {e : Dirent}

/-! ## 1. The walks -/

/-- The walk over the array of components: `find_entry` on all but the last, `locate_entry` on the
    last. -/
def resolve (v : Volume) (fuel : Nat) (path : List UInt8) : Io (Option Slot) := do
  match components path with
  | none => pure none
  | some (dirs, name) =>
    match ← descend v fuel dirs v.rootCluster with
    | .error _ => pure none
    | .ok dirCluster => locateEntry v fuel dirCluster name

/-- The entry it yields. -/
def resolveDirent (v : Volume) (fuel : Nat) (path : List UInt8) : Io (Option Dirent) := do
  let found ← resolve v fuel path
  pure (found.map Slot.dirent)

/-- **The walk along a path**: each component but the last names a directory. -/
def walk (v : Volume) (fuel : Nat) : List (List UInt8) → Nat → Io (Option Dirent)
  | [], _ => pure none
  | [name], dirCluster => findEntry v fuel dirCluster name
  | name :: names, dirCluster => do
    match ← findEntry v fuel dirCluster name with
    | none => pure none
    | some e => if e.isDir then walk v fuel names e.firstCluster else pure none

/-- The last component of a path. -/
def lastComponent (path : List UInt8) : List UInt8 := (splitPath path.length path).getLastD []

theorem components_last {dirs : List (List UInt8)} {name : List UInt8}
    (h : components path = some (dirs, name)) : name = lastComponent path := by
  rw [components] at h
  split_ifs at h
  exact (Prod.ext_iff.mp (Option.some.inj h)).2.symm

/-- `fat32_update_size` writes the entry that the walk over the array finds. -/
theorem fat32UpdateSize_resolve (firstCluster size : Nat) :
    fat32UpdateSize v fuel path firstCluster size = (do
      match ← resolve v fuel path with
      | none => pure false
      | some loc =>
        writeDirEntryAt v loc.cluster loc.offset (lastComponent path) firstCluster size false) := by
  rw [fat32UpdateSize, resolve]
  cases hcomps : components path with
  | none => rfl
  | some r =>
    obtain ⟨dirs, name⟩ := r
    rw [components_last hcomps]
    simp only [bind_assoc]
    refine bind_congr fun r => ?_
    cases r with
    | error err => rfl
    | ok dirCluster => rfl

/-! ## 2. Components -/

/-- The path ends in a slash. -/
def EndsInSlash (path : List UInt8) : Prop := path.getLast? = some '/'.toUInt8

instance : Decidable (EndsInSlash path) := inferInstanceAs (Decidable (_ = _))

/-- What `split_component` leaves: the rest of the path, which begins with a slash or is empty. -/
theorem splitComponent_some (h : splitComponent path = some (component, rest)) :
    ∃ skipped taken, path = skipped ++ taken ++ rest ∧ taken ≠ [] ∧
      (∀ x ∈ taken, x ≠ '/'.toUInt8) := by
  rw [splitComponent] at h
  split_ifs at h with hnil
  obtain ⟨-, rfl⟩ := Prod.ext_iff.mp (Option.some.inj h)
  refine ⟨path.takeWhile (· = '/'.toUInt8),
    (path.dropWhile (· = '/'.toUInt8)).takeWhile (· ≠ '/'.toUInt8), ?_, ?_, ?_⟩
  · rw [append_assoc, takeWhile_append_dropWhile, takeWhile_append_dropWhile]
  · -- the first character behind the slashes is none
    intro htaken
    cases hp : path.dropWhile (· = '/'.toUInt8) with
    | nil => exact hnil hp
    | cons x p =>
      have hx :=
        head_dropWhile_not (p := (· = '/'.toUInt8)) (l := path) (by rw [hp]; exact cons_ne_nil x p)
      simp only [hp, head_cons] at hx
      rw [hp, takeWhile_cons_of_pos (by simpa using hx)] at htaken
      cases htaken
  · intro x hx
    simpa using mem_takeWhile_imp hx

/-- Nothing but slashes. -/
theorem splitComponent_none (h : splitComponent path = none)
    (hne : path ≠ []) : EndsInSlash path := by
  rw [splitComponent] at h
  split_ifs at h with hnil
  have hall : ∀ x ∈ path, x = '/'.toUInt8 := by simpa using dropWhile_eq_nil_iff.mp hnil
  rw [EndsInSlash, List.getLast?_eq_some_getLast hne, hall _ (getLast_mem hne)]

theorem splitComponent_length (h : splitComponent path = some (component, rest)) :
    rest.length < path.length := by
  obtain ⟨skipped, taken, rfl, hne, -⟩ := splitComponent_some h
  have hpos := length_pos_iff.mpr hne
  simp only [length_append]
  omega

/-- The rest of a path ends as the path does; without a rest it ends in no slash. -/
theorem splitComponent_ends (h : splitComponent path = some (component, rest)) :
    EndsInSlash path ↔ rest ≠ [] ∧ EndsInSlash rest := by
  obtain ⟨skipped, taken, rfl, hne, hslash⟩ := splitComponent_some h
  by_cases hrest : rest = []
  · subst hrest
    simp only [EndsInSlash, append_nil, ne_eq, not_true_eq_false, false_and, iff_false]
    rw [List.getLast?_append_of_ne_nil _ hne, List.getLast?_eq_some_getLast hne]
    exact fun heq => hslash _ (getLast_mem hne) (Option.some.inj heq)
  · rw [EndsInSlash, List.getLast?_append_of_ne_nil _ hrest, EndsInSlash]
    simp [hrest]

/-- A path that does not end in a slash has a component for every rest. -/
theorem splitPath_ne_nil (hn : path.length ≤ n) (hne : path ≠ []) (hslash : ¬ EndsInSlash path) :
    splitPath n path ≠ [] := by
  cases n with
  | zero => exact absurd (length_eq_zero_iff.mp (Nat.le_zero.mp hn)) hne
  | succ n =>
    rw [splitPath]
    cases hsplit : splitComponent path with
    | none => exact absurd (splitComponent_none hsplit hne) hslash
    | some r => exact cons_ne_nil _ _

theorem splitPath_nil : splitPath n [] = [] := by
  cases n with
  | zero => rfl
  | succ n => rfl

/-! ## 3. `fat32_open` -/

/-- The walk behind the first of several components. -/
theorem walk_cons {name : List UInt8} {names : List (List UInt8)} (hne : names ≠ []) :
    walk v fuel (name :: names) c = (do
      match ← findEntry v fuel c name with
      | none => pure none
      | some e => if e.isDir then walk v fuel names e.firstCluster else pure none) := by
  cases names with
  | nil => exact absurd rfl hne
  | cons name' names => rfl

/-- **A path that does not end in a slash is walked.** -/
theorem openLoop_walk (hn : path.length ≤ n) (hslash : ¬ EndsInSlash path) :
    openLoop v fuel n path c = walk v fuel (splitPath n path) c := by
  induction n generalizing path c with
  | zero => rfl
  | succ n ih =>
    rw [openLoop, splitPath]
    cases hsplit : splitComponent path with
    | none => rfl
    | some r =>
      obtain ⟨component, rest⟩ := r
      have hlen := splitComponent_length hsplit
      rw [splitComponent_ends hsplit] at hslash
      by_cases hrest : rest = []
      · subst hrest
        simp only [splitPath_nil, walk, if_true]
        refine (bind_congr fun found => ?_).trans (bind_pure _)
        cases found with
        | none => rfl
        | some e => rfl
      have hslash' : ¬ EndsInSlash rest := fun h => hslash ⟨hrest, h⟩
      have hlen' : rest.length ≤ n := by omega
      rw [walk_cons (splitPath_ne_nil hlen' hrest hslash')]
      refine bind_congr fun found => ?_
      cases found with
      | none => rfl
      | some e => simp only [if_neg hrest, ih hlen' hslash']

/-- **On a path that ends in a slash nothing is found.** -/
theorem openLoop_slash {d' : Disk 512} (hslash : EndsInSlash path) :
    run (openLoop v fuel n path c) d ≠ some (some e, d') := by
  induction n generalizing path c d with
  | zero =>
    rw [openLoop, run_pure]
    exact fun h => by cases h
  | succ n ih =>
    rw [openLoop]
    cases hsplit : splitComponent path with
    | none =>
      rw [run_pure]
      exact fun h => by cases h
    | some r =>
      obtain ⟨hrest, hslash'⟩ := (splitComponent_ends hsplit).mp hslash
      rw [run_bind]
      intro h
      obtain ⟨⟨found, d₁⟩, hfind, hnext⟩ := Option.bind_eq_some_iff.mp h
      cases found with
      | none =>
        rw [run_pure] at hnext
        cases hnext
      | some e' =>
        simp only [if_neg hrest] at hnext
        split_ifs at hnext
        · exact ih hslash' hnext
        · rw [run_pure] at hnext
          cases hnext

/-! ## 4. The walk over the array -/

/-- **The walk over an array of components**, as long as it fits. -/
theorem descend_walk {names : List (List UInt8)} (hne : names ≠ []) : (do
      let found ← (do
        match ← descend v fuel names.dropLast c with
        | .error _ => pure none
        | .ok dirCluster => locateEntry v fuel dirCluster (names.getLastD []))
      pure (found.map Slot.dirent)) = walk v fuel names c := by
  induction names generalizing c with
  | nil => exact absurd rfl hne
  | cons name names ih =>
    cases names with
    | nil => rfl
    | cons name' names =>
      rw [walk_cons (cons_ne_nil name' names)]
      rw [dropLast_cons_of_ne_nil (cons_ne_nil name' names), descend, getLastD_cons]
      simp only [bind_assoc]
      refine bind_congr fun found => ?_
      cases found with
      | none => rfl
      | some e =>
        dsimp only
        split_ifs with hdir
        · have hih := ih (c := e.firstCluster) (cons_ne_nil name' names)
          simp only [bind_assoc] at hih
          exact hih
        · rfl

theorem resolve_walk : resolveDirent v fuel path =
    if 8 < (splitPath path.length path).length then pure none
    else walk v fuel (splitPath path.length path) v.rootCluster := by
  rw [resolveDirent, resolve, components]
  generalize splitPath path.length path = names
  by_cases hmany : 8 < names.length
  · rw [if_pos (.inr hmany), if_pos hmany]
    rfl
  rw [if_neg hmany]
  by_cases hne : names = []
  · rw [if_pos (.inl hne), hne]
    rfl
  · rw [if_neg (by simp [hne, hmany])]
    exact descend_walk hne

/-! ## 5. When the two agree -/

/-- The program finds the entry. -/
def Finds (p : Io (Option Dirent)) (d : Disk 512) (e : Dirent) : Prop :=
  ∃ d', run p d = some (some e, d')

/-- What a run finds can be evaluated. -/
theorem finds_of_run {p : Io (Option Dirent)} (h : ((run p d).bind Prod.fst) = some e) :
    Finds p d e := by
  obtain ⟨⟨found, d'⟩, hrun, hfound⟩ := Option.bind_eq_some_iff.mp h
  exact ⟨d', by rw [hrun, show found = some e from hfound]⟩

/-- The components of the path, however many, lead to an entry. -/
def Resolves (v : Volume) (fuel : Nat) (d : Disk 512) (path : List UInt8) : Prop :=
  ∃ e, Finds (walk v fuel (splitPath path.length path) v.rootCluster) d e

theorem finds_open : Finds (fat32Open v fuel path) d e ↔
    ¬ EndsInSlash path ∧ Finds (walk v fuel (splitPath path.length path) v.rootCluster) d e := by
  rw [fat32Open]
  by_cases hslash : EndsInSlash path
  · refine ⟨fun h => ?_, fun h => absurd hslash h.1⟩
    obtain ⟨d', hrun⟩ := h
    exact absurd hrun (openLoop_slash hslash)
  · rw [openLoop_walk (Nat.le_refl _) hslash]
    exact ⟨fun h => ⟨hslash, h⟩, fun h => h.2⟩

theorem finds_resolve : Finds (resolveDirent v fuel path) d e ↔
    ¬ 8 < (splitPath path.length path).length ∧
      Finds (walk v fuel (splitPath path.length path) v.rootCluster) d e := by
  rw [resolve_walk]
  split_ifs with hmany
  · refine ⟨fun h => ?_, fun h => absurd hmany h.1⟩
    obtain ⟨d', hrun⟩ := h
    rw [run_pure] at hrun
    cases hrun
  · exact ⟨fun h => ⟨hmany, h⟩, fun h => h.2⟩

/-- **The two walks find the same entry or none, exactly when a path that leads to an entry ends in
    a slash just if it has more than eight components.** -/
theorem finds_same_iff :
    (∀ e, Finds (fat32Open v fuel path) d e ↔ Finds (resolveDirent v fuel path) d e) ↔
      (Resolves v fuel d path → (EndsInSlash path ↔ 8 < (splitPath path.length path).length)) := by
  simp only [finds_open, finds_resolve]
  constructor
  · intro h hres
    obtain ⟨e, he⟩ := hres
    have hiff := h e
    simp only [he, and_true] at hiff
    exact not_iff_not.mp hiff
  intro h e
  constructor
  · intro hopen
    exact ⟨fun hmany => hopen.1 ((h ⟨e, hopen.2⟩).mpr hmany), hopen.2⟩
  · intro harray
    exact ⟨fun hslash => harray.1 ((h ⟨e, harray.2⟩).mp hslash), harray.2⟩

/-- A root directory with a file A and an entry D for the root itself. -/
def loopDisk : Disk 512 :=
  ⟨64, fun x =>
    if x = 1024 then 0x41 else if x = 1056 then 0x44 else if x = 1067 then
      0x10 else if x = 1082 then 2
    else if 1024 < x ∧ x ≤ 1035 ∨ 1056 < x ∧ x < 1067 then 0x20 else 0⟩

/-- The path A/ is found by the walk over the array only, and D/D/D/D/D/D/D/D/A by `fat32_open`
    only. -/
theorem open_resolve_differ :
    (Finds (resolveDirent smallVolume 1 [0x41, 0x2F]) loopDisk ⟨[0x41], 0, 0, false⟩ ∧
      ¬ Finds (fat32Open smallVolume 1 [0x41, 0x2F]) loopDisk ⟨[0x41], 0, 0, false⟩) ∧
    Finds (fat32Open smallVolume 1 ((List.replicate 8 [0x44, 0x2F]).flatten ++ [0x41]))
      loopDisk ⟨[0x41], 0, 0, false⟩ ∧
    ¬ Finds (resolveDirent smallVolume 1 ((List.replicate 8 [0x44, 0x2F]).flatten ++ [0x41]))
      loopDisk ⟨[0x41], 0, 0, false⟩ := by
  refine ⟨⟨finds_of_run (by decide +kernel), fun h => (finds_open.mp h).1 (by decide)⟩,
    finds_of_run (by decide +kernel), fun h => (finds_resolve.mp h).1 (by decide)⟩

end DyntKernel.Fat
