/-
  File:      DyntKernel/Vfs/Mounts.lean
  Subject:   MOUNT POINTS (fs/vfs.c): which mount a path belongs to.

  The first device with a known filesystem is mounted at `/`, the following ones at `/diskN`. A
  lookup takes the first mount in the list whose path fits.

  * `mountDevice`, `vfsMountAll` -- how the list of mounts is made;
  * `vfsFindMount`, `stripMountPrefix` -- the lookup;
  * `Covers`, `Resolves` -- what the lookup is for: the longest mount path that is a prefix of whole
    components;
  * `vfsFindMount_first` -- every absolute path finds the mount at `/`;
  * `find_mount_resolves_iff` -- so the lookup is right where no other mount covers the path.
-/
import DyntKernel.Library.Loop

namespace DyntKernel.Vfs

open List

/-! ## 1. Strings -/

/-- A C string: its characters, without the NUL. -/
abbrev CStr := List UInt8

/-- `s[i]`, with the NUL behind the last character. -/
def CStr.at (s : CStr) (i : Nat) : UInt8 := s[i]?.getD 0

/-- The string in a buffer ends at the first NUL. -/
def CStr.ofBuffer (b : List UInt8) : CStr := b.takeWhile (· ≠ 0)

/-- `k_strncmp`, from the index `i` on, `n` characters. -/
def kStrncmpFrom (a b : CStr) (i : Nat) : Nat → Int
  | 0 => 0
  | n + 1 =>
    if a.at i ≠ b.at i ∨ a.at i = 0 ∨ b.at i = 0 then (a.at i).toNat - (b.at i).toNat
    else kStrncmpFrom a b (i + 1) n

def kStrncmp (a b : CStr) (n : Nat) : Int := kStrncmpFrom a b 0 n

def slash : UInt8 := '/'.toUInt8

/-! ## 2. Making the mounts -/

/-- `vfs_mount_t`, with the device it is for. -/
structure Mount (δ : Type) where
  path : CStr
  dev : δ

/-- `vfs_fs_type_t`, as far as mounting uses it. -/
structure FsType (δ : Type) where
  probe : δ → Bool
  mount : Option (δ → Bool)

/-- `mount_used` and the list from `first_mount` to `last_mount`. -/
structure Table (δ : Type) where
  used : UInt32
  mounts : List (Mount δ)

/-- `vfs_init`. -/
def Table.init {δ : Type} : Table δ := ⟨0, []⟩

/-- The path of the mount with a given index. -/
def mountPath (index : UInt32) : CStr :=
  if index = 1 then [slash]
  else
    let disk := [slash, 'd'.toUInt8, 'i'.toUInt8, 's'.toUInt8, 'k'.toUInt8]
    let tens := if 10 ≤ index then [('0'.toUInt8.toUInt32 + index / 10).toUInt8] else []
    CStr.ofBuffer (disk ++ tens ++ [('0'.toUInt8.toUInt32 + index % 10).toUInt8])

variable {δ : Type}

/-- `mount_device`; `heap` tells whether `kheap_alloc` has room for the mount of a device. -/
def mountDevice (heap : δ → Bool) (t : Table δ) (dev : δ) (fs : FsType δ) : Table δ × Bool :=
  if heap dev then
    let index := t.used + 1
    let mount : Mount δ := ⟨mountPath index, dev⟩
    if fs.mount.any (fun f => !f dev) then (t, false)
    else (⟨index, t.mounts ++ [mount]⟩, true)
  else (t, false)

/-- One round of the loop over the devices. -/
def mountStep (heap : δ → Bool) (fsTypes : List (FsType δ)) (t : Table δ) (dev : δ) : Table δ :=
  match fsTypes.find? (·.probe dev) with
  | none => t
  | some fs => (mountDevice heap t dev fs).1

/-- `vfs_mount_all` after `vfs_init`. -/
def vfsMountAll (heap : δ → Bool) (fsTypes : List (FsType δ)) (devs : List δ) : List (Mount δ) :=
  (devs.foldl (mountStep heap fsTypes) .init).mounts

/-! ## 3. The lookup -/

/-- The test of `vfs_find_mount` for one mount. -/
def fits (m : Mount δ) (path : CStr) : Bool :=
  let plen := m.path.length
  kStrncmp m.path path plen = 0 ∧ (path.at plen = 0 ∨ path.at plen = slash ∨ plen = 1)

def vfsFindMount (mounts : List (Mount δ)) (path : CStr) : Option (Mount δ) :=
  mounts.find? (fits · path)

def stripMountPrefix (m : Mount δ) (path : CStr) : CStr :=
  let plen := m.path.length
  if plen = 1 then
    if path.at 0 = slash then path.drop 1 else path
  else if kStrncmp m.path path plen = 0 then
    let rest : CStr := path.drop plen
    if rest.at 0 = slash then rest.drop 1 else rest
  else path

/-! ## 4. What the lookup is for -/

/-- **The mount path `mp` is a prefix of whole components of a path.** -/
def Covers (mp path : CStr) : Prop :=
  mp <+: path ∧ (mp = [slash] ∨ mp.length = path.length ∨ path[mp.length]? = some slash)

/-- What is left of a path under a mount that covers it. -/
def Remainder (mp path rest : CStr) : Prop :=
  if mp = [slash] then path = slash :: rest
  else (path = mp ∧ rest = []) ∨ path = mp ++ slash :: rest

/-- **A mount has the longest path that covers a path**, and `rest` is the path under it. -/
structure Resolves (mounts : List (Mount δ)) (path : CStr) (m : Mount δ) (rest : CStr) : Prop where
  mem : m ∈ mounts
  covers : Covers m.path path
  longest : ∀ m' ∈ mounts, Covers m'.path path → m'.path.length ≤ m.path.length
  remainder : Remainder m.path path rest

/-- **A lookup is right**: it resolves the path, or no mount covers it. -/
def LookupRight (mounts : List (Mount δ)) (path : CStr) : Prop :=
  (∀ m, vfsFindMount mounts path = some m → Resolves mounts path m (stripMountPrefix m path)) ∧
    (vfsFindMount mounts path = none → ∀ m ∈ mounts, ¬ Covers m.path path)

/-! ## 5. What the lookup does -/

variable {heap : δ → Bool} {fsTypes : List (FsType δ)} {devs : List δ} {mounts : List (Mount δ)}
  {path : CStr} {m : Mount δ}

/-- A device adds the next mount or nothing. -/
theorem mountStep_cases (t : Table δ) (dev : δ) : mountStep heap fsTypes t dev = t ∨
    mountStep heap fsTypes t dev = ⟨t.used + 1, t.mounts ++ [⟨mountPath (t.used + 1), dev⟩]⟩ := by
  rw [mountStep]
  cases fsTypes.find? (·.probe dev) with
  | none => exact .inl rfl
  | some fs =>
    dsimp only
    rw [mountDevice]
    split_ifs
    · exact .inl rfl
    · exact .inr rfl
    · exact .inl rfl

/-- **The first mount is at `/`.** -/
def RootFirst (t : Table δ) : Prop :=
  (t.mounts = [] ∧ t.used = 0) ∨ ∃ m ms, t.mounts = m :: ms ∧ m.path = [slash]

theorem RootFirst.step {t : Table δ} (h : RootFirst t) (dev : δ) :
    RootFirst (mountStep heap fsTypes t dev) := by
  rcases mountStep_cases t dev with heq | heq
  · rw [heq]
    exact h
  · rw [heq]
    right
    rcases h with ⟨hnil, hused⟩ | ⟨m, ms, hcons, hpath⟩
    · exact ⟨⟨mountPath (t.used + 1), dev⟩, [], by rw [hnil, nil_append], by rw [hused]; rfl⟩
    · exact ⟨m, ms ++ [⟨mountPath (t.used + 1), dev⟩], by rw [hcons, cons_append], hpath⟩

theorem vfsMountAll_head (heap : δ → Bool) (fsTypes : List (FsType δ)) (devs : List δ) :
    vfsMountAll heap fsTypes devs = [] ∨
      ∃ m ms, vfsMountAll heap fsTypes devs = m :: ms ∧ m.path = [slash] := by
  have hinit : RootFirst (Table.init : Table δ) := .inl ⟨rfl, rfl⟩
  have hroot : RootFirst (devs.foldl (mountStep heap fsTypes) .init) :=
    Library.foldl_inv (I := RootFirst) (fun dev _ t ht => ht.step dev) hinit
  exact hroot.imp_left And.left

theorem mountPath_slash (index : UInt32) : ∃ rest, mountPath index = slash :: rest := by
  rw [mountPath]
  split_ifs
  · exact ⟨[], rfl⟩
  · exact ⟨_, rfl⟩
  · exact ⟨_, rfl⟩

theorem vfsMountAll_slash (hm : m ∈ vfsMountAll heap fsTypes devs) :
    ∃ rest, m.path = slash :: rest := by
  have hinit : ∀ m ∈ (Table.init : Table δ).mounts, ∃ rest, m.path = slash :: rest :=
    fun m hm => absurd hm not_mem_nil
  refine Library.foldl_inv (I := fun t : Table δ => ∀ m ∈ t.mounts, ∃ rest, m.path = slash :: rest)
    (fun dev _ t ht => ?_) hinit m hm
  rcases mountStep_cases t dev with heq | heq
  · rw [heq]
    exact ht
  · intro m hm
    rw [heq, mem_append, mem_singleton] at hm
    rcases hm with hold | rfl
    · exact ht m hold
    · exact mountPath_slash _

/-- The mount at `/` fits every absolute path. -/
theorem fits_root (hm : m.path = [slash]) (habs : path.at 0 = slash) : fits m path = true := by
  have hcmp : kStrncmp [slash] path 1 = 0 := by
    rw [kStrncmp, kStrncmpFrom, habs]
    rfl
  rw [fits, hm]
  exact decide_eq_true ⟨hcmp, .inr (.inr rfl)⟩

theorem absolute_cons (habs : path.at 0 = slash) : path = slash :: path.drop 1 := by
  cases path with
  | nil => cases habs
  | cons c rest => exact congrArg (· :: rest) habs

theorem covers_root (habs : path.at 0 = slash) : Covers [slash] path :=
  ⟨⟨path.drop 1, (absolute_cons habs).symm⟩, .inl rfl⟩

/-- **Every absolute path finds the first mount.** -/
theorem vfsFindMount_first {ms : List (Mount δ)} (hm : m.path = [slash])
    (habs : path.at 0 = slash) :
    vfsFindMount (m :: ms) path = some m :=
  List.find?_cons_of_pos (p := fun m => fits m path) (fits_root hm habs)

theorem stripMountPrefix_root (hm : m.path = [slash]) (habs : path.at 0 = slash) :
    stripMountPrefix m path = path.drop 1 := by
  rw [stripMountPrefix, hm]
  exact if_pos habs

/-- **The lookup is right where only the mount at `/` covers the path**: the path is absolute, the
    mounts are those of `vfs_mount_all`. -/
theorem find_mount_resolves_iff (heap : δ → Bool) (fsTypes : List (FsType δ)) (devs : List δ)
    {path : CStr} (habs : path.at 0 = slash) : LookupRight (vfsMountAll heap fsTypes devs) path ↔
      ∀ m ∈ vfsMountAll heap fsTypes devs, Covers m.path path → m.path = [slash] := by
  have hslash := fun m (hm : m ∈ vfsMountAll heap fsTypes devs) => vfsMountAll_slash hm
  rcases vfsMountAll_head heap fsTypes devs with hnil | ⟨m, ms, hcons, hroot⟩
  · rw [hnil]
    refine ⟨fun _ m hm => absurd hm not_mem_nil, fun _ => ⟨fun m hm => ?_, fun _ m hm => ?_⟩⟩
    · cases hm
    · exact absurd hm not_mem_nil
  rw [hcons] at hslash ⊢
  have hfind : vfsFindMount (m :: ms) path = some m := vfsFindMount_first hroot habs
  constructor
  · intro h m' hm' hcovers
    obtain ⟨rest, hpath⟩ := hslash m' hm'
    have hlen := (h.1 m hfind).longest m' hm' hcovers
    rw [hpath, hroot, length_cons, length_singleton] at hlen
    rw [hpath, eq_nil_of_length_eq_zero (Nat.le_zero.mp (Nat.le_of_succ_le_succ hlen))]
  intro h
  refine ⟨fun m' hm' => ?_, fun hnone => ?_⟩
  · rw [hfind, Option.some.injEq] at hm'
    subst hm'
    refine ⟨mem_cons_self, hroot ▸ covers_root habs, fun m'' hm'' hcovers => ?_, ?_⟩
    · exact Nat.le_of_eq (congrArg List.length ((h m'' hm'' hcovers).trans hroot.symm))
    · rw [stripMountPrefix_root hroot habs, Remainder, if_pos hroot]
      exact absolute_cons habs
  · rw [hfind] at hnone
    cases hnone

/-- A filesystem that takes every device. -/
def anyFs : FsType Nat := ⟨fun _ => true, some fun _ => true⟩

/-- `/a`. -/
def rootPath : CStr := [slash, 'a'.toUInt8]

/-- `/disk2/a`. -/
def diskPath : CStr :=
  [slash, 'd'.toUInt8, 'i'.toUInt8, 's'.toUInt8, 'k'.toUInt8, '2'.toUInt8, slash, 'a'.toUInt8]

theorem lookup_right_root : LookupRight (vfsMountAll (fun _ => true) [anyFs] [0, 1]) rootPath := by
  have hmounts : vfsMountAll (fun _ => true) [anyFs] [0, 1] = [⟨[slash], 0⟩, ⟨mountPath 2, 1⟩] :=
    rfl
  refine (find_mount_resolves_iff (fun _ => true) [anyFs] [0, 1] rfl).mpr fun m hm hcovers => ?_
  rw [hmounts, mem_cons, mem_singleton] at hm
  rcases hm with rfl | rfl
  · rfl
  · exact absurd hcovers.1 (by decide)

/-- **With two disks** `/disk2/a` is looked up on the first one. -/
theorem second_disk_unreachable :
    ¬ LookupRight (vfsMountAll (fun _ => true) [anyFs] [0, 1]) diskPath := by
  intro h
  have hres := h.1 ⟨[slash], 0⟩ rfl
  have hlen := hres.longest ⟨mountPath 2, 1⟩ (mem_cons_of_mem _ mem_cons_self)
    ⟨by decide, .inr (.inr rfl)⟩
  exact absurd hlen (by decide)

end DyntKernel.Vfs
