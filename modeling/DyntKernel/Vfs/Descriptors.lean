/-
  File:      DyntKernel/Vfs/Descriptors.lean
  Subject:   FILE DESCRIPTORS (fs/vfs.c, vfs_open_fd to vfs_close_fd; process.h, proc_file_t).

  A descriptor keeps a copy of the path it was opened with, in a buffer of 128 bytes, and every call
  looks the path up again. The filesystems are arbitrary functions on an arbitrary state per device;
  what they are called with is recorded.

  * `FsOps`, `Files` -- the functions of a filesystem that descriptors use, and the state;
  * `vfsOpenFd`, `vfsReadFd`, `vfsWriteFd`, `vfsSeekFd`, `vfsCloseFd`; `FdOp` -- one of these calls,
    or a change of the filesystems by another process;
  * `Uses` -- what a call on a descriptor does: it works on the file of the path that is kept;
  * `KeepsFile`, `fd_same_file_iff` -- a descriptor stays on the file it was opened for exactly when
    the path fits into the buffer;
  * `OpensWhole`, `failed_open_keeps_iff` -- when a failed open leaves everything as it was.
-/
import DyntKernel.Library.Runs
import DyntKernel.Vfs.Mounts
import Mathlib.Algebra.Order.Ring.Nat

namespace DyntKernel.Vfs

open Library List Function

variable {δ σ : Type}

/-! ## 1. The state -/

/-- The functions of a `vfs_fs_type_t` for files; a missing one is a null pointer. `statFile` gives
    the size and whether the path is a directory, the others a result and what they have done. -/
structure FsOps (σ : Type) where
  readFile : Option (σ → CStr → Nat → Int × List UInt8)
  writeFile : Option (σ → CStr → List UInt8 → Bool × σ)
  statFile : Option (σ → CStr → Option (Nat × Bool))
  readAt : Option (σ → CStr → Nat → Nat → Int × List UInt8)
  writeAt : Option (σ → CStr → Nat → List UInt8 → Bool × σ)

/-- `proc_file_t`; of the buffer, the string in it. -/
structure ProcFile where
  path : CStr
  offset : Nat
  isOpen : Bool

/-- The filesystems, the open files of a process, and what filesystems were called with. -/
structure Files (δ σ : Type) where
  data : δ → σ
  files : Nat → ProcFile
  calls : List (Mount δ × CStr)

/-- `PROCESS_MAX_FDS`. -/
def processMaxFds : Nat := 16

/-- `PROCESS_PATH_MAX`. -/
def processPathMax : Nat := 128

/-- `k_strncpy`: the string in the buffer. -/
def kStrncpy (src : CStr) (size : Nat) : CStr := src.take (size - 1)

def vfsOWronly : UInt32 := 1
def vfsORdwr : UInt32 := 2
def vfsOCreat : UInt32 := 0x40
def vfsOTrunc : UInt32 := 0x200
def vfsOAppend : UInt32 := 0x400

namespace Files

/-- A function of the filesystem of `m` is called for `rel`. -/
def call (s : Files δ σ) (m : Mount δ) (rel : CStr) : Files δ σ :=
  { s with calls := (m, rel) :: s.calls }

def setData [DecidableEq δ] (s : Files δ σ) (dev : δ) (x : σ) : Files δ σ :=
  { s with data := Function.update s.data dev x }

def setOffset (s : Files δ σ) (fd offset : Nat) : Files δ σ :=
  { s with files := Function.update s.files fd { s.files fd with offset := offset } }

/-- `f->offset += n`. -/
def advance (s : Files δ σ) (fd n : Nat) : Files δ σ :=
  s.setOffset fd (((s.files fd).offset + n) % 2 ^ 64)

/-- The test at the start of every function on a descriptor. -/
def ValidFd (s : Files δ σ) (fd : Int) : Prop :=
  0 ≤ fd ∧ fd < processMaxFds ∧ (s.files fd.toNat).isOpen = true

instance (s : Files δ σ) (fd : Int) : Decidable (s.ValidFd fd) :=
  inferInstanceAs (Decidable (_ ∧ _))

end Files

/-! ## 2. The functions -/

section Functions

variable [DecidableEq δ] (mounts : List (Mount δ)) (fs : δ → FsOps σ) (s : Files δ σ)

def vfsStat (path : CStr) : Option (Nat × Bool) × Files δ σ :=
  match vfsFindMount mounts path with
  | none => (none, s)
  | some m =>
    match (fs m.dev).statFile with
    | none => (none, s)
    | some stat =>
      (stat (s.data m.dev) (stripMountPrefix m path), s.call m (stripMountPrefix m path))

def vfsWriteFile (path : CStr) (buffer : List UInt8) : Bool × Files δ σ :=
  match vfsFindMount mounts path with
  | none => (false, s)
  | some m =>
    match (fs m.dev).writeFile with
    | none => (false, s)
    | some write =>
      let r := write (s.data m.dev) (stripMountPrefix m path) buffer
      (r.1, (s.call m (stripMountPrefix m path)).setData m.dev r.2)

/-- The first part of `vfs_open_fd`: the size of the file, which is created or cut if need be. -/
def openSize (path : CStr) (flags : UInt32) : Option Nat × Files δ σ :=
  let st := vfsStat mounts fs s path
  match st.1 with
  | some (size, isDir) =>
    if isDir then (none, st.2)
    else if flags &&& vfsOTrunc ≠ 0 ∧ flags &&& (vfsOWronly ||| vfsORdwr) ≠ 0 then
      let w := vfsWriteFile mounts fs st.2 path []
      (if w.1 then some 0 else none, w.2)
    else (some size, st.2)
  | none =>
    if flags &&& vfsOCreat = 0 then (none, st.2)
    else
      let w := vfsWriteFile mounts fs st.2 path []
      (if w.1 then some 0 else none, w.2)

/-- The first descriptor from 3 on that is not in use. -/
def freeFd (files : Nat → ProcFile) : Option Nat :=
  (List.range' 3 (processMaxFds - 3)).find? fun i => !(files i).isOpen

def vfsOpenFd (path : CStr) (flags : UInt32) : Int × Files δ σ :=
  let r := openSize mounts fs s path flags
  match r.1 with
  | none => (-1, r.2)
  | some size =>
    match freeFd r.2.files with
    | none => (-1, r.2)
    | some fd =>
      let file : ProcFile :=
        ⟨kStrncpy path processPathMax, if flags &&& vfsOAppend ≠ 0 then size else 0, true⟩
      (fd, { r.2 with files := Function.update r.2.files fd file })

/-- The number of bytes to read by the size of the file; `none` at its end. -/
def clipLen (st : Option (Nat × Bool)) (offset len : Nat) : Option Nat :=
  match st with
  | some (size, _) => if size ≤ offset then none else some (min len (size - offset))
  | none => some len

/-- The call of `stat_file` in `vfs_read_fd`, if there is one. -/
def statRel (m : Mount δ) (rel : CStr) : Option (Nat × Bool) × Files δ σ :=
  match (fs m.dev).statFile with
  | none => (none, s)
  | some stat => (stat (s.data m.dev) rel, s.call m rel)

/-- The call of `read_at` or `read_file` in `vfs_read_fd`. -/
def readRel (m : Mount δ) (rel : CStr) (fd offset len : Nat) : (Int × List UInt8) × Files δ σ :=
  match (fs m.dev).readAt with
  | some read =>
    let r := read (s.data m.dev) rel (offset % 2 ^ 32) (len % 2 ^ 32)
    (r, (s.call m rel).advance fd r.1.toNat)
  | none =>
    match (fs m.dev).readFile with
    | none => ((-1, []), s)
    | some read =>
      if offset ≠ 0 ∨ 0x7fffffff < len then ((-1, []), s)
      else
        let r := read (s.data m.dev) rel (len % 2 ^ 32)
        (r, (s.call m rel).advance fd r.1.toNat)

def vfsReadFd (fd : Int) (len : Nat) : (Int × List UInt8) × Files δ σ :=
  if s.ValidFd fd then
    let f := s.files fd.toNat
    match vfsFindMount mounts f.path with
    | none => ((-1, []), s)
    | some m =>
      let rel := stripMountPrefix m f.path
      let st := statRel fs s m rel
      match clipLen st.1 f.offset len with
      | none => ((0, []), st.2)
      | some len => readRel fs st.2 m rel fd.toNat f.offset len
  else ((-1, []), s)

/-- The call of `write_at` or `write_file` in `vfs_write_fd`. -/
def writeRel (m : Mount δ) (rel : CStr) (fd offset : Nat) (buf : List UInt8) : Int × Files δ σ :=
  match (fs m.dev).writeAt with
  | some write =>
    let r := write (s.data m.dev) rel (offset % 2 ^ 32) (buf.take (buf.length % 2 ^ 32))
    let s := (s.call m rel).setData m.dev r.2
    if r.1 then (buf.length, s.advance fd buf.length) else (-1, s)
  | none =>
    match (fs m.dev).writeFile with
    | none => (-1, s)
    | some write =>
      if offset ≠ 0 then (-1, s)
      else
        let r := write (s.data m.dev) rel (buf.take (buf.length % 2 ^ 32))
        let s := (s.call m rel).setData m.dev r.2
        if r.1 then (buf.length, s.advance fd buf.length) else (-1, s)

def vfsWriteFd (fd : Int) (buf : List UInt8) : Int × Files δ σ :=
  if s.ValidFd fd then
    let f := s.files fd.toNat
    match vfsFindMount mounts f.path with
    | none => (-1, s)
    | some m =>
      if 0xffffffff < f.offset then (-1, s)
      else writeRel fs s m (stripMountPrefix m f.path) fd.toNat f.offset buf
  else (-1, s)

/-- A conversion to `int64_t`. -/
def i64 (n : Nat) : Int := Int.bmod n (2 ^ 64)

/-- Where `vfs_seek_fd` counts from; `whence` is `VFS_SEEK_SET`, `VFS_SEEK_CUR` or
    `VFS_SEEK_END`. -/
def seekBase (f : ProcFile) (whence : Nat) : Option Int × Files δ σ :=
  if whence = 1 then (some (i64 f.offset), s)
  else if whence = 2 then
    let st := vfsStat mounts fs s f.path
    (st.1.map fun x => i64 x.1, st.2)
  else if whence = 0 then (some 0, s)
  else (none, s)

def vfsSeekFd (fd off : Int) (whence : Nat) : Int × Files δ σ :=
  if s.ValidFd fd then
    let base := seekBase mounts fs s (s.files fd.toNat) whence
    match base.1 with
    | none => (-1, base.2)
    | some b =>
      if b < 0 ∨ b + off < 0 then (-1, base.2)
      else (b + off, base.2.setOffset fd.toNat ((b + off).toNat % 2 ^ 64))
  else (-1, s)

def vfsCloseFd (fd : Int) : Int × Files δ σ :=
  if s.ValidFd fd then
    (0, { s with files :=
      Function.update s.files fd.toNat { s.files fd.toNat with isOpen := false } })
  else (-1, s)

end Functions

/-- A call of the process, or a change of the filesystems by another one. -/
inductive FdOp (δ σ : Type)
  | openFd (path : CStr) (flags : UInt32)
  | readFd (fd : Int) (len : Nat)
  | writeFd (fd : Int) (buf : List UInt8)
  | seekFd (fd off : Int) (whence : Nat)
  | closeFd (fd : Int)
  | other (data : δ → σ)

namespace FdOp

variable [DecidableEq δ] (mounts : List (Mount δ)) (fs : δ → FsOps σ)

def apply (s : Files δ σ) : FdOp δ σ → Files δ σ
  | openFd path flags => (vfsOpenFd mounts fs s path flags).2
  | readFd fd len => (vfsReadFd mounts fs s fd len).2
  | writeFd fd buf => (vfsWriteFd mounts fs s fd buf).2
  | seekFd fd off whence => (vfsSeekFd mounts fs s fd off whence).2
  | closeFd fd => (vfsCloseFd s fd).2
  | other data => { s with data := data }

def step (s : Files δ σ) (op : FdOp δ σ) : Option (Files δ σ) := some (op.apply mounts fs s)

/-- What filesystems are called with by a call. -/
def calls (s : Files δ σ) (op : FdOp δ σ) : List (Mount δ × CStr) :=
  (op.apply mounts fs { s with calls := [] }).calls

/-- A read, a write or a seek on the descriptor. -/
def On (fd : Int) : FdOp δ σ → Prop
  | readFd fd' _ | writeFd fd' _ | seekFd fd' _ _ => fd' = fd
  | _ => False

/-- The descriptor is not closed. -/
def Leaves (fd : Int) (_ : Files δ σ) : FdOp δ σ → Prop
  | closeFd fd' => fd' ≠ fd
  | _ => True

end FdOp

/-! ## 3. What a call on a descriptor does -/

/-- The call is for the mount and the relative path that the lookup of `path` gives. -/
def SameFile (mounts : List (Mount δ)) (path : CStr) (c : Mount δ × CStr) : Prop :=
  vfsFindMount mounts path = some c.1 ∧ c.2 = stripMountPrefix c.1 path

/-- **A call works on the file of `path`**, and descriptors keep their paths. -/
structure Uses (mounts : List (Mount δ)) (path : CStr) (s s' : Files δ σ) : Prop where
  paths : ∀ k, (s'.files k).path = (s.files k).path
  opens : ∀ k, (s'.files k).isOpen = (s.files k).isOpen
  calls : ∀ c ∈ s'.calls, c ∈ s.calls ∨ SameFile mounts path c
  kept : ∀ c ∈ s.calls, c ∈ s'.calls

section Uses

variable {mounts : List (Mount δ)} {fs : δ → FsOps σ} {s s₁ s₂ : Files δ σ} {path : CStr}
  {m : Mount δ} {fd : Int}

theorem Uses.refl : Uses mounts path s s :=
  ⟨fun _ => rfl, fun _ => rfl, fun _ hc => .inl hc, fun _ hc => hc⟩

theorem Uses.trans (h : Uses mounts path s s₁) (h' : Uses mounts path s₁ s₂) :
    Uses mounts path s s₂ where
  paths := fun k => (h'.paths k).trans (h.paths k)
  opens := fun k => (h'.opens k).trans (h.opens k)
  calls := by
    intro c hc
    rcases h'.calls c hc with hc | hc
    · exact h.calls c hc
    · exact .inr hc
  kept := fun c hc => h'.kept c (h.kept c hc)

theorem uses_call (hm : vfsFindMount mounts path = some m) :
    Uses mounts path s (s.call m (stripMountPrefix m path)) where
  paths := fun _ => rfl
  opens := fun _ => rfl
  calls := by
    intro c hc
    rcases mem_cons.mp hc with rfl | hc
    · exact .inr ⟨hm, rfl⟩
    · exact .inl hc
  kept := fun _ hc => mem_cons_of_mem _ hc

theorem uses_setData [DecidableEq δ] (dev : δ) (x : σ) : Uses mounts path s (s.setData dev x) :=
  ⟨fun _ => rfl, fun _ => rfl, fun _ hc => .inl hc, fun _ hc => hc⟩

theorem uses_setOffset (fd offset : Nat) : Uses mounts path s (s.setOffset fd offset) where
  paths := fun k => by by_cases hk : k = fd <;> simp [Files.setOffset, hk]
  opens := fun k => by by_cases hk : k = fd <;> simp [Files.setOffset, hk]
  calls := fun _ hc => .inl hc
  kept := fun _ hc => hc

theorem uses_vfsStat : Uses mounts path s (vfsStat mounts fs s path).2 := by
  rw [vfsStat]
  cases hm : vfsFindMount mounts path with
  | none => exact .refl
  | some m =>
    dsimp only
    cases (fs m.dev).statFile with
    | none => exact .refl
    | some stat => exact uses_call hm

theorem uses_vfsWriteFile [DecidableEq δ] (buffer : List UInt8) :
    Uses mounts path s (vfsWriteFile mounts fs s path buffer).2 := by
  rw [vfsWriteFile]
  cases hm : vfsFindMount mounts path with
  | none => exact .refl
  | some m =>
    dsimp only
    cases (fs m.dev).writeFile with
    | none => exact .refl
    | some write => exact (uses_call hm).trans (uses_setData _ _)

theorem uses_openSize [DecidableEq δ] (flags : UInt32) :
    Uses mounts path s (openSize mounts fs s path flags).2 := by
  have hst : Uses mounts path s (vfsStat mounts fs s path).2 := uses_vfsStat
  rw [openSize]
  cases (vfsStat mounts fs s path).1 with
  | none =>
    dsimp only
    split_ifs
    · exact hst
    all_goals exact hst.trans (uses_vfsWriteFile [])
  | some st =>
    dsimp only
    split_ifs
    · exact hst
    all_goals first | exact hst.trans (uses_vfsWriteFile []) | exact hst

theorem uses_statRel (hm : vfsFindMount mounts path = some m) :
    Uses mounts path s (statRel fs s m (stripMountPrefix m path)).2 := by
  rw [statRel]
  cases (fs m.dev).statFile with
  | none => exact .refl
  | some stat => exact uses_call hm

theorem uses_readRel (hm : vfsFindMount mounts path = some m) (fd offset len : Nat) :
    Uses mounts path s (readRel fs s m (stripMountPrefix m path) fd offset len).2 := by
  rw [readRel]
  cases (fs m.dev).readAt with
  | some read => exact (uses_call hm).trans (uses_setOffset _ _)
  | none =>
    cases (fs m.dev).readFile with
    | none => exact .refl
    | some read =>
      split_ifs
      · exact .refl
      · exact (uses_call hm).trans (uses_setOffset _ _)

/-- A read works on the file of the path that is kept. -/
theorem uses_vfsReadFd (len : Nat) :
    Uses mounts (s.files fd.toNat).path s (vfsReadFd mounts fs s fd len).2 := by
  rw [vfsReadFd]
  split_ifs
  · dsimp only
    cases hm : vfsFindMount mounts (s.files fd.toNat).path with
    | none => exact .refl
    | some m =>
      dsimp only
      cases clipLen _ _ len with
      | none => exact uses_statRel hm
      | some len' => exact (uses_statRel hm).trans (uses_readRel hm _ _ _)
  · exact .refl

theorem uses_writeRel [DecidableEq δ] (hm : vfsFindMount mounts path = some m)
    (fd offset : Nat) (buf : List UInt8) :
    Uses mounts path s (writeRel fs s m (stripMountPrefix m path) fd offset buf).2 := by
  rw [writeRel]
  cases (fs m.dev).writeAt with
  | some write =>
    dsimp only
    split_ifs
    · exact ((uses_call hm).trans (uses_setData _ _)).trans (uses_setOffset _ _)
    · exact (uses_call hm).trans (uses_setData _ _)
  | none =>
    cases (fs m.dev).writeFile with
    | none => exact .refl
    | some write =>
      dsimp only
      split_ifs
      · exact .refl
      · exact ((uses_call hm).trans (uses_setData _ _)).trans (uses_setOffset _ _)
      · exact (uses_call hm).trans (uses_setData _ _)

theorem uses_vfsWriteFd [DecidableEq δ] (buf : List UInt8) :
    Uses mounts (s.files fd.toNat).path s (vfsWriteFd mounts fs s fd buf).2 := by
  rw [vfsWriteFd]
  split_ifs
  · dsimp only
    cases hm : vfsFindMount mounts (s.files fd.toNat).path with
    | none => exact .refl
    | some m =>
      split_ifs
      · exact .refl
      · exact uses_writeRel hm _ _ _
  · exact .refl

theorem uses_seekBase (f : ProcFile) (whence : Nat) :
    Uses mounts f.path s (seekBase mounts fs s f whence).2 := by
  rw [seekBase]
  split_ifs
  · exact .refl
  · exact uses_vfsStat
  · exact .refl
  · exact .refl

theorem uses_vfsSeekFd (off : Int) (whence : Nat) :
    Uses mounts (s.files fd.toNat).path s (vfsSeekFd mounts fs s fd off whence).2 := by
  rw [vfsSeekFd]
  split_ifs
  · dsimp only
    have hbase :
        Uses mounts (s.files fd.toNat).path s (seekBase mounts fs s (s.files fd.toNat) whence).2 :=
      uses_seekBase _ whence
    cases (seekBase mounts fs s (s.files fd.toNat) whence).1 with
    | none => exact hbase
    | some b =>
      dsimp only
      split_ifs
      · exact hbase
      · exact hbase.trans (uses_setOffset _ _)
  · exact .refl

end Uses

/-! ## 4. A descriptor keeps its path -/

section Runs

variable [DecidableEq δ] {mounts : List (Mount δ)} {fs : δ → FsOps σ}
  {s s' : Files δ σ} {path : CStr}
  {flags : UInt32} {fd : Int} {k : Nat}

/-- What a successful `vfs_open_fd` leaves. -/
theorem vfsOpenFd_spec (h : vfsOpenFd mounts fs s path flags = (fd, s')) (hfd : 0 ≤ fd) :
    ∃ k size : Nat, fd = k ∧ k < processMaxFds ∧ (openSize mounts fs s path flags).1 = some size ∧
      s'.files k =
        ⟨kStrncpy path processPathMax, if flags &&& vfsOAppend ≠ 0 then size else 0, true⟩ := by
  rw [vfsOpenFd] at h
  cases hsize : (openSize mounts fs s path flags).1 with
  | none =>
    simp only [hsize] at h
    obtain rfl : (-1 : Int) = fd := (Prod.ext_iff.mp h).1
    exact absurd hfd (by decide)
  | some size =>
    simp only [hsize] at h
    cases hfree : freeFd (openSize mounts fs s path flags).2.files with
    | none =>
      simp only [hfree] at h
      obtain rfl : (-1 : Int) = fd := (Prod.ext_iff.mp h).1
      exact absurd hfd (by decide)
    | some k =>
      simp only [hfree] at h
      obtain ⟨rfl, rfl⟩ := Prod.ext_iff.mp h
      have hk := mem_range'_1.mp (List.mem_of_find?_eq_some hfree)
      refine ⟨k, size, rfl, ?_, rfl, update_self _ _ _⟩
      omega

/-- Opening another file takes another descriptor. -/
theorem openFd_keeps (hopen : (s.files k).isOpen = true) :
    ((vfsOpenFd mounts fs s path flags).2.files k).path = (s.files k).path ∧
      ((vfsOpenFd mounts fs s path flags).2.files k).isOpen = true := by
  have huses : Uses mounts path s (openSize mounts fs s path flags).2 := uses_openSize flags
  have hstay := (huses.opens k).trans hopen
  rw [vfsOpenFd]
  cases (openSize mounts fs s path flags).1 with
  | none => exact ⟨huses.paths k, hstay⟩
  | some size =>
    cases hfree : freeFd (openSize mounts fs s path flags).2.files with
    | none => exact ⟨huses.paths k, hstay⟩
    | some fd =>
      have hclosed := List.find?_some hfree
      have hne : k ≠ fd := by
        intro heq
        rw [← heq, hstay] at hclosed
        cases hclosed
      dsimp only
      rw [update_of_ne hne]
      exact ⟨huses.paths k, hstay⟩

/-- **A descriptor that is open keeps its path until it is closed.** -/
theorem apply_keeps {op : FdOp δ σ} (hop : op.Leaves k s) (hopen : (s.files k).isOpen = true) :
    ((op.apply mounts fs s).files k).path = (s.files k).path ∧
    ((op.apply mounts fs s).files k).isOpen = true := by
  have huse {path : CStr} {s' : Files δ σ} (h : Uses mounts path s s') :
      (s'.files k).path = (s.files k).path ∧ (s'.files k).isOpen = true :=
    ⟨h.paths k, (h.opens k).trans hopen⟩
  cases op with
  | openFd path flags => exact openFd_keeps hopen
  | readFd fd len => exact huse (uses_vfsReadFd len)
  | writeFd fd buf => exact huse (uses_vfsWriteFd buf)
  | seekFd fd off whence => exact huse (uses_vfsSeekFd off whence)
  | closeFd fd =>
    rw [FdOp.apply, vfsCloseFd]
    split_ifs with hvalid
    · have hne : k ≠ fd.toNat := by
        intro heq
        have hnonneg := hvalid.1
        exact hop (by omega)
      dsimp only
      rw [update_of_ne hne]
      exact ⟨rfl, hopen⟩
    · exact ⟨rfl, hopen⟩
  | other data => exact ⟨rfl, hopen⟩

/-- **Every read, write and seek on the descriptor works on the file that `path` names**, until it
    is closed. -/
def KeepsFile (mounts : List (Mount δ)) (fs : δ → FsOps σ) (s : Files δ σ)
    (path : CStr) (fd : Int) : Prop :=
  ∀ (s' : Files δ σ) (op : FdOp δ σ),
    Reaches (FdOp.step mounts fs) (fun s op => op.Leaves fd s) s s' → op.On fd →
    ∀ c ∈ op.calls mounts fs s', SameFile mounts path c

/-- What a call on the descriptor works on. -/
theorem apply_on {op : FdOp δ σ} (hnil : s.calls = []) (hop : op.On fd) :
    ∀ c ∈ (op.apply mounts fs s).calls,
    SameFile mounts (s.files fd.toNat).path c := by
  intro c hc
  have huse {s' : Files δ σ} (h : Uses mounts (s.files fd.toNat).path s s') (hc : c ∈ s'.calls) :
      SameFile mounts (s.files fd.toNat).path c := by
    refine (h.calls c hc).resolve_left ?_
    rw [hnil]
    exact not_mem_nil
  cases op with
  | openFd path flags => cases hop
  | readFd fd' len =>
    obtain rfl : fd' = fd := hop
    exact huse (uses_vfsReadFd len) hc
  | writeFd fd' buf =>
    obtain rfl : fd' = fd := hop
    exact huse (uses_vfsWriteFd buf) hc
  | seekFd fd' off whence =>
    obtain rfl : fd' = fd := hop
    exact huse (uses_vfsSeekFd off whence) hc
  | closeFd fd' => cases hop
  | other data => cases hop

/-- A descriptor works on the file of the path it keeps. -/
theorem keepsFile_kept (hopen : (s.files k).isOpen = true) :
    KeepsFile mounts fs s (s.files k).path k := by
  intro s' op h hop
  have hkept : (s'.files k).path = (s.files k).path ∧ (s'.files k).isOpen = true := by
    refine h.inv (I := fun s' => (s'.files k).path = (s.files k).path ∧
      (s'.files k).isOpen = true) ⟨rfl, hopen⟩ ?_
    intro s₁ s₂ op ⟨hpath, hopen⟩ hleaves hs
    obtain rfl := Option.some.inj hs
    obtain ⟨hpath', hopen'⟩ := apply_keeps hleaves hopen
    exact ⟨hpath'.trans hpath, hopen'⟩
  rw [← hkept.1]
  exact apply_on (s := { s' with calls := [] }) rfl hop

/-! ## 5. The lookup of a path that is cut -/

omit [DecidableEq δ] in
/-- A path with a mount is absolute. -/
theorem find_absolute {heap : δ → Bool} {fsTypes : List (FsType δ)} {devs : List δ} {m : Mount δ}
    (h : vfsFindMount (vfsMountAll heap fsTypes devs) path = some m) : path.at 0 = slash := by
  obtain ⟨rest, hpath⟩ := vfsMountAll_slash (List.mem_of_find?_eq_some h)
  have hfits := List.find?_some h
  simp only [fits, decide_eq_true_eq] at hfits
  have hcmp := hfits.1
  rw [hpath, kStrncmp, length_cons, kStrncmpFrom] at hcmp
  have hfirst : CStr.at (slash :: rest) 0 = slash := rfl
  rw [hfirst] at hcmp
  by_contra hne
  rw [if_pos (.inl (Ne.symm hne))] at hcmp
  have hnat : slash.toNat = (path.at 0).toNat := by omega
  exact hne (UInt8.toNat_inj.mp hnat).symm

omit [DecidableEq δ] in
/-- The mount and the relative path of an absolute path, and of its first characters. -/
theorem find_take {heap : δ → Bool} {fsTypes : List (FsType δ)} {devs : List δ} {m : Mount δ}
    (h : vfsFindMount (vfsMountAll heap fsTypes devs) path = some m) {n : Nat} (hn : 0 < n) :
    vfsFindMount (vfsMountAll heap fsTypes devs) (path.take n) = some m ∧
      stripMountPrefix m (path.take n) = (path.take n).drop 1 := by
  have habs := find_absolute h
  have habs' : CStr.at (path.take n) 0 = slash := by
    rw [absolute_cons habs]
    cases n with
    | zero => omega
    | succ n => rfl
  rcases vfsMountAll_head heap fsTypes devs with hnil | ⟨m', ms, hcons, hroot⟩
  · rw [hnil] at h
    cases h
  · rw [hcons, vfsFindMount_first hroot habs] at h
    obtain rfl := Option.some.inj h
    rw [hcons]
    exact ⟨vfsFindMount_first hroot habs', stripMountPrefix_root hroot habs'⟩

/-- A file that was opened has a mount, whose filesystem can be asked for its size or write it. -/
theorem openSize_mount {size : Nat} (h : (openSize mounts fs s path flags).1 = some size) :
    ∃ m, vfsFindMount mounts path = some m ∧
      ((fs m.dev).statFile.isSome ∨ (fs m.dev).writeFile.isSome ∧ size = 0) := by
  rw [openSize] at h
  cases hm : vfsFindMount mounts path with
  | none =>
    have hstat : vfsStat mounts fs s path = (none, s) := by rw [vfsStat, hm]
    have hwrite : vfsWriteFile mounts fs s path [] = (false, s) := by rw [vfsWriteFile, hm]
    simp only [hstat, hwrite] at h
    split_ifs at h with hcreat hfalse
    cases hfalse
  | some m =>
    refine ⟨m, rfl, ?_⟩
    cases hstat : (fs m.dev).statFile with
    | some stat => exact .inl rfl
    | none =>
      have hnone : vfsStat mounts fs s path = (none, s) := by
        rw [vfsStat, hm]
        simp only [hstat]
      simp only [hnone] at h
      split_ifs at h with hcreat hok
      refine .inr ⟨?_, (Option.some.inj h).symm⟩
      cases hwrite : (fs m.dev).writeFile with
      | some write => rfl
      | none =>
        rw [vfsWriteFile, hm] at hok
        simp only [hwrite] at hok
        cases hok

/-- **Some call on a descriptor that was just opened looks its path up.** -/
theorem opened_calls {m : Mount δ} {size : Nat} (hk : k < processMaxFds)
    (hfile : s.files k = ⟨path, size, true⟩) (hm : vfsFindMount mounts path = some m)
    (hcan : (fs m.dev).statFile.isSome ∨ (fs m.dev).writeFile.isSome ∧ size = 0) :
    ∃ op : FdOp δ σ, op.On k ∧ (m, stripMountPrefix m path) ∈ op.calls mounts fs s := by
  have hvalid : Files.ValidFd { s with calls := [] } (k : Int) := by
    refine ⟨by omega, by exact_mod_cast hk, ?_⟩
    rw [Int.toNat_natCast, hfile]
  rcases hcan with hstat | ⟨hwrite, rfl⟩
  · obtain ⟨stat, hstat⟩ := Option.isSome_iff_exists.mp hstat
    refine ⟨.readFd k 0, rfl, ?_⟩
    rw [FdOp.calls, FdOp.apply, vfsReadFd, if_pos hvalid]
    simp only [Int.toNat_natCast, hfile, hm]
    have hmem : (m, stripMountPrefix m path) ∈
        (statRel fs { s with calls := [] } m (stripMountPrefix m path)).2.calls := by
      rw [statRel, hstat]
      exact mem_cons_self
    cases clipLen _ _ 0 with
    | none => exact hmem
    | some len => exact (uses_readRel hm k size len).kept _ hmem
  obtain ⟨write, hwrite⟩ := Option.isSome_iff_exists.mp hwrite
  refine ⟨.writeFd k [], rfl, ?_⟩
  rw [FdOp.calls, FdOp.apply, vfsWriteFd, if_pos hvalid]
  simp only [Int.toNat_natCast, hfile, hm]
  rw [if_neg (by decide), writeRel]
  have hmem :
      (m, stripMountPrefix m path) ∈
      (Files.call { s with calls := [] } m (stripMountPrefix m path)).calls :=
    mem_cons_self
  cases hat : (fs m.dev).writeAt with
  | some writeAt =>
    dsimp only
    split_ifs <;> exact hmem
  | none =>
    simp only [hwrite]
    rw [if_neg (by simp)]
    split_ifs <;> exact hmem

/-! ## 6. When a descriptor stays on its file -/

/-- **A descriptor stays on the file it was opened for exactly when the path fits into its
    buffer.** -/
theorem fd_same_file_iff {heap : δ → Bool} {fsTypes : List (FsType δ)} {devs : List δ}
    {mounts : List (Mount δ)}
    (hmounts : mounts = vfsMountAll heap fsTypes devs)
    (h : vfsOpenFd mounts fs s path flags = (fd, s'))
    (hfd : 0 ≤ fd) : KeepsFile mounts fs s' path fd ↔ path.length < processPathMax := by
  obtain ⟨k, size, rfl, hk, hsize, hfile⟩ := vfsOpenFd_spec h hfd
  have hopen : (s'.files k).isOpen = true := by rw [hfile]
  have hpath : (s'.files k).path = path.take 127 := by
    rw [hfile]
    rfl
  constructor
  · intro hkeeps
    by_contra hlong
    obtain ⟨m, hm, hcan⟩ := openSize_mount hsize
    rw [hmounts] at hm
    obtain ⟨hm', hrel'⟩ := find_take hm (by decide : 0 < 127)
    obtain ⟨-, hrel⟩ := find_take hm (n := path.length + 1) (by omega)
    rw [take_of_length_le (by omega)] at hrel
    rw [← hmounts] at hm'
    have hcan' : (fs m.dev).statFile.isSome ∨ (fs m.dev).writeFile.isSome ∧
        (if flags &&& vfsOAppend ≠ 0 then size else 0) = 0 := by
      refine hcan.imp_right fun hw => ⟨hw.1, ?_⟩
      rw [hw.2, ite_self]
    obtain ⟨op, hop, hmem⟩ := opened_calls hk (by rw [hfile]; rfl) hm' hcan'
    have hsame := (hkeeps s' op .start hop _ hmem).2
    -- the relative path of the copy is too short
    have hlen := congrArg List.length (hrel'.symm.trans (hsame.trans hrel))
    have hmax : processPathMax = 128 := rfl
    simp only [length_drop, length_take] at hlen
    omega
  · intro hshort
    have hmax : processPathMax = 128 := rfl
    have hkept : KeepsFile mounts fs s' (s'.files k).path k := keepsFile_kept hopen
    rw [hpath, take_of_length_le (by omega)] at hkept
    exact hkept

end Runs

/-- A filesystem on which every path names a file of five bytes. -/
def fiveBytes : FsOps Unit := ⟨none, none, some fun _ _ => some (5, false), none, none⟩

/-- A process without open files. -/
def noFiles : Files Nat Unit := ⟨fun _ => (), fun _ => ⟨[], 0, false⟩, []⟩

def oneMount : List (Mount Nat) := vfsMountAll (fun _ => true) [anyFs] [0]

theorem fd_same_file_short :
    KeepsFile oneMount (fun _ => fiveBytes)
    (vfsOpenFd oneMount (fun _ => fiveBytes) noFiles rootPath 0).2 rootPath 3 :=
  (fd_same_file_iff rfl (rfl : vfsOpenFd oneMount (fun _ => fiveBytes) noFiles rootPath 0 = (3, _))
    (by decide)).mpr (by decide)

/-- A path of 129 characters. -/
def longPath : CStr := slash :: List.replicate 128 'a'.toUInt8

/-- The descriptor for it reads another file. -/
theorem long_path_cut : (vfsOpenFd oneMount (fun _ => fiveBytes) noFiles longPath 0).1 = 3 ∧
    ¬ KeepsFile oneMount (fun _ => fiveBytes)
      (vfsOpenFd oneMount (fun _ => fiveBytes) noFiles longPath 0).2
      longPath 3 := by
  refine ⟨rfl, fun h => ?_⟩
  have hcall : ((⟨[slash], 0⟩, List.replicate 126 'a'.toUInt8) : Mount Nat × CStr) ∈
      FdOp.calls oneMount (fun _ => fiveBytes)
      (vfsOpenFd oneMount (fun _ => fiveBytes) noFiles longPath 0).2
        (.readFd 3 0) := mem_singleton.mpr rfl
  have hrel : List.replicate 126 'a'.toUInt8 = List.replicate 128 'a'.toUInt8 :=
    (h _ (.readFd 3 0) .start rfl _ hcall).2
  have hlen := congrArg List.length hrel
  rw [length_replicate, length_replicate] at hlen
  exact absurd hlen (by decide)

/-! ## 7. What a failed open leaves -/

/-- `vfs_open_fd` writes the file anew: a missing one is created, an existing one is cut. -/
def WritesAnew (st : Option (Nat × Bool)) (flags : UInt32) : Prop :=
  match st with
  | some (_, isDir) =>
    isDir = false ∧ flags &&& vfsOTrunc ≠ 0 ∧ flags &&& (vfsOWronly ||| vfsORdwr) ≠ 0
  | none => flags &&& vfsOCreat ≠ 0

section Failed

variable [DecidableEq δ] (mounts : List (Mount δ)) (fs : δ → FsOps σ) (s : Files δ σ)
  (path : CStr) (flags : UInt32)

/-- If the file has to be written anew, its filesystem changes nothing by that, or it succeeds and a
    descriptor is left. -/
def OpensWhole : Prop :=
  WritesAnew (vfsStat mounts fs s path).1 flags → ∀ m write, vfsFindMount mounts path = some m →
    (fs m.dev).writeFile = some write →
    let r := write (s.data m.dev) (stripMountPrefix m path) []
    r.2 = s.data m.dev ∨ r.1 = true ∧ (freeFd s.files).isSome

omit [DecidableEq δ] in
theorem vfsStat_keeps :
    (vfsStat mounts fs s path).2.data = s.data ∧ (vfsStat mounts fs s path).2.files = s.files := by
  rw [vfsStat]
  cases vfsFindMount mounts path with
  | none => exact ⟨rfl, rfl⟩
  | some m =>
    dsimp only
    cases (fs m.dev).statFile <;> exact ⟨rfl, rfl⟩

theorem openSize_written (h : WritesAnew (vfsStat mounts fs s path).1 flags) :
    let w := vfsWriteFile mounts fs (vfsStat mounts fs s path).2 path []
    openSize mounts fs s path flags = (if w.1 then some 0 else none, w.2) := by
  rw [openSize]
  cases hst : (vfsStat mounts fs s path).1 with
  | none =>
    rw [hst] at h
    exact if_neg h
  | some st =>
    rw [hst] at h
    simp only [h.1, Bool.false_eq_true, if_false]
    exact if_pos h.2

theorem openSize_unwritten (h : ¬ WritesAnew (vfsStat mounts fs s path).1 flags) :
    (openSize mounts fs s path flags).2 = (vfsStat mounts fs s path).2 := by
  rw [openSize]
  cases hst : (vfsStat mounts fs s path).1 with
  | none =>
    rw [hst] at h
    rw [if_pos (not_not.mp h)]
  | some st =>
    rw [hst] at h
    dsimp only
    by_cases hdir : st.2 = true
    · rw [if_pos hdir]
    · rw [if_neg hdir, if_neg fun htrunc => h ⟨eq_false_of_ne_true hdir, htrunc⟩]

/-- When `vfs_open_fd` fails, and with which state. -/
theorem vfsOpenFd_failed (P : Files δ σ → Prop) :
    ((vfsOpenFd mounts fs s path flags).1 = -1 → P (vfsOpenFd mounts fs s path flags).2) ↔
      ((openSize mounts fs s path flags).1 = none ∨
        freeFd (openSize mounts fs s path flags).2.files = none →
        P (openSize mounts fs s path flags).2) := by
  rw [vfsOpenFd]
  cases (openSize mounts fs s path flags).1 with
  | none => simp
  | some size =>
    cases hfree : freeFd (openSize mounts fs s path flags).2.files with
    | none => simp
    | some fd =>
      have hne : (fd : Int) ≠ -1 := by omega
      simp [hne]

/-- **A failed open leaves the filesystems and the descriptors as they were** exactly when the file
    need not be written anew, or that changes nothing, or it succeeds and a descriptor is left. -/
theorem failed_open_keeps_iff :
    ((vfsOpenFd mounts fs s path flags).1 = -1 →
      (vfsOpenFd mounts fs s path flags).2.data = s.data ∧
      (vfsOpenFd mounts fs s path flags).2.files = s.files) ↔
        OpensWhole mounts fs s path flags := by
  rw [vfsOpenFd_failed mounts fs s path flags fun s' => s'.data = s.data ∧ s'.files = s.files]
  obtain ⟨hdata, hfiles⟩ := vfsStat_keeps mounts fs s path
  by_cases hnew : WritesAnew (vfsStat mounts fs s path).1 flags
  · rw [openSize_written mounts fs s path flags hnew, vfsWriteFile]
    cases hm : vfsFindMount mounts path with
    | none => simp [OpensWhole, hdata, hfiles, hm]
    | some m =>
      cases hwrite : (fs m.dev).writeFile with
      | none =>
        simp only [hwrite]
        refine iff_of_true (fun _ => ⟨hdata, hfiles⟩) fun _ m' write hm' hwrite' => ?_
        obtain rfl := Option.some.inj (hm.symm.trans hm')
        cases hwrite.symm.trans hwrite'
      | some write =>
        have hwhole : OpensWhole mounts fs s path flags ↔
            let r := write (s.data m.dev) (stripMountPrefix m path) []
            r.2 = s.data m.dev ∨ r.1 = true ∧ (freeFd s.files).isSome := by
          refine ⟨fun h => h hnew m write hm hwrite, fun h _ m' write' hm' hwrite' => ?_⟩
          obtain rfl := Option.some.inj (hm.symm.trans hm')
          obtain rfl := Option.some.inj (hwrite.symm.trans hwrite')
          exact h
        simp only [hwhole, hwrite, Files.setData, Files.call, hdata, hfiles, update_eq_self_iff]
        generalize write (s.data m.dev) (stripMountPrefix m path) [] = r
        obtain ⟨ok, x⟩ := r
        cases ok <;> cases freeFd s.files <;> simp
  · rw [openSize_unwritten mounts fs s path flags hnew]
    exact iff_of_true (fun _ => ⟨hdata, hfiles⟩) fun h => absurd h hnew

end Failed

/-- A filesystem of one file, whose contents are the state. -/
def oneFile : FsOps (Option (List UInt8)) where
  readFile := none
  writeFile := some fun _ _ buf => (true, some buf)
  statFile := some fun file _ => file.map fun bytes => (bytes.length, false)
  readAt := none
  writeAt := none

/-- A process that has all its descriptors in use. -/
def allOpen (file : Option (List UInt8)) : Files Nat (Option (List UInt8)) :=
  ⟨fun _ => file, fun _ => ⟨rootPath, 0, true⟩, []⟩

/-- **With all descriptors in use** a missing file is created and an existing one cut, and the call
    fails. -/
theorem failed_open_writes :
    let r := vfsOpenFd oneMount (fun _ => oneFile) (allOpen none) rootPath vfsOCreat
    let r' :=
      vfsOpenFd oneMount (fun _ => oneFile) (allOpen (some [1])) rootPath (vfsOTrunc ||| vfsOWronly)
    (r.1 = -1 ∧ r.2.data 0 = some []) ∧ r'.1 = -1 ∧ r'.2.data 0 = some [] :=
  ⟨⟨rfl, rfl⟩, rfl, rfl⟩

end DyntKernel.Vfs
