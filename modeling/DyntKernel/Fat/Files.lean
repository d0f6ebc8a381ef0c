/-
  File:      DyntKernel/Fat/Files.lean
  Subject:   FILES AND DIRECTORIES BY THEIR PATHS (fs/fat32.c, fat32_read, fat32_read_at,
             fat32_write_file to fat32_remove, the functions for the virtual file system).

  * `fat32Read`, `fat32ReadAt`, `fat32Write` -- bytes of a chain of clusters, read and written at an
    offset;
  * `fat32WriteFile`, `fat32UpdateSize`, `fat32Mkdir`, `fat32Remove` -- entries of directories;
  * `fat32VfsReadAt`, `fat32VfsWriteAt` -- what the virtual file system calls.
-/
import DyntKernel.Fat.Entries

namespace DyntKernel.Fat

open Library Prog

/-! ## 1. The bytes of a chain -/

/-- The loop that goes to the cluster `n` places on; with the cluster in front of it. -/
def skipClusters (v : Volume) : Nat → Nat → Nat → Io (Nat × Nat)
  | 0, prev, cluster => pure (prev, cluster)
  | n + 1, prev, cluster => do
    if clusterValid cluster then skipClusters v n cluster (← fatReadEntry v cluster)
    else pure (prev, cluster)

/-- The sectors that a round of `fat32_read` reads: those of the chunk if it has whole sectors, into
    the caller's buffer, and else the cluster, into one of its own. -/
def chunkSectors (v : Volume) (chunk : Nat) : Nat :=
  if 0 < chunk / 512 ∧ chunk % 512 = 0 then chunk / 512 else v.sectorsPerCluster

/-- The loop of `fat32_read`: every round adds a byte, so `n` bounds the rounds. The bytes read so
    far are `dst 0, .., dst (total - 1)`. -/
def wholeLoop (v : Volume) (size : Nat) : Nat → Nat → Nat → (Nat → UInt8) → Io (Nat × (Nat → UInt8))
  | 0, _, total, dst => pure (total, dst)
  | n + 1, cluster, total, dst => do
    if clusterValid cluster ∧ total < size then
      let chunk := min v.bytesPerCluster (size - total)
      match ← blockRead (clusterToLba v cluster) (chunkSectors v chunk) with
      | none => pure (total, dst)
      | some buf =>
        wholeLoop v size n (← fatReadEntry v cluster) (total + chunk) (blit dst total chunk buf)
    else pure (total, dst)

/-- `fat32_read`; the buffer holds `dst` before. -/
def fat32Read (v : Volume) (startCluster : Nat) (dst : Nat → UInt8) (size : Nat) :
    Io (Nat × (Nat → UInt8)) :=
  wholeLoop v size size startCluster 0 dst

/-- The loop of `fat32_read_at`: every round adds a byte, so `n` bounds the rounds. The bytes read
    so far are `dst 0, .., dst (total - 1)`. -/
def readLoop (v : Volume) (size : Nat) : Nat → Nat → Nat → Nat → (Nat → UInt8) →
    Io (Nat × (Nat → UInt8))
  | 0, _, _, total, dst => pure (total, dst)
  | n + 1, cluster, inCluster, total, dst => do
    if total < size then
      match ← blockRead (clusterToLba v cluster) v.sectorsPerCluster with
      | none => pure (total, dst)
      | some buf =>
        let chunk := min (size - total) (v.bytesPerCluster - inCluster)
        let dst := blit dst total chunk fun j => buf (inCluster + j)
        if inCluster + chunk = v.bytesPerCluster then
          let next ← fatReadEntry v cluster
          if clusterValid next then readLoop v size n next 0 (total + chunk) dst
          else pure (total + chunk, dst)
        else readLoop v size n cluster (inCluster + chunk) (total + chunk) dst
    else pure (total, dst)

/-- `fat32_read_at`; the buffer holds `dst` before. -/
def fat32ReadAt (v : Volume) (startCluster offset : Nat) (dst : Nat → UInt8) (size : Nat) :
    Io (Nat × (Nat → UInt8)) := do
  if size = 0 then pure (0, dst)
  else
    let (_, cluster) ← skipClusters v (offset / v.bytesPerCluster) startCluster startCluster
    if clusterValid cluster then readLoop v size size cluster (offset % v.bytesPerCluster) 0 dst
    else pure (0, dst)

/-- The cluster that `fat32_write` writes next: `cluster`, or a new one behind `prev`. With the
    first cluster of the chain; `none` stands for `break`. -/
def nextCluster (v : Volume) (first prev cluster : Nat) : Io (Option (Nat × Nat)) := do
  if clusterValid cluster then pure (some (first, cluster))
  else
    let newcl ← allocCluster v
    if newcl = 0 then pure none
    else if first = 0 then pure (some (newcl, newcl))
    else if ← fatWriteEntry v prev newcl then pure (some (first, newcl))
    else
      freeChain v newcl
      pure none

/-- A piece of a cluster; a whole one is written without reading it first. -/
def writeChunk (v : Volume) (cluster inCluster chunk : Nat) (data : Nat → UInt8) : Io Bool := do
  if inCluster = 0 ∧ chunk = v.bytesPerCluster then
    blockWrite .data (clusterToLba v cluster) v.sectorsPerCluster data
  else
    match ← blockRead (clusterToLba v cluster) v.sectorsPerCluster with
    | none => pure false
    | some buf =>
      blockWrite .data (clusterToLba v cluster) v.sectorsPerCluster (blit buf inCluster chunk data)

/-- The loop of `fat32_write`, with the number of bytes done and the first cluster as its result;
    every round writes a byte, so `n` bounds the rounds. -/
def writeLoop (v : Volume) (src : Nat → UInt8) (size : Nat) :
    Nat → Nat → Nat → Nat → Nat → Nat → Io (Nat × Nat)
  | 0, first, _, _, _, done => pure (done, first)
  | n + 1, first, prev, cluster, inCluster, done => do
    if done < size then
      match ← nextCluster v first prev cluster with
      | none => pure (done, first)
      | some (first, cluster) =>
        let chunk := min (size - done) (v.bytesPerCluster - inCluster)
        if ← writeChunk v cluster inCluster chunk fun j => src (done + j) then
          if inCluster + chunk = v.bytesPerCluster then
            writeLoop v src size n first cluster (← fatReadEntry v cluster) 0 (done + chunk)
          else writeLoop v src size n first prev cluster (inCluster + chunk) (done + chunk)
        else pure (done, first)
    else pure (done, first)

def fat32Write (v : Volume) (first offset : Nat) (src : Nat → UInt8)
    (size : Nat) : Io (Nat × Nat) := do
  if size = 0 then pure (0, first)
  else
    let (prev, cluster) ← skipClusters v (offset / v.bytesPerCluster) first first
    writeLoop v src size size first prev cluster (offset % v.bytesPerCluster) 0

/-! ## 2. Paths -/

/-- The components of a path; every one takes a character, so `n` is a length. -/
def splitPath : Nat → List UInt8 → List (List UInt8)
  | 0, _ => []
  | n + 1, path =>
    match splitComponent path with
    | none => []
    | some (component, path) => component :: splitPath n path

/-- The components of a path that the functions below take: at least one, at most eight; the last
    one stands apart. -/
def components (path : List UInt8) : Option (List (List UInt8) × List UInt8) :=
  let l := splitPath path.length path
  if l = [] ∨ 8 < l.length then none else some (l.dropLast, l.getLastD [])

/-- `FAT32_ERRNO_*`. -/
inductive Errno
  | enoent
  | eexist
  | eisdir
  | einval
  | enotempty
  deriving DecidableEq, Repr

/-- The loop over all components but the last. -/
def descend (v : Volume) (fuel : Nat) : List (List UInt8) → Nat → Io (Except Errno Nat)
  | [], dirCluster => pure (.ok dirCluster)
  | name :: names, dirCluster => do
    match ← findEntry v fuel dirCluster name with
    | none => pure (.error .enoent)
    | some e => if e.isDir then descend v fuel names e.firstCluster else pure (.error .eisdir)

/-! ## 3. Whole files -/

/-- The link to a new cluster of the file; the first one has none. -/
def linkCluster (v : Volume) (first prev cl : Nat) : Io Bool :=
  if first = 0 then pure true else fatWriteEntry v prev cl

/-- The loop of `fat32_write_file` over the clusters of the file; `none` stands for `ok = false`. -/
def storeLoop (v : Volume) (src : Nat → UInt8) (size : Nat) :
    Nat → Nat → Nat → Nat → Io (Option Nat)
  | 0, _, first, _ => pure (some first)
  | n + 1, i, first, prev => do
    let cl ← allocCluster v
    if cl = 0 then pure none
    else
      let linked ← linkCluster v first prev cl
      let first := if first = 0 then cl else first
      if linked then
        let start := i * v.bytesPerCluster
        let chunk := min v.bytesPerCluster (size - start)
        if ← blockWrite .data (clusterToLba v cl) v.sectorsPerCluster
            (blit (fun _ => 0) 0 chunk fun j => src (start + j)) then
          storeLoop v src size n (i + 1) first cl
        else
          freeChain v first
          pure none
      else
        freeChain v first
        pure none

/-- The clusters a file of `size` bytes gets, in 32 bits. -/
def clusterCount (v : Volume) (size : Nat) : Nat :=
  (size + v.bytesPerCluster - 1) % 2 ^ 32 / v.bytesPerCluster

/-- The entry of a file in the directory, with its chain. -/
def enterFile (v : Volume) (fuel dirCluster : Nat) (name : List UInt8) (rest : Nat → UInt8)
    (existing : Option Slot) (firstCluster size : Nat) : Io Bool := do
  match existing with
  | some loc =>
    if 2 ≤ loc.dirent.firstCluster then
      freeChain v loc.dirent.firstCluster
      writeDirEntryAt v loc.cluster loc.offset name firstCluster size false
    else writeDirEntryAt v loc.cluster loc.offset name firstCluster size false
  | none =>
    let parts := lfnPartsFor name
    match ← dirFindFreeSlots v fuel dirCluster (parts + 1) with
    | none => pure false
    | some (cluster, offset) =>
      createDirEntries v cluster (offset + parts * 32) name rest firstCluster size false

def fat32WriteFile (v : Volume) (fuel : Nat) (path : List UInt8) (rest : Nat → UInt8)
    (src : Nat → UInt8) (size : Nat) : Io Bool := do
  match components path with
  | none => pure false
  | some (dirs, name) =>
    match ← descend v fuel dirs v.rootCluster with
    | .error _ => pure false
    | .ok dirCluster =>
      let existing ← locateEntry v fuel dirCluster name
      match ← storeLoop v src size (clusterCount v size) 0 0 0 with
      | none => pure false
      | some firstCluster => enterFile v fuel dirCluster name rest existing firstCluster size

def fat32UpdateSize (v : Volume) (fuel : Nat) (path : List UInt8) (firstCluster size : Nat) :
    Io Bool := do
  match components path with
  | none => pure false
  | some (dirs, name) =>
    match ← descend v fuel dirs v.rootCluster with
    | .error _ => pure false
    | .ok dirCluster =>
      match ← locateEntry v fuel dirCluster name with
      | none => pure false
      | some loc => writeDirEntryAt v loc.cluster loc.offset name firstCluster size false

/-! ## 4. Directories -/

/-- `valid_component_name`; a `char` from 0x80 on is negative. -/
def validComponentName (name : List UInt8) : Bool :=
  name ≠ [] ∧ name ≠ ['.'.toUInt8] ∧ name ≠ ['.'.toUInt8, '.'.toUInt8] ∧
    name.all fun c => ¬ (c < 0x20 ∨ 0x7F ≤ c) ∧
      c ∉ ['*', '?', '<', '>', '|', '"', ':', '\\'].map Char.toUInt8

/-- `fat32_mkdir` once the parent directory is found. -/
def makeDirectory (v : Volume) (fuel dirCluster : Nat) (name : List UInt8) (rest : Nat → UInt8) :
    Io (Except Errno Unit) := do
  if (← findEntry v fuel dirCluster name).isSome then pure (.error .eexist)
  else
    let newCluster ← allocCluster v
    if newCluster = 0 then pure (.error .enotempty)
    else if ← writeDotEntries v newCluster dirCluster then
      let parts := lfnPartsFor name
      match ← dirFindFreeSlots v fuel dirCluster (parts + 1) with
      | none =>
        freeChain v newCluster
        pure (.error .enotempty)
      | some (cluster, offset) =>
        if ← createDirEntries v cluster (offset + parts * 32) name rest newCluster 0 true then
          pure (.ok ())
        else
          freeChain v newCluster
          pure (.error .einval)
    else
      freeChain v newCluster
      pure (.error .einval)

def fat32Mkdir (v : Volume) (fuel : Nat) (path : List UInt8) (rest : Nat → UInt8) :
    Io (Except Errno Unit) := do
  match components path with
  | none => pure (.error .einval)
  | some (dirs, name) =>
    if (dirs ++ [name]).all validComponentName then
      match ← descend v fuel dirs v.rootCluster with
      | .error e => pure (.error e)
      | .ok dirCluster => makeDirectory v fuel dirCluster name rest
    else pure (.error .einval)

/-- `REMOVE_MAX_CHILDREN`. -/
def removeMaxChildren : Nat := 512

def removeCollectVisit (s : Slot) (items : List Slot) : Bool × List Slot :=
  if removeMaxChildren ≤ items.length then (true, items) else (false, items ++ [s])

/-- What an entry names is given back; `inner` is the call of `remove_recursive` for a directory. -/
def releaseEntry (v : Volume) (inner : Nat → Io (Except Errno Unit)) (e : Dirent) :
    Io (Except Errno Unit) := do
  if e.isDir then inner e.firstCluster
  else if 2 ≤ e.firstCluster then
    freeChain v e.firstCluster
    pure (.ok ())
  else pure (.ok ())

/-- The loop of `remove_recursive`. -/
def removeItems (v : Volume) (inner : Nat → Io (Except Errno Unit)) :
    List Slot → Io (Except Errno Unit)
  | [] => pure (.ok ())
  | ch :: items => do
    match ← releaseEntry v inner ch.dirent with
    | .error err => pure (.error err)
    | .ok () =>
      let _ ← markEntryDeleted v ch.cluster ch.offset
      removeItems v inner items

/-- `remove_recursive`, with the number of levels that are left. -/
def removeRecursive (v : Volume) (fuel : Nat) : Nat → Nat → Io (Except Errno Unit)
  | 0, _ => pure (.error .enotempty)
  | levels + 1, dirCluster => do
    let (_, items) ← readDirectory v fuel dirCluster removeCollectVisit []
    match ← removeItems v (removeRecursive v fuel levels) items with
    | .error err => pure (.error err)
    | .ok () =>
      if 2 ≤ dirCluster then
        freeChain v dirCluster
        pure (.ok ())
      else pure (.ok ())

def fat32Remove (v : Volume) (fuel : Nat) (path : List UInt8) : Io (Except Errno Unit) := do
  match components path with
  | none => pure (.error .einval)
  | some (dirs, name) =>
    match ← descend v fuel dirs v.rootCluster with
    | .error e => pure (.error e)
    | .ok dirCluster =>
      match ← locateEntry v fuel dirCluster name with
      | none => pure (.error .enoent)
      | some loc => removeItems v (removeRecursive v fuel 17) [loc]

/-! ## 5. The virtual file system -/

/-- `fat32_vfs_read_at`; `none` stands for -1. -/
def fat32VfsReadAt (v : Volume) (fuel : Nat) (path : List UInt8) (offset : Nat) (dst : Nat → UInt8)
    (size : Nat) : Io (Option (Nat × (Nat → UInt8))) := do
  match ← fat32Open v fuel path with
  | none => pure none
  | some entry =>
    if entry.isDir then pure none
    else if entry.size ≤ offset then pure (some (0, dst))
    else do
      let r ← fat32ReadAt v entry.firstCluster offset dst (min size (entry.size - offset))
      pure (some r)

/-- `fat32_vfs_write_at`, with the new size; `none` stands for `false`. -/
def fat32VfsWriteAt (v : Volume) (fuel : Nat) (path : List UInt8) (offset : Nat) (src : Nat → UInt8)
    (size : Nat) : Io (Option Nat) := do
  match ← fat32Open v fuel path with
  | none => pure none
  | some entry =>
    if entry.isDir then pure none
    else
      let (done, first) ← fat32Write v entry.firstCluster offset src size
      if done ≠ size then pure none
      else
        let newSize := max entry.size ((offset + size) % 2 ^ 32)
        if ← fat32UpdateSize v fuel path first newSize then pure (some newSize) else pure none

end DyntKernel.Fat
