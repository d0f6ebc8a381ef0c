/-
  File:      DyntKernel/Fat/Table.lean
  Subject:   THE FILE ALLOCATION TABLE (fs/fat32.c, fat32_mount to fat32_free_chain).

  A mounted volume is its geometry; the table and the clusters are read from the device each time.
  Sector numbers and cluster numbers are 32-bit words of the source, computed as it computes them.

  * `Volume`, `fat32Mount` -- what a mount accepts, as the fields of `fat32_ctx_t`, and that every
    volume can be mounted (`exists_mount`);
  * `fatReadEntry`, `fatWriteEntry`, `findFree`, `allocCluster`, `freeChain` -- the table's
    routines;
  * `entryAt`, `setEntry` -- an entry of the table on a disk, and the disk with one entry changed;
  * `run_allocCluster`, `entryAt_setEntry` -- what the routines do, in those terms;
  * `fatWriteEntry_exact` -- a write changes one entry and nothing else.
-/
import DyntKernel.Library.BlockIo
import Mathlib.Data.Nat.Bitwise
import Mathlib.Data.List.Range

namespace DyntKernel.Fat

open Library List

/-! ## 1. The volume -/

/-- `FAT32_EOC`. -/
def eoc : Nat := 0x0FFFFFF8

/-- `FAT32_BAD`. -/
def bad : Nat := 0x0FFFFFF7

/-- **A volume that `fat32_mount` accepts.** -/
structure Volume where
  sectorsPerCluster : Nat
  reservedSectors : Nat
  fatCount : Nat
  fatSize : Nat
  rootCluster : Nat
  spc_pos : sectorsPerCluster ≠ 0
  spc_pow : sectorsPerCluster &&& (sectorsPerCluster - 1) = 0
  spc_lt : sectorsPerCluster < 2 ^ 8
  reserved_lt : reservedSectors < 2 ^ 16
  count_pos : fatCount ≠ 0
  count_lt : fatCount < 2 ^ 8
  size_pos : fatSize ≠ 0
  size_lt : fatSize < 2 ^ 32
  root_ge : 2 ≤ rootCluster
  root_lt : rootCluster < 2 ^ 32

namespace Volume

variable (v : Volume)

def fatStart : Nat := v.reservedSectors

def dataStart : Nat := (v.reservedSectors + v.fatCount * v.fatSize % 2 ^ 32) % 2 ^ 32

def bytesPerCluster : Nat := 512 * v.sectorsPerCluster

/-- `total` of `fat32_find_free`. -/
def total : Nat := v.fatSize * 512 % 2 ^ 32 / 4

end Volume

/-- A volume with one sector of table. -/
def smallVolume : Volume :=
  ⟨1, 1, 1, 1, 2, by decide, by decide, by decide, by decide, by decide, by decide, by decide,
    by decide, by decide, by decide⟩

/-- `fat32_mount`, on the first sector. -/
def fat32Mount (d : Disk 512) : Option Volume :=
  match d.read 0 1 with
  | none => none
  | some s =>
    let spc := (s 13).toNat
    let reserved := readLE s 14 2
    let count := (s 16).toNat
    let size := readLE s 36 4
    let root := readLE s 44 4
    if readLE s 11 2 ≠ 512 then none
    else if h : spc ≠ 0 ∧ spc &&& (spc - 1) = 0 ∧ count ≠ 0 ∧ size ≠ 0 ∧ 2 ≤ root then
      some ⟨spc, reserved, count, size, root, h.1, h.2.1, (s 13).toNat_lt, readLE_lt, h.2.2.1,
        (s 16).toNat_lt, h.2.2.2.1, readLE_lt, h.2.2.2.2, readLE_lt⟩
    else none

/-- The first sector of a volume. -/
def bootSector (v : Volume) : Nat → UInt8 :=
  writeLE (writeLE (writeLE (writeLE (writeLE (writeLE (fun _ => 0) 11 2 512)
    13 1 v.sectorsPerCluster) 14 2 v.reservedSectors) 16 1 v.fatCount) 36 4 v.fatSize)
    44 4 v.rootCluster

theorem bootSector_reads (v : Volume) :
    readLE (bootSector v) 11 2 = 512 ∧ (bootSector v 13).toNat = v.sectorsPerCluster ∧
    readLE (bootSector v) 14 2 = v.reservedSectors ∧ (bootSector v 16).toNat = v.fatCount ∧
    readLE (bootSector v) 36 4 = v.fatSize ∧ readLE (bootSector v) 44 4 = v.rootCluster := by
  have hout : ∀ (m : Nat → UInt8) (a n x b k : Nat), b + k ≤ a ∨ a + n ≤ b →
      readLE (writeLE m a n x) b k = readLE m b k := fun _ _ _ _ _ _ => readLE_blit_of_disjoint
  have hbyte : ∀ x, (bootSector v x).toNat = readLE (bootSector v) x 1 := fun _ => rfl
  rw [hbyte, hbyte]
  simp (disch := decide) only [bootSector, hout, readLE_writeLE]
  exact ⟨rfl, Nat.mod_eq_of_lt v.spc_lt, Nat.mod_eq_of_lt v.reserved_lt,
    Nat.mod_eq_of_lt v.count_lt, Nat.mod_eq_of_lt v.size_lt, Nat.mod_eq_of_lt v.root_lt⟩

/-- **The fields of a volume ask no more than `fat32_mount` does.** -/
theorem exists_mount (v : Volume) : ∃ d, fat32Mount d = some v := by
  refine ⟨⟨1, bootSector v⟩, ?_⟩
  have hsector : (Disk.mk (b := 512) 1 (bootSector v)).read 0 1 = some (bootSector v) := by
    rw [Disk.read_of_fits ⟨Nat.one_ne_zero, Nat.one_pos, Nat.le_refl 1⟩]
    exact congrArg some (funext fun x => congrArg (bootSector v) (by omega))
  obtain ⟨hbytes, hspc, hreserved, hcount, hsize, hroot⟩ := bootSector_reads v
  simp only [fat32Mount, hsector, hbytes, hspc, hreserved, hcount, hsize, hroot]
  exact dif_pos ⟨v.spc_pos, v.spc_pow, v.count_pos, v.size_pos, v.root_ge⟩

/-! ## 2. The routines -/

/-- What a sector is written as. -/
inductive Area
  | table
  | data
  deriving DecidableEq, Repr

abbrev Io := Prog Area

open Prog

def clusterToLba (v : Volume) (cluster : Nat) : Nat :=
  (v.dataStart + (cluster + 2 ^ 32 - 2) % 2 ^ 32 * v.sectorsPerCluster % 2 ^ 32) % 2 ^ 32

def clusterValid (cluster : Nat) : Bool := 2 ≤ cluster ∧ cluster < bad

/-- `entry_lba` of an entry of the table. -/
def entryLba (v : Volume) (cluster : Nat) : Nat :=
  (v.fatStart + cluster * 4 % 2 ^ 32 / 512) % 2 ^ 32

/-- `entry_off` of an entry of the table. -/
def entryOff (cluster : Nat) : Nat := cluster * 4 % 2 ^ 32 % 512

def fatReadEntry (v : Volume) (cluster : Nat) : Io Nat := do
  match ← blockRead (entryLba v cluster) 1 with
  | none => pure bad
  | some sector => pure (readLE sector (entryOff cluster) 4 &&& 0x0FFFFFFF)

/-- The new word of an entry: the upper four bits are kept. -/
def newEntry (cur value : Nat) : Nat := (cur &&& 0xF0000000) ||| (value &&& 0x0FFFFFFF)

def fatWriteEntry (v : Volume) (cluster value : Nat) : Io Bool := do
  match ← blockRead (entryLba v cluster) 1 with
  | none => pure false
  | some sector =>
    let cur := readLE sector (entryOff cluster) 4
    blockWrite .table (entryLba v cluster) 1
      (writeLE sector (entryOff cluster) 4 (newEntry cur value))

/-- The loop of `fat32_find_free` from `cl` on, with `n` entries to go. -/
def findFreeFrom (v : Volume) : Nat → Nat → Io Nat
  | _, 0 => pure 0
  | cl, n + 1 => do
    if (← fatReadEntry v cl) = 0 then pure cl else findFreeFrom v (cl + 1) n

def findFree (v : Volume) : Io Nat := findFreeFrom v 2 (v.total - 2)

/-- `fat32_alloc_cluster` once the free entry is found. -/
def takeCluster (v : Volume) (cl : Nat) : Io Nat := do
  if cl = 0 then pure 0
  else if ← fatWriteEntry v cl eoc then pure cl else pure 0

def allocCluster (v : Volume) : Io Nat := do takeCluster v (← findFree v)

/-- The loop of `fat32_free_chain`; the number is what its guard leaves. -/
def freeChainLoop (v : Volume) : Nat → Nat → Io Unit
  | 0, _ => pure ()
  | guard + 1, cl => do
    if clusterValid cl then
      let next ← fatReadEntry v cl
      if ← fatWriteEntry v cl 0 then
        if next = cl ∨ bad ≤ next then pure () else freeChainLoop v guard next
      else pure ()
    else pure ()

def freeChain (v : Volume) (start : Nat) : Io Unit := freeChainLoop v 0x1000000 start

/-! ## 3. An entry on the disk -/

variable {v : Volume} {d : Disk 512} {c cl n k x : Nat}

theorem clusterValid_ge (h : clusterValid c = true) : 2 ≤ c := (of_decide_eq_true h).1

theorem clusterValid_of (hge : 2 ≤ c) (hlt : c < bad) : clusterValid c = true :=
  decide_eq_true ⟨hge, hlt⟩

theorem Volume.total_lt : v.total < 2 ^ 30 := by
  rw [Volume.total]
  omega

/-- The address of an entry in the bytes of the device. -/
def entryAddr (v : Volume) (cluster : Nat) : Nat := v.fatStart * 512 + cluster * 4 % 2 ^ 32

theorem entryLba_eq : entryLba v c = v.fatStart + c * 4 % 2 ^ 32 / 512 := by
  have hstart : v.fatStart < 2 ^ 16 := v.reserved_lt
  rw [entryLba]
  omega

theorem entryAddr_eq : entryLba v c * 512 + entryOff c = entryAddr v c := by
  rw [entryLba_eq, entryOff, entryAddr]
  omega

theorem entryOff_lt : entryOff c + 4 ≤ 512 := by
  rw [entryOff]
  omega

/-- What `fat_read_entry` returns. -/
def entryAt (v : Volume) (d : Disk 512) (cluster : Nat) : Nat :=
  if d.Fits (entryLba v cluster) 1 then readLE d.bytes (entryAddr v cluster) 4 &&&
    0x0FFFFFFF else bad

/-- The disk with one entry of the table changed. -/
def setEntry (v : Volume) (d : Disk 512) (cluster value : Nat) : Disk 512 :=
  let addr := entryAddr v cluster
  ⟨d.sectorCount, writeLE d.bytes addr 4 (newEntry (readLE d.bytes addr 4) value)⟩

theorem readLE_sector : readLE (d.sector (entryLba v c)) (entryOff c) 4 =
    readLE d.bytes (entryAddr v c) 4 := by
  refine readLE_congr fun j _ => ?_
  rw [Disk.sector, ← entryAddr_eq, Nat.add_assoc]

theorem put_entry {w : Nat} :
    d.put (entryLba v c) 1 (writeLE (d.sector (entryLba v c)) (entryOff c) 4 w) =
      ⟨d.sectorCount, writeLE d.bytes (entryAddr v c) 4 w⟩ := by
  have hoff := entryOff_lt (c := c)
  rw [← entryAddr_eq]
  refine congrArg (Disk.mk d.sectorCount) (funext fun x => ?_)
  by_cases hin : entryLba v c * 512 ≤ x ∧ x < entryLba v c * 512 + 1 * 512
  · obtain ⟨j, rfl⟩ := Nat.exists_eq_add_of_le hin.1
    rw [blit_of_in (by omega)]
    simp only [writeLE, blit, Disk.sector]
    split_ifs with h1 h2 h2
    · rw [Nat.add_sub_add_left]
    · omega
    · omega
    · rfl
  · rw [blit_of_out (by omega), writeLE, blit_of_out (by omega)]

@[simp] theorem setEntry_fits {value l m : Nat} : (setEntry v d c value).Fits l m ↔ d.Fits l m :=
  Iff.rfl

theorem newEntry_mask {cur value : Nat} :
    newEntry cur value &&& 0x0FFFFFFF = value &&& 0x0FFFFFFF := by
  have hdisj : (0xF0000000 &&& 0x0FFFFFFF : Nat) = 0 := by decide
  rw [newEntry, Nat.and_or_distrib_right, Nat.and_assoc, hdisj, Nat.and_zero, Nat.zero_or,
    Nat.and_assoc, Nat.and_self]

theorem newEntry_lt {cur value : Nat} : newEntry cur value < 256 ^ 4 := by
  show _ < 2 ^ 32
  exact Nat.or_lt_two_pow (Nat.and_lt_two_pow _ (by decide)) (Nat.and_lt_two_pow _ (by decide))

/-- **The entry that is written**, where its sector exists. -/
theorem entryAt_setEntry {value : Nat} (h : d.Fits (entryLba v c) 1) :
    entryAt v (setEntry v d c value) c = value &&& 0x0FFFFFFF := by
  rw [entryAt, if_pos (setEntry_fits.mpr h), setEntry, readLE_writeLE,
    Nat.mod_eq_of_lt newEntry_lt, newEntry_mask]

/-- **Every other entry stays.** -/
theorem entryAt_setEntry_of_ne {value : Nat} (hc : c < 2 ^ 30) (hk : k < 2 ^ 30) (hne : k ≠ c) :
    entryAt v (setEntry v d c value) k = entryAt v d k := by
  have haddr : entryAddr v k + 4 ≤ entryAddr v c ∨ entryAddr v c + 4 ≤ entryAddr v k := by
    rw [entryAddr, entryAddr]
    omega
  have hread : readLE (setEntry v d c value).bytes (entryAddr v k) 4 =
      readLE d.bytes (entryAddr v k) 4 := readLE_blit_of_disjoint haddr
  rw [entryAt, entryAt, hread]
  rfl

/-! ## 4. What the routines do -/

theorem run_fatReadEntry : run (fatReadEntry v c) d = some (entryAt v d c, d) := by
  rw [fatReadEntry, run_bind_of run_blockRead, entryAt, Disk.read]
  split_ifs with h
  · rw [run_pure, readLE_sector]
  · rfl

theorem run_fatWriteEntry {value : Nat} : run (fatWriteEntry v c value) d =
    if d.Fits (entryLba v c) 1 then some (true, setEntry v d c value) else some (false, d) := by
  rw [fatWriteEntry, run_bind_of run_blockRead, Disk.read]
  split_ifs with h
  · rw [run_blockWrite, Disk.write_of_fits h, put_entry, readLE_sector]
    rfl
  · rfl

/-- A zero that a search of a table finds. -/
theorem find_zero {t : Nat → Nat} {c n r : Nat}
    (hr : ((range' c n).find? fun x => t x = 0).getD 0 = r)
    (h : r ≠ 0) : c ≤ r ∧ r < c + n ∧ t r = 0 ∧ ∀ k, c ≤ k → k < r → t k ≠ 0 := by
  rcases Option.getD_eq_iff.mp hr with hfind | ⟨-, hzero⟩
  · obtain ⟨hzero, hmem, hbefore⟩ := find?_range'_eq_some.mp hfind
    obtain ⟨hge, hlt⟩ := mem_range'_1.mp hmem
    exact ⟨hge, hlt, of_decide_eq_true hzero, fun k h1 h2 => by simpa using hbefore k h1 h2⟩
  · exact absurd hzero.symm h

theorem find_zero_succ {t : Nat → Nat} {c n : Nat} :
    ((range' c (n + 1)).find? fun x => t x = 0).getD 0 =
      if t c = 0 then c else ((range' (c + 1) n).find? fun x => t x = 0).getD 0 := by
  rw [range'_succ, find?_cons]
  split_ifs with h
  · rw [decide_eq_true h]
    rfl
  · rw [decide_eq_false h]

/-- The first free entry from `cl` on, among `n`; 0 when there is none. -/
def freeFrom (v : Volume) (d : Disk 512) (cl n : Nat) : Nat :=
  ((range' cl n).find? fun c => entryAt v d c = 0).getD 0

theorem freeFrom_succ : freeFrom v d cl (n + 1) =
    if entryAt v d cl = 0 then cl else freeFrom v d (cl + 1) n := find_zero_succ

theorem run_findFreeFrom : run (findFreeFrom v cl n) d = some (freeFrom v d cl n, d) := by
  induction n generalizing cl with
  | zero => rfl
  | succ n ih =>
    rw [findFreeFrom, run_bind_of run_fatReadEntry, freeFrom_succ]
    split_ifs with h
    · rfl
    · exact ih

/-- What `fat32_find_free` returns. -/
def firstFree (v : Volume) (d : Disk 512) : Nat := freeFrom v d 2 (v.total - 2)

theorem run_findFree : run (findFree v) d = some (firstFree v d, d) := run_findFreeFrom

/-- What a free entry from `cl` on means. -/
theorem firstFree_found (h : firstFree v d ≠ 0) :
    2 ≤ firstFree v d ∧ firstFree v d < v.total ∧ entryAt v d (firstFree v d) = 0 := by
  obtain ⟨hge, hlt, hzero, -⟩ := find_zero (r := firstFree v d) rfl h
  exact ⟨hge, by omega, hzero⟩

theorem fits_of_entry_zero (h : entryAt v d c = 0) : d.Fits (entryLba v c) 1 := by
  by_contra hout
  rw [entryAt, if_neg hout] at h
  exact absurd h (by decide)

/-- Taking a free entry marks it as the end of a chain. -/
theorem run_takeCluster (hc : c ≠ 0) (hfits : d.Fits (entryLba v c) 1) :
    run (takeCluster v c) d = some (c, setEntry v d c eoc) := by
  have hwrite : run (fatWriteEntry v c eoc) d = some (true, setEntry v d c eoc) := by
    rw [run_fatWriteEntry, if_pos hfits]
  rw [takeCluster, if_neg hc, run_bind_of hwrite, if_pos rfl]
  rfl

/-- **The allocation, alone on the device.** -/
theorem run_allocCluster (h : firstFree v d ≠ 0) :
    run (allocCluster v) d = some (firstFree v d, setEntry v d (firstFree v d) eoc) := by
  rw [allocCluster, run_bind_of run_findFree]
  exact run_takeCluster h (fits_of_entry_zero (firstFree_found h).2.2)

/-- No cluster is taken when none is free. -/
theorem run_alloc_full (hfull : firstFree v d = 0) : run (allocCluster v) d = some (0, d) := by
  rw [allocCluster, run_bind_of run_findFree, hfull]
  rfl

/-! ## 5. One entry and nothing else -/

theorem newEntry_top {cur value : Nat} :
    newEntry cur value &&& 0xF0000000 = cur &&& 0xF0000000 := by
  have hdisj : (0x0FFFFFFF &&& 0xF0000000 : Nat) = 0 := by decide
  rw [newEntry, Nat.and_or_distrib_right, Nat.and_assoc, Nat.and_self, Nat.and_assoc, hdisj,
    Nat.and_zero, Nat.or_zero]

/-- The entry of the cluster lies inside the first table. -/
def HasEntry (v : Volume) (c : Nat) : Prop := c < 2 ^ 32 ∧ c * 4 + 4 ≤ v.fatSize * 512

/-- **The entry of `c` was written and nothing else**, as the reading of the entry of `k` shows
    it. -/
structure OnlyEntry (v : Volume) (d d' : Disk 512) (c k value : Nat) : Prop where
  read : ∀ x, run (fatReadEntry v k) d = some (x, d) →
    run (fatReadEntry v k) d' = some (if k = c then value &&& 0x0FFFFFFF else x, d')
  top : readLE d'.bytes (v.fatStart * 512 + c * 4) 4 &&& 0xF0000000 =
    readLE d.bytes (v.fatStart * 512 + c * 4) 4 &&& 0xF0000000
  bytes : ∀ a, a < v.fatStart * 512 + c * 4 ∨ v.fatStart * 512 + c * 4 + 4 ≤ a →
    d'.bytes a = d.bytes a

/-- **`fat_write_entry`** of a cluster whose offset in the table does not wrap. -/
theorem fatWriteEntry_exact {value : Nat} {d' : Disk 512} (hc : c < 2 ^ 30) (hk : k < 2 ^ 30)
    (hrun : run (fatWriteEntry v c value) d = some (true, d')) : OnlyEntry v d d' c k value := by
  rw [run_fatWriteEntry] at hrun
  split_ifs at hrun with hfits
  · obtain rfl : setEntry v d c value = d' := by cases hrun; rfl
    have haddr : v.fatStart * 512 + c * 4 = entryAddr v c := by
      rw [entryAddr]
      omega
    refine ⟨fun x hread => ?_, ?_, fun a ha => ?_⟩
    · rw [run_fatReadEntry] at hread ⊢
      cases hread
      split_ifs with hkc
      · rw [hkc, entryAt_setEntry hfits]
      · rw [entryAt_setEntry_of_ne hc hk hkc]
    · rw [haddr, setEntry, readLE_writeLE, Nat.mod_eq_of_lt newEntry_lt, newEntry_top]
    · rw [haddr] at ha
      simp only [setEntry, writeLE, blit_of_out ha]
  · cases hrun

theorem fatWriteEntry_exact_small :
    OnlyEntry smallVolume ⟨4, fun _ => 0⟩ (setEntry smallVolume ⟨4, fun _ => 0⟩ 2 5) 2 3 5 :=
  fatWriteEntry_exact (by decide) (by decide) (by rw [run_fatWriteEntry, if_pos (by decide)])

/-- A volume whose table has more than `2 ^ 30` entries. -/
def wideVolume : Volume :=
  { smallVolume with fatSize := 2 ^ 23 + 1, size_pos := by decide, size_lt := by decide }

/-- **The offset of entry `2 ^ 30 + 2` wraps to that of entry 2**, so that the one changes with the
    other. -/
theorem entry_aliased : ¬ ∀ (v : Volume) (d d' : Disk 512) (c k value : Nat), HasEntry v c →
    HasEntry v k →
    value < 2 ^ 32 → run (fatWriteEntry v c value) d = some (true, d') →
    OnlyEntry v d d' c k value := by
  intro hall
  have hrun : run (fatWriteEntry wideVolume 2 1) ⟨2 ^ 24, fun _ => 0⟩ =
      some (true, setEntry wideVolume ⟨2 ^ 24, fun _ => 0⟩ 2 1) := by
    rw [run_fatWriteEntry, if_pos (by decide)]
  have hzero : entryAt wideVolume ⟨2 ^ 24, fun _ => 0⟩ (2 ^ 30 + 2) = 0 := by decide
  have hread :=
    (hall wideVolume _ _ 2 (2 ^ 30 + 2) 1 ⟨by decide, by decide⟩ ⟨by decide, by decide⟩ (by decide)
    hrun).read 0 (by rw [run_fatReadEntry, hzero])
  have halias :
      entryAt wideVolume (setEntry wideVolume ⟨2 ^ 24, fun _ => 0⟩ 2 1) (2 ^ 30 + 2) = 1 :=
    entryAt_setEntry (v := wideVolume) (c := 2) (by decide)
  rw [run_fatReadEntry, halias] at hread
  cases hread

end DyntKernel.Fat
