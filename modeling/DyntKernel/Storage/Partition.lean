/-
  File:      DyntKernel/Storage/Partition.lean
  Subject:   PARTITIONS AS BLOCK DEVICES (driver/stacks/storage/block.c and partition.c).

  A partition is a block device whose read and write functions call the device below with the sector
  moved by the start of the partition. Start and length come from the disk: 32-bit words of a boot
  record, or 64-bit words of a table whose end is inclusive.

  * `BlockDevice`, `blockRead`, `blockWrite` -- a device and the range checks in front of its
    driver;
  * `registerPartition`, `scanMbr`, `scanGpt`, `partitionScanDevice` -- what a scan registers;
  * `PartOf` -- every request on the partition stays in its sectors and in those of the device
    below;
  * `scanSums` -- the 64-bit sums a scan computes;
  * `partition_scan_confined` -- all partitions are such, and which of the sums wraps.
-/
import DyntKernel.Library.Bytes
import Mathlib.Data.List.Range

namespace DyntKernel.Storage

open Library

/-! ## 1. Block devices -/

/-- A read or write function of a device: sector, number of sectors, address of the buffer. What
    comes out is what the driver of a disk answers; `none` when it is not called. -/
abbrev Handler (ρ : Type) := Nat → Nat → Nat → Option ρ

/-- **`block_device_t`.** A function pointer that may be null is an `Option`. -/
structure BlockDevice (ρ : Type) where
  name : List UInt8
  sectorCount : Nat
  sectorSize : Nat
  isPartition : Bool
  parentLba : Nat
  read : Option (Handler ρ)
  write : Option (Handler ρ)
  count_lt : sectorCount < 2 ^ 64

/-- `STORAGE_NAME_MAX`. -/
def storageNameMax : Nat := 48

variable {ρ : Type}

/-- The checks of `block_read` and `block_write`, in front of the function `handler` of the
    device. -/
def request (dev : BlockDevice ρ) (handler : Option (Handler ρ))
    (lba count buffer : Nat) : Option ρ :=
  match handler with
  | none => none
  | some f =>
    if buffer = 0 ∨ count = 0 then none
    else if dev.sectorCount ≤ lba ∨ dev.sectorCount - lba < count then none
    else f lba count buffer

def blockRead (dev : BlockDevice ρ) (lba count buffer : Nat) : Option ρ :=
  request dev dev.read lba count buffer

def blockWrite (dev : BlockDevice ρ) (lba count buffer : Nat) : Option ρ :=
  request dev dev.write lba count buffer

/-- `block_device_register`: the device is taken into the list. -/
def blockDeviceRegister (dev : BlockDevice ρ) : Bool :=
  dev.read.isSome ∧ dev.sectorSize ≠ 0 ∧ dev.sectorCount ≠ 0

/-! ## 2. Partitions -/

/-- A sum of two `uint64_t`. -/
def add64 (a b : Nat) : Nat := (a + b) % 2 ^ 64

/-- `partition_info_t`. -/
structure PartitionInfo (ρ : Type) where
  parent : BlockDevice ρ
  startLba : Nat

def partitionRead (part : PartitionInfo ρ) : Handler ρ := fun lba count buffer =>
  blockRead part.parent (add64 part.startLba lba) count buffer

def partitionWrite (part : PartitionInfo ρ) : Handler ρ := fun lba count buffer =>
  blockWrite part.parent (add64 part.startLba lba) count buffer

/-- The name of a partition: that of the device, with the letter p and the index if there is
    room. -/
def partitionName (parent : List UInt8) (index : Nat) : List UInt8 :=
  let name := parent.take (storageNameMax - 1)
  if name.length + 4 < storageNameMax then
    name ++ ['p'.toUInt8] ++ (if 10 ≤ index then [UInt8.ofNat (48 + index / 10)] else []) ++
      [UInt8.ofNat (48 + index % 10)]
  else name

/-- The device that `register_partition` fills in. -/
def partitionDevice (parent : BlockDevice ρ) (index startLba sectorCount : Nat)
    (h : sectorCount < 2 ^ 64) : BlockDevice ρ where
  name := partitionName parent.name index
  sectorCount := sectorCount
  sectorSize := parent.sectorSize
  isPartition := true
  parentLba := startLba
  read := some (partitionRead ⟨parent, startLba⟩)
  write := parent.write.map fun _ => partitionWrite ⟨parent, startLba⟩
  count_lt := h

/-- `register_partition`; `heap` says whether its two allocations succeed. -/
def registerPartition (parent : BlockDevice ρ) (heap : Bool × Bool)
    (index startLba sectorCount : Nat) :
    Option (BlockDevice ρ) :=
  if startLba = 0 ∨ sectorCount = 0 then none
  else if h : parent.sectorCount ≤ startLba ∨ parent.sectorCount - startLba < sectorCount then none
  else if ¬ heap.1 then none
  else if ¬ heap.2 then none
  else
    let dev := partitionDevice parent index startLba sectorCount (by have := parent.count_lt; omega)
    if blockDeviceRegister dev then some dev else none

/-! ## 3. The scan -/

/-- What the scan depends on besides the device: what a request of the driver puts into the buffer
    (`none` when it fails), the address of the buffer, the memory behind it at each entry of a
    table, and the outcomes of the allocations for each entry. -/
structure Surroundings (ρ : Type) where
  data : ρ → Option (Nat → UInt8)
  buffer : Nat
  behind : Nat → Nat → UInt8
  heap : Nat → Bool × Bool

variable (env : Surroundings ρ) (dev : BlockDevice ρ)

/-- One sector is read into `sector`. -/
def readSector (lba : Nat) : Option (Nat → UInt8) := (blockRead dev lba 1 env.buffer).bind env.data

/-- The loop of `scan_mbr` over the entries `is`. -/
def mbrLoop (sector : Nat → UInt8) : List Nat → List (BlockDevice ρ)
  | [] => []
  | i :: is =>
    let entry := fun j => sector (446 + i * 16 + j)
    let start := readLE entry 8 4
    let count := readLE entry 12 4
    if entry 4 = 0 ∨ count = 0 then mbrLoop sector is
    else (registerPartition dev (env.heap i) (i + 1) start count).toList ++ mbrLoop sector is

/-- `scan_mbr`, with the partitions it registers; it returns their number. -/
def scanMbr : List (BlockDevice ρ) :=
  match readSector env dev 0 with
  | none => []
  | some sector =>
    if sector 510 ≠ 0x55 ∨ sector 511 ≠ 0xAA then [] else mbrLoop env dev sector [0, 1, 2, 3]

/-- The header of a partition table. -/
structure GptHeader where
  entriesLba : Nat
  entryCount : Nat
  entrySize : Nat

/-- `has_gpt`, with the fields that `scan_gpt` reads from the sector. -/
def readGptHeader : Option GptHeader :=
  match readSector env dev 1 with
  | none => none
  | some sector =>
    if (List.range 8).map sector = ['E', 'F', 'I', ' ', 'P', 'A', 'R', 'T'].map Char.toUInt8 then
      some ⟨readLE sector 72 8, readLE sector 80 4, readLE sector 84 4⟩
    else none

/-- The entry `i` of the table. It may reach beyond the buffer, into the memory behind it. -/
def gptEntry (h : GptHeader) (sector : Nat → UInt8) (i : Nat) : Nat → UInt8 := fun j =>
  let x := i * h.entrySize % dev.sectorSize + j
  if x < 512 then sector x else env.behind i (x - 512)

/-- `lba` of the entry `i`. -/
def gptLba (h : GptHeader) (i : Nat) : Nat := add64 h.entriesLba (i * h.entrySize / dev.sectorSize)

/-- The loop of `scan_gpt` from the entry `i` on, with `n` entries to go. -/
def gptLoop (h : GptHeader) : Nat → Nat → List (BlockDevice ρ)
  | _, 0 => []
  | i, n + 1 =>
    match readSector env dev (gptLba dev h i) with
    | none => []
    | some sector =>
      let entry := gptEntry env dev h sector i
      let first := readLE entry 32 8
      let last := readLE entry 40 8
      if (List.range 16).all (entry · = 0) then gptLoop h (i + 1) n
      else if last < first then gptLoop h (i + 1) n
      else (registerPartition dev (env.heap i) (i + 1) first (add64 (last - first) 1)).toList ++
        gptLoop h (i + 1) n

def scanGpt : List (BlockDevice ρ) :=
  match readGptHeader env dev with
  | none => []
  | some h => if h.entrySize < 128 ∨ 512 < h.entrySize then [] else gptLoop env dev h 0 h.entryCount

/-- `protective_mbr`. -/
def protectiveMbr (sector : Nat → UInt8) : Bool :=
  (sector 510 = 0x55 ∧ sector 511 = 0xAA) ∧ ∃ i ∈ List.range 4, sector (446 + i * 16 + 4) = 0xEE

/-- **`partition_scan_device`**, with the partitions it registers. -/
def partitionScanDevice : List (BlockDevice ρ) :=
  if dev.isPartition ∨ dev.sectorSize ≠ 512 then []
  else
    match readSector env dev 0 with
    | none => []
    | some sector => if protectiveMbr sector then scanGpt env dev else scanMbr env dev

/-! ## 4. Confinement -/

variable {env dev} {part : BlockDevice ρ}

/-- **A device whose requests become requests of the device below**, moved by its start, in sectors
    of its own and of that device; all others fail before the driver is called. -/
structure PartOf (dev part : BlockDevice ρ) : Prop where
  inside : part.parentLba + part.sectorCount ≤ dev.sectorCount
  read : ∀ lba count buffer, blockRead part lba count buffer = none ∨
    lba + count ≤ part.sectorCount ∧ ∃ f, dev.read = some f ∧
      blockRead part lba count buffer = f (part.parentLba + lba) count buffer
  write : ∀ lba count buffer, blockWrite part lba count buffer = none ∨
    lba + count ≤ part.sectorCount ∧ ∃ f, dev.write = some f ∧
      blockWrite part lba count buffer = f (part.parentLba + lba) count buffer

/-- A request that passes the checks. -/
theorem request_cases (dev : BlockDevice ρ) (handler : Option (Handler ρ))
    (lba count buffer : Nat) :
    request dev handler lba count buffer = none ∨ lba + count ≤ dev.sectorCount ∧
      ∃ f, handler = some f ∧ request dev handler lba count buffer = f lba count buffer := by
  cases handler with
  | none => exact .inl rfl
  | some f =>
    rw [request]
    split_ifs with hargs hrange
    · exact .inl rfl
    · exact .inl rfl
    · exact .inr ⟨by omega, f, rfl, rfl⟩

/-- The two checks together: that of the partition, and that of the device below on the moved
    sector. -/
theorem moved_cases {start size lba count buffer : Nat} {handler moved : Option (Handler ρ)}
    (hpart : part.sectorCount = size) (hinside : start + size ≤ dev.sectorCount)
    (hmoved : ∀ f, moved = some f →
      f lba count buffer = request dev handler (add64 start lba) count buffer) :
    request part moved lba count buffer = none ∨ lba + count ≤ part.sectorCount ∧
      ∃ f, handler = some f ∧
        request part moved lba count buffer = f (start + lba) count buffer := by
  rcases request_cases part moved lba count buffer with hnone | ⟨hrange, f, hf, heq⟩
  · exact .inl hnone
  have hbound := dev.count_lt
  have hsum : add64 start lba = start + lba := Nat.mod_eq_of_lt (by omega)
  rw [heq, hmoved f hf, hsum]
  rcases request_cases dev handler (start + lba) count buffer with hnone | ⟨-, g, hg, heq'⟩
  · exact .inl hnone
  · exact .inr ⟨hrange, g, hg, heq'⟩

theorem registerPartition_partOf {heap : Bool × Bool} {index start size : Nat}
    (h : part ∈ registerPartition dev heap index start size) : PartOf dev part := by
  rw [registerPartition, Option.mem_def] at h
  split_ifs at h with hzero hrange hdev hinfo
  dsimp only at h
  split_ifs at h with hreg
  cases h
  have hinside : start + size ≤ dev.sectorCount := by omega
  refine ⟨hinside, fun lba count buffer => ?_, fun lba count buffer => ?_⟩
  · exact moved_cases rfl hinside fun f hf => by cases hf; rfl
  · refine moved_cases rfl hinside fun f hf => ?_
    obtain ⟨-, -, rfl⟩ := Option.map_eq_some_iff.mp hf
    rfl

theorem mbrLoop_partOf {sector : Nat → UInt8} {is : List Nat}
    (h : part ∈ mbrLoop env dev sector is) :
    PartOf dev part := by
  induction is with
  | nil => cases h
  | cons i is ih =>
    rw [mbrLoop] at h
    split_ifs at h
    · exact ih h
    · rcases List.mem_append.mp h with h | h
      · exact registerPartition_partOf (Option.mem_toList.mp h)
      · exact ih h

theorem gptLoop_partOf {h : GptHeader} {i n : Nat} (hmem : part ∈ gptLoop env dev h i n) :
    PartOf dev part := by
  induction n generalizing i with
  | zero => cases hmem
  | succ n ih =>
    rw [gptLoop] at hmem
    cases hread : readSector env dev (gptLba dev h i) with
    | none =>
      rw [hread] at hmem
      cases hmem
    | some sector =>
      rw [hread] at hmem
      dsimp only at hmem
      split_ifs at hmem
      · exact ih hmem
      · exact ih hmem
      · rcases List.mem_append.mp hmem with hmem | hmem
        · exact registerPartition_partOf (Option.mem_toList.mp hmem)
        · exact ih hmem

theorem scan_partOf (h : part ∈ partitionScanDevice env dev) : PartOf dev part := by
  rw [partitionScanDevice] at h
  split_ifs at h with hkind
  · cases h
  cases hread : readSector env dev 0 with
  | none =>
    rw [hread] at h
    cases h
  | some sector =>
    rw [hread] at h
    dsimp only at h
    split_ifs at h
    · rw [scanGpt] at h
      cases hheader : readGptHeader env dev with
      | none =>
        rw [hheader] at h
        cases h
      | some header =>
        rw [hheader] at h
        dsimp only at h
        split_ifs at h
        · cases h
        · exact gptLoop_partOf h
    · rw [scanMbr, hread] at h
      dsimp only at h
      split_ifs at h
      · cases h
      · exact mbrLoop_partOf h

/-! ## 5. The sums -/

/-- The operands of the 64-bit sums that the loop of `scan_gpt` computes. -/
def gptSums (env : Surroundings ρ) (dev : BlockDevice ρ) (h : GptHeader) :
    Nat → Nat → List (Nat × Nat)
  | _, 0 => []
  | i, n + 1 => (h.entriesLba, i * h.entrySize / dev.sectorSize) ::
    match readSector env dev (gptLba dev h i) with
    | none => []
    | some sector =>
      let entry := gptEntry env dev h sector i
      let first := readLE entry 32 8
      let last := readLE entry 40 8
      if (List.range 16).all (entry · = 0) then gptSums env dev h (i + 1) n
      else if last < first then gptSums env dev h (i + 1) n
      else (last - first, 1) :: gptSums env dev h (i + 1) n

/-- The operands of the 64-bit sums of a scan; `scan_mbr` computes none. -/
def scanSums (env : Surroundings ρ) (dev : BlockDevice ρ) : List (Nat × Nat) :=
  if dev.isPartition ∨ dev.sectorSize ≠ 512 then []
  else
    match readSector env dev 0, readGptHeader env dev with
    | some sector, some h =>
      if ¬ protectiveMbr sector ∨ h.entrySize < 128 ∨ 512 < h.entrySize then []
      else gptSums env dev h 0 h.entryCount
    | _, _ => []

/-- A sum that fits, or the length of an entry over all 64-bit sectors. -/
def SumFits (s : Nat × Nat) : Prop := s.1 + s.2 < 2 ^ 64 ∨ s = (2 ^ 64 - 1, 1)

/-- A sector that is read exists. -/
theorem readSector_lt {lba : Nat} {sector : Nat → UInt8}
    (h : readSector env dev lba = some sector) :
    lba < dev.sectorCount := by
  obtain ⟨r, hr, -⟩ := Option.bind_eq_some_iff.mp h
  rcases request_cases dev dev.read lba 1 env.buffer with hnone | ⟨hrange, -⟩
  · rw [blockRead, hnone] at hr
    cases hr
  · omega

/-- **The sums of the loop.** The sector of an entry is at most one behind that of the entry before,
    and that one was read: the sum cannot pass over the last sector of the device. -/
theorem gptSums_fit {h : GptHeader} {i n : Nat} (hsize : dev.sectorSize = 512)
    (hentry : h.entrySize ≤ 512)
    (hsum : h.entriesLba + i * h.entrySize / 512 < 2 ^ 64) : ∀ s ∈ gptSums env dev h i n,
    SumFits s := by
  induction n generalizing i with
  | zero => exact fun s hs => absurd hs List.not_mem_nil
  | succ n ih =>
    intro s hs
    rw [gptSums] at hs
    rcases List.mem_cons.mp hs with rfl | hs
    · rw [hsize]
      exact .inl hsum
    cases hread : readSector env dev (gptLba dev h i) with
    | none =>
      rw [hread] at hs
      cases hs
    | some sector =>
      have hlba : gptLba dev h i = h.entriesLba + i * h.entrySize / 512 := by
        rw [gptLba, hsize, add64, Nat.mod_eq_of_lt hsum]
      have hlt := readSector_lt hread
      have hbound := dev.count_lt
      have hnext : h.entriesLba + (i + 1) * h.entrySize / 512 < 2 ^ 64 := by
        rw [Nat.succ_mul]
        omega
      rw [hread] at hs
      dsimp only at hs
      split_ifs at hs with hempty horder
      · exact ih hnext s hs
      · exact ih hnext s hs
      rcases List.mem_cons.mp hs with rfl | hs
      · have hlast : readLE (gptEntry env dev h sector i) 40 8 < 256 ^ 8 := readLE_lt
        by_cases hall : readLE (gptEntry env dev h sector i) 40 8 -
            readLE (gptEntry env dev h sector i) 32 8 = 2 ^ 64 - 1
        · exact .inr (by rw [hall])
        · left
          show _ + 1 < 2 ^ 64
          omega
      · exact ih hnext s hs

theorem readGptHeader_lba {h : GptHeader} (hheader : readGptHeader env dev = some h) :
    h.entriesLba < 256 ^ 8 := by
  rw [readGptHeader] at hheader
  split at hheader
  · cases hheader
  · split_ifs at hheader
    cases hheader
    exact readLE_lt

theorem scanSums_fit : ∀ s ∈ scanSums env dev, SumFits s := by
  intro s hs
  rw [scanSums] at hs
  split_ifs at hs with hkind
  · cases hs
  split at hs
  next h _ hheader =>
    have hlba := readGptHeader_lba hheader
    split_ifs at hs with hbad
    · cases hs
    · exact gptSums_fit (by tauto) (by omega) (by omega) s hs
  next => cases hs

/-- **Partitions are confined**: every request on a partition that a scan registers fails before the
    driver is called, or becomes the request for the same sectors counted from the start of the
    partition, inside it and inside the device. Of the sums of a scan only the length of an entry
    from the first to the last 64-bit sector wraps, and nothing is registered with that length. -/
theorem partition_scan_confined (env : Surroundings ρ) (dev : BlockDevice ρ) :
    (∀ part ∈ partitionScanDevice env dev, PartOf dev part) ∧ (∀ s ∈ scanSums env dev, SumFits s) ∧
    ∀ heap index start, registerPartition dev heap index start (add64 (2 ^ 64 - 1) 1) = none :=
  ⟨fun _ => scan_partOf, scanSums_fit, fun _ _ _ => if_pos (.inr rfl)⟩

/-! ## 6. A table with an entry over all sectors -/

/-- A driver that answers with the number of the sector. -/
def plainDisk : BlockDevice Nat :=
  ⟨[], 64, 512, false, 0, some fun lba _ _ => some lba, none, by decide⟩

/-- A protective boot record, the header of a table of one entry, and that entry, from the sector 0
    to the sector `2 ^ 64 - 1`. -/
def wholeTable (lba x : Nat) : UInt8 :=
  if lba = 0 then if x = 510 then 0x55 else if x = 511 then 0xAA else if x = 450 then 0xEE else 0
  else if lba = 1 then
    if x < 8 then (['E', 'F', 'I', ' ', 'P', 'A', 'R', 'T'].map Char.toUInt8).getD x 0
    else if x = 72 then 2 else if x = 80 then 1 else if x = 84 then 128 else 0
  else if x = 0 then 1 else if 40 ≤ x ∧ x < 48 then 0xFF else 0

/-- **The length of that entry wraps to 0.** -/
theorem whole_table_wraps : (2 ^ 64 - 1, 1) ∈
      scanSums ⟨fun lba => some (wholeTable lba), 1, fun _ _ => 0, fun _ =>
        (true, true)⟩ plainDisk ∧
    add64 (2 ^ 64 - 1) 1 = 0 := by
  decide +kernel

end DyntKernel.Storage
