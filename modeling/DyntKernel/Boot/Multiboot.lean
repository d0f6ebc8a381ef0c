/-
  File:      DyntKernel/Boot/Multiboot.lean
  Subject:   THE MEMORY MAP FROM GRUB TO THE FRAME ALLOCATOR (arch/x86_64/boot/multiboot2.c,
             mem/mm/pmm.c).

  `kernel_entry` walks the tags of the multiboot2 information and records where the entries of the
  memory map begin and how many there are, by the entry size of the tag. `pmm_init` reads them with
  the size of its own structure.

  * `kernelEntry` -- the walk over the tags; the fuel bounds their number;
  * `lastMmapTag`, `tagLoop_records` -- what is recorded is the last memory map tag;
  * `storedEntries`, `bootInfo` -- the entries of the tag, and those `pmm_init` reads;
  * `memory_map_walk_iff` -- for which entry sizes the two agree.
-/
import DyntKernel.Library.Bytes
import DyntKernel.Mem.Pmm

namespace DyntKernel.Boot

open Library Mem

/-! ## 1. The tags -/

/-- A 32-bit word of memory. -/
def u32 (m : Nat → UInt8) (a : Nat) : Nat := readLE m a 4

/-- A 64-bit word of memory. -/
def u64 (m : Nat → UInt8) (a : Nat) : Nat := readLE m a 8

/-- The fields of `krbootinfo` that `kernel_entry` fills. -/
structure KrBootInfo where
  memoryMap : Nat
  memoryMapEntries : Nat
  framebuffer : Nat
  framebufferPitch : Nat
  framebufferWidth : Nat
  framebufferHeight : Nat
  framebufferBpp : Nat
  deriving DecidableEq, Repr

/-- `MB2_TAG_MMAP`. -/
def mb2TagMmap : Nat := 6

/-- `MB2_TAG_FRAMEBUFFER`. -/
def mb2TagFramebuffer : Nat := 8

/-- The number of entries, with a 64-bit subtraction and division. -/
def mmapEntries (m : Nat → UInt8) (tag : Nat) : Nat :=
  (u32 m (tag + 4) + 2 ^ 64 - 16) % 2 ^ 64 / u32 m (tag + 8)

/-- The `switch` over the type of a tag; a division by 0 faults. -/
def recordTag (m : Nat → UInt8) (tag : Nat) (g : KrBootInfo) : Option KrBootInfo :=
  if u32 m tag = mb2TagMmap then
    if u32 m (tag + 8) = 0 then none
    else some { g with memoryMap := tag + 16, memoryMapEntries := mmapEntries m tag }
  else if u32 m tag = mb2TagFramebuffer then
    some { g with
      framebuffer := u64 m (tag + 8)
      framebufferPitch := u32 m (tag + 16)
      framebufferWidth := u32 m (tag + 20)
      framebufferHeight := u32 m (tag + 24)
      framebufferBpp := (m (tag + 28)).toNat }
  else some g

/-- The next tag: tags are aligned to 8 bytes. -/
def nextTag (m : Nat → UInt8) (tag : Nat) : Nat := tag + (u32 m (tag + 4) + 7) % 2 ^ 32 / 8 * 8

/-- The loop over the tags, to the one of type 0. -/
def tagLoop (m : Nat → UInt8) : Nat → Nat → KrBootInfo → Option KrBootInfo
  | 0, _, _ => none
  | n + 1, tag, g =>
    if u32 m tag = 0 then some g else (recordTag m tag g).bind (tagLoop m n (nextTag m tag))

/-- `kernel_entry`; without the magic value of the loader it halts. -/
def kernelEntry (m : Nat → UInt8) (fuel magic infoAddr : Nat) : Option KrBootInfo :=
  if magic ≠ 0x36D76289 ∨ infoAddr = 0 then none
  else tagLoop m fuel ((infoAddr + 8) % 2 ^ 32) ⟨0, 0, 0, 0, 0, 0, 0⟩

/-! ## 2. The entries -/

/-- An entry: address, length and type. -/
def readEntry (m : Nat → UInt8) (a : Nat) : MmapEntry := ⟨u64 m a, u64 m (a + 8), u32 m (a + 16)⟩

/-- The entries of a memory map tag, each as large as the tag says. -/
def storedEntries (m : Nat → UInt8) (tag n : Nat) : List MmapEntry :=
  (List.range n).map fun i => readEntry m (tag + 16 + i * u32 m (tag + 8))

/-- What `pmm_init` reads; the size of its `pmm_mmap_entry` is 24. -/
def bootInfo (m : Nat → UInt8) (g : KrBootInfo) (kernelEnd bitmap : Nat) : BootInfo :=
  ⟨(List.range g.memoryMapEntries).map fun i =>
    readEntry m (g.memoryMap + i * 24), kernelEnd, bitmap,
    g.framebuffer, g.framebufferPitch, g.framebufferHeight⟩

/-- The last memory map tag from `tag` on, or the one seen before. -/
def lastMmapTag (m : Nat → UInt8) : Nat → Nat → Option Nat → Option Nat
  | 0, _, last => last
  | n + 1, tag, last =>
    if u32 m tag = 0 then last
      else lastMmapTag m n (nextTag m tag) (if u32 m tag = mb2TagMmap then some tag else last)

/-- The memory map of `g` is that of the tag. -/
def Records (m : Nat → UInt8) (last : Option Nat) (g : KrBootInfo) : Prop :=
  ∀ t, last = some t → g.memoryMap = t + 16 ∧ g.memoryMapEntries = mmapEntries m t

variable {m : Nat → UInt8} {n tag : Nat} {g g' : KrBootInfo} {last : Option Nat}

theorem recordTag_records (hg : Records m last g) (h : recordTag m tag g = some g') :
    Records m (if u32 m tag = mb2TagMmap then some tag else last) g' := by
  rw [recordTag] at h
  split_ifs at h with hmap hzero hfb
  · obtain rfl := Option.some.inj h
    intro t ht
    rw [if_pos hmap] at ht
    obtain rfl := Option.some.inj ht
    exact ⟨rfl, rfl⟩
  · obtain rfl := Option.some.inj h
    rw [if_neg hmap]
    exact hg
  · obtain rfl := Option.some.inj h
    rw [if_neg hmap]
    exact hg

/-- **The loop records the last memory map tag.** -/
theorem tagLoop_records (hg : Records m last g) (h : tagLoop m n tag g = some g') :
    Records m (lastMmapTag m n tag last) g' := by
  induction n generalizing tag last g with
  | zero => cases h
  | succ n ih =>
    rw [tagLoop] at h
    rw [lastMmapTag]
    by_cases hend : u32 m tag = 0
    · rw [if_pos hend] at h ⊢
      obtain rfl := Option.some.inj h
      exact hg
    · rw [if_neg hend] at h ⊢
      obtain ⟨g₁, hrec, hrest⟩ := Option.bind_eq_some_iff.mp h
      exact ih (recordTag_records hg hrec) hrest

/-! ## 3. When the two readings agree -/

/-- A tag with `n` entries of the size `size`. -/
structure MmapTag (m : Nat → UInt8) (tag size n : Nat) : Prop where
  tagSize : u32 m (tag + 4) = 16 + n * size
  entrySize : u32 m (tag + 8) = size

/-- **`pmm_init` reads the entries that are stored**, whatever the memory, for a last memory map tag
    of `n` entries of the size `size`. -/
def WalksAgree (size n : Nat) : Prop :=
  ∀ m fuel magic infoAddr g t kernelEnd bitmap, kernelEntry m fuel magic infoAddr = some g →
    lastMmapTag m fuel ((infoAddr + 8) % 2 ^ 32) none = some t → MmapTag m t size n →
    (bootInfo m g kernelEnd bitmap).memoryMap = storedEntries m t n

variable {size : Nat}

theorem MmapTag.entries (h : MmapTag m tag size n) (hsize : 0 < size)
    (hlt : 16 + n * size < 2 ^ 32) :
    mmapEntries m tag = n := by
  rw [mmapEntries, h.tagSize, h.entrySize]
  have hsub : (16 + n * size + 2 ^ 64 - 16) % 2 ^ 64 = n * size := by omega
  rw [hsub, Nat.mul_div_cancel n hsize]

/-- What `pmm_init` reads of a tag. -/
theorem bootInfo_memoryMap {t fuel magic infoAddr kernelEnd bitmap : Nat}
    (hg : kernelEntry m fuel magic infoAddr = some g)
    (ht : lastMmapTag m fuel ((infoAddr + 8) % 2 ^ 32) none = some t) (htag : MmapTag m t size n)
    (hsize : 0 < size) (hlt : 16 + n * size < 2 ^ 32) :
    (bootInfo m g kernelEnd bitmap).memoryMap = (List.range n).map fun i =>
    readEntry m (t + 16 + i * 24) := by
  rw [kernelEntry] at hg
  split_ifs at hg
  have hnone : Records m none ⟨0, 0, 0, 0, 0, 0, 0⟩ := fun _ h => by cases h
  obtain ⟨hstart, hcount⟩ := tagLoop_records hnone hg t ht
  rw [bootInfo, hstart, hcount, htag.entries hsize hlt]

/-- A map of `n` entries of the size `size` with a byte set behind the first 24 bytes of the first
    entry. -/
def paddedMap (size n : Nat) : Nat → UInt8 :=
  writeLE (writeLE (writeLE (fun x => if x = 0x1030 then 1 else 0) 0x1008 4 6)
    0x100C 4 (16 + n * size)) 0x1010 4 size

/-- Behind the fields of the tag only one byte is set. -/
theorem paddedMap_of_ge {x : Nat} (hx : 0x1014 ≤ x) :
    paddedMap size n x = if x = 0x1030 then 1 else 0 := by
  rw [paddedMap, writeLE, blit_of_out (.inr hx), writeLE, blit_of_out (.inr (by omega)), writeLE,
    blit_of_out (.inr (by omega))]

theorem paddedMap_zero {a k : Nat} (ha : 0x1031 ≤ a) : readLE (paddedMap size n) a k = 0 := by
  have hcongr : readLE (paddedMap size n) a k = readLE (fun _ => 0) a k := by
    refine readLE_congr fun j _ => ?_
    rw [paddedMap_of_ge (by omega), if_neg (by omega)]
  rw [hcongr, readLE_zero]

theorem paddedMap_set : u64 (paddedMap size n) 0x1030 = 1 := by
  rw [u64, readLE, paddedMap_zero (by decide), paddedMap_of_ge (by decide)]
  rfl

theorem paddedMap_type : u32 (paddedMap size n) 0x1008 = mb2TagMmap := by
  rw [u32, paddedMap, writeLE, readLE_blit_of_disjoint (.inl (by decide)), writeLE,
    readLE_blit_of_disjoint (.inl (by decide)), readLE_writeLE]
  rfl

theorem paddedMap_tag (hsize : size < 2 ^ 32) (hlt : 16 + n * size < 2 ^ 32) :
    MmapTag (paddedMap size n) 0x1008 size n where
  tagSize := by
    rw [u32, paddedMap, writeLE, readLE_blit_of_disjoint (.inl (by decide)), readLE_writeLE]
    exact Nat.mod_eq_of_lt hlt
  entrySize := by
    rw [u32, paddedMap, readLE_writeLE]
    exact Nat.mod_eq_of_lt hsize

/-- The walk over the tags of this map: the second one is the end. -/
theorem paddedMap_walk (h8 : 8 ∣ size) (h32 : 32 ≤ size) (hn : 1 < n)
    (hlt : 16 + n * size < 2 ^ 32) :
    (∃ g, kernelEntry (paddedMap size n) 2 0x36D76289 0x1000 = some g) ∧
      lastMmapTag (paddedMap size n) 2 ((0x1000 + 8) % 2 ^ 32) none = some 0x1008 := by
  have hle : size ≤ n * size := Nat.le_mul_of_pos_left size (by omega)
  have htag : MmapTag (paddedMap size n) 0x1008 size n := paddedMap_tag (by omega) hlt
  have hnext : nextTag (paddedMap size n) 0x1008 = 0x1008 + (16 + n * size) := by
    obtain ⟨k, hk⟩ : 8 ∣ 16 + n * size := Nat.dvd_add (by decide) (Dvd.dvd.mul_left h8 n)
    rw [nextTag, htag.tagSize, hk]
    omega
  have hend : u32 (paddedMap size n) (0x1008 + (16 + n * size)) = 0 := paddedMap_zero (by omega)
  have hstart : (0x1000 + 8) % 2 ^ 32 = 0x1008 := by decide
  have hdiv : u32 (paddedMap size n) (0x1008 + 8) ≠ 0 := by
    rw [htag.entrySize]
    omega
  constructor
  · refine ⟨⟨0x1018, mmapEntries (paddedMap size n) 0x1008, 0, 0, 0, 0, 0⟩, ?_⟩
    rw [kernelEntry, if_neg (by decide), hstart, tagLoop,
      if_neg (by rw [paddedMap_type]; decide), recordTag,
      if_pos paddedMap_type, if_neg hdiv, Option.bind_some, tagLoop, hnext, if_pos hend]
  · rw [hstart, lastMmapTag, if_neg (by rw [paddedMap_type]; decide),
      lastMmapTag, hnext, if_pos hend,
      if_pos paddedMap_type]

/-- The second entry of this map, as `pmm_init` reads it and as it is stored. -/
theorem paddedMap_differs (h32 : 32 ≤ size) (hn : 1 < n)
    (h : ((List.range n).map fun i => readEntry (paddedMap size n) (0x1008 + 16 + i * 24)) =
      (List.range n).map fun i => readEntry (paddedMap size n)
      (0x1008 + 16 + i * size)) : False := by
  have hsecond := List.map_inj_left.mp h 1 (List.mem_range.mpr hn)
  have haddr : u64 (paddedMap size n) (0x1008 + 16 + 1 * 24) =
      u64 (paddedMap size n) (0x1008 + 16 + 1 * size) :=
    congrArg MmapEntry.addr hsecond
  have hwalked : u64 (paddedMap size n) (0x1008 + 16 + 1 * 24) = 1 := paddedMap_set
  have hstored : u64 (paddedMap size n) (0x1008 + 16 + 1 * size) = 0 := paddedMap_zero (by omega)
  rw [hwalked, hstored] at haddr
  cases haddr

/-- **For every tag of this shape `pmm_init` reads the entries that are stored in it, exactly when
    the entries are 24 bytes long or there are not two of them.** -/
theorem memory_map_walk_iff (h8 : 8 ∣ size) (h24 : 24 ≤ size) (hlt : 16 + n * size < 2 ^ 32)
    (hsize : size < 2 ^ 32) :
    WalksAgree size n ↔ size = 24 ∨ n ≤ 1 := by
  constructor
  · intro h
    by_contra hnot
    obtain ⟨k, rfl⟩ := h8
    have hn : 1 < n := by omega
    have h32 : 32 ≤ 8 * k := by omega
    have htag := paddedMap_tag hsize hlt
    obtain ⟨⟨g, hg⟩, hlast⟩ := paddedMap_walk (Nat.dvd_mul_right 8 k) h32 hn hlt
    have heq := h _ _ _ _ g _ 0 0 hg hlast htag
    rw [bootInfo_memoryMap hg hlast htag (by omega) hlt, storedEntries, htag.entrySize] at heq
    exact paddedMap_differs h32 hn heq
  intro h m fuel magic infoAddr g t kernelEnd bitmap hg ht htag
  rw [bootInfo_memoryMap hg ht htag (by omega) hlt, storedEntries, htag.entrySize]
  refine List.map_congr_left fun i hi => ?_
  rcases h with rfl | hone
  · rfl
  · obtain rfl : i = 0 := by
      have := List.mem_range.mp hi
      omega
    rw [Nat.zero_mul, Nat.zero_mul]

/-- Entries of the usual size. -/
theorem memory_map_walk_usual : WalksAgree 24 2 :=
  (memory_map_walk_iff (by decide) (by decide) (by decide) (by decide)).mpr (.inl rfl)

/-- **Two entries of 32 bytes**: the second one is read from the padding of the first. -/
theorem memory_map_padded : ∃ g, kernelEntry (paddedMap 32 2) 2 0x36D76289 0x1000 = some g ∧
    MmapTag (paddedMap 32 2) 0x1008 32 2 ∧
    (bootInfo (paddedMap 32 2) g 0 0).memoryMap ≠ storedEntries (paddedMap 32 2) 0x1008 2 := by
  have htag : MmapTag (paddedMap 32 2) 0x1008 32 2 := paddedMap_tag (by decide) (by decide)
  obtain ⟨⟨g, hg⟩, hlast⟩ :=
    paddedMap_walk (by decide : 8 ∣ 32) (by decide) (by decide : 1 < 2) (by decide)
  refine ⟨g, hg, htag, fun heq => ?_⟩
  rw [bootInfo_memoryMap hg hlast htag (by decide) (by decide),
    storedEntries, htag.entrySize] at heq
  exact paddedMap_differs (by decide) (by decide) heq

end DyntKernel.Boot
