/-
  File:      DyntKernel/Storage/Gpt.lean
  Subject:   THE ENTRIES OF A PARTITION TABLE (driver/stacks/storage/partition.c, scan_gpt).

  `scan_gpt` reads one sector for an entry, also where the entry goes on in the next sector.

  * `gptRounds` -- the entries up to the first sector that cannot be read;
  * `entryReads`, `entryCall` -- the bytes of an entry the loop looks at, and the partition it asks
    for;
  * `tableEntry` -- the bytes of the entry in the table on the disk;
  * `GptExact`, `gpt_exact_iff` -- the scan is that of the table on the disk, from inside of the
    buffer, if and only if no entry it decodes goes over the end of its sector.
-/
import DyntKernel.Storage.Partition

namespace DyntKernel.Storage

open Library List

variable {ρ : Type} (env : Surroundings ρ) (dev : BlockDevice ρ) (h : GptHeader)

/-! ## 1. Rounds of the loop -/

/-- The entries that the loop looks at, `n` of them from `i` on. -/
def gptRounds : Nat → Nat → List Nat
  | _, 0 => []
  | i, n + 1 =>
    if (readSector env dev (gptLba dev h i)).isSome then i :: gptRounds (i + 1) n else []

/-- The sector of an entry. -/
def gptSector (i : Nat) : Nat → UInt8 := (readSector env dev (gptLba dev h i)).getD fun _ => 0

/-- The bytes of the entry `i` in the table on the disk. -/
def tableEntry (i : Nat) : Nat → UInt8 := fun j =>
  (readSector env dev (h.entriesLba + (i * h.entrySize + j) / 512)).getD (fun _ => 0)
    ((i * h.entrySize + j) % 512)

/-- The loop finds no type. -/
def IsEmptyEntry (entry : Nat → UInt8) : Prop := ∀ j ∈ List.range 16, entry j = 0

instance (entry : Nat → UInt8) : Decidable (IsEmptyEntry entry) := List.decidableBAll ..

/-- The bytes of an entry the loop reads: those of the type up to the first that is not zero, and
    the sectors. -/
def entryReads (entry : Nat → UInt8) : List Nat :=
  if IsEmptyEntry entry then List.range 16
  else List.range ((List.range 16).findIdx (entry · ≠ 0) + 1) ++ (List.range 16).map (32 + ·)

/-- The arguments of `register_partition` for an entry: index, first sector, number of sectors. -/
def entryCall (i : Nat) (entry : Nat → UInt8) : List (Nat × Nat × Nat) :=
  let first := readLE entry 32 8
  let last := readLE entry 40 8
  if IsEmptyEntry entry then []
  else if last < first then []
  else [(i + 1, first, add64 (last - first) 1)]

/-- The calls of `register_partition` that `scan_gpt` makes. -/
def gptCalls : List (Nat × Nat × Nat) :=
  (gptRounds env dev h 0 h.entryCount).flatMap fun i =>
    entryCall i (gptEntry env dev h (gptSector env dev h i) i)

/-- **The scan is that of the table on the disk.** -/
structure GptExact : Prop where
  scan : scanGpt env dev = (gptCalls env dev h).flatMap fun c =>
    (registerPartition dev (env.heap (c.1 - 1)) c.1 c.2.1 c.2.2).toList
  inside : ∀ i ∈ gptRounds env dev h 0 h.entryCount,
    ∀ j ∈ entryReads (gptEntry env dev h (gptSector env dev h i) i),
      i * h.entrySize % 512 + j < 512
  calls : gptCalls env dev h =
    (gptRounds env dev h 0 h.entryCount).flatMap fun i => entryCall i (tableEntry env dev h i)

/-- The entry ends in its sector, or it is empty and its type does. -/
def EntryFits (i : Nat) : Prop := i * h.entrySize % 512 ≤ 464 ∨
  i * h.entrySize % 512 ≤ 496 ∧ IsEmptyEntry (tableEntry env dev h i)

instance (i : Nat) : Decidable (EntryFits env dev h i) := instDecidableOr

deriving instance DecidableEq for GptHeader

/-! ## 2. The scan -/

variable {env dev h} {i j : Nat}

theorem gptLoop_eq (n : Nat) : gptLoop env dev h i n =
    ((gptRounds env dev h i n).flatMap fun i =>
      entryCall i (gptEntry env dev h (gptSector env dev h i) i)).flatMap fun c =>
        (registerPartition dev (env.heap (c.1 - 1)) c.1 c.2.1 c.2.2).toList := by
  induction n generalizing i with
  | zero => rfl
  | succ n ih =>
    rw [gptLoop, gptRounds]
    cases hread : readSector env dev (gptLba dev h i) with
    | none => rfl
    | some sector =>
      have hsector : gptSector env dev h i = sector := by rw [gptSector, hread]; rfl
      have hempty : (List.range 16).all (gptEntry env dev h sector i · = 0) ↔
          IsEmptyEntry (gptEntry env dev h sector i) := by
        simp only [all_eq_true, decide_eq_true_eq, IsEmptyEntry]
      rw [if_pos Option.isSome_some, flatMap_cons, flatMap_append, ← ih, hsector, entryCall]
      simp only [hempty]
      split_ifs <;> simp

section

variable (hsize : dev.sectorSize = 512)
include hsize

/-- The sector of an entry is at most one behind that of the entry before, which was read. -/
theorem gptLba_of_mem {n : Nat} (hentry : h.entrySize ≤ 512)
    (hsum : h.entriesLba + j * h.entrySize / 512 < 2 ^ 64) (hi : i ∈ gptRounds env dev h j n) :
    gptLba dev h i = h.entriesLba + i * h.entrySize / 512 := by
  induction n generalizing j with
  | zero => cases hi
  | succ n ih =>
    have hlba : gptLba dev h j = h.entriesLba + j * h.entrySize / 512 := by
      rw [gptLba, hsize, add64, Nat.mod_eq_of_lt hsum]
    rw [gptRounds] at hi
    split_ifs at hi with hsome
    · rcases mem_cons.mp hi with rfl | hi
      · exact hlba
      · obtain ⟨sector, hread⟩ := Option.isSome_iff_exists.mp hsome
        have hlt := readSector_lt hread
        have hbound := dev.count_lt
        exact ih (by rw [Nat.succ_mul]; omega) hi
    · cases hi

section

variable (hlba : gptLba dev h i = h.entriesLba + i * h.entrySize / 512)
include hlba

/-- Inside of the sector the bytes are those on the disk. -/
theorem gptEntry_eq (hj : i * h.entrySize % 512 + j < 512) :
    gptEntry env dev h (gptSector env dev h i) i j = tableEntry env dev h i j := by
  simp only [gptEntry, tableEntry, gptSector, hlba, hsize, if_pos hj]
  rw [show (i * h.entrySize + j) / 512 = i * h.entrySize / 512 by omega,
    show (i * h.entrySize + j) % 512 = i * h.entrySize % 512 + j by omega]

theorem isEmptyEntry_iff (hoff : i * h.entrySize % 512 ≤ 496) :
    IsEmptyEntry (gptEntry env dev h (gptSector env dev h i) i) ↔
      IsEmptyEntry (tableEntry env dev h i) := by
  refine forall₂_congr fun j hj => ?_
  rw [mem_range] at hj
  rw [gptEntry_eq hsize hlba (by omega)]

/-- The reads of a round stay in the buffer. -/
theorem reads_inside_iff : (∀ j ∈ entryReads (gptEntry env dev h (gptSector env dev h i) i),
    i * h.entrySize % 512 + j < 512) ↔ EntryFits env dev h i := by
  rw [entryReads, EntryFits]
  split_ifs with hempty
  · constructor
    · intro hall
      have hlast := hall 15 (by decide)
      exact .inr ⟨by omega, (isEmptyEntry_iff hsize hlba (by omega)).mp hempty⟩
    · intro hfits j hj
      rw [mem_range] at hj
      omega
  constructor
  · intro hall
    have hlast := hall 47 (mem_append_right _ (by decide))
    exact .inl (by omega)
  intro hfits j hj
  have hoff : i * h.entrySize % 512 ≤ 464 := by
    rcases hfits with hoff | ⟨hoff, hzero⟩
    · exact hoff
    · exact absurd ((isEmptyEntry_iff hsize hlba hoff).mpr hzero) hempty
  have hfind :
      (List.range 16).findIdx (gptEntry env dev h (gptSector env dev h i) i · ≠ 0) ≤ 16 :=
    findIdx_le_length
  simp only [mem_append, mem_range, mem_map] at hj
  rcases hj with hj | ⟨k, hk, rfl⟩
  · omega
  · omega

theorem entryCall_eq (hfits : EntryFits env dev h i) :
    entryCall i (gptEntry env dev h (gptSector env dev h i) i) =
      entryCall i (tableEntry env dev h i) := by
  have hempty : IsEmptyEntry (gptEntry env dev h (gptSector env dev h i) i) ↔
      IsEmptyEntry (tableEntry env dev h i) :=
    isEmptyEntry_iff hsize hlba (by rcases hfits with hoff | hoff <;> omega)
  rw [entryCall, entryCall]
  rcases hfits with hoff | ⟨hoff, hzero⟩
  · have hword : ∀ a, a ≤ 40 → readLE (gptEntry env dev h (gptSector env dev h i) i) a 8 =
        readLE (tableEntry env dev h i) a 8 := fun a ha =>
      readLE_congr fun j hj => gptEntry_eq hsize hlba (by omega)
    simp only [hempty, hword 32 (by omega), hword 40 (by omega)]
  · rw [if_pos (hempty.mpr hzero), if_pos hzero]

end

/-- **The scan is that of the table on the disk if and only if every entry up to the first sector
    that cannot be read ends in its sector, or is empty and its type does.** -/
theorem gpt_exact_iff (hheader : readGptHeader env dev = some h)
    (hentry : 128 ≤ h.entrySize ∧ h.entrySize ≤ 512) :
    GptExact env dev h ↔ ∀ i ∈ gptRounds env dev h 0 h.entryCount, EntryFits env dev h i := by
  have hlba : ∀ i ∈ gptRounds env dev h 0 h.entryCount,
      gptLba dev h i = h.entriesLba + i * h.entrySize / 512 := by
    have hstart := readGptHeader_lba hheader
    exact fun i hi => gptLba_of_mem hsize hentry.2 (by omega) hi
  constructor
  · intro hexact i hi
    exact (reads_inside_iff hsize (hlba i hi)).mp (hexact.inside i hi)
  intro hfits
  refine ⟨?_, fun i hi => (reads_inside_iff hsize (hlba i hi)).mpr (hfits i hi), ?_⟩
  · rw [scanGpt, hheader]
    dsimp only
    rw [if_neg (by omega), gptLoop_eq]
    rfl
  · exact flatMap_congr fun i hi => entryCall_eq hsize (hlba i hi) (hfits i hi)

end

/-- The table of one entry, `wholeTable`, is read as it is. -/
theorem gpt_exact_whole :
    GptExact ⟨fun lba => some (wholeTable lba), 1, fun _ _ => 0, fun _ => (true, true)⟩
      plainDisk ⟨2, 1, 128⟩ :=
  (gpt_exact_iff rfl (by decide +kernel) (by decide)).mpr (by decide +kernel)

/-- A table of three entries of 240 bytes. Only the last one is used, at the offset 480. -/
def tornTable (lba x : Nat) : UInt8 :=
  if lba = 1 then
    if x < 8 then (['E', 'F', 'I', ' ', 'P', 'A', 'R', 'T'].map Char.toUInt8).getD x 0
    else if x = 72 then 2 else if x = 80 then 3 else if x = 84 then 240 else 0
  else if lba = 2 ∧ x = 480 then 1 else 0

/-- **The sectors of that entry are read from behind the buffer.** -/
theorem gpt_entry_torn :
    let env : Surroundings Nat :=
      ⟨fun lba => some (tornTable lba), 1, fun _ _ => 0, fun _ => (true, true)⟩
    readGptHeader env plainDisk = some ⟨2, 3, 240⟩ ∧ ¬ GptExact env plainDisk ⟨2, 3, 240⟩ := by
  intro env
  refine ⟨by decide +kernel, fun hexact => ?_⟩
  exact absurd (hexact.inside 2 (by decide +kernel) 47 (by decide +kernel)) (by decide)

end DyntKernel.Storage
