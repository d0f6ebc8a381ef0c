/-
  File:      DyntKernel/Fat/FailedWrites.lean
  Subject:   `fat32_vfs_write_at` WHEN IT FAILS (fs/fat32.c, with fat32_write and
             fat32_update_size).

  The data goes out first, then the entry. What was written stays, and a cluster that was taken
  stays taken: it is behind the chain of the file, or behind nothing when the file had no cluster
  yet. A cluster that the device does not have is taken like any other, and cannot be written.

  * `LoopEnd`, `round_faulty`, `loop_faulty` -- how the loop of `fat32_write` ends, on a device
    that takes every write or when no cluster is taken;
  * `TablesKept` -- the bytes in front of the clusters are kept;
  * `loop_leak` -- a device on which a new cluster is lost;
  * `Reachable` -- the clusters that the entries of directories lead to;
  * `WriteUndone` -- the file reads as before and no new cluster is lost;
  * **`write_at_undone_iff`** -- when that holds after a call that fails.
-/
import DyntKernel.Fat.SameFile
import DyntKernel.Fat.WriteFile

namespace DyntKernel.Fat

open Library Prog List

variable {N prev cluster inCluster done base c first fuel k n offset q size x : Nat}
  {v : Volume} {g : Layout}
  {d d₀ d₁ d' : Disk 512} {cs L : List Nat} {p : Position} {path : List UInt8}
  {src data : Nat → UInt8}
  {faults : List Bool}

/-! ## 1. One round -/

/-- A round of the loop, once its cluster is known. -/
def writeRound (v : Volume) (src : Nat → UInt8) (size n prev inCluster done : Nat)
    (next : Nat × Nat) :
    Io (Nat × Nat) := do
  let chunk := min (size - done) (v.bytesPerCluster - inCluster)
  if ← writeChunk v next.2 inCluster chunk fun j => src (done + j) then
    if inCluster + chunk = v.bytesPerCluster then
      writeLoop v src size n next.1 next.2 (← fatReadEntry v next.2) 0 (done + chunk)
    else writeLoop v src size n next.1 prev next.2 (inCluster + chunk) (done + chunk)
  else pure (done, next.1)

theorem writeLoop_next {next : Nat × Nat} {left : List Bool}
    (hlt : done < size)
    (h : runFaulty faults (nextCluster v first prev cluster) d = some ((some next, d₁), left)) :
    runFaulty faults (writeLoop v src size (n + 1) first prev cluster inCluster done) d =
      runFaulty left (writeRound v src size n prev inCluster done next) d₁ := by
  rw [writeLoop, if_pos hlt, runFaulty_bind_of h]
  rfl

theorem writeLoop_none {left : List Bool} (hlt : done < size)
    (h : runFaulty faults (nextCluster v first prev cluster) d = some ((none, d₁), left)) :
    runFaulty faults (writeLoop v src size (n + 1) first prev cluster inCluster done) d =
      some (((done, first), d₁), left) := by
  rw [writeLoop, if_pos hlt, runFaulty_bind_of h]
  rfl

/-- The loop from a position on. -/
def Position.loop (v : Volume) (src : Nat → UInt8) (size n : Nat) (p : Position) : Io (Nat × Nat) :=
  writeLoop v src size n p.first p.prev p.cluster p.inCluster p.done

/-- **The next position** after a piece is written. -/
def Position.after (v : Volume) (size c : Nat) (d : Disk 512) (p : Position) : Position :=
  let chunk := min (size - p.done) (v.bytesPerCluster - p.inCluster)
  if p.inCluster + chunk = v.bytesPerCluster then
    { p with prev := c, cluster := entryAt v d c, inCluster := 0, done := p.done + chunk,
             idx := p.idx + 1 }
  else { p with cluster := c, inCluster := p.inCluster + chunk, done := p.done + chunk }

theorem Position.after_new : (p.after v size c d).new = p.new := by
  rw [Position.after]
  split_ifs <;> rfl

theorem Position.after_done :
    (p.after v size c d).done = p.done + min (size - p.done) (v.bytesPerCluster - p.inCluster) := by
  rw [Position.after]
  split_ifs <;> rfl

/-- A piece is written, and the loop goes on. -/
theorem writeRound_taken (size n : Nat) (hv : v.Sized) (h : Progress v d₀ cs src base d p)
    (hget : (cs ++ p.new)[p.idx]? = some c)
    (hfits : d.Fits (clusterToLba v c) v.sectorsPerCluster) :
    ∃ data,
      Progress v d₀ cs src base (setCluster v d c data) (p.after v size c (setCluster v d c data)) ∧
      ∀ faults, took faults = true →
        runFaulty faults (writeRound v src size n p.prev p.inCluster p.done (p.first, c)) d =
          runFaulty faults.tail ((p.after v size c (setCluster v d c data)).loop v src size n)
            (setCluster v d c data) := by
  have hinside := h.inside
  obtain ⟨data, hdata, hrun⟩ := runFaulty_writeChunk (fun j => src (p.done + j)) hfits
  refine ⟨data, ?_⟩
  by_cases hfull : p.inCluster + min (size - p.done) (v.bytesPerCluster - p.inCluster) =
    v.bytesPerCluster
  · rw [Position.after, if_pos hfull]
    refine ⟨h.advance_next hv hget hfits hdata hfull, fun faults htaken => ?_⟩
    have hchunk := hrun faults
    rw [htaken, if_pos rfl] at hchunk
    rw [writeRound, runFaulty_bind_of hchunk, if_pos rfl, if_pos hfull,
      readOnly_fatReadEntry.runFaulty_bind run_fatReadEntry]
    rfl
  rw [Position.after, if_neg hfull]
  refine ⟨h.advance hv hget hfits hdata (by omega), fun faults htaken => ?_⟩
  have hchunk := hrun faults
  rw [htaken, if_pos rfl] at hchunk
  rw [writeRound, runFaulty_bind_of hchunk, if_pos rfl, if_neg hfull]
  rfl

/-- A piece is refused, and the loop ends. -/
theorem writeRound_refused (hfits : d.Fits (clusterToLba v c) v.sectorsPerCluster)
    (hrefused : took faults = false) :
    runFaulty faults (writeRound v src size n prev inCluster done (first, c)) d =
      some (((done, first), d), faults.tail) := by
  obtain ⟨data, -, hrun⟩ := runFaulty_writeChunk (fun j => src (done + j)) hfits
  have hchunk := hrun faults
  rw [hrefused, if_neg Bool.false_ne_true] at hchunk
  rw [writeRound, runFaulty_bind_of hchunk, if_neg Bool.false_ne_true]
  rfl

/-- The cluster is none of the device, and the loop ends. -/
theorem writeRound_off (hoff : ¬ d.Fits (clusterToLba v c) v.sectorsPerCluster) :
    runFaulty [] (writeRound v src size n prev inCluster done (first, c)) d =
      some (((done, first), d), []) := by
  have hchunk {chunk : Nat} :
      runFaulty [] (writeChunk v c inCluster chunk fun j => src (done + j)) d =
        some ((false, d), []) := by
    rw [writeChunk]
    split_ifs
    · exact runFaulty_blockWrite_off hoff
    · rw [runFaulty_blockRead, Disk.read_of_not_fits hoff]
      rfl
  rw [writeRound, runFaulty_bind_of hchunk, if_neg Bool.false_ne_true]
  rfl

/-! ## 2. The cluster of a round -/

theorem next_valid (hvalid : clusterValid cluster = true) :
    runFaulty faults (nextCluster v first prev cluster) d =
      some ((some (first, cluster), d), faults) := by
  rw [nextCluster, if_pos hvalid]
  rfl

theorem next_full (hvalid : ¬ clusterValid cluster = true) (hfull : firstFree v d = 0) :
    runFaulty faults (nextCluster v first prev cluster) d = some ((none, d), faults) := by
  rw [nextCluster, if_neg hvalid, runFaulty_bind_of (runFaulty_alloc_full hfull), if_pos rfl]
  rfl

/-- The new cluster cannot be linked, and the write that gives it back is refused too. -/
theorem next_lost (hvalid : ¬ clusterValid cluster = true) (hfree : firstFree v d ≠ 0)
    (hfirst : first ≠ 0) (hbad : v.total ≤ bad) (hprev : d.Fits (entryLba v prev) 1) :
    runFaulty [true, false, false] (nextCluster v first prev cluster) d =
      some ((none, setEntry v d (firstFree v d) eoc), []) := by
  obtain ⟨hge, hlt, hzero⟩ := firstFree_found hfree
  have hfits : (setEntry v d (firstFree v d) eoc).Fits (entryLba v (firstFree v d)) 1 :=
    setEntry_fits.mpr (fits_of_entry_zero hzero)
  have hq : clusterValid (firstFree v d) = true := clusterValid_of hge (by omega)
  have hback : runFaulty [false] (freeChain v (firstFree v d)) (setEntry v d (firstFree v d) eoc) =
      some (((), setEntry v d (firstFree v d) eoc), []) := by
    rw [freeChain, freeChainLoop, if_pos hq, readOnly_fatReadEntry.runFaulty_bind run_fatReadEntry,
      runFaulty_bind_of (runFaulty_fatWriteEntry hfits)]
    rfl
  rw [nextCluster, if_neg hvalid, runFaulty_bind_of (runFaulty_alloc hfree rfl),
    if_neg hfree, if_neg hfirst,
    runFaulty_bind_of (runFaulty_fatWriteEntry (setEntry_fits.mpr hprev))]
  show runFaulty [false] (do freeChain v (firstFree v d); pure none)
    (setEntry v d (firstFree v d) eoc) = _
  rw [runFaulty_bind_of hback]
  rfl

/-! ## 3. The loop -/

/-- The entries of the table besides those of the clusters `L` are as before. -/
def Outside (v : Volume) (d₀ d : Disk 512) (L : List Nat) : Prop :=
  ∀ k, k < v.total → k ∉ L → entryAt v d k = entryAt v d₀ k

theorem Outside.setEntry {value : Nat} (h : Outside v d₀ d L) (hc : c < v.total) (hmem : c ∈ L) :
    Outside v d₀ (setEntry v d c value) L := by
  have hbound : v.total < 2 ^ 30 := Volume.total_lt
  intro k hk hnot
  have hne : k ≠ c := fun heq => hnot (heq ▸ hmem)
  rw [entryAt_setEntry_of_ne (by omega) (by omega) hne]
  exact h k hk hnot

/-- The bytes in front of the clusters are the same. -/
structure TablesKept (v : Volume) (d d' : Disk 512) : Prop where
  device : d'.sectorCount = d.sectorCount
  bytes : ∀ x, x < v.dataStart * 512 → d'.bytes x = d.bytes x

namespace TablesKept

theorem refl : TablesKept v d d := ⟨rfl, fun _ _ => rfl⟩

theorem trans (h : TablesKept v d₀ d) (h' : TablesKept v d d') : TablesKept v d₀ d' :=
  ⟨h'.device.trans h.device, fun x hx => (h'.bytes x hx).trans (h.bytes x hx)⟩

theorem setCluster (hv : v.Sized) (hge : 2 ≤ c) (hc : c < v.total) :
    TablesKept v d (Fat.setCluster v d c data) := by
  have hlba : v.dataStart ≤ clusterToLba v c := by
    rw [hv.clusterToLba_eq hge hc]
    exact Nat.le_add_right v.dataStart _
  refine ⟨Disk.put_sectorCount, fun x hx => ?_⟩
  have hlt : x < clusterToLba v c * 512 := Nat.lt_of_lt_of_le hx (Nat.mul_le_mul_right 512 hlba)
  exact blit_of_out (.inl hlt)

end TablesKept

/-- No cluster is free, or the chain is long enough. -/
def NoNew (v : Volume) (d : Disk 512) (base size : Nat) (L : List Nat) : Prop :=
  TableFull v d ∨ base + size ≤ L.length * v.bytesPerCluster

theorem tableFull_iff (h : v.TablesOn d) : TableFull v d ↔ firstFree v d = 0 := by
  rw [(shows_image h).tableFull, (shows_image h).firstFree]

/-- The tables lie on a device of `N` sectors. -/
structure Sited (v : Volume) (N : Nat) (d : Disk 512) : Prop where
  sectors : d.sectorCount = N
  tables : v.TablesOn d

theorem Sited.fits_iff (h : Sited v N d) : d.Fits (clusterToLba v c) v.sectorsPerCluster ↔
    v.Holds N c :=
  h.sectors ▸ fits_iff_holds

theorem Sited.setCluster (h : Sited v N d) : Sited v N (setCluster v d c data) := by
  refine ⟨setCluster_sectorCount.trans h.sectors, ?_⟩
  rw [Volume.TablesOn, setCluster_sectorCount]
  exact h.tables

/-- The first free cluster is none of the device: no free cluster is. -/
theorem Sited.held_empty (h : Sited v N d) (hv : v.Sized) (hfree : firstFree v d ≠ 0)
    (hoff : ¬ v.Holds N (firstFree v d)) : heldClusters v N (entryAt v d) = ∅ := by
  rw [(shows_image h.tables).firstFree] at hfree hoff
  exact heldClusters_empty hv hfree hoff

/-- **No cluster of the device is free, and all that were are written**; if no other was taken, no
    cluster is free at all. -/
structure HeldDone (v : Volume) (N : Nat) (d : Disk 512) (cs : List Nat) (p : Position) : Prop where
  none : heldClusters v N (entryAt v d) = ∅
  idx : p.idx = cs.length + (p.new.filter fun x => v.Holds N x).length
  full : (∀ x ∈ p.new, v.Holds N x) → TableFull v d

theorem HeldDone.of_full (hfull : TableFull v d) (hend : p.idx = (cs ++ p.new).length)
    (hheld : ∀ x ∈ p.new, v.Holds N x) : HeldDone v N d cs p := by
  refine ⟨Finset.eq_empty_iff_forall_notMem.mpr fun x hx => ?_, ?_, fun _ => hfull⟩
  · obtain ⟨⟨hge, hlt⟩, hzero⟩ := mem_freeClusters.mp (mem_heldClusters.mp hx).1
    exact hfull x hge hlt hzero
  · rw [hend, length_append, filter_eq_self.mpr fun x hx => decide_eq_true (hheld x hx)]

/-- **How the loop ends**: with the bytes done so far in the chain; because all are done or no
    cluster of the device is free, when no write is refused; and without a change of the table, when
    no cluster can be taken. -/
structure LoopEnd (v : Volume) (N : Nat) (d₀ : Disk 512) (cs : List Nat)
    (src : Nat → UInt8) (base size : Nat)
    (faults : List Bool) (d : Disk 512) (p : Position) (d' : Disk 512) (p' : Position) : Prop where
  progress : Progress v d₀ cs src base d' p'
  device : Sited v N d'
  done_le : p'.done ≤ size
  outside : Outside v d₀ d' (cs ++ p'.new)
  held : p'.done = size → ∀ x ∈ p'.new, v.Holds N x
  full : faults = [] → p'.done < size → HeldDone v N d' cs p'
  quiet : NoNew v d base size (cs ++ p.new) → p'.new = p.new ∧ ∀ k, k < v.total →
    entryAt v d' k = entryAt v d k

section Loop

variable (hv : v.Sized) (hbad : v.total ≤ bad) (h : Progress v d₀ cs src base d p)
  (hdev : Sited v N d)
  (hout : Outside v d₀ d (cs ++ p.new))

include hv h hdev

/-- The last cluster of the chain has an entry on the device. -/
theorem prev_fits (hend : p.idx = (cs ++ p.new).length) (hfirst : p.first ≠ 0) :
    p.prev ∈ cs ++ p.new ∧ p.prev < v.total ∧ d.Fits (entryLba v p.prev) 1 := by
  have hne : cs ++ p.new ≠ [] := fun hnil => hfirst (h.empty hnil)
  have hmem : p.prev ∈ cs ++ p.new :=
    List.mem_of_getElem? (h.before (hend ▸ length_pos_iff.mpr hne))
  have hlt := (h.file.inTable _ hmem).2
  exact ⟨hmem, hlt, hdev.tables.entry_fits hv hlt⟩

include hbad hout

/-- A cluster is taken and linked. -/
theorem next_taken (hvalid : ¬ clusterValid p.cluster = true) (hend : p.idx = (cs ++ p.new).length)
    (hfree : firstFree v d ≠ 0) : ∃ d₁ first',
      runFaulty [] (nextCluster v p.first p.prev p.cluster) d =
        some ((some (first', firstFree v d), d₁), []) ∧
      Progress v d₀ cs src base d₁
        { p with first := first', cluster := firstFree v d, new := p.new ++ [firstFree v d] } ∧
      (cs ++ (p.new ++ [firstFree v d]))[p.idx]? = some (firstFree v d) ∧ Sited v N d₁ ∧
      Outside v d₀ d₁ (cs ++ (p.new ++ [firstFree v d])) := by
  obtain ⟨hge, hq, hzero⟩ := firstFree_found hfree
  have hmem : firstFree v d ∈ cs ++ (p.new ++ [firstFree v d]) := by simp
  have hout' :
      Outside v d₀ (setEntry v d (firstFree v d) eoc) (cs ++ (p.new ++ [firstFree v d])) := by
    have hmore : Outside v d₀ d (cs ++ (p.new ++ [firstFree v d])) := fun k hk hnot => by
      refine hout k hk fun hk' => hnot ?_
      rw [← append_assoc]
      exact mem_append_left _ hk'
    exact hmore.setEntry hq hmem
  by_cases hfirst : p.first = 0
  · obtain ⟨hp, hget⟩ := h.started hv hbad hend hge hq hzero hfirst
    refine ⟨_, firstFree v d, ?_, hp, hget, ⟨hdev.sectors, hdev.tables⟩, hout'⟩
    rw [nextCluster, if_neg hvalid, runFaulty_bind_of (runFaulty_alloc hfree rfl),
      if_neg hfree, if_pos hfirst]
    rfl
  obtain ⟨hprev, hprevlt, hfits⟩ := prev_fits hv h hdev hend hfirst
  obtain ⟨hp, hget⟩ := h.linked hv hbad hend hge hq hzero hfirst (setEntry_fits.mpr hfits)
  refine ⟨_, p.first, ?_, hp, hget, ⟨hdev.sectors, hdev.tables⟩, hout'.setEntry hprevlt ?_⟩
  · rw [nextCluster, if_neg hvalid, runFaulty_bind_of (runFaulty_alloc hfree rfl),
      if_neg hfree, if_neg hfirst,
      runFaulty_bind_of (runFaulty_fatWriteEntry (setEntry_fits.mpr hfits))]
    rfl
  · rw [← append_assoc]
    exact mem_append_left _ hprev

end Loop

/-- The cluster that was taken last is none of the device. -/
theorem HeldDone.of_off (hv : v.Sized) (hdev : Sited v N d) (hout : Outside v d₀ d (cs ++ p.new))
    (hend : p.idx = (cs ++ p.new).length) (hheld : ∀ x ∈ p.new, v.Holds N x)
    (hfree : firstFree v d ≠ 0)
    (hoff : ¬ v.Holds N (firstFree v d)) {p₁ : Position} (hidx : p₁.idx = p.idx)
    (hnew : p₁.new = p.new ++ [firstFree v d]) (h₁ : Progress v d₀ cs src base d₁ p₁)
    (hout₁ : Outside v d₀ d₁ (cs ++ p₁.new)) : HeldDone v N d₁ cs p₁ := by
  refine ⟨Finset.eq_empty_iff_forall_notMem.mpr fun x hx => ?_, ?_,
    fun hall => absurd (hall _ ?_) hoff⟩
  · obtain ⟨hfree', hheld'⟩ := mem_heldClusters.mp hx
    obtain ⟨⟨hge, hlt⟩, hzero⟩ := mem_freeClusters.mp hfree'
    have hnot : x ∉ cs ++ p₁.new := fun hmem => h₁.file.used x hmem hzero
    have hnot' : x ∉ cs ++ p.new := fun hmem => hnot (by
      rw [hnew, ← append_assoc]
      exact mem_append_left _ hmem)
    have hold : entryAt v d x = 0 := by
      rw [hout x hlt hnot', ← hout₁ x hlt hnot]
      exact hzero
    have hmem : x ∈ heldClusters v N (entryAt v d) :=
      mem_heldClusters.mpr ⟨mem_freeClusters.mpr ⟨⟨hge, hlt⟩, hold⟩, hheld'⟩
    rw [hdev.held_empty hv hfree hoff] at hmem
    exact absurd hmem (Finset.notMem_empty x)
  · rw [hidx, hend, hnew, length_append, filter_append,
      filter_eq_self.mpr fun x hx => decide_eq_true (hheld x hx), filter_singleton]
    simp [hoff]
  · rw [hnew]
    exact mem_append_right _ (mem_singleton_self _)

/-- **A state of the loop**, on a device that takes every write or when no cluster can be taken. -/
structure LoopState (v : Volume) (N : Nat) (d₀ : Disk 512) (cs : List Nat) (src : Nat → UInt8)
    (base size : Nat) (faults : List Bool) (d : Disk 512) (p : Position) : Prop where
  progress : Progress v d₀ cs src base d p
  device : Sited v N d
  outside : Outside v d₀ d (cs ++ p.new)
  held : ∀ x ∈ p.new, v.Holds N x
  mode : faults = [] ∨ NoNew v d base size (cs ++ p.new)

/-- What is left of the loop comes to its end. -/
def LoopRun (v : Volume) (N : Nat) (d₀ : Disk 512) (cs : List Nat) (src : Nat → UInt8)
    (base size : Nat) (faults : List Bool) (d : Disk 512) (p : Position) (io : Io (Nat × Nat)) :
    Prop :=
  ∃ d' p' left, runFaulty faults io d = some (((p'.done, p'.first), d'), left) ∧
    (NoNew v d base size (cs ++ p.new) → TablesKept v d d') ∧
    LoopEnd v N d₀ cs src base size faults d p d' p'

/-- The loop ends where it is. -/
theorem LoopState.stops {io : Io (Nat × Nat)} {left : List Bool}
    (h : LoopState v N d₀ cs src base size faults d p) (hle : p.done ≤ size)
    (hrun : runFaulty faults io d = some (((p.done, p.first), d), left))
    (hfull : faults = [] → p.done < size → HeldDone v N d cs p) :
    LoopRun v N d₀ cs src base size faults d p io :=
  ⟨d, p, left, hrun, fun _ => .refl, h.progress, h.device, hle, h.outside, fun _ => h.held, hfull,
    fun _ => ⟨rfl, fun _ _ => rfl⟩⟩

/-- A round whose cluster is known, before rounds that come to an end. -/
theorem round_faulty (hv : v.Sized) (hcs : ∀ x ∈ cs, v.Holds N x)
    (hrest : ∀ {faults d p}, LoopState v N d₀ cs src base size faults d p → p.done ≤ size →
      size ≤ p.done + n → LoopRun v N d₀ cs src base size faults d p (p.loop v src size n))
    (h : LoopState v N d₀ cs src base size faults d p) (hget : (cs ++ p.new)[p.idx]? = some c)
    (hlt : p.done < size) (hn : size ≤ p.done + (n + 1)) :
    LoopRun v N d₀ cs src base size faults d p
      (writeRound v src size n p.prev p.inCluster p.done (p.first, c)) := by
  have hc := h.progress.file.inTable c (List.mem_of_getElem? hget)
  have hfits : d.Fits (clusterToLba v c) v.sectorsPerCluster := h.device.fits_iff.mpr
    ((mem_append.mp (List.mem_of_getElem? hget)).elim (hcs c) (h.held c))
  cases htook : took faults with
  | false =>
    refine h.stops (Nat.le_of_lt hlt) (writeRound_refused hfits htook) fun hnil => ?_
    subst hnil
    cases htook
  | true =>
    obtain ⟨data, hnext, hrun⟩ := writeRound_taken size n hv h.progress hget hfits
    have hinside := h.progress.inside
    have hsame : ∀ k, k < v.total → entryAt v (setCluster v d c data) k = entryAt v d k :=
      fun k hk => entryAt_setCluster hv hc.1 hc.2 hk
    have hnew : NoNew v d base size (cs ++ p.new) → NoNew v (setCluster v d c data) base size
        (cs ++ (p.after v size c (setCluster v d c data)).new) := by
      rw [Position.after_new]
      refine Or.imp_left fun hfull k hge hk => ?_
      rw [hsame k hk]
      exact hfull k hge hk
    have hstate : LoopState v N d₀ cs src base size faults.tail (setCluster v d c data)
        (p.after v size c (setCluster v d c data)) := by
      refine ⟨hnext, h.device.setCluster, ?_, ?_,
        h.mode.imp (fun hnil => by rw [hnil]; rfl) hnew⟩
      · rw [Position.after_new]
        exact fun k hk hnot => (hsame k hk).trans (h.outside k hk hnot)
      · rw [Position.after_new]
        exact h.held
    obtain ⟨d', p', left, hloop, hkept, hend⟩ := hrest hstate
      (by rw [Position.after_done]; omega) (by rw [Position.after_done]; omega)
    refine ⟨d', p', left, (hrun faults htook).trans hloop,
      fun hquiet => (TablesKept.setCluster hv hc.1 hc.2).trans (hkept (hnew hquiet)),
      hend.progress, hend.device, hend.done_le, hend.outside, hend.held,
      fun hnil => hend.full (by rw [hnil]; rfl), fun hquiet => ?_⟩
    obtain ⟨hpnew, htable⟩ := hend.quiet (hnew hquiet)
    exact ⟨hpnew.trans Position.after_new, fun k hk => (htable k hk).trans (hsame k hk)⟩

/-- **The loop of `fat32_write` comes to its end.** -/
theorem loop_faulty (hv : v.Sized) (hbad : v.total ≤ bad) (hcs : ∀ x ∈ cs, v.Holds N x)
    (h : LoopState v N d₀ cs src base size faults d p) (hdone : p.done ≤ size)
    (hn : size ≤ p.done + n) :
    LoopRun v N d₀ cs src base size faults d p (p.loop v src size n) := by
  induction n generalizing p d faults with
  | zero => exact h.stops hdone rfl fun _ hlt => by omega
  | succ n ih =>
    rw [Position.loop]
    by_cases hlt : p.done < size
    swap
    · rw [writeLoop, if_neg hlt]
      exact h.stops hdone rfl fun _ hlt' => absurd hlt' hlt
    by_cases hvalid : clusterValid p.cluster = true
    · rw [LoopRun, writeLoop_next hlt (next_valid hvalid)]
      exact round_faulty hv hcs ih h (h.progress.get hvalid) hlt hn
    have hend := h.progress.idx_eq hvalid
    have hpos := h.progress.pos
    by_cases hfull : TableFull v d
    · have hzero := (tableFull_iff h.device.tables).mp hfull
      exact h.stops hdone (writeLoop_none hlt (next_full hvalid hzero))
        fun _ _ => .of_full hfull hend h.held
    -- a cluster is needed and there is one: the device takes every write
    have hno : ¬ NoNew v d base size (cs ++ p.new) := by
      rintro (hfull' | hroom)
      · exact hfull hfull'
      · rw [← hend] at hroom
        omega
    obtain rfl := h.mode.resolve_right hno
    have hfree : firstFree v d ≠ 0 := fun hzero =>
      hfull ((tableFull_iff h.device.tables).mpr hzero)
    obtain ⟨d₁, first', hnext, h₁, hget, hdev₁, hout₁⟩ :=
      next_taken hv hbad h.progress h.device h.outside hvalid hend hfree
    rw [LoopRun, writeLoop_next hlt hnext]
    by_cases hh : v.Holds N (firstFree v d)
    · have hheld₁ : ∀ x ∈ p.new ++ [firstFree v d], v.Holds N x := fun x hx => by
        rcases mem_append.mp hx with hx | hx
        · exact h.held x hx
        · rw [mem_singleton.mp hx]
          exact hh
      obtain ⟨d', p', left, hrun, -, hloop⟩ :=
        round_faulty hv hcs ih ⟨h₁, hdev₁, hout₁, hheld₁, .inl rfl⟩ hget hlt hn
      exact ⟨d', p', left, hrun, fun hquiet => absurd hquiet hno, hloop.progress, hloop.device,
        hloop.done_le, hloop.outside, hloop.held, hloop.full, fun hquiet => absurd hquiet hno⟩
    · exact ⟨d₁, _, [], writeRound_off fun hfits => hh (hdev₁.fits_iff.mp hfits),
        fun hquiet => absurd hquiet hno, h₁, hdev₁, hdone, hout₁,
        fun heq => absurd heq (Nat.ne_of_lt hlt),
        fun _ _ => .of_off hv h.device h.outside hend h.held hfree hh rfl rfl h₁ hout₁,
        fun hquiet => absurd hquiet hno⟩

theorem readOnly_skipClusters : (skipClusters v n prev cluster).ReadOnly := by
  induction n generalizing prev cluster with
  | zero => exact ReadOnly.pure
  | succ n ih =>
    rw [skipClusters]
    split_ifs
    · exact readOnly_fatReadEntry.bind fun _ => ih
    · exact ReadOnly.pure

/-- Where the loop starts, on any device. -/
theorem fat32Write_start (h : IsFile v d first cs) (src : Nat → UInt8)
    (offset : Nat) (hsize : 0 < size) :
    ∃ p : Position, Progress v d cs src (writeBase v cs offset) d p ∧ p.done = 0 ∧ p.new = [] ∧
      ∀ faults, runFaulty faults (fat32Write v first offset src size) d =
        runFaulty faults (p.loop v src size size) d := by
  obtain ⟨r, hrun, hstart⟩ := h.start src offset
  refine ⟨_, hstart, rfl, rfl, fun faults => ?_⟩
  rw [fat32Write, if_neg (Nat.ne_of_gt hsize), readOnly_skipClusters.runFaulty_bind hrun]
  rfl

/-- **`fat32_write`**, on a device that takes every write or when no cluster can be taken. -/
theorem fat32Write_faulty (hv : v.Sized) (hbad : v.total ≤ bad)
    (h : IsFile v d first cs) (hdev : Sited v N d)
    (hcs : ∀ x ∈ cs, v.Holds N x) (src : Nat → UInt8) (hsize : 0 < size)
    (hmode : faults = [] ∨ NoNew v d (writeBase v cs offset) size cs) :
    ∃ d' p p' left, runFaulty faults (fat32Write v first offset src size) d =
      some (((p'.done, p'.first), d'), left) ∧
      p.new = [] ∧ (NoNew v d (writeBase v cs offset) size cs → TablesKept v d d') ∧
      LoopEnd v N d cs src (writeBase v cs offset) size faults d p d' p' := by
  obtain ⟨p, hp, hdone, hnew, hrun⟩ := fat32Write_start h src offset hsize
  have hmode' : faults = [] ∨ NoNew v d (writeBase v cs offset) size (cs ++ p.new) := by
    rw [hnew, append_nil]
    exact hmode
  have hheld : ∀ x ∈ p.new, v.Holds N x := by
    rw [hnew]
    exact fun x hx => absurd hx not_mem_nil
  obtain ⟨d', p', left, hloop, hkept, hend⟩ :=
    loop_faulty hv hbad hcs ⟨hp, hdev, fun _ _ _ => rfl, hheld, hmode'⟩ (by omega)
      (Nat.le_add_left size p.done)
  rw [hnew, append_nil] at hkept
  exact ⟨d', p, p', left, (hrun faults).trans hloop, hnew, hkept, hend⟩

/-- **A device on which a new cluster is lost**: it takes the pieces inside the chain and the mark
    of the new cluster, and refuses to link it and to take it back. -/
theorem loop_leak (hv : v.Sized) (hbad : v.total ≤ bad) (h : Progress v d₀ cs src base d p)
    (hdev : Sited v N d)
    (hheld : ∀ x ∈ cs, v.Holds N x) (hnew : p.new = [])
    (hsame : ∀ k, k < v.total → entryAt v d k = entryAt v d₀ k) (hfree : ¬ TableFull v d₀)
    (hcs : cs ≠ []) (hneed : cs.length * v.bytesPerCluster < base + size) (hdone : p.done < size)
    (hn : size ≤ p.done + n) :
    ∃ faults d' p' d₁, runFaulty faults (p.loop v src size n) d =
      some (((p'.done, p'.first), d'), []) ∧
      p'.done < size ∧ Progress v d₀ cs src base d₁ p' ∧ Sited v N d₁ ∧
      (∀ k, k < v.total → entryAt v d₁ k = entryAt v d₀ k) ∧ firstFree v d₁ ≠ 0 ∧
      d' = setEntry v d₁ (firstFree v d₁) eoc := by
  induction n generalizing p d with
  | zero => omega
  | succ n ih =>
    have hpos := h.pos
    rw [Position.loop]
    by_cases hvalid : clusterValid p.cluster = true
    · have hget := h.get hvalid
      have hc := h.file.inTable _ (List.mem_of_getElem? hget)
      have hidx := h.valid_iff.mp hvalid
      rw [hnew, append_nil] at hidx
      have hmem := List.mem_of_getElem? hget
      rw [hnew, append_nil] at hmem
      obtain ⟨data, hnext, hrun⟩ :=
        writeRound_taken size n hv h hget (hdev.fits_iff.mpr (hheld _ hmem))
      have hinside := h.inside
      have hroom : (p.idx + 1) * v.bytesPerCluster ≤ cs.length * v.bytesPerCluster :=
        Nat.mul_le_mul_right _ hidx
      rw [Nat.add_mul, Nat.one_mul] at hroom
      obtain ⟨faults, d', p', d₁, hloop, hrest⟩ :=
        ih hnext hdev.setCluster (Position.after_new.trans hnew)
        (fun k hk => (entryAt_setCluster hv hc.1 hc.2 hk).trans (hsame k hk))
        (by rw [Position.after_done]; omega) (by rw [Position.after_done]; omega)
      refine ⟨true :: faults, d', p', d₁, ?_, hrest⟩
      rw [writeLoop_next hdone (next_valid hvalid), hrun (true :: faults) rfl]
      exact hloop
    have hend := h.idx_eq hvalid
    have hfirst : p.first ≠ 0 := by
      intro hzero
      have hnil : cs ++ p.new = [] := chain_zero (hzero ▸ h.file.chain)
      exact hcs (append_eq_nil_iff.mp hnil).1
    have hq : firstFree v d ≠ 0 := by
      intro hzero
      refine hfree fun k hge hk => ?_
      rw [← hsame k hk]
      exact (tableFull_iff hdev.tables).mpr hzero k hge hk
    obtain ⟨-, -, hfits⟩ := prev_fits hv h hdev hend hfirst
    exact ⟨[true, false, false], _, p, d,
      writeLoop_none hdone (next_lost hvalid hq hfirst hbad hfits), hdone, h,
      hdev, hsame, hq, rfl⟩

/-! ## 4. Clusters that are reachable -/

/-- **A cluster of the chain of an entry.** -/
def Reachable (v : Volume) (g : Layout) (d : Disk 512) (c : Nat) : Prop :=
  ∃ p i it, g.dir p ∧ i < v.slots ∧ (image v d).item p i = some it ∧
    InChain (entryAt v d) it.first c

/-- A cluster that nothing owns is not reachable. -/
theorem not_reachable (h : Tidy v N g none (image v d)) (hfree : g.own x = none) :
    ¬ Reachable v g d x := by
  rintro ⟨c, i, it, hc, hi, hit, hchain⟩
  rcases h.first_own hc hi hit with hzero | ⟨o, hown⟩
  · rw [hzero] at hchain
    exact not_inChain_zero hchain
  · have hx : g.own x = some o := h.own_chain hown hchain
    rw [hfree] at hx
    cases hx

/-- The layout fits a disk with the same directories and the same links of owned clusters. -/
theorem WellFormed.tidy_same (h : WellFormed v g d) (hs : SameDirs v g d d')
    (htable : ∀ c o, g.own c = some o → entryAt v d' c = entryAt v d c) :
    Tidy v d.sectorCount g none (image v d') := by
  refine h.tidy.congr htable fun c i hc hi => .inl ?_
  exact itemOf_congr fun j hj => hs.bytes c hc _ (slot_inside hi hj)

/-! ## 5. The file that is written -/

/-- **The failure left the file as it was and lost no cluster.** -/
structure WriteUndone (v : Volume) (g : Layout) (fuel : Nat) (path : List UInt8)
    (d d' : Disk 512) : Prop where
  file : SameFile v fuel path d d'
  leak : ∀ k, k < v.total → entryAt v d k = 0 → entryAt v d' k ≠ 0 → Reachable v g d' k

/-- The first `n` bytes of the buffer are those that the file has from `base` on. -/
def SameInside (v : Volume) (d : Disk 512) (cs : List Nat) (src : Nat → UInt8)
    (base n fileSize : Nat) : Prop :=
  ∀ x, x < n → base + x < fileSize → src x = content v d cs (base + x)

section Undone

/-- A write changes no directory, when the clusters of the file are none of a directory. -/
theorem WellFormed.sameDirs_of_progress (h : WellFormed v g d) (hout : ∀ c, g.dir c → c ∉ cs)
    (hp : Progress v d cs src base d' p) (hdev : Sited v d.sectorCount d') : SameDirs v g d d' := by
  refine ⟨hdev.sectors, fun c hc j hj => ?_⟩
  obtain ⟨hge, hlt⟩ := h.dir_range hc
  obtain ⟨o, hown⟩ := h.tidy.dir_own c hc
  exact (hp.file.others c hge hlt (h.tidy.used c o hown) (hout c hc)).2 j hj

variable {e : Dirent} (h : WellFormed v g d) (ho : OpenFile v g fuel path d e cs)
  (hp : Progress v d cs src base d' p) (hdev : Sited v d.sectorCount d')

include h ho hp hdev

omit h hdev in
/-- The chain of the entry on the new disk. -/
theorem chain_of_progress (hne : cs ≠ []) : Chain v d' e.firstCluster (cs ++ p.new) := by
  have hchain := hp.file.chain
  have hold := ho.file.chain
  cases cs with
  | nil => exact absurd rfl hne
  | cons y cs =>
    have hfirst : e.firstCluster = p.first := hold.1.trans hchain.1.symm
    rw [hfirst]
    exact hchain

/-- The file is the same when the bytes that were written inside it are. -/
theorem sameFile_of_progress : SameFile v fuel path d d' ↔
    SameInside v d cs src base p.done e.size := by
  have hsize := ho.size_le
  rw [sameFile_iff ho.held hdev.sectors ho.found
    (open_same h (h.sameDirs_of_progress ho.outside hp hdev) ho.found) ho.notDir hsize ho.file.chain
    fun hne => ⟨p.new, chain_of_progress ho hp fun hnil => hne ?_⟩]
  · constructor
    · intro hsame x hx hlt
      rw [← hsame _ hlt, ← (hp.written x hx).2.1, content_append (by omega)]
    intro hsame x hx
    rw [← content_append (by omega : x < cs.length * v.bytesPerCluster)]
    by_cases hin : base ≤ x ∧ x < base + p.done
    · obtain ⟨y, rfl⟩ := Nat.exists_eq_add_of_le hin.1
      rw [(hp.written y (by omega)).2.1]
      exact hsame y (by omega) hx
    · exact hp.kept x (by omega) (by omega)
  · rw [hnil, length_nil, Nat.zero_mul] at hsize
    omega

/-- **What is left of a write that went as far as `p`.** -/
theorem undone_iff (hout : Outside v d d' (cs ++ p.new)) : WriteUndone v g fuel path d d' ↔
      (cs = [] → p.new = []) ∧ SameInside v d cs src base p.done e.size := by
  have hsame := h.sameDirs_of_progress ho.outside hp hdev
  rw [← sameFile_of_progress h ho hp hdev]
  constructor
  · intro hun
    refine ⟨fun hnil => ?_, hun.file⟩
    by_contra hnew
    obtain ⟨q, hq⟩ := exists_mem_of_ne_nil _ hnew
    have hzero := hp.file.fresh q hq
    have hmem : q ∈ cs ++ p.new := mem_append_right _ hq
    -- nothing of the tree has changed, so the new cluster is outside of it
    refine not_reachable (h.tidy_same hsame fun c o hown => ?_) (h.tidy.own_none hzero)
      (hun.leak q (hp.file.inTable q hmem).2 hzero (hp.file.used q hmem))
    refine hout c (h.tidy.range c o hown).2 fun hc => h.tidy.used c o hown ?_
    rw [hnil, nil_append] at hc
    exact hp.file.fresh c hc
  rintro ⟨hnew, hfile⟩
  refine ⟨hfile, fun k hk hzero hused => ?_⟩
  have hmem : k ∈ cs ++ p.new := by
    by_contra hnot
    exact hused ((hout k hk hnot).trans hzero)
  have hne : cs ≠ [] := by
    rintro rfl
    rw [hnew rfl] at hmem
    cases hmem
  obtain ⟨c, i, it, hc, hi, hit, hfirst⟩ := ho.entry
  refine ⟨c, i, it, hc, hi, ?_, ?_⟩
  · rw [← hit]
    exact itemOf_congr fun j hj => hsame.bytes c hc _ (slot_inside hi hj)
  · rw [hfirst]
    exact (chain_iff_linked.mp (chain_of_progress ho hp hne)).inChain hmem

end Undone

/-! ## 6. How far a write goes -/

/-- **How `fat32_write` ends**, also when there is nothing to write. -/
structure WriteEnd (v : Volume) (N : Nat) (d : Disk 512) (cs : List Nat)
    (src : Nat → UInt8) (base size : Nat)
    (faults : List Bool) (d' : Disk 512) (p : Position) : Prop where
  progress : Progress v d cs src base d' p
  device : Sited v N d'
  done_le : p.done ≤ size
  outside : Outside v d d' (cs ++ p.new)
  held : p.done = size → ∀ x ∈ p.new, v.Holds N x
  full : faults = [] → p.done < size → HeldDone v N d' cs p
  quiet : size = 0 ∨ NoNew v d base size cs → p.new = []

theorem write_end (hv : v.Sized) (hbad : v.total ≤ bad)
    (h : IsFile v d first cs) (hdev : Sited v N d)
    (hcs : ∀ x ∈ cs, v.Holds N x) (offset : Nat) (src : Nat → UInt8) (size : Nat)
    (hmode : faults = [] ∨ size = 0 ∨ NoNew v d (writeBase v cs offset) size cs) :
    ∃ d' p left, runFaulty faults (fat32Write v first offset src size) d =
      some (((p.done, p.first), d'), left) ∧
      (faults = [] → left = []) ∧
      (size = 0 ∨ NoNew v d (writeBase v cs offset) size cs → TablesKept v d d') ∧
      WriteEnd v N d cs src (writeBase v cs offset) size faults d' p := by
  rcases Nat.eq_zero_or_pos size with rfl | hsize
  · obtain ⟨r, -, hstart⟩ := h.start src offset
    refine ⟨d, _, faults, ?_, fun hnil => hnil, fun _ => .refl, hstart, hdev,
      Nat.le_refl 0, fun _ _ _ => rfl,
      fun _ x hx => absurd hx not_mem_nil, fun _ hlt => absurd hlt (Nat.lt_irrefl 0), fun _ => rfl⟩
    rw [fat32Write, if_pos rfl]
    rfl
  obtain ⟨d', p, p', left, hrun, hnew, hkept, hend⟩ :=
    fat32Write_faulty hv hbad h hdev hcs src hsize
    (hmode.imp_right fun hor => hor.resolve_left (Nat.ne_of_gt hsize))
  refine ⟨d', p', left, hrun, fun hnil => ?_, fun hor =>
    hkept (hor.resolve_left (Nat.ne_of_gt hsize)),
    hend.progress, hend.device, hend.done_le, hend.outside, hend.held, hend.full, fun hor => ?_⟩
  · subst hnil
    exact (runFaulty_nil.mp hrun).2
  · have hquiet := hend.quiet
    rw [hnew, append_nil] at hquiet
    exact (hquiet (hor.resolve_left (Nat.ne_of_gt hsize))).1

section Ended

variable (h : WriteEnd v N d cs src base size [] d' p)

include h

/-- Everything that fits into the chain is written. -/
theorem WriteEnd.sameInside_iff {n : Nat} (hn : n ≤ cs.length * v.bytesPerCluster) :
    SameInside v d cs src base p.done n ↔ SameInside v d cs src base size n := by
  have hle := h.done_le
  refine ⟨fun hsame x hx hlt => hsame x ?_ hlt, fun hsame x hx hlt => hsame x (by omega) hlt⟩
  by_contra hge
  have hidx := (h.full rfl (by omega)).idx
  have hpos := h.progress.pos
  rw [hidx, Nat.add_mul] at hpos
  omega

/-- A write that takes no cluster needs none, or finds none. -/
theorem WriteEnd.quiet_iff (hused : ∀ c ∈ cs, entryAt v d c ≠ 0) :
    p.new = [] ↔ size = 0 ∨ NoNew v d base size cs := by
  refine ⟨fun hnew => ?_, h.quiet⟩
  have hout := h.outside
  rw [hnew, append_nil] at hout
  rcases Nat.lt_or_ge p.done size with hlt | hge
  · have hfull := (h.full rfl hlt).full (by rw [hnew]; exact fun x hx => absurd hx not_mem_nil)
    refine .inr (.inl fun k hk hkt hzero => ?_)
    by_cases hmem : k ∈ cs
    · exact hused k hmem hzero
    · exact hfull k hk hkt ((hout k hkt hmem).trans hzero)
  · rcases Nat.eq_zero_or_pos size with hzero | hpos
    · exact .inl hzero
    · have hlast := (h.progress.written (size - 1) (by omega)).1
      rw [hnew, append_nil] at hlast
      exact .inr (.inr (by omega))

/-- **Everything is written exactly when the free clusters of the device suffice.** -/
theorem WriteEnd.done_iff (hused : ∀ c ∈ cs, entryAt v d c ≠ 0) : p.done = size ↔
    size = 0 ∨ base + size ≤ (cs.length + (image v d).heldCount v N) * v.bytesPerCluster := by
  have hle := h.done_le
  have hnodup : p.new.Nodup := (nodup_append.mp h.progress.file.nodup).2.1
  constructor
  · intro hdone
    refine (Nat.eq_zero_or_pos size).imp_right fun hpos => ?_
    have hlast := (h.progress.written (size - 1) (by omega)).1
    have hsub : p.new.toFinset ⊆ heldClusters v N (image v d).table := fun x hx => by
      have hmem := mem_toFinset.mp hx
      exact mem_heldClusters.mpr
        ⟨mem_freeClusters.mpr ⟨h.progress.file.inTable x (mem_append_right _ hmem),
        h.progress.file.fresh x hmem⟩, h.held hdone x hmem⟩
    have hlen : (cs ++ p.new).length ≤ cs.length + (image v d).heldCount v N := by
      rw [length_append, ← toFinset_card_of_nodup hnodup]
      exact Nat.add_le_add_left (Finset.card_le_card hsub) _
    have hroom := Nat.mul_le_mul_right v.bytesPerCluster hlen
    omega
  intro hroom
  by_contra hne
  obtain ⟨hnone, hidx, -⟩ := h.full rfl (by omega)
  have hsub : heldClusters v N (image v d).table ⊆ (p.new.filter fun x => v.Holds N x).toFinset :=
    fun x hx => by
    obtain ⟨hfree, hheld⟩ := mem_heldClusters.mp hx
    obtain ⟨⟨hge, hlt⟩, hzero⟩ := mem_freeClusters.mp hfree
    rw [mem_toFinset, mem_filter]
    refine ⟨?_, decide_eq_true hheld⟩
    by_contra hnot
    have hsame :=
      h.outside x hlt fun hmem => (mem_append.mp hmem).elim (fun hcs => hused x hcs hzero) hnot
    have hmem : x ∈ heldClusters v N (entryAt v d') :=
      mem_heldClusters.mpr ⟨mem_freeClusters.mpr ⟨⟨hge, hlt⟩, hsame.trans hzero⟩, hheld⟩
    rw [hnone] at hmem
    exact Finset.notMem_empty x hmem
  have hlen : cs.length + (image v d).heldCount v N ≤ p.idx := by
    rw [hidx]
    exact Nat.add_le_add_left ((Finset.card_le_card hsub).trans (toFinset_card_le _)) _
  have hmul := Nat.mul_le_mul_right v.bytesPerCluster hlen
  have hpos := h.progress.pos
  omega

end Ended

/-! ## 7. The entry -/

/-- The entry of the path can be written: the walk over the array takes the path, and the last
    component has an 8.3 form. -/
def Enterable (path : List UInt8) : Prop :=
  (splitPath path.length path).length ≤ 8 ∧ encodeShortName (lastComponent path) ≠ none

/-- The walk over the array finds what `fat32_open` found, if it takes the path. -/
theorem resolve_of_open {e : Dirent} (hopen : run (fat32Open v fuel path) d = some (some e, d)) :
    (8 < (splitPath path.length path).length ∧ run (resolve v fuel path) d = some (none, d)) ∨
      (splitPath path.length path).length ≤ 8 ∧
      ∃ loc, run (resolve v fuel path) d = some (some loc, d) := by
  rcases Nat.lt_or_ge 8 (splitPath path.length path).length with hmany | hfew
  · refine .inl ⟨hmany, ?_⟩
    rw [resolve, components, if_pos (.inr hmany)]
    rfl
  refine .inr ⟨hfew, ?_⟩
  obtain ⟨d₁, hrun⟩ := finds_resolve.mpr ⟨Nat.not_lt.mpr hfew, (finds_open.mp ⟨d, hopen⟩).2⟩
  rw [resolveDirent] at hrun
  obtain ⟨found, hresolve, hret⟩ := readOnly_resolve.run_bind hrun
  obtain ⟨loc, rfl, -⟩ := Option.map_eq_some_iff.mp (Prod.ext_iff.mp (Option.some.inj hret)).1
  exact ⟨loc, hresolve⟩

/-- What a search finds stands in the cluster it reads, and that lies on the device. -/
theorem locateEntry_fits {name : List UInt8} {loc : Slot}
    (h : run (locateEntry v fuel c name) d = some (some loc, d')) :
    loc.cluster = c ∧ d.Fits (clusterToLba v c) v.sectorsPerCluster := by
  suffices hloop : ∀ acc (u : Option Slot) w d₁,
      (∀ s, u = some s → s.cluster = c ∧ d.Fits (clusterToLba v c) v.sectorsPerCluster) →
      run (readDirectoryLoop v c (searchVisit name) fuel acc u) d = some (w, d₁) →
      ∀ s, w.2 = some s → s.cluster = c ∧ d.Fits (clusterToLba v c) v.sectorsPerCluster by
    rw [locateEntry, readDirectory, run_bind] at h
    obtain ⟨⟨w, d₁⟩, hw, hret⟩ := Option.bind_eq_some_iff.mp h
    have hfound := congrArg Prod.fst (Option.some.inj hret)
    exact hloop [] none w d₁ (fun s hs => by cases hs) hw loc hfound
  clear h
  induction fuel with
  | zero =>
    intro _ _ _ _ _ hrun
    cases hrun
  | succ fuel ih =>
    intro acc u w d₁ hu hrun
    by_cases hvalid : clusterValid c = true
    · by_cases hfits : d.Fits (clusterToLba v c) v.sectorsPerCluster
      · have hcalls : ∀ s, (visitAll (searchVisit name) (diskSlots v d c acc).1 u).2 = some s →
            s.cluster = c ∧ d.Fits (clusterToLba v c) v.sectorsPerCluster := by
          refine visitAll_inv (J := fun u : Option Slot => ∀ s, u = some s → s.cluster = c ∧ _)
            (fun s hs u hu x hx => ?_) hu
          cases u with
          | some y => exact hu x hx
          | none =>
            rw [searchVisit] at hx
            split_ifs at hx
            cases hx
            exact ⟨(mem_clusterSlots hs).1, hfits⟩
        rw [run_round hvalid hfits] at hrun
        split_ifs at hrun
        · cases hrun
          exact hcalls
        · split at hrun
          · cases hrun
            exact hcalls
          · exact ih _ _ _ _ hcalls hrun
      · rw [readDirectoryLoop, if_pos hvalid, run_bind_of run_blockRead,
          Disk.read_of_not_fits hfits] at hrun
        cases hrun
        exact hu
    · rw [readDirectoryLoop, if_neg hvalid] at hrun
      cases hrun
      exact hu

theorem resolve_fits {loc : Slot} (h : run (resolve v fuel path) d = some (some loc, d')) :
    d.Fits (clusterToLba v loc.cluster) v.sectorsPerCluster := by
  rw [resolve] at h
  cases hcomps : components path with
  | none =>
    rw [hcomps] at h
    cases h
  | some r =>
    rw [hcomps] at h
    obtain ⟨dir, -, hlocate⟩ := readOnly_descend.run_bind h
    cases dir with
    | error err => cases hlocate
    | ok dirCluster =>
      obtain ⟨rfl, hfits⟩ := locateEntry_fits hlocate
      exact hfits

/-- **What `fat32_open` finds `fat32_update_size` updates, exactly when it can be entered.** -/
theorem update_of_open {e : Dirent} (first n : Nat)
    (hopen : run (fat32Open v fuel path) d = some (some e, d)) :
    ∃ ok d', run (fat32UpdateSize v fuel path first n) d = some (ok, d') ∧
      (ok = true ↔ Enterable path) := by
  rw [fat32UpdateSize_resolve]
  rcases resolve_of_open hopen with ⟨hmany, hresolve⟩ | ⟨hfew, loc, hresolve⟩
  · rw [run_bind_of hresolve]
    exact ⟨false, d, rfl, fun hok => absurd hok Bool.false_ne_true, fun henter =>
      absurd henter.1 (by omega)⟩
  rw [run_bind_of hresolve]
  dsimp only
  rw [writeDirEntryAt_eq, run_rewriteCluster (resolve_fits hresolve)]
  cases hshort : encodeShortName (lastComponent path) with
  | none =>
    exact ⟨false, d, rfl, fun hok => absurd hok Bool.false_ne_true, fun henter =>
      absurd hshort henter.2⟩
  | some short => exact ⟨true, _, rfl, fun _ => ⟨hfew, by simp [hshort]⟩, fun _ => rfl⟩

/-- A file that `fat32_open` finds can be updated. -/
def Updates (v : Volume) (fuel : Nat) (d : Disk 512) (path : List UInt8) : Prop :=
  ∀ e, Finds (fat32Open v fuel path) d e → e.isDir = false →
    ∀ first n, ∃ d', run (fat32UpdateSize v fuel path first n) d = some (true, d')

/-- **The two walks find the same entry or none, and the file that is found can be updated, exactly
    when a path that leads to an entry ends in a slash just if it has more than eight components,
    and the last component of one that leads to a file has an 8.3 form unless the path ends in a
    slash.** -/
theorem open_resolve_iff (v : Volume) (fuel : Nat) (d : Disk 512) (path : List UInt8) :
    (∀ e, Finds (fat32Open v fuel path) d e ↔ Finds (resolveDirent v fuel path) d e) ∧
        Updates v fuel d path ↔
      (Resolves v fuel d path → (EndsInSlash path ↔ 8 < (splitPath path.length path).length)) ∧
        ∀ e, Finds (walk v fuel (splitPath path.length path) v.rootCluster) d e → e.isDir = false →
          ¬ EndsInSlash path → encodeShortName (lastComponent path) ≠ none := by
  rw [finds_same_iff]
  refine and_congr_right fun hagree =>
    ⟨fun hupdates e hwalk hfile hslash => ?_, fun hshort e hfound hfile first n => ?_⟩
  · have hfound : Finds (fat32Open v fuel path) d e := finds_open.mpr ⟨hslash, hwalk⟩
    obtain ⟨d₁, hopen⟩ := hfound
    obtain ⟨d', hrun⟩ := hupdates e ⟨d₁, hopen⟩ hfile 0 0
    obtain rfl := readOnly_fat32Open.disk hopen
    obtain ⟨ok, d'', hrun', hok⟩ := update_of_open 0 0 hopen
    cases hrun.symm.trans hrun'
    exact (hok.mp rfl).2
  · obtain ⟨hslash, hwalk⟩ := finds_open.mp hfound
    have hfew : (splitPath path.length path).length ≤ 8 :=
      Nat.not_lt.mp fun hmany => hslash ((hagree ⟨e, hwalk⟩).mpr hmany)
    obtain ⟨d₁, hopen⟩ := hfound
    obtain rfl := readOnly_fat32Open.disk hopen
    obtain ⟨ok, d', hrun, hok⟩ := update_of_open first n hopen
    exact ⟨d', by rw [hrun, hok.mpr ⟨hfew, hshort e hwalk hfile hslash⟩]⟩

/-- What is left to do once the data is written. -/
def recordSize (v : Volume) (fuel : Nat) (path : List UInt8) (e : Dirent)
    (offset size : Nat) (r : Nat × Nat) :
    Io (Option Nat) := do
  if r.1 ≠ size then pure none
  else
    let newSize := max e.size ((offset + size) % 2 ^ 32)
    if ← fat32UpdateSize v fuel path r.2 newSize then pure (some newSize) else pure none

theorem vfsWrite_eq {e : Dirent} (offset : Nat) (src : Nat → UInt8)
    (size : Nat) (faults : List Bool)
    (hopen : run (fat32Open v fuel path) d = some (some e, d)) (hfile : e.isDir = false) :
    runFaulty faults (fat32VfsWriteAt v fuel path offset src size) d =
      runFaulty faults (fat32Write v e.firstCluster offset src size >>=
        recordSize v fuel path e offset size) d := by
  rw [fat32VfsWriteAt, readOnly_fat32Open.runFaulty_bind hopen]
  dsimp only
  rw [hfile, if_neg Bool.false_ne_true]
  rfl

/-- A cluster is written back, or nothing changes. -/
theorem rewriteCluster_faulty {f : (Nat → UInt8) → Option (Nat → UInt8)}
    (faults : List Bool) (hv : v.Sized)
    (hge : 2 ≤ c) (hc : c < v.total) (hh : v.Holds d.sectorCount c) :
    ∃ ok d' left, runFaulty faults (rewriteCluster v c f) d = some ((ok, d'), left) ∧
      TablesKept v d d' ∧
      (ok = false → d' = d) ∧
      (took faults = false → ok = false) ∧
      (faults = [] → (ok = true ↔ f (clusterBytes v d c) ≠ none)) := by
  have hfits : d.Fits (clusterToLba v c) v.sectorsPerCluster := fits_iff_holds.mpr hh
  have hread : d.read (clusterToLba v c) v.sectorsPerCluster = some (clusterBytes v d c) :=
    Disk.read_of_fits hfits
  rw [rewriteCluster, runFaulty_blockRead, hread]
  dsimp only
  cases f (clusterBytes v d c) with
  | none => exact ⟨false, d, faults, rfl, .refl, fun _ => rfl, fun _ => rfl, fun _ => by simp⟩
  | some data =>
    refine ⟨_, _, _, runFaulty_writeCluster hfits, ?_,
      fun hok => ?_, fun hok => hok, fun hnil => ?_⟩
    · split_ifs
      · exact .setCluster hv hge hc
      · exact .refl
    · rw [hok, if_neg Bool.false_ne_true]
    · subst hnil
      exact ⟨fun _ => Option.some_ne_none data, fun _ => rfl⟩

section Entry

variable {e : Dirent} (h : WellFormed v g d) (hs : SameDirs v g d d')
  (hopen : run (fat32Open v fuel path) d = some (some e, d))

include h hs hopen

/-- **`fat32_update_size` writes the entry or changes nothing**, on a disk whose directories are
    those of `d`. -/
theorem update_faulty (faults : List Bool) (first n : Nat) :
    ∃ ok d'' left, runFaulty faults (fat32UpdateSize v fuel path first n) d' =
      some ((ok, d''), left) ∧
      TablesKept v d' d'' ∧ (ok = false → d'' = d') ∧ (took faults = false → ok = false) ∧
      (faults = [] → (ok = true ↔ Enterable path)) := by
  rw [fat32UpdateSize_resolve]
  rcases resolve_of_open hopen with ⟨hmany, hresolve⟩ | ⟨hfew, loc, hresolve⟩
  · obtain ⟨r, hresolve', hrel⟩ := resolve_same h hs hresolve
    cases hrel
    rw [readOnly_resolve.runFaulty_bind hresolve']
    refine ⟨false, d', faults, rfl, .refl, fun _ => rfl, fun _ => rfl, fun _ => ?_⟩
    exact ⟨fun hok => absurd hok Bool.false_ne_true, fun henter =>
      absurd henter.1 (Nat.not_le.mpr hmany)⟩
  obtain ⟨r, hresolve', hrel⟩ := resolve_same h hs hresolve
  cases hrel with
  | some halike =>
    rename_i loc'
    rw [readOnly_resolve.runFaulty_bind hresolve']
    dsimp only
    obtain ⟨hge, hlt⟩ := h.loc_range (h.located hresolve)
    have hheld := h.dir_holds (h.located hresolve).1
    rw [halike.cluster] at hge hlt hheld
    rw [writeDirEntryAt_eq]
    obtain ⟨ok, d'', left, hrun, hkept, hsame, hrefused, hok⟩ :=
      rewriteCluster_faulty faults h.sized hge hlt (hs.sectors ▸ hheld)
    refine ⟨ok, d'', left, hrun, hkept, hsame, hrefused, fun hnil => (hok hnil).trans ?_⟩
    rw [Ne, Option.map_eq_none_iff, Enterable]
    exact ⟨fun hname => ⟨hfew, hname⟩, fun henter => henter.2⟩

/-- The size is recorded, or nothing changes. -/
theorem recordSize_faulty (offset size : Nat) (faults : List Bool) (r : Nat × Nat) :
    ∃ res d'' left, runFaulty faults (recordSize v fuel path e offset size r) d' =
      some ((res, d''), left) ∧
      TablesKept v d' d'' ∧ (res = none → d'' = d') ∧
      (r.1 ≠ size ∨ took faults = false → res = none) ∧
      (faults = [] → (res = none ↔ r.1 ≠ size ∨ ¬ Enterable path)) := by
  rw [recordSize]
  by_cases hdone : r.1 ≠ size
  · rw [if_pos hdone]
    exact ⟨none, d', faults, rfl, .refl, fun _ => rfl, fun _ => rfl, fun _ =>
      ⟨fun _ => .inl hdone, fun _ => rfl⟩⟩
  obtain ⟨ok, d'', left, hrun, hkept, hsame, hrefused, hok⟩ :=
    update_faulty h hs hopen faults r.2 (max e.size ((offset + size) % 2 ^ 32))
  rw [if_neg hdone]
  rw [runFaulty_bind_of hrun]
  cases ok with
  | false =>
    refine ⟨none, d'', left, rfl, hkept, fun _ => hsame rfl, fun _ => rfl, fun hnil =>
      ⟨fun _ => .inr fun henter => ?_,
      fun _ => rfl⟩⟩
    exact absurd ((hok hnil).mpr henter) Bool.false_ne_true
  | true =>
    refine ⟨_, d'', left, rfl, hkept, fun hnone => (by cases hnone), fun hor => ?_, fun hnil => ?_⟩
    · exact absurd (hrefused (hor.resolve_left hdone)).symm Bool.false_ne_true
    · exact ⟨fun hnone => (by cases hnone), fun hor =>
        absurd ((hok hnil).mp rfl) (hor.resolve_left hdone)⟩

end Entry

/-! ## 8. When a failure leaves no trace -/

/-- **Writes that leave no trace when they fail**, whatever the device refuses: there is no file, or
    no cluster is taken and inside the file the buffer holds what is there. -/
inductive HarmlessWrite (v : Volume) (d : Disk 512) (offset : Nat)
    (src : Nat → UInt8) (size : Nat) :
    Option Dirent → Prop
  | missing : HarmlessWrite v d offset src size none
  | directory (e : Dirent) (hdir : e.isDir = true) : HarmlessWrite v d offset src size (some e)
  | inside (e : Dirent) (cs : List Nat) (hchain : Chain v d e.firstCluster cs)
      (hroom : size = 0 ∨ NoNew v d (writeBase v cs offset) size cs)
      (hsame : SameInside v d cs src (writeBase v cs offset) size e.size) :
      HarmlessWrite v d offset src size (some e)

/-- **Writes that leave no trace when no write is refused**: those that succeed, for which enough
    clusters of the device are free, and those into a file with clusters where inside the file the
    buffer holds what is there. -/
inductive CleanWrite (v : Volume) (d : Disk 512) (path : List UInt8)
    (offset : Nat) (src : Nat → UInt8)
    (size : Nat) : Option Dirent → Prop
  | succeeds (e : Dirent) (cs : List Nat) (hchain : Chain v d e.firstCluster cs)
      (hroom : size = 0 ∨
        writeBase v cs offset + size ≤ (cs.length + heldFree v d) * v.bytesPerCluster)
      (henter : Enterable path) : CleanWrite v d path offset src size (some e)
  | linked (e : Dirent) (cs : List Nat) (hchain : Chain v d e.firstCluster cs) (hne : cs ≠ [])
      (hsame : SameInside v d cs src (writeBase v cs offset) size e.size) :
      CleanWrite v d path offset src size (some e)

section Calls

variable {e : Dirent} (h : WellFormed v g d) (ho : OpenFile v g fuel path d e cs)

theorem harmlessWrite_iff (hchain : Chain v d e.firstCluster cs) (hfile : e.isDir = false) :
    HarmlessWrite v d offset src size (some e) ↔
    (size = 0 ∨ NoNew v d (writeBase v cs offset) size cs) ∧
      SameInside v d cs src (writeBase v cs offset) size e.size := by
  constructor
  · intro hharm
    cases hharm with
    | directory _ hdir =>
      rw [hfile] at hdir
      cases hdir
    | inside _ cs' hchain' hroom hsame =>
      obtain rfl := hchain.unique hchain'
      exact ⟨hroom, hsame⟩
  · rintro ⟨hroom, hsame⟩
    exact .inside e cs hchain hroom hsame

theorem cleanWrite_iff (hchain : Chain v d e.firstCluster cs) :
    CleanWrite v d path offset src size (some e) ↔ (size = 0 ∨
        writeBase v cs offset + size ≤ (cs.length + heldFree v d) * v.bytesPerCluster) ∧
          Enterable path ∨
      cs ≠ [] ∧ SameInside v d cs src (writeBase v cs offset) size e.size := by
  constructor
  · intro hclean
    cases hclean with
    | succeeds _ cs' hchain' hroom henter =>
      obtain rfl := hchain.unique hchain'
      exact .inl ⟨hroom, henter⟩
    | linked _ cs' hchain' hne hsame =>
      obtain rfl := hchain.unique hchain'
      exact .inr ⟨hne, hsame⟩
  · rintro (⟨hroom, henter⟩ | ⟨hne, hsame⟩)
    · exact .succeeds e cs hchain hroom henter
    · exact .linked e cs hchain hne hsame

include h ho

/-- The call, on a device that takes every write or when no cluster is taken. -/
theorem vfsWrite_faulty (offset : Nat) (src : Nat → UInt8) (size : Nat) (faults : List Bool)
    (hmode : faults = [] ∨ size = 0 ∨ NoNew v d (writeBase v cs offset) size cs) :
    ∃ r d' left d₁ p, runFaulty faults (fat32VfsWriteAt v fuel path offset src size) d =
      some ((r, d'), left) ∧
      WriteEnd v d.sectorCount d cs src (writeBase v cs offset) size faults d₁ p ∧
      (r = none → d' = d₁) ∧
      (faults = [] → (r = none ↔ p.done ≠ size ∨ ¬ Enterable path)) := by
  obtain ⟨d₁, p, left, hwrite, hleft, -, hend⟩ :=
    write_end h.sized h.numbers ho.file ⟨rfl, h.tables⟩ ho.held offset
    src size hmode
  have hsame := h.sameDirs_of_progress ho.outside hend.progress hend.device
  obtain ⟨r, d', left', hrecord, -, hnone, -, hfails⟩ :=
    recordSize_faulty h hsame ho.found offset size left (p.done, p.first)
  refine ⟨r, d', left', d₁, p, ?_, hend, hnone, fun hnil => hfails (hleft hnil)⟩
  rw [vfsWrite_eq offset src size faults ho.found ho.notDir, runFaulty_bind_of hwrite]
  exact hrecord

/-- **A device that takes the data and refuses the entry.** -/
theorem entry_refused (offset : Nat) (src : Nat → UInt8) (size : Nat) :
    ∃ faults left d₁ p, runFaulty faults (fat32VfsWriteAt v fuel path offset src size) d =
      some ((none, d₁), left) ∧
      WriteEnd v d.sectorCount d cs src (writeBase v cs offset) size [] d₁ p := by
  obtain ⟨d₁, p, left, hwrite, -, -, hend⟩ :=
    write_end h.sized h.numbers ho.file ⟨rfl, h.tables⟩ ho.held offset src size (.inl rfl)
  have hsame := h.sameDirs_of_progress ho.outside hend.progress hend.device
  obtain ⟨k, hk⟩ := runFaulty_replicate (runFaulty_nil.mp hwrite).1
  obtain ⟨r, d', left', hrecord, -, hnone, hrefused, -⟩ :=
    recordSize_faulty h hsame ho.found offset size [false] (p.done, p.first)
  obtain rfl := hrefused (.inr rfl)
  obtain rfl := hnone rfl
  refine ⟨List.replicate k true ++ [false], left', d', p, ?_, hend⟩
  rw [vfsWrite_eq offset src size _ ho.found ho.notDir, runFaulty_bind_of (hk [false])]
  exact hrecord

/-- **A device on which a cluster is lost**, when the file has clusters and needs another. -/
theorem link_refused (offset : Nat) (src : Nat → UInt8) (hcs : cs ≠ []) (hsize : size ≠ 0)
    (hroom : ¬ NoNew v d (writeBase v cs offset) size cs) :
    ∃ faults left d', runFaulty faults (fat32VfsWriteAt v fuel path offset src size) d =
      some ((none, d'), left) ∧
      ¬ WriteUndone v g fuel path d d' := by
  rw [NoNew, not_or] at hroom
  obtain ⟨p, hp, hdone, hnew, hstart⟩ :=
    fat32Write_start ho.file src offset (Nat.pos_of_ne_zero hsize)
  obtain ⟨faults, d', p', d₁, hloop, hlt, hp', hdev, htable, hfree, rfl⟩ :=
    loop_leak h.sized h.numbers hp ⟨rfl, h.tables⟩ ho.held hnew (fun _ _ =>
      rfl) hroom.1 hcs (by omega) (by omega)
      (Nat.le_add_left size p.done)
  refine ⟨faults, [], setEntry v d₁ (firstFree v d₁) eoc, ?_, fun hun => ?_⟩
  · have hwrite := (hstart faults).trans hloop
    rw [vfsWrite_eq offset src size faults ho.found ho.notDir, runFaulty_bind_of hwrite, recordSize,
      if_pos (Nat.ne_of_lt hlt)]
    rfl
  obtain ⟨hge, hq, hzero⟩ := firstFree_found hfree
  generalize firstFree v d₁ = q at *
  have hbound : v.total < 2 ^ 30 := Volume.total_lt
  have hfits := fits_of_entry_zero hzero
  have hzero' : entryAt v d q = 0 := (htable q hq).symm.trans hzero
  have hown : g.own q = none := h.tidy.own_none hzero'
  have hsame := h.sameDirs_of_progress ho.outside hp' hdev
  have hsame' : SameDirs v g d (setEntry v d₁ q eoc) := by
    refine ⟨hdev.sectors, fun c hc j hj => ?_⟩
    obtain ⟨hc2, hct⟩ := h.dir_range hc
    rw [clusterBytes_setEntry h.sized hc2 hct hq]
    exact hsame.bytes c hc j hj
  refine not_reachable (h.tidy_same hsame' fun c o hc => ?_) hown (hun.leak q hq hzero' ?_)
  · have hct := (h.tidy.range c o hc).2
    have hne : c ≠ q := by
      rintro rfl
      rw [hown] at hc
      cases hc
    rw [entryAt_setEntry_of_ne (by omega) (by omega) hne]
    exact htable c hct
  · rw [entryAt_setEntry hfits]
    decide

/-- **On every device.** -/
theorem undone_all_iff :
    (∀ faults d' left, runFaulty faults (fat32VfsWriteAt v fuel path offset src size) d =
      some ((none, d'), left) →
      WriteUndone v g fuel path d d') ↔ HarmlessWrite v d offset src size (some e) := by
  rw [harmlessWrite_iff ho.file.chain ho.notDir]
  constructor
  · intro hall
    obtain ⟨faults, left, d₁, p, hrun, hend⟩ := entry_refused h ho offset src size
    obtain ⟨hnew, hsame⟩ :=
      (undone_iff h ho hend.progress hend.device hend.outside).mp (hall faults d₁ left hrun)
    refine ⟨?_, (hend.sameInside_iff ho.size_le).mp hsame⟩
    by_cases hcs : cs = []
    · exact (hend.quiet_iff ho.file.used).mp (hnew hcs)
    · by_contra hroom
      rw [not_or] at hroom
      obtain ⟨faults', left', d', hrun', hlost⟩ := link_refused h ho offset src hcs hroom.1 hroom.2
      exact hlost (hall faults' d' left' hrun')
  rintro ⟨hroom, hsame⟩ faults d' left hrun
  obtain ⟨r, d'', left', d₁, p, hrun', hend, hnone, -⟩ :=
    vfsWrite_faulty h ho offset src size faults (.inr hroom)
  rw [hrun] at hrun'
  obtain ⟨⟨rfl, rfl⟩, rfl⟩ : (none = r ∧ d' = d'') ∧ left = left' := by
    have heq := Prod.ext_iff.mp (Option.some.inj hrun')
    exact ⟨Prod.ext_iff.mp heq.1, heq.2⟩
  obtain rfl := hnone rfl
  refine (undone_iff h ho hend.progress hend.device hend.outside).mpr
    ⟨fun _ => hend.quiet hroom, ?_⟩
  exact fun x hx hlt => hsame x (Nat.lt_of_lt_of_le hx hend.done_le) hlt

/-- **On a device that takes every write.** -/
theorem undone_taken_iff :
    (∀ d', run (fat32VfsWriteAt v fuel path offset src size) d = some (none, d') →
      WriteUndone v g fuel path d d') ↔
        HarmlessWrite v d offset src size (some e) ∨
      CleanWrite v d path offset src size (some e) := by
  rw [harmlessWrite_iff ho.file.chain ho.notDir, cleanWrite_iff ho.file.chain]
  obtain ⟨r, d', left, d₁, p, hrun, hend, hnone, hfails⟩ :=
    vfsWrite_faulty h ho offset src size [] (.inl rfl)
  have hfails := hfails rfl
  rw [Ne, hend.done_iff ho.file.used,
    show (image v d).heldCount v d.sectorCount = heldFree v d from rfl, ← not_and_or] at hfails
  rw [(runFaulty_nil.mp hrun).1]
  cases r with
  | some n =>
    have hsucc := not_not.mp fun hnot => Option.some_ne_none n (hfails.mpr hnot)
    exact ⟨fun _ => .inr (.inl hsucc), fun _ d'' heq => by cases heq⟩
  | none =>
    obtain rfl := hnone rfl
    have hun := undone_iff h ho hend.progress hend.device hend.outside
    rw [hend.sameInside_iff ho.size_le, hend.quiet_iff ho.file.used] at hun
    rw [or_iff_right (hfails.mp rfl)]
    constructor
    · intro hall
      obtain ⟨hnew, hsame⟩ := hun.mp (hall d' rfl)
      by_cases hcs : cs = []
      · exact .inl ⟨hnew hcs, hsame⟩
      · exact .inr ⟨hcs, hsame⟩
    · intro hor d'' heq
      obtain rfl : d' = d'' := (Prod.ext_iff.mp (Option.some.inj heq)).2
      rcases hor with ⟨hroom, hsame⟩ | ⟨hcs, hsame⟩
      · exact hun.mpr ⟨fun _ => hroom, hsame⟩
      · exact hun.mpr ⟨fun hnil => absurd hnil hcs, hsame⟩

end Calls

/-- **When a call of `fat32_vfs_write_at` that fails leaves the file as it was and loses no
    cluster**: on every device, exactly the harmless writes; on a device that takes every write,
    these and the clean ones. -/
theorem write_at_undone_iff {r : Option Dirent} (h : WellFormed v g d) (hfit : SizesFit v g d)
    (hopen : run (fat32Open v fuel path) d = some (r, d)) :
    ((∀ faults d' left, runFaulty faults (fat32VfsWriteAt v fuel path offset src size) d =
      some ((none, d'), left) →
        WriteUndone v g fuel path d d') ↔ HarmlessWrite v d offset src size r) ∧
    ((∀ d', run (fat32VfsWriteAt v fuel path offset src size) d = some (none, d') →
      WriteUndone v g fuel path d d') ↔
        HarmlessWrite v d offset src size r ∨ CleanWrite v d path offset src size r) := by
  have hcases : (HarmlessWrite v d offset src size r ∧ ∀ faults,
        runFaulty faults (fat32VfsWriteAt v fuel path offset src size) d =
          some ((none, d), faults)) ∨
      ∃ e, r = some e ∧ e.isDir = false := by
    cases r with
    | none =>
      refine .inl ⟨.missing, fun faults => ?_⟩
      rw [fat32VfsWriteAt, readOnly_fat32Open.runFaulty_bind hopen]
      rfl
    | some e =>
      cases hdir : e.isDir with
      | true =>
        refine .inl ⟨.directory e hdir, fun faults => ?_⟩
        rw [fat32VfsWriteAt, readOnly_fat32Open.runFaulty_bind hopen]
        dsimp only
        rw [hdir, if_pos rfl]
        rfl
      | false => exact .inr ⟨e, rfl, hdir⟩
  rcases hcases with ⟨hharm, hnone⟩ | ⟨e, rfl, hdir⟩
  · -- without a file nothing is written
    have hall : ∀ faults d' left, runFaulty faults (fat32VfsWriteAt v fuel path offset src size) d =
        some ((none, d'), left) → WriteUndone v g fuel path d d' := by
      intro faults d' left hrun
      rw [hnone] at hrun
      cases hrun
      exact ⟨⟨rfl, fun off dst n t buf d₁ hread => ⟨buf, d₁, hread, fun _ _ => rfl⟩⟩,
        fun k _ hzero hused => absurd hzero hused⟩
    refine ⟨⟨fun _ => hharm, fun _ => hall⟩,
      ⟨fun _ => .inl hharm, fun _ d' hrun => hall [] d' [] ?_⟩⟩
    exact runFaulty_nil.mpr ⟨hrun, rfl⟩
  · obtain ⟨cs, ho⟩ := h.openFile hfit hopen hdir
    exact ⟨undone_all_iff h ho, undone_taken_iff h ho⟩

/-- A root directory with one empty file A, on a volume on which at most the cluster `free` is
    free. -/
def crowdedDisk (free : Nat) : Disk 512 :=
  ⟨128, fun x =>
    if 512 ≤ x ∧ x < 1024 then if (x - 512) / 4 = free then 0 else 0xFF
    else if x = 1024 then 0x41 else if 1024 < x ∧ x ≤ 1035 then 0x20 else 0⟩

theorem crowdedDisk_flat {free : Nat} (hfree : free = 3 ∨ free = 128) :
    Flat smallVolume (fun _ => none) (crowdedDisk free) := by
  rcases hfree with rfl | rfl
  · exact flat_small rfl (by decide +kernel) (by decide +kernel) (by decide +kernel)
  · exact flat_small rfl (by decide +kernel) (by decide +kernel) (by decide +kernel)

theorem crowdedDisk_sizes {free : Nat} (hfree : free = 3 ∨ free = 128) :
    SizesFit smallVolume (flatLayout smallVolume fun _ => none) (crowdedDisk free) := by
  have hsizes : ∀ i, i < smallVolume.slots →
      ((image smallVolume (crowdedDisk free)).item 2 i).all (fun it => it.size = 0) = true := by
    rcases hfree with rfl | rfl
    · decide +kernel
    · decide +kernel
  intro c i it cs hc hi hit _ _
  obtain rfl : c = 2 := hc
  have hsize := hsizes i hi
  rw [hit] at hsize
  rw [show it.size = 0 from of_decide_eq_true hsize]
  exact Nat.zero_le _

/-- The disk fills up after the first cluster of the file, which stays allocated. -/
theorem write_at_leaks :
    WellFormed smallVolume (flatLayout smallVolume fun _ => none) (crowdedDisk 3) ∧
    SizesFit smallVolume (flatLayout smallVolume fun _ => none) (crowdedDisk 3) ∧
    ∃ d', run (fat32VfsWriteAt smallVolume 128 [0x41] 0 (fun _ => 7) 513) (crowdedDisk 3) =
      some (none, d') ∧
      ¬ WriteUndone smallVolume (flatLayout smallVolume fun _ => none) 128 [0x41]
        (crowdedDisk 3) d' := by
  refine ⟨(crowdedDisk_flat (.inl rfl)).wellFormed, crowdedDisk_sizes (.inl rfl), ?_⟩
  have hrun :
      (run (fat32VfsWriteAt smallVolume 128 [0x41] 0 (fun _ => 7) 513)
        (crowdedDisk 3)).map (fun r =>
      (r.1, entryAt smallVolume r.2 3, decide (∀ i, i < smallVolume.slots →
        ((image smallVolume r.2).item 2 i).all (fun it => it.first = 0) = true))) =
          some (none, eoc, true) := by
    decide +kernel
  obtain ⟨⟨r, d'⟩, hr, heq⟩ := Option.map_eq_some_iff.mp hrun
  obtain ⟨rfl, heq⟩ := Prod.ext_iff.mp heq
  obtain ⟨hused, hitems⟩ := Prod.ext_iff.mp heq
  refine ⟨d', hr, fun hun => ?_⟩
  obtain ⟨c, i, it, hc, hi, hit, hchain⟩ := hun.leak 3 (by decide) (by decide +kernel) (by
    rw [show entryAt smallVolume d' 3 = eoc from hused]
    decide)
  obtain rfl : c = 2 := hc
  have hfirst := of_decide_eq_true hitems i hi
  rw [hit] at hfirst
  rw [show it.first = 0 from of_decide_eq_true hfirst] at hchain
  exact not_inChain_zero hchain

/-- On a full disk the write fails at once. -/
theorem write_at_undone_full :
    ∃ d', run (fat32VfsWriteAt smallVolume 128 [0x41] 0 (fun _ => 7) 1) (crowdedDisk 128) =
    some (none, d') ∧
      WriteUndone smallVolume (flatLayout smallVolume fun _ => none) 128 [0x41]
      (crowdedDisk 128) d' := by
  have hfind : (run (fat32Open smallVolume 128 [0x41]) (crowdedDisk 128)).map
      (fun r => r.1.map fun e =>
      (e.firstCluster, e.size)) = some (some (0, 0)) := by decide +kernel
  have hwrite :
      (run (fat32VfsWriteAt smallVolume 128 [0x41] 0 (fun _ => 7) 1)
        (crowdedDisk 128)).map Prod.fst =
      some none := by decide +kernel
  obtain ⟨e, hopen, he⟩ := readOnly_fat32Open.found hfind
  obtain ⟨hfirst, hsize⟩ := Prod.ext_iff.mp he
  obtain ⟨⟨r, d'⟩, hrun, rfl⟩ := Option.map_eq_some_iff.mp hwrite
  have hfull : TableFull smallVolume (crowdedDisk 128) := by
    have hall : ∀ c, c < smallVolume.total → entryAt smallVolume (crowdedDisk 128) c ≠ 0 := by
      decide +kernel
    exact fun c _ hc => hall c hc
  have hharm : HarmlessWrite smallVolume (crowdedDisk 128) 0 (fun _ => 7) 1 (some e) := by
    refine .inside e [] ?_ (.inr (.inl hfull)) fun x _ hlt => ?_
    · rw [show e.firstCluster = 0 from hfirst]
      exact (rfl : clusterValid 0 = false)
    · rw [show e.size = 0 from hsize] at hlt
      omega
  exact ⟨d', hrun,
    (write_at_undone_iff (crowdedDisk_flat (.inr rfl)).wellFormed (crowdedDisk_sizes (.inr rfl))
    hopen).2.mpr (.inl hharm) d' hrun⟩

end DyntKernel.Fat
