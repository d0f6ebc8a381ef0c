/-
  File:      DyntKernel/Mem/Paging.lean
  Subject:   THE PAGE TABLES (mem/mm/paging.c): four levels of 512 entries in physical memory.

  A table is named by its frame number. The kernel dereferences physical addresses through its
  identity map, so a table entry is the 8-byte word at `4096 * t + 8 * i` of physical memory.

  * `entry`, `setEntry`, `present`, `user`, `large`, `tableEntry`, `leafEntry` -- the words;
  * `Mm` -- the physical memory manager, the memory, the kernel root and the APIC base;
  * `Mm.pagingMap`, `Mm.pagingMapLarge`, `Mm.pagingUnmap`, `pagingTranslate`,
    `Mm.pagingNewAddressSpace`, `Mm.freeUserTree`, `Mm.pagingFreeAddressSpace`,
    `Mm.pagingCloneUserSpace`, `Mm.pagingMapLapic` -- the functions of paging.c.
-/
import DyntKernel.Library.Bytes
import DyntKernel.Library.Loop
import DyntKernel.Mem.Pmm
import Mathlib.Data.List.FinRange

namespace DyntKernel.Mem

open Library

/-! ## 1. Entries -/

abbrev Phys := Nat → UInt8

instance neZero512 : NeZero 512 := ⟨by decide⟩

def entry (m : Phys) (t : Nat) (i : Fin 512) : Nat := readLE m (t * 4096 + i * 8) 8

def setEntry (m : Phys) (t : Nat) (i : Fin 512) (e : Nat) : Phys :=
  writeLE m (t * 4096 + i * 8) 8 e

/-- `PAGING_FLAG_PRESENT`. -/
def present (e : Nat) : Bool := e % 2 = 1

/-- `PAGING_FLAG_USER`. -/
def user (e : Nat) : Bool := e / 4 % 2 = 1

/-- `PAGING_FLAG_LARGE`. -/
def large (e : Nat) : Bool := e / 128 % 2 = 1

/-- `e & ~0xFFF`, as a frame number. -/
def entryFrame (e : Nat) : Nat := e / 4096

/-- `e & ~0x1FFFFF`, as a frame number. -/
def largeFrame (e : Nat) : Nat := e / 0x200000 * 512

/-- `table | 0x07`: present, writable, user. -/
def tableEntry (f : Nat) : Nat := f * 4096 ||| 7

/-- `(phys & ~0xFFF) | flags | PAGING_FLAG_PRESENT`. -/
def leafEntry (phys flags : Nat) : Nat := phys * 4096 ||| flags ||| 1

/-- `(phys & ~0x1FFFFF) | flags | PAGING_FLAG_LARGE | PAGING_FLAG_PRESENT`, of an address. -/
def largeEntry (phys flags : Nat) : Nat := phys / 0x200000 * 0x200000 ||| flags ||| 0x80 ||| 1

/-- `(e & ~0x04) | 0x01`: supervisor and present. -/
def supervisorEntry (e : Nat) : Nat := e - e / 4 % 2 * 4 ||| 1

def pml4Idx (a : Nat) : Fin 512 := Fin.ofNat 512 (a / 2 ^ 39)
def pdptIdx (a : Nat) : Fin 512 := Fin.ofNat 512 (a / 2 ^ 30)
def pdIdx (a : Nat) : Fin 512 := Fin.ofNat 512 (a / 2 ^ 21)
def ptIdx (a : Nat) : Fin 512 := Fin.ofNat 512 (a / 2 ^ 12)

/-- `PAGING_USER_BASE`. -/
def pagingUserBase : Nat := 0x40000000

/-- `PROCESS_USER_STACK_TOP`. -/
def processUserStackTop : Nat := 0x4000000000

/-- `PAGING_FLAG_WRITABLE`. -/
def flagWritable : Nat := 2

/-- `PAGING_FLAG_USER | PAGING_FLAG_WRITABLE`. -/
def flagUserWritable : Nat := 6

/-! ## 2. The memory of the machine -/

structure Mm where
  pmm : Pmm
  mem : Phys
  /-- `kernel_cr3`, the boot page tables. -/
  kernelCr3 : Nat
  /-- `g_lapic_base`. -/
  lapicBase : Nat

namespace Mm

/-- `pmm_alloc_frame`. -/
def alloc (s : Mm) : Nat × Mm := (s.pmm.allocFrame.1, { s with pmm := s.pmm.allocFrame.2 })

/-- `pmm_free_frame`. -/
def release (s : Mm) (f : Nat) : Mm := { s with pmm := s.pmm.freeFrame f }

def store (s : Mm) (t : Nat) (i : Fin 512) (e : Nat) : Mm :=
  { s with mem := setEntry s.mem t i e }

/-- `pmm_zero_page`. -/
def zeroPage (s : Mm) (f : Nat) : Mm :=
  if f = 0 then s else { s with mem := blit s.mem (f * 4096) 4096 fun _ => 0 }

/-- `k_memcpy` of one page between two frames. -/
def copyPage (s : Mm) (dst src : Nat) : Mm :=
  { s with mem := blit s.mem (dst * 4096) 4096 fun j => s.mem (src * 4096 + j) }

/-- Allocate a zeroed table and link it into the entry `i` of `t`. -/
def newTable (s : Mm) (t : Nat) (i : Fin 512) : Option Nat × Mm :=
  if s.alloc.1 = 0 then (none, s.alloc.2)
  else (some s.alloc.1, (s.alloc.2.zeroPage s.alloc.1).store t i (tableEntry s.alloc.1))

/-- The table behind the entry `i` of `t`, created if the entry is not present. -/
def nextTable (s : Mm) (t : Nat) (i : Fin 512) : Option Nat × Mm :=
  if present (entry s.mem t i) then (some (entryFrame (entry s.mem t i)), s) else s.newTable t i

/-- `paging_map`. -/
def pagingMap (s : Mm) (cr3 vaddr phys flags : Nat) : Bool × Mm :=
  if vaddr < pagingUserBase ∨ vaddr % 4096 ≠ 0 then (false, s)
  else
    match s.nextTable cr3 (pml4Idx vaddr) with
    | (none, s) => (false, s)
    | (some pdpt, s) =>
      match s.nextTable pdpt (pdptIdx vaddr) with
      | (none, s) => (false, s)
      | (some pd, s) =>
        if present (entry s.mem pd (pdIdx vaddr)) ∧ ¬ large (entry s.mem pd (pdIdx vaddr)) then
          let pt := entryFrame (entry s.mem pd (pdIdx vaddr))
          if present (entry s.mem pt (ptIdx vaddr)) then (false, s)
          else (true, s.store pt (ptIdx vaddr) (leafEntry phys flags))
        else if present (entry s.mem pd (pdIdx vaddr)) then (false, s)
        else
          match s.newTable pd (pdIdx vaddr) with
          | (none, s) => (false, s)
          | (some pt, s) => (true, s.store pt (ptIdx vaddr) (leafEntry phys flags))

/-- `paging_map_large`; `phys` is an address. -/
def pagingMapLarge (s : Mm) (cr3 vaddr phys flags : Nat) : Bool × Mm :=
  if vaddr < pagingUserBase ∨ vaddr % 0x200000 ≠ 0 ∨ phys % 0x200000 ≠ 0 then (false, s)
  else
    match s.nextTable cr3 (pml4Idx vaddr) with
    | (none, s) => (false, s)
    | (some pdpt, s) =>
      match s.nextTable pdpt (pdptIdx vaddr) with
      | (none, s) => (false, s)
      | (some pd, s) =>
        if present (entry s.mem pd (pdIdx vaddr)) then (false, s)
        else (true, s.store pd (pdIdx vaddr) (largeEntry phys flags))

/-- `paging_map_lapic`. -/
def pagingMapLapic (s : Mm) (phys : Nat) : Mm :=
  if s.lapicBase ≠ 0 then s
  else (pagingMapLarge { s with lapicBase := phys } s.kernelCr3 phys phys flagWritable).2

/-- The page of 512 frames behind a huge entry. -/
def hugeFrames (e : Nat) : List Nat := (List.range 512).map (largeFrame e + ·)

/-- `paging_unmap`. -/
def pagingUnmap (s : Mm) (cr3 vaddr : Nat) : Mm :=
  if vaddr < pagingUserBase then s
  else if ¬ present (entry s.mem cr3 (pml4Idx vaddr)) then s
  else
    let pdpt := entryFrame (entry s.mem cr3 (pml4Idx vaddr))
    if ¬ present (entry s.mem pdpt (pdptIdx vaddr)) then s
    else
      let pd := entryFrame (entry s.mem pdpt (pdptIdx vaddr))
      if ¬ present (entry s.mem pd (pdIdx vaddr)) then s
      else if large (entry s.mem pd (pdIdx vaddr)) then
        ((hugeFrames (entry s.mem pd (pdIdx vaddr))).foldl release s).store pd (pdIdx vaddr) 0
      else
        let pt := entryFrame (entry s.mem pd (pdIdx vaddr))
        if present (entry s.mem pt (ptIdx vaddr)) then
          (s.release (entryFrame (entry s.mem pt (ptIdx vaddr)))).store pt (ptIdx vaddr) 0
        else s

end Mm

/-- `paging_translate`: a physical address, 0 if not mapped. -/
def pagingTranslate (m : Phys) (cr3 vaddr : Nat) : Nat :=
  if ¬ present (entry m cr3 (pml4Idx vaddr)) then 0
  else
    let pdpt := entryFrame (entry m cr3 (pml4Idx vaddr))
    if ¬ present (entry m pdpt (pdptIdx vaddr)) then 0
    else
      let pd := entryFrame (entry m pdpt (pdptIdx vaddr))
      if ¬ present (entry m pd (pdIdx vaddr)) then 0
      else if large (entry m pd (pdIdx vaddr)) then
        largeFrame (entry m pd (pdIdx vaddr)) * 4096 + vaddr % 0x200000
      else
        let pt := entryFrame (entry m pd (pdIdx vaddr))
        if ¬ present (entry m pt (ptIdx vaddr)) then 0
        else entryFrame (entry m pt (ptIdx vaddr)) * 4096 + vaddr % 4096

namespace Mm

/-! ## 3. Address spaces -/

/-- The loop over `i = 1 .. 511` of `paging_new_address_space`: the words behind the first one. -/
def copyEntries (s : Mm) (dst src : Nat) : Mm :=
  { s with mem := blit s.mem (dst * 4096 + 8) (511 * 8) fun j => s.mem (src * 4096 + 8 + j) }

/-- The kernel half of a new address space. -/
def kernelHalf (s : Mm) (pml4 pdpt : Nat) : Mm :=
  let s := ((s.zeroPage pml4).zeroPage pdpt).copyEntries pml4 s.kernelCr3
  let kpdpt := entryFrame (entry s.mem s.kernelCr3 0)
  let s := s.store pdpt 0 (supervisorEntry (entry s.mem kpdpt 0))
  s.store pml4 0 (tableEntry pdpt)

/-- `paging_new_address_space` after its two allocations succeeded. -/
def initAddressSpace (s : Mm) (pml4 pdpt : Nat) : Mm :=
  let s := s.kernelHalf pml4 pdpt
  if s.lapicBase ≠ 0 then (s.pagingMapLarge pml4 s.lapicBase s.lapicBase flagWritable).2 else s

/-- `paging_new_address_space`. -/
def pagingNewAddressSpace (s : Mm) : Nat × Mm :=
  let pml4 := s.alloc.1
  let pdpt := s.alloc.2.alloc.1
  let s := s.alloc.2.alloc.2
  if pml4 = 0 ∨ pdpt = 0 then
    let s := if pml4 ≠ 0 then s.release pml4 else s
    let s := if pdpt ≠ 0 then s.release pdpt else s
    (0, s)
  else (pml4, s.initAddressSpace pml4 pdpt)

/-- The frames `free_user_tree` releases for one present entry of a page directory. -/
def pdEntryFrames (m : Phys) (e : Nat) : List Nat :=
  if ¬ present e then []
  else if large e then hugeFrames e
  else
    ((List.finRange 512).filter fun k => present (entry m (entryFrame e) k)).map
      (fun k => entryFrame (entry m (entryFrame e) k)) ++ [entryFrame e]

/-- The frames it releases for the entry `i` of the page directory pointer table. -/
def pdptEntryFrames (m : Phys) (lapicBase pdpt : Nat) (i : Fin 512) : List Nat :=
  if ¬ present (entry m pdpt i) then []
  -- never free the LAPIC MMIO "frames" behind a kernel device map
  else if lapicBase ≠ 0 ∧ i.val = lapicBase / 2 ^ 30 % 2 ^ 32 then []
  else
    let pd := entryFrame (entry m pdpt i)
    (List.finRange 512).flatMap (fun j => pdEntryFrames m (entry m pd j)) ++ [pd]

/-- All frames `free_user_tree` releases, in its order. It changes no table while it walks them,
    so the list can be read off first. -/
def userTreeFrames (m : Phys) (lapicBase cr3 : Nat) : List Nat :=
  let pdpt := entryFrame (entry m cr3 0)
  ((List.finRange 512).filter (· ≠ 0)).flatMap (pdptEntryFrames m lapicBase pdpt) ++ [pdpt, cr3]

def freeUserTree (s : Mm) (cr3 : Nat) : Mm :=
  (userTreeFrames s.mem s.lapicBase cr3).foldl release s

/-- `paging_free_address_space`. -/
def pagingFreeAddressSpace (s : Mm) (cr3 : Nat) : Mm :=
  if cr3 = 0 ∨ cr3 = s.kernelCr3 then s else s.freeUserTree cr3

/-- One page of `paging_clone_user_space`: a fresh frame, the contents, the mapping. -/
def clonePage (s : Mm) (dst vaddr srcp : Nat) : Bool × Mm :=
  if s.alloc.1 = 0 then (false, s.alloc.2)
  else
    ((s.alloc.2.zeroPage s.alloc.1).copyPage s.alloc.1 srcp).pagingMap dst vaddr s.alloc.1
      flagUserWritable

/-- The loop bodies of `paging_clone_user_space`, from the page tables of the source up. -/
def clonePt (dst base spt : Nat) (k : Fin 512) (s : Mm) : Bool × Mm :=
  if ¬ present (entry s.mem spt k) then (true, s)
  else if ¬ user (entry s.mem spt k) then (true, s)
  else s.clonePage dst (base + k * 4096) (entryFrame (entry s.mem spt k))

def clonePd (dst base spd : Nat) (c : Fin 512) (s : Mm) : Bool × Mm :=
  if ¬ present (entry s.mem spd c) then (true, s)
  else if ¬ user (entry s.mem spd c) then (true, s)
  else if base + c * 2 ^ 21 < pagingUserBase then (true, s)
  else if large (entry s.mem spd c) then
    let srcp := largeFrame (entry s.mem spd c)
    runWhile (fun (k : Fin 512) s => s.clonePage dst (base + c * 2 ^ 21 + k * 4096) (srcp + k))
      (List.finRange 512) s
  else
    runWhile (clonePt dst (base + c * 2 ^ 21) (entryFrame (entry s.mem spd c)))
    (List.finRange 512) s

def clonePdpt (dst base spdpt : Nat) (b : Fin 512) (s : Mm) : Bool × Mm :=
  if ¬ present (entry s.mem spdpt b) then (true, s)
  else
    runWhile (clonePd dst (base + b * 2 ^ 30) (entryFrame (entry s.mem spdpt b)))
    (List.finRange 512) s

def clonePml4 (src dst : Nat) (a : Fin 512) (s : Mm) : Bool × Mm :=
  if ¬ present (entry s.mem src a) then (true, s)
  else
    runWhile (clonePdpt dst (a * 2 ^ 39) (entryFrame (entry s.mem src a))) (List.finRange 512) s

/-- `paging_clone_user_space`. -/
def pagingCloneUserSpace (s : Mm) (src dst : Nat) : Bool × Mm :=
  if src = 0 ∨ dst = 0 then (false, s) else runWhile (clonePml4 src dst) (List.finRange 512) s

end Mm

/-! ## 4. Reading entries after a store -/

@[simp] theorem entry_setEntry (m : Phys) (t t' : Nat) (i i' : Fin 512) (e : Nat) :
    entry (setEntry m t i e) t' i' = if t' = t ∧ i' = i then e % 2 ^ 64 else entry m t' i' := by
  by_cases h : t' = t ∧ i' = i
  · have hw : entry (setEntry m t i e) t i = e % 256 ^ 8 := readLE_writeLE
    rw [show 256 ^ 8 = 2 ^ 64 by decide] at hw
    rw [h.1, h.2, hw]
    exact (if_pos ⟨rfl, rfl⟩).symm
  · rw [if_neg h, entry, entry, setEntry, writeLE, readLE_blit_of_disjoint]
    rcases Nat.lt_trichotomy t' t with hlt | rfl | hgt
    · omega
    · omega
    · omega

/-- A store inside one frame leaves the entries of every other frame alone. -/
theorem entry_blit_of_ne {m : Phys} {f a n t : Nat} {data : Nat → UInt8} (h : t ≠ f)
    (ha : f * 4096 ≤ a) (hn : a + n ≤ f * 4096 + 4096) (i : Fin 512) :
    entry (blit m a n data) t i = entry m t i := by
  rw [entry, entry, readLE_blit_of_disjoint]
  rcases Nat.lt_or_gt_of_ne h with hlt | hgt <;> omega

theorem entry_zero {m : Phys} {f : Nat} (i : Fin 512) :
    entry (blit m (f * 4096) 4096 fun _ => 0) f i = 0 := by
  rw [entry, readLE_blit_of_within (by omega), readLE_zero]

/-! ## 5. The bits of the entries that are stored -/

theorem tableEntry_eq (f : Nat) : tableEntry f = f * 4096 + 7 := by
  have h := Nat.two_pow_add_eq_or_of_lt (i := 12) (b := 7) (by decide) f
  rw [tableEntry, Nat.mul_comm]
  exact h.symm

@[simp] theorem present_tableEntry (f : Nat) : present (tableEntry f) = true := by
  rw [tableEntry_eq, present]
  exact decide_eq_true (by omega)

@[simp] theorem large_tableEntry (f : Nat) : large (tableEntry f) = false := by
  rw [tableEntry_eq, large]
  exact decide_eq_false (by omega)

@[simp] theorem entryFrame_tableEntry (f : Nat) : entryFrame (tableEntry f) = f := by
  rw [tableEntry_eq, entryFrame]
  omega

theorem tableEntry_mod {f : Nat} (h : f < pmmMaxFrames) : tableEntry f % 2 ^ 64 = tableEntry f := by
  rw [tableEntry_eq]
  have hmax : pmmMaxFrames = 16777216 := rfl
  omega

end DyntKernel.Mem
