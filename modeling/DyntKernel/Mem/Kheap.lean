/-
  File:      DyntKernel/Mem/Kheap.lean
  Subject:   THE KERNEL HEAP (mem/mm/kheap.c): a first-fit allocator with splitting and coalescing
             over regions that the physical memory manager hands out.

  The headers of the blocks lie in the memory itself, in front of what is handed out. Pointers and
  sizes are 64-bit numbers, computed as the source does. The loops over the list take a bound on
  their rounds (`none`: the bound was too small).

  * `Header`, `header`, `setHeader` -- a `heap_block_t` in memory;
  * `Kheap` -- the memory, `heap_head`, the counter, and the regions got so far;
  * `Supply` -- what `pmm_alloc_contig` answers: nothing, or pages that are not in use;
  * `insertFreeBlock`, `addRegion`, `growHeap`, `unlink`, `coalesce`, `kheapInit`, `kheapAlloc`,
    `kheapFree`.
-/
import DyntKernel.Library.Bytes
import DyntKernel.Library.DoubleList

namespace DyntKernel.Mem.Heap

open Library

/-! ## 1. Blocks in memory -/

/-- `heap_block_t`. -/
structure Header where
  magic : UInt64
  size : UInt64
  pad : UInt64
  flags : UInt64
  next : UInt64
  prev : UInt64
  deriving DecidableEq, Repr

def heapMagic : UInt64 := 0x484541504B44414E
def heapHeader : UInt64 := 48
def heapMinFree : UInt64 := heapHeader + 16
def heapGrowChunk : Nat := 4 * 1024 * 1024

/-- The word of a header with this index. -/
def Header.word (h : Header) : Nat → UInt64
  | 0 => h.magic
  | 1 => h.size
  | 2 => h.pad
  | 3 => h.flags
  | 4 => h.next
  | _ => h.prev

/-- The header at an address. -/
def header (m : Nat → UInt8) (b : UInt64) : Header :=
  let field (i : Nat) : UInt64 := .ofNat (readLE m (b.toNat + 8 * i) 8)
  ⟨field 0, field 1, field 2, field 3, field 4, field 5⟩

/-- The memory with a header stored. -/
def setHeader (m : Nat → UInt8) (b : UInt64) (h : Header) : Nat → UInt8 :=
  blit m b.toNat 48 fun j => .ofNat ((h.word (j / 8)).toNat / 256 ^ (j % 8))

def Header.blockFree (h : Header) : Bool := h.flags &&& 1 ≠ 0

/-- `block_set_free`. -/
def Header.setFree (h : Header) (free : Bool) : Header :=
  { h with flags := if free then h.flags ||| 1 else h.flags &&& ~~~1 }

/-- A pointer; 0 is the null pointer. -/
def ptr (p : UInt64) : Option UInt64 := if p = 0 then none else some p

/-- `align_up`. -/
def alignUp (value alignment : UInt64) : UInt64 :=
  let mask := (if alignment = 0 then 16 else alignment) - 1
  (value + mask) &&& ~~~mask

/-! ## 2. The heap -/

/-- The address and the length of a region. -/
abbrev Region : Type := UInt64 × Nat

structure Kheap where
  mem : Nat → UInt8
  head : UInt64
  allocatedBytes : UInt64
  regions : List Region

/-- Pages that lie in the address space, not at 0, and apart from the regions in use. -/
structure Unused (regions : List Region) (a : UInt64) (len : Nat) : Prop where
  page : a.toNat % 4096 = 0
  pos : 0 < a.toNat
  fits : a.toNat + len ≤ 2 ^ 64
  apart : ∀ r ∈ regions, a.toNat + len ≤ r.1.toNat ∨ r.1.toNat + r.2 ≤ a.toNat

/-- **What `pmm_alloc_contig` answers**, with the regions the heap has got and the length it asks
    for: 0, or unused pages. -/
structure Supply where
  answer : List Region → Nat → UInt64
  unused : ∀ regions len, answer regions len ≠ 0 → Unused regions (answer regions len) len

namespace Kheap

variable (s : Kheap)

/-- The header of a block. -/
@[irreducible] def block (b : UInt64) : Header := header s.mem b

/-- Stores into fields of a header; the other ones are stored as they were. -/
def edit (b : UInt64) (f : Header → Header) : Kheap :=
  { s with mem := setHeader s.mem b (f (s.block b)) }

/-- The links: the head is the link of `none`. -/
def next : Option UInt64 → Option UInt64
  | none => ptr s.head
  | some b => ptr (s.block b).next

def prev (b : UInt64) : Option UInt64 := ptr (s.block b).prev

/-- `if (p) p->prev = v;` -/
def setPrev (p v : UInt64) : Kheap := if p ≠ 0 then s.edit p fun h => { h with prev := v } else s

/-- `insert_free_block`. -/
def insertFreeBlock (fuel : Nat) (b : UInt64) : Option Kheap :=
  let s := s.edit b fun h => { h.setFree true with magic := heapMagic }
  let cur := s.head
  if cur = 0 ∨ b < cur then
    let s := (s.edit b fun h => { h with next := cur, prev := 0 }).setPrev cur b
    some { s with head := b }
  else do
    let cur ← advance (fun a => s.next (some a)) (fun a => a < b) fuel cur
    let after := (s.block cur).next
    let s := (s.edit b fun h => { h with next := after, prev := cur }).setPrev after b
    some (s.edit cur fun h => { h with next := b })

/-- `add_region`. -/
def addRegion (fuel : Nat) (base : UInt64) (size : Nat) : Option Kheap :=
  if size < heapMinFree.toNat then some s
  else
    (s.edit base fun h =>
      { h with size := .ofNat size - heapHeader, pad := 0 }).insertFreeBlock fuel base

/-- The values of `chunk` in `grow_heap`: 4 MiB, halved while it is not less than 64 KiB. -/
def growChunks : List Nat := (List.range 7).map fun i => heapGrowChunk / 2 ^ i

/-- `grow_heap`. -/
def growHeap (pmm : Supply) (fuel : Nat) : Option (Bool × Kheap) :=
  match growChunks.find? fun chunk => pmm.answer s.regions chunk ≠ 0 with
  | none => some (false, s)
  | some chunk => do
    let base := pmm.answer s.regions chunk
    let s ← { s with regions := (base, chunk) :: s.regions }.addRegion fuel base chunk
    some (true, s)

def unlink (b : UInt64) : Kheap :=
  let h := s.block b
  let s := if h.prev ≠ 0 then s.edit h.prev fun p => { p with next := h.next }
    else { s with head := h.next }
  s.setPrev h.next h.prev

/-- The merging of a block with the next ones. -/
def coalesceNext (b : UInt64) : Nat → Kheap → Option Kheap
  | 0, _ => none
  | n + 1, s =>
    let next := (s.block b).next
    if next ≠ 0 ∧ (s.block next).blockFree ∧ next = b + (s.block b).size then
      coalesceNext b n
      ((s.edit b fun h => { h with size := h.size + (s.block next).size }).unlink next)
    else some s

/-- The merging of a block with the previous one. -/
def coalescePrev (b : UInt64) : Kheap :=
  let prev := (s.block b).prev
  if prev ≠ 0 ∧ (s.block prev).blockFree ∧ b = prev + (s.block prev).size then
    (s.edit prev fun h => { h with size := h.size + (s.block b).size }).unlink b
  else s

def coalesce (fuel : Nat) (b : UInt64) : Option Kheap :=
  (s.coalesceNext b fuel).map fun s => s.coalescePrev b

/-- The search of `kheap_alloc` takes the block. -/
def fits (size alignment b : UInt64) : Bool :=
  let payload := b + heapHeader
  let pad := alignUp payload alignment - payload
  (s.block b).blockFree && !((s.block b).size < heapHeader + pad + size)

/-- The splitting of a block of which `used` bytes are taken. -/
def split (b used : UInt64) : Kheap :=
  let remaining := (s.block b).size - used
  if remaining ≥ heapMinFree then
    let tail := b + used
    let s := s.edit tail fun h =>
      { h.setFree true with size := remaining - heapHeader, pad := 0, magic := heapMagic }
    let s := s.edit tail fun h => { h with next := (s.block b).next, prev := b }
    (s.setPrev (s.block b).next tail).edit b fun h => { h with next := tail, size := used }
  else s

/-- What `kheap_alloc` does with the block it has found. -/
def take (size alignment b : UInt64) : UInt64 × Kheap :=
  let payload := b + heapHeader
  let aligned := alignUp payload alignment
  let pad := aligned - payload
  let used := heapHeader + pad + size
  let s := (s.split b used).edit b fun h => { h.setFree false with pad := pad }
  (aligned, { s with
    allocatedBytes := s.allocatedBytes + used
    mem := blit s.mem aligned.toNat size.toNat fun _ => 0 })

/-- The attempts of `kheap_alloc` that are left: the heap, which may grow, and the block they
    find. -/
def attempts (pmm : Supply) (fuel : Nat) (size alignment : UInt64) :
    Nat → Kheap → Option (Kheap × Option UInt64)
  | 0, s => some (s, none)
  | n + 1, s => do
    match ← scan (fun a => s.next (some a)) (s.fits size alignment) fuel (s.next none) with
    | some b => some (s, some b)
    | none =>
      let (grown, s) ← s.growHeap pmm fuel
      if grown then attempts pmm fuel size alignment n s else some (s, none)

def kheapAlloc (pmm : Supply) (fuel : Nat) (size alignment : UInt64) : Option (UInt64 × Kheap) :=
  if size = 0 then some (0, s)
  else
    let alignment := if alignment = 0 then 16 else alignment
    let size := (size + 15) &&& ~~~15
    (attempts pmm fuel size alignment 2 s).map fun (s, found) =>
      found.elim (0, s) (s.take size alignment)

def kheapFree (fuel : Nat) (p : UInt64) : Option Kheap :=
  if p = 0 then some s
  else
    let b := p - heapHeader
    let b := b - (s.block b).pad
    if (s.block b).magic ≠ heapMagic then some s
    else
      let size := (s.block b).size
      let s := { s with
        allocatedBytes :=
          if s.allocatedBytes ≥ size then s.allocatedBytes - size else s.allocatedBytes }
      (s.edit b fun h => h.setFree true).coalesce fuel b

end Kheap

/-- `kheap_init`, with the memory as it is. -/
def kheapInit (pmm : Supply) (fuel : Nat) (mem : Nat → UInt8) : Option Kheap :=
  (Kheap.growHeap ⟨mem, 0, 0, []⟩ pmm fuel).map (·.2)

end DyntKernel.Mem.Heap
