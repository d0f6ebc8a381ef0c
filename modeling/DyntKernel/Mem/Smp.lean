/-
  File:      DyntKernel/Mem/Smp.lean
  Subject:   sys_mmap AND sys_munmap ON SEVERAL CPUS (arch/x86_64/syscall/syscall_dispatch.c).

  Every call of `pmm_alloc_frame` and `pmm_free_frame` is one step, because the memory manager's
  lock serialises them; between two such calls a cpu touches only the page tables of its own
  address space. A cpu is a program counter over these steps.

  * `Pc`, `Cpu`, `Smp` -- the cpus over one memory, with the ghost `owned` of the frames that were
    returned to a cpu and not yet released by it;
  * `Smp.run` -- the next step of the syscall a cpu is in; `Smp.step` -- one event of a run.
-/
import DyntKernel.Library.Runs
import DyntKernel.Mem.Spaces
import DyntKernel.Mem.Syscalls

namespace DyntKernel.Mem

/-- Where a cpu is. `stop` is the end of the loop it is in. -/
inductive Pc where
  | idle
  /-- Head of the loop `pmm_free_frame(paging_translate(..)); paging_unmap(..)`, of `sys_munmap`
      or of the rollback of `sys_mmap`; the rollback releases without looking at the result. -/
  | release (rollback : Bool) (va stop : Nat)
  /-- The first release is done, `paging_unmap` is next. -/
  | unmap (rollback : Bool) (va stop : Nat)
  /-- In `paging_unmap`, frame `k` of a huge page is next. -/
  | unmapHuge (rollback : Bool) (va stop k : Nat)
  /-- Head of the loop of `sys_mmap`. -/
  | mmap (base va stop : Nat)
  /-- In `paging_map` of the frame `phys`, at the table `t` of depth `k`. -/
  | table (base va stop phys k t : Nat)

structure Cpu where
  cr3 : Nat
  mmapCursor : Nat
  pc : Pc

/-- `n` cpus over one memory. -/
structure Smp (n : Nat) where
  mm : Mm
  cpus : Fin n → Cpu
  /-- Returned by `pmm_alloc_frame` to the cpu and not yet released by it. -/
  owned : Fin n → Nat → Bool

namespace Smp

variable {n : Nat}

def setPc (s : Smp n) (c : Fin n) (pc : Pc) : Smp n :=
  { s with cpus := Function.update s.cpus c { s.cpus c with pc := pc } }

/-- A frame was returned to the cpu. -/
def gain (s : Smp n) (c : Fin n) (f : Nat) : Smp n :=
  { s with owned := Function.update s.owned c (Function.update (s.owned c) f true) }

/-- The cpu calls `pmm_free_frame`. -/
def free (s : Smp n) (c : Fin n) (f : Nat) : Smp n :=
  { s with
    mm := s.mm.release f
    owned := Function.update s.owned c (Function.update (s.owned c) f false) }

/-- The index a table of depth `k` is entered with. -/
def levelIdx (va k : Nat) : Fin 512 :=
  if k = 0 then pml4Idx va else if k = 1 then pdptIdx va else pdIdx va

/-- A new table for the cpu, below the entry `i` of `t`. -/
def newTable (s : Smp n) (c : Fin n) (t : Nat) (i : Fin 512) : Option Nat × Smp n :=
  match s.mm.newTable t i with
  | (none, mm) => (none, { s with mm := mm })
  | (some f, mm) => (some f, { s with mm := mm }.gain c f)

/-- One step of `paging_map` at the table `t` of depth `k`; whatever it returns, `sys_mmap` goes
    on with the next page. -/
def runTable (s : Smp n) (c : Fin n) (base va stop phys k t : Nat) : Smp n :=
  let e := entry s.mm.mem t (levelIdx va k)
  let next := Pc.mmap base (va + 4096) stop
  if k < 2 then
    if present e then s.setPc c (.table base va stop phys (k + 1) (entryFrame e))
    else
      match s.newTable c t (levelIdx va k) with
      | (none, s) => s.setPc c next
      | (some f, s) => s.setPc c (.table base va stop phys (k + 1) f)
  else if present e ∧ ¬ large e then
    if present (entry s.mm.mem (entryFrame e) (ptIdx va)) then s.setPc c next
    else
      { s with mm := s.mm.store (entryFrame e) (ptIdx va) (leafEntry phys mmapFlags) }.setPc c next
  else if present e then s.setPc c next
  else
    match s.newTable c t (levelIdx va k) with
    | (none, s) => s.setPc c next
    | (some pt, s) =>
      { s with mm := s.mm.store pt (ptIdx va) (leafEntry phys mmapFlags) }.setPc c next

/-- `paging_unmap` of a page that is not huge: at most one release. -/
def runUnmap (s : Smp n) (c : Fin n) (va : Nat) : Smp n :=
  let phys := pagingTranslate s.mm.mem (s.cpus c).cr3 va
  { s with
    mm := s.mm.pagingUnmap (s.cpus c).cr3 va
    owned :=
      if phys = 0 then s.owned
      else Function.update s.owned c (Function.update (s.owned c) (phys / 4096) false) }

/-- The entry of the page directory a huge page is mapped by. -/
def hugeEntry (m : Phys) (cr3 va : Nat) : Nat × Nat :=
  let pdpt := entryFrame (entry m cr3 (pml4Idx va))
  let pd := entryFrame (entry m pdpt (pdptIdx va))
  (pd, entry m pd (pdIdx va))

/-- The next step of the syscall the cpu is in. -/
def run (s : Smp n) (c : Fin n) : Option (Smp n) :=
  let cr3 := (s.cpus c).cr3
  match (s.cpus c).pc with
  | .idle => none
  | .release rollback va stop =>
    if stop ≤ va then some (s.setPc c .idle)
    else
      let phys := pagingTranslate s.mm.mem cr3 va
      if rollback ∨ phys ≠ 0 then some ((s.free c (phys / 4096)).setPc c (.unmap rollback va stop))
      else some (s.setPc c (.unmap rollback va stop))
  | .unmap rollback va stop =>
    if hugeAt s.mm.mem cr3 va then some (s.setPc c (.unmapHuge rollback va stop 0))
    else some ((s.runUnmap c va).setPc c (.release rollback (va + 4096) stop))
  | .unmapHuge rollback va stop k =>
    let (pd, e) := hugeEntry s.mm.mem cr3 va
    if k < 512 then
      some ((s.free c (largeFrame e + k)).setPc c (.unmapHuge rollback va stop (k + 1)))
    else
      some ({ s with mm := s.mm.store pd (pdIdx va) 0 }.setPc c
        (.release rollback (va + 4096) stop))
  | .mmap base va stop =>
    if stop ≤ va then
      some { s with cpus := Function.update s.cpus c ⟨cr3, stop, .idle⟩ }
    else if s.mm.alloc.1 = 0 then
      some ({ s with mm := s.mm.alloc.2 }.setPc c (.release true base va))
    else
      let s' := { s with mm := s.mm.alloc.2.zeroPage s.mm.alloc.1 }.gain c s.mm.alloc.1
      if va < pagingUserBase ∨ va % 4096 ≠ 0 then some (s'.setPc c (.mmap base (va + 4096) stop))
      else some (s'.setPc c (.table base va stop s.mm.alloc.1 0 cr3))
  | .table base va stop phys k t => some (s.runTable c base va stop phys k t)

/-- What a cpu may start when it is in no syscall: `sys_munmap`, `sys_mmap`, or the allocation of
    a frame it keeps. -/
inductive Act where
  | munmap (addr len : Nat)
  | mmap (len : Nat)
  | alloc
  | run

/-- The arguments of `sys_munmap`. -/
def startMunmap (s : Smp n) (c : Fin n) (addr len : Nat) : Smp n :=
  let len := pageRound len
  let stop := (addr + len) % 2 ^ 64
  if len = 0 ∨ addr < pagingUserBase ∨ processUserStackTop ≤ stop then s
  else s.setPc c (.release false addr stop)

/-- The arguments of `sys_mmap`. -/
def startMmap (s : Smp n) (c : Fin n) (len : Nat) : Smp n :=
  let len := pageRound (if len = 0 then 4096 else len)
  let base := (s.cpus c).mmapCursor
  let stop := (base + len) % 2 ^ 64
  if 0x40000000 < len ∨ processUserStackTop < stop then s
  else s.setPc c (.mmap base base stop)

/-- `pmm_alloc_frame` by a cpu that keeps the frame. -/
def allocKeep (s : Smp n) (c : Fin n) : Smp n :=
  if s.mm.alloc.1 = 0 then { s with mm := s.mm.alloc.2 }
  else { s with mm := s.mm.alloc.2 }.gain c s.mm.alloc.1

/-- One event of a run: a cpu and what it does. -/
def step (s : Smp n) (ev : Fin n × Act) : Option (Smp n) :=
  match ev.2, (s.cpus ev.1).pc with
  | .munmap addr len, .idle => some (s.startMunmap ev.1 addr len)
  | .mmap len, .idle => some (s.startMmap ev.1 len)
  | .alloc, .idle => some (s.allocKeep ev.1)
  | .run, _ => s.run ev.1
  | _, _ => none

end Smp

end DyntKernel.Mem
