/-
  File:      DyntKernel/Mem/Syscalls.lean
  Subject:   sys_mmap AND sys_munmap AS WHOLE CALLS (arch/x86_64/syscall/syscall_dispatch.c).

  * `userPtrOk` -- the test of a pointer of the caller;
  * `pageRound`, `pagesFrom` -- the lengths and the loops over pages;
  * `Mm.unmapPage`, `Mm.sysMunmap` -- the release of a page and `sys_munmap`;
  * `Mm.mmapPages`, `Mm.sysMmap` -- `sys_mmap` with its rollback.
-/
import DyntKernel.Mem.Paging

namespace DyntKernel.Mem

/-- `PAGING_FLAG_PRESENT | PAGING_FLAG_WRITABLE | PAGING_FLAG_USER`. -/
def mmapFlags : Nat := 7

/-- `PROCESS_MMAP_START`. -/
def processMmapStart : Nat := 0x1000000000

/-- `user_ptr_ok`. -/
def userPtrOk (p len : Nat) : Bool :=
  pagingUserBase ≤ p ∧ p < processUserStackTop ∧ len ≤ 0x1000000000 ∧
    (p + len) % 2 ^ 64 < processUserStackTop

/-- `(len + 4095) & ~4095`, in 64 bits. -/
def pageRound (len : Nat) : Nat := (len + 4095) % 2 ^ 64 / 4096 * 4096

/-- The addresses of the loop `for (va = base; va < stop; va += 4096)`. -/
def pagesFrom (base stop : Nat) : List Nat :=
  (List.range ((stop - base + 4095) / 4096)).map fun k => base + k * 4096

namespace Mm

/-- `pmm_free_frame(paging_translate(..)); paging_unmap(..)`; only the rollback of `sys_mmap`
    releases without looking at the result. -/
def unmapPage (rollback : Bool) (cr3 : Nat) (s : Mm) (va : Nat) : Mm :=
  let phys := pagingTranslate s.mem cr3 va
  (if rollback ∨ phys ≠ 0 then s.release (phys / 4096) else s).pagingUnmap cr3 va

/-- The pages `sys_munmap` releases; none if it refuses its arguments. -/
def munmapPages (addr len : Nat) : List Nat :=
  let len := pageRound len
  let stop := (addr + len) % 2 ^ 64
  if len = 0 ∨ addr < pagingUserBase ∨ processUserStackTop ≤ stop then [] else pagesFrom addr stop

/-- `sys_munmap`. -/
def sysMunmap (s : Mm) (cr3 addr len : Nat) : Mm :=
  (munmapPages addr len).foldl (unmapPage false cr3) s

/-- The loop of `sys_mmap`: the pages that are still to do when no frame is left. -/
def mmapPages (cr3 : Nat) : List Nat → Mm → List Nat × Mm
  | [], s => ([], s)
  | va :: vs, s =>
    if s.alloc.1 = 0 then (va :: vs, s.alloc.2)
    else
      mmapPages cr3 vs ((s.alloc.2.zeroPage s.alloc.1).pagingMap cr3 va s.alloc.1 mmapFlags).2

/-- The pages of a request to `sys_mmap`; none if it is refused. -/
def mmapRequest (cursor len : Nat) : List Nat :=
  let len := pageRound (if len = 0 then 4096 else len)
  let stop := (cursor + len) % 2 ^ 64
  if 0x40000000 < len ∨ processUserStackTop < stop then [] else pagesFrom cursor stop

/-- `sys_mmap`: the new cursor and the memory. -/
def sysMmap (s : Mm) (cr3 cursor len : Nat) : Nat × Mm :=
  let len := pageRound (if len = 0 then 4096 else len)
  let stop := (cursor + len) % 2 ^ 64
  if 0x40000000 < len ∨ processUserStackTop < stop then (cursor, s)
  else
    let vs := pagesFrom cursor stop
    match mmapPages cr3 vs s with
    | ([], s) => (stop, s)
    | (todo, s) => (cursor, (vs.take (vs.length - todo.length)).foldl (unmapPage true cr3) s)

end Mm

end DyntKernel.Mem
