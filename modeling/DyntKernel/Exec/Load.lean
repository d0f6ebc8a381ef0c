/-
  File:      DyntKernel/Exec/Load.lean
  Subject:   LOADING A PROGRAM (process/process.c): segments, relocations, stack, `execve`.

  The loader stores through physical addresses, so a store is a change of physical memory at the
  address `paging_translate` or `pmm_alloc_frame` returned. Two ghost fields record what a call
  does: the frames it obtained and the stores it made.

  * `Load`, `Loader` -- the memory during a call, and the steps of one;
  * `mapSegment`, `applyRelocations`, `mapUserStack` -- the parts both callers share;
  * `processLoadElf`, `processSetup` -- `process_load_elf`;
  * `buildExecStack`, `processExecve` -- `process_execve`.
-/
import DyntKernel.Exec.Elf
import DyntKernel.Library.Fallible
import DyntKernel.Mem.Syscalls

namespace DyntKernel.Exec

open Library Library.Fallible Mem

/-! ## 1. The memory during a call -/

structure Load where
  mm : Mm
  /-- The frames `pmm_alloc_frame` returned during the call. -/
  got : Nat → Bool
  /-- The stores of process.c: address and number of bytes. -/
  wrote : List (Nat × Nat)

abbrev Loader := Fallible Load

/-- A subtraction of 64-bit words. -/
def sub64 (a n : Nat) : Nat := (a + 2 ^ 64 - n % 2 ^ 64) % 2 ^ 64

/-- The bytes of a 64-bit word. -/
def word (v : Nat) : Nat → UInt8 := fun j => UInt8.ofNat (v / 256 ^ j)

/-- The bytes of a C string, with its terminator. -/
def cString (str : List UInt8) : Nat → UInt8 := fun j => str.getD j 0

namespace Load

/-- After a call that releases none of the frames it obtains. -/
def gain (l : Load) (mm : Mm) : Load :=
  { l with mm := mm, got := fun f => l.got f || (l.mm.pmm.free f && !mm.pmm.free f) }

/-- A store of `n` bytes at a physical address. -/
def write (l : Load) (a n : Nat) (data : Nat → UInt8) : Load :=
  { l with mm := { l.mm with mem := blit l.mm.mem a n data }, wrote := l.wrote ++ [(a, n)] }

/-- `pmm_zero_page`. -/
def zeroPage (l : Load) (f : Nat) : Load :=
  { l with mm := l.mm.zeroPage f, wrote := l.wrote ++ [(f * 4096, 4096)] }

end Load

/-- `pmm_alloc_frame`, by a caller that gives up without a frame. -/
def alloc : Loader Nat := fun l =>
  (if l.mm.alloc.1 = 0 then none else some l.mm.alloc.1, l.gain l.mm.alloc.2)

/-- `paging_map` of a page for the user; the frame is released if that fails. -/
def mapOrFree (cr3 va f : Nat) : Loader Unit := fun l =>
  let r := l.mm.pagingMap cr3 va f flagUserWritable
  if r.1 then (some (), l.gain r.2) else (none, { l.gain r.2 with mm := r.2.release f })

/-- A zeroed frame at the address `va`. -/
def mapFresh (cr3 va : Nat) : Loader Nat := do
  let f ← alloc
  edit (·.zeroPage f)
  mapOrFree cr3 va f
  pure f

/-- A store through `paging_translate`; fails if the address is not mapped. -/
def store (cr3 va n : Nat) (data : Nat → UInt8) : Loader Unit := do
  let l ← state
  let phys := pagingTranslate l.mm.mem cr3 va
  ensure (phys ≠ 0)
  edit (·.write phys n data)

theorem Load.write_mem {l : Load} {a n : Nat} {data : Nat → UInt8} :
    (l.write a n data).mm.mem = blit l.mm.mem a n data := rfl

theorem Load.write_wrote {l : Load} {a n : Nat} {data : Nat → UInt8} :
    (l.write a n data).wrote = l.wrote ++ [(a, n)] := rfl

/-- A store to an address that is mapped. -/
theorem store_run {l : Load} {cr3 va : Nat} (h : pagingTranslate l.mm.mem cr3 va ≠ 0)
    (n : Nat) (data : Nat → UInt8) :
    store cr3 va n data l = (some (), l.write (pagingTranslate l.mm.mem cr3 va) n data) := by
  have hensure : (ensure (pagingTranslate l.mm.mem cr3 va ≠ 0) : Loader Unit) l = (some (), l) := by
    rw [ensure, if_pos h]
  rw [store, bind_some (show state l = (some l, l) from rfl), bind_some hensure]
  rfl

/-- A store is made or the address is not mapped. -/
theorem store_cases (cr3 va n : Nat) (data : Nat → UInt8) (l : Load) :
    store cr3 va n data l = (none, l) ∨ (pagingTranslate l.mm.mem cr3 va ≠ 0 ∧
      store cr3 va n data l = (some (), l.write (pagingTranslate l.mm.mem cr3 va) n data)) := by
  by_cases h : pagingTranslate l.mm.mem cr3 va ≠ 0
  · exact .inr ⟨h, store_run h n data⟩
  · have hensure : (ensure (pagingTranslate l.mm.mem cr3 va ≠ 0) : Loader Unit) l = (none, l) := by
      rw [ensure, if_neg h]
    rw [store, bind_some (show state l = (some l, l) from rfl), bind_none hensure]
    exact .inl rfl

/-! ## 2. Segments -/

/-- `pie_base`. -/
def pieBase (pid : Nat) : Nat :=
  let x := (pid * 0x9E3779B97F4A7C15 + 0x1234567) % 2 ^ 64
  pagingUserBase + x % 0x20000000 / 0x200000 * 0x200000

/-- The part of the page `va` a segment at `vaddr` has in the file. -/
def fileRange (seg : Segment) (vaddr va : Nat) : Nat × Nat :=
  (max vaddr va, min ((vaddr + seg.filesz) % 2 ^ 64) (va + 0x1000))

/-- One round of the loop of `map_segment`. -/
def mapSegmentPage (cr3 : Nat) (im : Image) (seg : Segment) (vaddr va : Nat) : Loader Unit := do
  let f ← mapFresh cr3 va
  let (lo, hi) := fileRange seg vaddr va
  if lo < hi then
    edit (·.write (f * 4096 + (lo - va)) (hi - lo) fun j =>
      im.bytes ((seg.offset + (lo - vaddr) + j) % 2 ^ 64))
  else pure ()

/-- The pages of a segment. -/
def segmentPages (seg : Segment) (base : Nat) : List Nat :=
  let vaddr := (base + seg.vaddr) % 2 ^ 64
  pagesFrom (vaddr / 4096 * 4096) (((vaddr + seg.memsz) % 2 ^ 64 + 0xFFF) % 2 ^ 64 / 4096 * 4096)

/-- `map_segment`. -/
def mapSegment (cr3 : Nat) (im : Image) (seg : Segment) (base : Nat) : Loader Unit :=
  (segmentPages seg base).forM (mapSegmentPage cr3 im seg ((base + seg.vaddr) % 2 ^ 64))

/-- `PROCESS_USER_STACK_SIZE`. -/
def processUserStackSize : Nat := 0x40000

/-- The lowest address of the user stack. -/
def stackBase : Nat := processUserStackTop - processUserStackSize

/-- `map_user_stack`. -/
def mapUserStack (cr3 : Nat) : Loader Unit :=
  (pagesFrom stackBase processUserStackTop).forM fun va => do
    let _ ← mapFresh cr3 va
    pure ()

/-! ## 3. Relocations -/

/-- `elf64_rela_t`. -/
structure Rela where
  offset : Nat
  info : Nat
  addend : Nat
deriving Repr, DecidableEq

/-- The relocation `i`. -/
def Image.rela (im : Image) (d : Dynamic) (i : Nat) : Rela :=
  let off := d.relaOffset + i * d.relaEnt
  ⟨im.field off 8, im.field (off + 8) 8, im.field (off + 16) 8⟩

/-- `resolve_symbol`: the address, and whether the symbol is defined. -/
def resolveSymbol (im : Image) (d : Dynamic) (sym base : Nat) : Nat × Bool :=
  if d.symtabOffset = 0 ∨ d.symEnt < 24 then (0, false)
  else
    let off := (d.symtabOffset + sym * d.symEnt) % 2 ^ 64
    if im.size < (off + 24) % 2 ^ 64 then (0, false)
    else if im.field (off + 6) 2 = 0 then (0, false)
    else ((base + im.field (off + 8) 8) % 2 ^ 64, true)

/-- The value a relocation stores; `none` if its slot is left untouched. The types are
    `R_X86_64_RELATIVE`, `R_X86_64_GLOB_DAT`, `R_X86_64_JUMP_SLOT` and `R_X86_64_64`. -/
def relocValue (im : Image) (d : Dynamic) (base : Nat) (r : Rela) : Option Nat :=
  let type := r.info % 2 ^ 32
  let sym := resolveSymbol im d (r.info / 2 ^ 32) base
  if type = 8 then some ((base + r.addend) % 2 ^ 64)
  else if type = 6 ∨ type = 7 then if sym.2 then some sym.1 else none
  else if type = 1 then some ((sym.1 + r.addend) % 2 ^ 64)
  else none

/-- One round of the loop of `apply_relocations`. -/
def applyRelocation (cr3 : Nat) (im : Image) (d : Dynamic) (base i : Nat) : Loader Unit :=
  match relocValue im d base (im.rela d i) with
  | none => pure ()
  | some v => store cr3 ((base + (im.rela d i).offset) % 2 ^ 64) 8 (word v)

/-- The relocations of an image: none if it has no usable dynamic section. -/
def Image.relocCount (im : Image) : Nat :=
  if ¬ im.parseDynamic.1 ∨ ¬ im.parseDynamic.2.present then 0
  else if im.parseDynamic.2.relaEnt < 24 then 0
  else im.parseDynamic.2.relaSize / im.parseDynamic.2.relaEnt

/-- `apply_relocations`. -/
def applyRelocations (cr3 : Nat) (im : Image) (base : Nat) : Loader Unit :=
  (List.range im.relocCount).forM (applyRelocation cr3 im im.parseDynamic.2 base)

/-! ## 4. `process_load_elf` -/

/-- Where the image is loaded. -/
def loadBase (pid : Nat) (im : Image) : Nat := if im.type = etDyn then pieBase pid else 0

/-- The steps `process_load_elf` and `process_execve` share. -/
def loadImage (cr3 : Nat) (im : Image) (segs : List Segment) (base : Nat) : Loader Unit := do
  segs.forM fun seg => mapSegment cr3 im seg base
  applyRelocations cr3 im base
  mapUserStack cr3

/-- The segments of a file that was read; `none` if it could not be read or is refused. -/
def fileSegments (file : Option Image) : Option (Image × List Segment) := do
  let im ← file
  if im.size = 0 then none
  else
    let segs ← im.parseSegments
    pure (im, segs)

/-- A store of `process_setup`: skipped if the address is not mapped. -/
def Load.poke (l : Load) (cr3 va n : Nat) (data : Nat → UInt8) : Load := (store cr3 va n data l).2

/-- The stores of `process_setup`. -/
def setupStores (name : List UInt8) : List (Nat × Nat × (Nat → UInt8)) :=
  let top := processUserStackTop
  [(top - 0x2000, name.length + 1, cString name), (top - 16, 16, fun _ => 0), (top - 24, 8, word 0),
    (top - 32, 8, word 0), (top - 40, 8, word (top - 0x2000)), (top - 48, 8, word 1)]

/-- `process_setup`. -/
def processSetup (cr3 : Nat) (name : List UInt8) (l : Load) : Load :=
  (setupStores name).foldl (fun l st => l.poke cr3 st.1 st.2.1 st.2.2) l

/-- `process_load_elf`; `file` is what `vfs_read_file` read into the heap buffer. -/
def processLoadElf (cr3 pid : Nat) (name : List UInt8) (file : Option Image) : Loader Unit :=
  fun l =>
  match fileSegments file with
  | none => (none, l)
  | some (im, segs) =>
    match loadImage cr3 im segs (loadBase pid im) l with
    | (none, l) => (none, l)
    | (some _, l) => (some (), processSetup cr3 name l)

/-! ## 5. `process_execve` -/

/-- The room a string takes on the stack. -/
def stringRoom (str : List UInt8) : Nat := (str.length + 1 + 7) / 8 * 8

/-- `str_cur` after a string was pushed. -/
def nextString (cur : Nat) (str : List UInt8) : Nat := sub64 cur (str.length + 1) / 8 * 8

/-- `str_cur` after several strings. -/
def stringEnd (cur : Nat) (strs : List (List UInt8)) : Nat := strs.foldl nextString cur

/-- The addresses of the strings: the contents of `env_addr` or `arg_addr`. -/
def stringAddrs : Nat → List (List UInt8) → List Nat
  | _, [] => []
  | cur, str :: strs => nextString cur str :: stringAddrs (nextString cur str) strs

/-- A store of `build_exec_stack`. -/
inductive Put where
  /-- On the new stack, through `paging_translate`. -/
  | user (va n : Nat) (data : Nat → UInt8)
  /-- To an element past the end of `env_addr` or `arg_addr`, on the kernel stack. -/
  | slot (a v : Nat)

def put (cr3 : Nat) : Put → Loader Unit
  | .user va n data => store cr3 va n data
  | .slot a v => edit (·.write a 8 (word v))

/-- The stores for a list of strings; `slots` is the address of the array of 128 addresses. -/
def stringPuts (slots cur : Nat) (strs : List (List UInt8)) : List Put :=
  ((stringAddrs cur strs).zip strs).zipIdx.flatMap fun ((a, str), i) =>
    Put.user a (str.length + 1) (cString str) ::
      if 128 ≤ i then [.slot (slots + 8 * i) a] else []

/-- The stores for an array of words from `sp` on. -/
def arrayPuts (sp : Nat) (vs : List Nat) : List Put :=
  vs.zipIdx.map fun (v, i) => .user ((sp + i * 8) % 2 ^ 64) 8 (word v)

/-- The arguments of `process_execve`, copied out of the caller's memory. -/
structure Args where
  argv : List (List UInt8)
  envp : List (List UInt8)
  /-- Where `build_exec_stack` has `env_addr` and `arg_addr` on the kernel stack. -/
  envSlots : Nat
  argSlots : Nat

namespace Args

variable (a : Args)

/-- `total`. -/
def total : Nat :=
  (a.envp.map stringRoom).sum + (a.argv.map stringRoom).sum +
    8 * (5 + a.argv.length + a.envp.length)

/-- `top - pad`. -/
def start : Nat := processUserStackTop - if a.total % 16 ≠ 0 then 8 else 0

def envEnd : Nat := stringEnd a.start a.envp
def argEnd : Nat := stringEnd a.envEnd a.argv

/-- The values `sp` takes, from the pair of `auxv` down to `argc`. -/
def auxAt : Nat := sub64 a.argEnd 16
def envNullAt : Nat := sub64 a.auxAt 8
def envArrayAt : Nat := sub64 a.envNullAt (8 * a.envp.length)
def argNullAt : Nat := sub64 a.envArrayAt 8
def argArrayAt : Nat := sub64 a.argNullAt (8 * a.argv.length)
def argcAt : Nat := sub64 a.argArrayAt 8

/-- The stores of `build_exec_stack`, in its order. -/
def puts : List Put :=
  stringPuts a.envSlots a.start a.envp ++ stringPuts a.argSlots a.envEnd a.argv ++
  [.user a.auxAt 16 fun _ => 0] ++ [.user a.envNullAt 8 (word 0)] ++
  arrayPuts a.envArrayAt (stringAddrs a.start a.envp) ++ [.user a.argNullAt 8 (word 0)] ++
  arrayPuts a.argArrayAt (stringAddrs a.envEnd a.argv) ++ [.user a.argcAt 8 (word a.argv.length)]

end Args

/-- `build_exec_stack`: the stack pointer, 0 counts as a failure. -/
def buildExecStack (cr3 : Nat) (a : Args) : Loader Nat := do
  a.puts.forM (put cr3)
  ensure (a.argcAt ≠ 0)
  pure a.argcAt

/-- `process_execve` for the process with the root `cr3`: the new root. -/
def processExecve (cr3 pid : Nat) (a : Args) (file : Option Image) : Loader Nat := fun l =>
  match fileSegments file with
  | none => (none, l)
  | some (im, segs) =>
    let r := l.mm.pagingNewAddressSpace
    let l := l.gain r.2
    if r.1 = 0 then (none, l)
    else
      match (loadImage r.1 im segs (loadBase pid im) >>= fun _ => buildExecStack r.1 a) l with
      | (none, l) => (none, { l with mm := l.mm.pagingFreeAddressSpace r.1 })
      | (some _, l) => (some r.1, { l with mm := l.mm.pagingFreeAddressSpace cr3 })

end DyntKernel.Exec
