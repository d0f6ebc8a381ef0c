/-
  File:      DyntKernel/Exec/Elf.lean
  Subject:   READING AN ELF IMAGE (exec/elf.c).

  An image is the buffer a file was read into: `size` bytes of the file, and behind them whatever
  the kernel heap holds there. Offsets are 64-bit words and wrap as in the source.

  * `Image`, `Image.validate`, `Image.phdr` -- `elf64_validate` and the program headers;
  * `Image.parseSegments` -- `elf64_parse_segments`;
  * `Image.vaddrToOffset`, `Image.parseDynamic` -- `elf64_vaddr_to_offset`, `elf64_parse_dynamic`.
-/
import DyntKernel.Library.Bytes

namespace DyntKernel.Exec

open Library

/-! ## 1. The image and its headers -/

/-- The buffer of 1 MiB a file was read into. -/
structure Image where
  bytes : Nat → UInt8
  size : Nat
  size_le : size ≤ 0x100000

/-- `PT_LOAD`. -/
def ptLoad : Nat := 1

/-- `PT_DYNAMIC`. -/
def ptDynamic : Nat := 2

/-- `ET_EXEC`. -/
def etExec : Nat := 2

/-- `ET_DYN`. -/
def etDyn : Nat := 3

/-- `EM_X86_64`. -/
def emX86 : Nat := 62

/-- `ELF_SEGMENT_MAX`. -/
def elfSegmentMax : Nat := 8

def rangeOk (size off len : Nat) : Bool := off ≤ size ∧ len ≤ size - off

/-- The fields of `elf64_phdr_t` that are read. -/
structure Phdr where
  type : Nat
  offset : Nat
  vaddr : Nat
  filesz : Nat
  memsz : Nat
deriving Repr, DecidableEq

/-- `elf_segment_t`. -/
structure Segment where
  vaddr : Nat
  offset : Nat
  filesz : Nat
  memsz : Nat
deriving Repr, DecidableEq

namespace Image

variable (im : Image)

/-- A little-endian field of `n` bytes. -/
def field (off n : Nat) : Nat := readLE im.bytes (off % 2 ^ 64) n

def type : Nat := im.field 16 2
def machine : Nat := im.field 18 2
def entry : Nat := im.field 24 8
def phoff : Nat := im.field 32 8
def phentsize : Nat := im.field 54 2
def phnum : Nat := im.field 56 2

/-- `elf64_validate`; an ELF header has 64 bytes and a program header 56. -/
def validate : Bool :=
  64 ≤ im.size ∧
  (im.field 0 1 = 0x7F ∧ im.field 1 1 = 0x45 ∧ im.field 2 1 = 0x4C ∧ im.field 3 1 = 0x46) ∧
  (im.field 4 1 = 2 ∧ im.field 5 1 = 1) ∧
  (im.type = etExec ∨ im.type = etDyn) ∧ im.machine = emX86 ∧
  im.phentsize = 56 ∧ im.phnum ≠ 0 ∧
  rangeOk im.size im.phoff (im.phnum * im.phentsize)

/-- `ph[i]`. -/
def phdr (i : Nat) : Phdr :=
  let off := im.phoff + i * 56
  ⟨im.field off 4, im.field (off + 8) 8, im.field (off + 16) 8, im.field (off + 32) 8,
    im.field (off + 40) 8⟩

def phdrs : List Phdr := (List.range im.phnum).map im.phdr

/-! ## 2. Segments -/

/-- One round of the loop of `elf64_parse_segments`. -/
def parseSegment (segs : List Segment) (ph : Phdr) : Option (List Segment) :=
  if ph.type ≠ ptLoad then some segs
  else if ph.memsz < ph.filesz ∨ ¬ rangeOk im.size ph.offset ph.filesz then none
  else if elfSegmentMax ≤ segs.length then none
  else some (segs ++ [⟨ph.vaddr, ph.offset, ph.filesz, ph.memsz⟩])

/-- `elf64_parse_segments`: the segments. The entry point is `im.entry`, and the image is position
    independent if its type is `ET_DYN`. -/
def parseSegments : Option (List Segment) :=
  if ¬ im.validate then none
  else
    match im.phdrs.foldlM im.parseSegment [] with
    | some [] => none
    | r => r

/-! ## 3. The dynamic section -/

/-- `elf64_vaddr_to_offset`. -/
def vaddrToOffset (vaddr : Nat) : Option Nat :=
  (im.phdrs.find? fun ph =>
    ph.type = ptLoad ∧ ph.vaddr ≤ vaddr ∧ vaddr < (ph.vaddr + ph.memsz) % 2 ^ 64).map fun ph =>
      (ph.offset + (vaddr - ph.vaddr)) % 2 ^ 64

end Image

/-- `elf_dynamic_t`, the fields that are read. -/
structure Dynamic where
  present : Bool
  relaOffset : Nat
  relaSize : Nat
  relaEnt : Nat
  symtabOffset : Nat
  symEnt : Nat
deriving Repr, DecidableEq

namespace Image

variable (im : Image)

/-- One entry of the dynamic section: `DT_RELA`, `DT_RELASZ`, `DT_RELAENT`, `DT_SYMTAB`,
    `DT_SYMENT`. -/
def dynamicEntry (d : Dynamic) (tag value : Nat) : Dynamic :=
  if tag = 7 then { d with relaOffset := (im.vaddrToOffset value).getD d.relaOffset }
  else if tag = 8 then { d with relaSize := value }
  else if tag = 9 then { d with relaEnt := value }
  else if tag = 6 then { d with symtabOffset := (im.vaddrToOffset value).getD d.symtabOffset }
  else if tag = 11 then { d with symEnt := value }
  else d

/-- `elf64_parse_dynamic`: the result and what it leaves in `*out`. -/
def parseDynamic : Bool × Dynamic :=
  if ¬ im.validate then (false, ⟨false, 0, 0, 0, 0, 0⟩)
  else
    match im.phdrs.find? fun ph => ph.type = ptDynamic with
    | none => (false, ⟨false, 0, 0, 0, 0, 0⟩)
    | some ph =>
      if ¬ rangeOk im.size ph.offset ph.memsz then (false, ⟨false, 0, 0, 0, 0, 0⟩)
      else
        let d := (List.range (ph.memsz / 16)).foldl
          (fun d k => im.dynamicEntry d (im.field (ph.offset + k * 16) 8)
            (im.field (ph.offset + k * 16 + 8) 8)) ⟨true, 0, 0, 0, 0, 0⟩
        (d.relaSize ≠ 0 ∧ d.relaEnt ≠ 0, d)

end Image

end DyntKernel.Exec
