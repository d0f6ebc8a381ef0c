/-
  File:      DyntKernel/Exec/Relocs.lean
  Subject:   WHAT THE RELOCATION OF AN IMAGE READS (exec/elf.c, elf64_parse_dynamic and
             elf64_vaddr_to_offset; process/process.c, resolve_symbol and apply_relocations).

  The dynamic section is checked against the size of the image; the table of relocations it names is
  not. A symbol is, but its offset is computed in 64 bits and may wrap around. The image is read
  from memory, in which the relocations are stored too.

  * `elf64VaddrToOffset`, `elf64ParseDynamic`, `Buffer.resolveSymbol`, `Buffer.applyRelocations` --
    the routines with their reads;
  * `dynEntries`, `relaOffset`, `relocCount` -- the tables that the dynamic section of an image
    names;
  * `relocs_inside_iff` -- nothing outside the image is read, in every address space in which no
    relocation is stored into the image, exactly when the fields that the relocations use lie
    inside;
  * `applyRelocations_image` -- the results are those of the loader.
-/
import DyntKernel.Exec.ElfReads
import DyntKernel.Exec.Load

namespace DyntKernel.Exec

open Library Library.Fallible Traced Mem List

variable {d : Dynamic} {base vaddr sym cr3 i : Nat} {offs is : List Nat} {l : Load}

/-! ## 1. The routines -/

/-- `*out` once it is set to 0, with the field `present`. -/
def cleared (present : Bool) : Dynamic := ⟨present, 0, 0, 0, 0, 0⟩

namespace Buffer

variable (b : Buffer)

/-- The loop of `elf64_vaddr_to_offset`, over the offsets of program headers. -/
def vaddrLoop (vaddr : Nat) : List Nat → Traced (Option Nat)
  | [] => pure none
  | off :: offs => do
    if (← b.read off 4) ≠ ptLoad then vaddrLoop vaddr offs
    else
      let segStart ← b.read (off + 16) 8
      let segEnd := (segStart + (← b.read (off + 40) 8)) % 2 ^ 64
      if segStart ≤ vaddr ∧ vaddr < segEnd then
        pure (some (((← b.read (off + 8) 8) + (vaddr - segStart)) % 2 ^ 64))
      else vaddrLoop vaddr offs

def elf64VaddrToOffset (vaddr : Nat) : Traced (Option Nat) := do
  b.vaddrLoop vaddr (phdrOffsets (← b.read 32 8) (← b.read 56 2))

/-- One entry of the dynamic section. `DT_RELACOUNT` and `DT_STRTAB` are read too, but nothing uses
    them. -/
def dynamicEntry (d : Dynamic) (off : Nat) : Traced Dynamic := do
  let tag ← b.read off 8
  if tag = 7 then
    let o ← b.elf64VaddrToOffset (← b.read (off + 8) 8)
    pure { d with relaOffset := o.getD d.relaOffset }
  else if tag = 8 then pure { d with relaSize := ← b.read (off + 8) 8 }
  else if tag = 9 then pure { d with relaEnt := ← b.read (off + 8) 8 }
  else if tag = 0x6FFFFFF9 then
    let _ ← b.read (off + 8) 8
    pure d
  else if tag = 6 then
    let o ← b.elf64VaddrToOffset (← b.read (off + 8) 8)
    pure { d with symtabOffset := o.getD d.symtabOffset }
  else if tag = 5 then
    let _ ← b.elf64VaddrToOffset (← b.read (off + 8) 8)
    pure d
  else if tag = 11 then pure { d with symEnt := ← b.read (off + 8) 8 }
  else pure d

/-- The offsets of the entries of a dynamic section. -/
def dynOffsets (offset memsz : Nat) : List Nat :=
  (List.range (memsz / 16)).map fun k => offset + k * 16

/-- The loop of `elf64_parse_dynamic`, over the offsets of program headers. -/
def dynamicLoop : List Nat → Traced (Bool × Dynamic)
  | [] => pure (false, cleared false)
  | off :: offs => do
    if (← b.read off 4) ≠ ptDynamic then dynamicLoop offs
    else if rangeOk b.size (← b.read (off + 8) 8) (← b.read (off + 40) 8) then
      let d ← (dynOffsets (← b.read (off + 8) 8) (← b.read (off + 40) 8)).foldlM b.dynamicEntry
        (cleared true)
      pure (d.relaSize ≠ 0 ∧ d.relaEnt ≠ 0, d)
    else pure (false, cleared false)

def elf64ParseDynamic : Traced (Bool × Dynamic) := do
  if ← b.elf64Validate then b.dynamicLoop (phdrOffsets (← b.read 32 8) (← b.read 56 2))
  else pure (false, cleared false)

def resolveSymbol (d : Dynamic) (sym base : Nat) : Traced (Nat × Bool) :=
  if d.symtabOffset = 0 ∨ d.symEnt < 24 then pure (0, false)
  else if b.size < ((d.symtabOffset + sym * d.symEnt) % 2 ^ 64 + 24) % 2 ^ 64 then pure (0, false)
  else do
    if (← b.read (d.symtabOffset + sym * d.symEnt + 6) 2) = 0 then pure (0, false)
    else pure ((base + (← b.read (d.symtabOffset + sym * d.symEnt + 8) 8)) % 2 ^ 64, true)

/-- The value a relocation stores, from its entry at `off`; `none` if its slot is left untouched. -/
def relocValue (d : Dynamic) (base off : Nat) : Traced (Option Nat) := do
  let info ← b.read (off + 8) 8
  if info % 2 ^ 32 = 8 then pure (some ((base + (← b.read (off + 16) 8)) % 2 ^ 64))
  else if info % 2 ^ 32 = 6 ∨ info % 2 ^ 32 = 7 then
    let sym ← b.resolveSymbol d (info / 2 ^ 32) base
    pure (if sym.2 then some sym.1 else none)
  else if info % 2 ^ 32 = 1 then
    let sym ← b.resolveSymbol d (info / 2 ^ 32) base
    pure (some ((sym.1 + (← b.read (off + 16) 8)) % 2 ^ 64))
  else pure none

/-- What one round of the loop of `apply_relocations` reads: the slot and the value. -/
def relocRead (d : Dynamic) (base i : Nat) : Traced (Option (Nat × Nat)) := do
  match ← b.relocValue d base (d.relaOffset + i * d.relaEnt) with
  | none => pure none
  | some v => pure (some ((base + (← b.read (d.relaOffset + i * d.relaEnt) 8)) % 2 ^ 64, v))

/-- The buffer as it stands in memory, from the address `buf` on. -/
def seen (buf : Nat) (l : Load) : Buffer := { b with bytes := fun x => l.mm.mem (buf + x) }

/-- The loop of `apply_relocations`, with the image at `buf`. -/
def relocLoop (buf cr3 : Nat) (d : Dynamic) (base : Nat) : List Nat → Load →
    Traced (Option Unit × Load)
  | [], l => pure (some (), l)
  | i :: is, l => do
    match ← (b.seen buf l).relocRead d base i with
    | none => relocLoop buf cr3 d base is l
    | some (slot, v) =>
      match store cr3 slot 8 (word v) l with
      | (some _, l) => relocLoop buf cr3 d base is l
      | (none, l) => pure (none, l)

/-- `apply_relocations`. -/
def applyRelocations (buf cr3 base : Nat) (l : Load) : Traced (Option Unit × Load) := do
  let r ← (b.seen buf l).elf64ParseDynamic
  if ¬ r.1 ∨ ¬ r.2.present then pure (some (), l)
  else if r.2.relaEnt < 24 then pure (some (), l)
  else b.relocLoop buf cr3 r.2 base (List.range (r.2.relaSize / r.2.relaEnt)) l

/-- The memory from `buf` on is that of the buffer. -/
def LiesAt (buf : Nat) (l : Load) : Prop := ∀ x, l.mm.mem (buf + x) = b.bytes x

/-- No store between two states reaches the image. -/
def Spares (buf : Nat) (l l' : Load) : Prop :=
  ∀ ws, l'.wrote = l.wrote ++ ws → ∀ w ∈ ws, w.1 + w.2 ≤ buf ∨ buf + b.size ≤ w.1

/-! ## 2. The tables that an image names -/

/-- The offset of an address in the image, by the first segment that holds it. -/
def offsetOf (vaddr : Nat) : Option Nat :=
  (b.phdrs.find? fun ph =>
    ph.type = ptLoad ∧ ph.vaddr ≤ vaddr ∧ vaddr < (ph.vaddr + ph.memsz) % 2 ^ 64).map fun ph =>
      (ph.offset + (vaddr - ph.vaddr)) % 2 ^ 64

/-- An entry of a dynamic section: its tag and its value. -/
def dynEntry (off : Nat) : Nat × Nat := (b.field off 8, b.field (off + 8) 8)

/-- The entries of the first dynamic section among `l`; none if it does not lie inside the image. -/
def entriesIn : List Phdr → List (Nat × Nat)
  | [] => []
  | ph :: l =>
    if ph.type ≠ ptDynamic then entriesIn l
    else if ph.offset + ph.memsz ≤ b.size then
      (dynOffsets ph.offset ph.memsz).map b.dynEntry else []

/-- The entries of the dynamic section. -/
def dynEntries : List (Nat × Nat) := b.entriesIn b.phdrs

end Buffer

/-- The values of the entries with a tag. -/
def valuesOf (tag : Nat) (l : List (Nat × Nat)) : List Nat :=
  (l.filter fun e => e.1 = tag).map Prod.snd

namespace Buffer

variable (b : Buffer)

/-- `DT_RELA`, `DT_RELASZ`, `DT_RELAENT`, `DT_SYMTAB`, `DT_SYMENT`: the last entry counts, for an
    address the last one that lies in a segment. -/
def relaOffset : Nat := ((valuesOf 7 b.dynEntries).filterMap b.offsetOf).getLastD 0
def relaSize : Nat := (valuesOf 8 b.dynEntries).getLastD 0
def relaEnt : Nat := (valuesOf 9 b.dynEntries).getLastD 0
def symtabOffset : Nat := ((valuesOf 6 b.dynEntries).filterMap b.offsetOf).getLastD 0
def symEnt : Nat := (valuesOf 11 b.dynEntries).getLastD 0

/-- The relocations of the image: none if the entries are too small. -/
def relocCount : Nat := if b.relaEnt < 24 then 0 else b.relaSize / b.relaEnt

/-- The field of `n` bytes at `off` lies inside the image. -/
def Holds (off n : Nat) : Prop := off % 2 ^ 64 + n ≤ b.size

/-- The offset of a symbol. -/
def symAt (sym : Nat) : Nat := b.symtabOffset + sym * b.symEnt

/-- There is a table of symbols, and the offset behind the symbol, in 64 bits, is not beyond the
    image. -/
def Looked (sym : Nat) : Prop :=
  b.symtabOffset ≠ 0 ∧ 24 ≤ b.symEnt ∧ (b.symAt sym % 2 ^ 64 + 24) % 2 ^ 64 ≤ b.size

/-- The fields of a symbol that are looked at lie inside the image. -/
structure SymbolInside (sym : Nat) : Prop where
  shndx : b.Looked sym → b.Holds (b.symAt sym + 6) 2
  value : b.Looked sym → b.field (b.symAt sym + 6) 2 ≠ 0 → b.Holds (b.symAt sym + 8) 8

def relaAt (i : Nat) : Nat := b.relaOffset + i * b.relaEnt
def relaInfo (i : Nat) : Nat := b.field (b.relaAt i + 8) 8

/-- `ELF64_R_TYPE` and `ELF64_R_SYM` of a relocation. -/
def relaType (i : Nat) : Nat := b.relaInfo i % 2 ^ 32
def relaSym (i : Nat) : Nat := b.relaInfo i / 2 ^ 32

/-- **The fields that a relocation uses lie inside the image**: which ones depends on its type. -/
structure RelocInside (i : Nat) : Prop where
  info : b.Holds (b.relaAt i + 8) 8
  addend : b.relaType i = 8 ∨ b.relaType i = 1 → b.Holds (b.relaAt i + 16) 8
  symbol : b.relaType i = 6 ∨ b.relaType i = 7 ∨ b.relaType i = 1 → b.SymbolInside (b.relaSym i)
  slot : b.relaType i = 8 ∨ b.relaType i = 1 ∨ (b.relaType i = 6 ∨ b.relaType i = 7) ∧
    b.Looked (b.relaSym i) ∧
      b.field (b.symAt (b.relaSym i) + 6) 2 ≠ 0 → b.Holds (b.relaAt i) 8

/-- The dynamic section with these values. -/
def dynamic : Dynamic := ⟨true, b.relaOffset, b.relaSize, b.relaEnt, b.symtabOffset, b.symEnt⟩

@[simp] theorem dynamic_relaOffset : b.dynamic.relaOffset = b.relaOffset := by rw [dynamic]
@[simp] theorem dynamic_relaSize : b.dynamic.relaSize = b.relaSize := by rw [dynamic]
@[simp] theorem dynamic_relaEnt : b.dynamic.relaEnt = b.relaEnt := by rw [dynamic]
@[simp] theorem dynamic_symtabOffset : b.dynamic.symtabOffset = b.symtabOffset := by rw [dynamic]
@[simp] theorem dynamic_symEnt : b.dynamic.symEnt = b.symEnt := by rw [dynamic]

/-! ## 3. The results -/

variable {b} {off n : Nat}

theorem vaddrLoop_val : (b.vaddrLoop vaddr offs).val = ((offs.map b.phdrAt).find? fun ph =>
      ph.type = ptLoad ∧ ph.vaddr ≤ vaddr ∧ vaddr < (ph.vaddr + ph.memsz) % 2 ^ 64).map fun ph =>
        (ph.offset + (vaddr - ph.vaddr)) % 2 ^ 64 := by
  induction offs with
  | nil => rfl
  | cons off offs ih =>
    rw [vaddrLoop, val_bind, val_ite, ih, map_cons, List.find?_cons]
    by_cases htype : (b.phdrAt off).type = ptLoad
    · have hload : ¬ (b.read off 4).val ≠ ptLoad := not_not.mpr htype
      rw [if_neg hload]
      simp only [val_bind, val_ite, val_pure, ih]
      by_cases hin : (b.phdrAt off).vaddr ≤ vaddr ∧
          vaddr < ((b.phdrAt off).vaddr + (b.phdrAt off).memsz) % 2 ^ 64
      · rw [decide_eq_true ⟨htype, hin⟩]
        exact if_pos hin
      · rw [decide_eq_false fun h => hin h.2]
        exact if_neg hin
    · have hother : (b.read off 4).val ≠ ptLoad := htype
      rw [if_pos hother, decide_eq_false fun h => htype h.1]

theorem vaddrToOffset_val : (b.elf64VaddrToOffset vaddr).val = b.offsetOf vaddr := vaddrLoop_val

theorem valuesOf_cons {tag : Nat} {e : Nat × Nat} {l : List (Nat × Nat)} :
    valuesOf tag (e :: l) = if e.1 = tag then e.2 :: valuesOf tag l else valuesOf tag l := by
  rw [valuesOf, filter_cons]
  simp only [decide_eq_true_eq]
  split_ifs <;> rfl

/-- What is collected from the entries `l`, with the values of `d` where there is none. -/
def collected (b : Buffer) (d : Dynamic) (l : List (Nat × Nat)) : Dynamic :=
  ⟨d.present, ((valuesOf 7 l).filterMap b.offsetOf).getLastD d.relaOffset,
    (valuesOf 8 l).getLastD d.relaSize,
    (valuesOf 9 l).getLastD d.relaEnt,
    ((valuesOf 6 l).filterMap b.offsetOf).getLastD d.symtabOffset,
    (valuesOf 11 l).getLastD d.symEnt⟩

theorem collected_cons {l : List (Nat × Nat)} :
    b.collected d (b.dynEntry off :: l) = b.collected (b.dynamicEntry d off).val l := by
  have hmap : ∀ (v k : Nat) (l : List Nat), ((v :: l).filterMap b.offsetOf).getLastD k =
      (l.filterMap b.offsetOf).getLastD ((b.offsetOf v).getD k) := by
    intro v k l
    rw [filterMap_cons]
    cases b.offsetOf v with
    | none => rfl
    | some w => exact getLastD_cons ..
  rw [dynamicEntry, val_bind]
  simp only [val_ite, val_bind, val_pure, vaddrToOffset_val]
  split_ifs with h7 h8 h9 hcount h6 h5 h11
  all_goals rw [read_val] at *
  all_goals simp only [collected, valuesOf_cons, dynEntry, getLastD_cons,
    Nat.reduceEqDiff, reduceIte, *]

theorem foldlM_val : (offs.foldlM b.dynamicEntry d).val = b.collected d (offs.map b.dynEntry) := by
  induction offs generalizing d with
  | nil => rfl
  | cons off offs ih => rw [foldlM_cons, val_bind, ih, map_cons, collected_cons]

/-- What the first dynamic section among `l` says. -/
def dynamicOf (b : Buffer) (l : List Phdr) : Dynamic := b.collected (cleared true) (b.entriesIn l)

/-- What the loop returns: `true` only with what the dynamic section says. -/
theorem dynamicLoop_val (offs : List Nat) :
    (b.dynamicLoop offs).val.1 = decide ((b.dynamicOf (offs.map b.phdrAt)).relaSize ≠ 0 ∧
      (b.dynamicOf (offs.map b.phdrAt)).relaEnt ≠ 0) ∧
    ((b.dynamicLoop offs).val.1 = true →
      (b.dynamicLoop offs).val.2 = b.dynamicOf (offs.map b.phdrAt)) := by
  induction offs with
  | nil => exact ⟨rfl, nofun⟩
  | cons off offs ih =>
    rw [dynamicLoop, val_bind, val_ite, map_cons, dynamicOf, entriesIn]
    by_cases htype : (b.phdrAt off).type = ptDynamic
    · have hdyn : ¬ (b.read off 4).val ≠ ptDynamic := not_not.mpr htype
      rw [if_neg hdyn, if_neg (not_not.mpr htype)]
      simp only [val_bind, val_ite, val_pure, foldlM_val]
      by_cases hrange : (b.phdrAt off).offset + (b.phdrAt off).memsz ≤ b.size
      · have hok : rangeOk b.size (b.read (off + 8) 8).val (b.read (off + 40) 8).val = true :=
          rangeOk_iff.mpr hrange
        rw [if_pos hrange, if_pos hok]
        exact ⟨rfl, fun _ => rfl⟩
      · have hno : ¬ rangeOk b.size (b.read (off + 8) 8).val (b.read (off + 40) 8).val = true :=
          fun h => hrange (rangeOk_iff.mp h)
        rw [if_neg hrange, if_neg hno]
        exact ⟨rfl, nofun⟩
    · have hother : (b.read off 4).val ≠ ptDynamic := htype
      rw [if_pos hother, if_pos htype]
      exact ih

theorem parseDynamic_val (hvalid : b.ValidHeader) :
    b.elf64ParseDynamic.val.1 = decide (b.relaSize ≠ 0 ∧ b.relaEnt ≠ 0) ∧
    (b.elf64ParseDynamic.val.1 = true → b.elf64ParseDynamic.val.2 = b.dynamic) := by
  have hdyn : b.dynamicOf b.phdrs = b.dynamic := by
    rw [dynamic, dynamicOf, collected, cleared, ← dynEntries, ← relaOffset, ← relaSize,
      ← relaEnt, ← symtabOffset,
      ← symEnt]
  have hloop : b.elf64ParseDynamic.val = (b.dynamicLoop (phdrOffsets b.phoff b.phnum)).val := by
    rw [elf64ParseDynamic, val_bind, if_pos (validate_iff.mpr hvalid)]
    rfl
  have hval := dynamicLoop_val (b := b) (phdrOffsets b.phoff b.phnum)
  rw [← phdrs, hdyn, dynamic_relaSize, dynamic_relaEnt] at hval
  rwa [hloop]

/-! ## 4. The reads -/

theorem inside_iff_holds (hn : 0 < n) : Inside b.size (b.read off n) ↔ b.Holds off n :=
  inside_read hn

theorem inside_vaddrLoop (h : ∀ off ∈ offs, off + 56 ≤ b.size) :
    Inside b.size (b.vaddrLoop vaddr offs) := by
  induction offs with
  | nil => exact inside_pure
  | cons off offs ih =>
    obtain ⟨hoff, hoffs⟩ := forall_mem_cons.mp h
    have hin : ∀ i n, 0 < n → i + n ≤ 56 → Inside b.size (b.read (off + i) n) :=
      fun i n hn h' => inside_field hn (by omega)
    rw [vaddrLoop, inside_bind, inside_ite]
    refine ⟨inside_field (by decide) (by omega), fun _ => ih hoffs, fun _ => ?_⟩
    simp (disch := decide) only [inside_bind, inside_ite, inside_pure, hin,
      ih hoffs, and_true, implies_true]

section

variable (h : b.ValidHeader)
include h

theorem inside_vaddrToOffset : Inside b.size (b.elf64VaddrToOffset vaddr) := by
  have hsize := h.header
  simp only [elf64VaddrToOffset, inside_bind]
  exact ⟨inside_field (by decide) (by omega), inside_field (by decide) (by omega),
    inside_vaddrLoop h.phdr_inside⟩

theorem inside_dynamicEntry (hoff : off + 16 ≤ b.size) : Inside b.size (b.dynamicEntry d off) := by
  have hvaddr : ∀ vaddr, Inside b.size (b.elf64VaddrToOffset vaddr) :=
    fun _ => inside_vaddrToOffset h
  have hvalue : Inside b.size (b.read (off + 8) 8) := inside_field (by decide) (by omega)
  rw [dynamicEntry, inside_bind]
  refine ⟨inside_field (by decide) (by omega), ?_⟩
  simp only [inside_ite, inside_bind, inside_pure, hvalue, hvaddr, and_true, implies_true]

theorem inside_foldlM (hoffs : ∀ off ∈ offs, off + 16 ≤ b.size) :
    Inside b.size (offs.foldlM b.dynamicEntry d) := by
  induction offs generalizing d with
  | nil => exact inside_pure
  | cons off offs ih =>
    obtain ⟨hoff, hoffs⟩ := forall_mem_cons.mp hoffs
    rw [foldlM_cons, inside_bind]
    exact ⟨inside_dynamicEntry h hoff, ih hoffs⟩

theorem inside_dynamicLoop (hoffs : ∀ off ∈ offs, off + 56 ≤ b.size) :
    Inside b.size (b.dynamicLoop offs) := by
  induction offs with
  | nil => exact inside_pure
  | cons off offs ih =>
    obtain ⟨hoff, hoffs⟩ := forall_mem_cons.mp hoffs
    have hin : ∀ i n, 0 < n → i + n ≤ 56 → Inside b.size (b.read (off + i) n) :=
      fun i n hn h' => inside_field hn (by omega)
    rw [dynamicLoop, inside_bind, inside_ite]
    refine ⟨inside_field (by decide) (by omega), fun _ => ih hoffs, fun _ => ?_⟩
    simp (disch := decide) only [inside_bind, inside_ite, inside_pure, hin,
      true_and, and_true, implies_true]
    intro hrange
    refine inside_foldlM h fun off' hoff' => ?_
    obtain ⟨k, hk, rfl⟩ := mem_map.mp hoff'
    have hle := rangeOk_iff.mp hrange
    have hk' := mem_range.mp hk
    omega

theorem inside_parseDynamic : Inside b.size b.elf64ParseDynamic := by
  have hsize := h.header
  rw [elf64ParseDynamic, inside_bind, inside_ite]
  simp only [inside_bind]
  exact ⟨inside_validate,
    fun _ => ⟨inside_field (by decide) (by omega), inside_field (by decide) (by omega),
    inside_dynamicLoop h h.phdr_inside⟩, fun _ => inside_pure⟩

end

theorem resolveSymbol_of_looked (h : b.Looked sym) : b.resolveSymbol b.dynamic sym base = (do
    if (← b.read (b.symAt sym + 6) 2) = 0 then pure (0, false)
    else pure ((base + (← b.read (b.symAt sym + 8) 8)) % 2 ^ 64, true)) := by
  obtain ⟨htab, hent, hend⟩ := h
  have hsome : ¬ (b.symtabOffset = 0 ∨ b.symEnt < 24) := not_or.mpr ⟨htab, Nat.not_lt.mpr hent⟩
  rw [resolveSymbol, dynamic_symtabOffset, dynamic_symEnt, if_neg hsome, ← symAt,
    if_neg (Nat.not_lt.mpr hend)]

theorem resolveSymbol_of_not_looked (h : ¬ b.Looked sym) :
    b.resolveSymbol b.dynamic sym base = pure (0, false) := by
  rw [resolveSymbol, dynamic_symtabOffset, dynamic_symEnt, ← symAt]
  by_cases hnone : b.symtabOffset = 0 ∨ b.symEnt < 24
  · rw [if_pos hnone]
  · obtain ⟨htab, hent⟩ := not_or.mp hnone
    rw [if_neg hnone, if_pos (Nat.not_le.mp fun hend => h ⟨htab, Nat.not_lt.mp hent, hend⟩)]

/-- **A symbol is resolved**: what is looked at has to lie inside. -/
theorem inside_resolveSymbol : Inside b.size (b.resolveSymbol b.dynamic sym base) ↔
    b.SymbolInside sym := by
  by_cases hlook : b.Looked sym
  · rw [resolveSymbol_of_looked hlook]
    simp only [inside_bind, inside_ite, inside_pure, and_true, implies_true, true_and]
    rw [inside_iff_holds (by decide), inside_iff_holds (by decide)]
    exact ⟨fun h => ⟨fun _ => h.1, fun _ => h.2⟩, fun h => ⟨h.shndx hlook, h.value hlook⟩⟩
  · rw [resolveSymbol_of_not_looked hlook]
    exact ⟨fun _ => ⟨fun h => absurd h hlook, fun h => absurd h hlook⟩, fun _ => inside_pure⟩

/-- The symbol is defined. -/
theorem resolveSymbol_defined : (b.resolveSymbol b.dynamic sym base).val.2 = true ↔
    b.Looked sym ∧ b.field (b.symAt sym + 6) 2 ≠ 0 := by
  by_cases hlook : b.Looked sym
  · rw [resolveSymbol_of_looked hlook, val_bind, val_ite]
    by_cases hzero : b.field (b.symAt sym + 6) 2 = 0
    · have hread : (b.read (b.symAt sym + 6) 2).val = 0 := hzero
      rw [if_pos hread]
      exact ⟨nofun, fun h => absurd hzero h.2⟩
    · have hread : ¬ (b.read (b.symAt sym + 6) 2).val = 0 := hzero
      rw [if_neg hread]
      exact ⟨fun _ => ⟨hlook, hzero⟩, fun _ => rfl⟩
  · rw [resolveSymbol_of_not_looked hlook]
    exact ⟨nofun, fun h => absurd h.1 hlook⟩

/-- A relocation by its type: whether it stores a value, and what it reads for it. -/
theorem relocValue_spec (base : Nat) :
    ((b.relocValue b.dynamic base (b.relaAt i)).val.isSome = true ↔
      b.relaType i = 8 ∨ b.relaType i = 1 ∨ (b.relaType i = 6 ∨ b.relaType i = 7) ∧
      b.Looked (b.relaSym i) ∧
        b.field (b.symAt (b.relaSym i) + 6) 2 ≠ 0) ∧
          (Inside b.size (b.relocValue b.dynamic base (b.relaAt i)) ↔
      b.Holds (b.relaAt i + 8) 8 ∧
      (b.relaType i = 8 ∨ b.relaType i = 1 → b.Holds (b.relaAt i + 16) 8) ∧
        (b.relaType i = 6 ∨ b.relaType i = 7 ∨ b.relaType i = 1 →
          b.SymbolInside (b.relaSym i))) := by
  have hdef : (b.resolveSymbol b.dynamic (b.relaSym i) base).val.2 = true ↔ _ :=
    resolveSymbol_defined
  have hinfo : (b.read (b.relaAt i + 8) 8).val = b.relaInfo i := rfl
  have htype : b.relaInfo i % 2 ^ 32 = b.relaType i := rfl
  have hsym : b.relaInfo i / 2 ^ 32 = b.relaSym i := rfl
  rw [relocValue, val_bind, inside_bind, inside_iff_holds (by decide), hinfo, htype, hsym]
  generalize b.relaType i = type at *
  have hread : Inside b.size (b.read (b.relaAt i + 16) 8) ↔ b.Holds (b.relaAt i + 16) 8 :=
    inside_iff_holds (by decide)
  have hopt : ∀ s : Nat × Bool, (if s.2 = true then some s.1 else none).isSome = s.2 := by
    intro s
    cases s.2 <;> rfl
  by_cases h8 : type = 8
  · rw [if_pos h8, inside_bind, hread]
    simp [h8]
  by_cases h67 : type = 6 ∨ type = 7
  · have h1 : type ≠ 1 := by omega
    rw [if_neg h8, if_pos h67, inside_bind, inside_resolveSymbol, val_bind, val_pure, hopt]
    simp [h8, h67, h1, hdef]
  rw [if_neg h8, if_neg h67]
  by_cases h1 : type = 1
  · rw [if_pos h1, inside_bind, inside_resolveSymbol, inside_bind, hread]
    simp [h1, and_comm]
  · obtain ⟨h6, h7⟩ := not_or.mp h67
    rw [if_neg h1]
    simp [h8, h6, h7, h1]

/-- **The reads of one relocation.** -/
theorem inside_relocRead : Inside b.size (b.relocRead b.dynamic base i) ↔ b.RelocInside i := by
  obtain ⟨hsome, hinside⟩ := relocValue_spec (b := b) base (i := i)
  rw [relocRead, dynamic_relaOffset, dynamic_relaEnt, ← relaAt, inside_bind, hinside]
  cases hv : (b.relocValue b.dynamic base (b.relaAt i)).val with
  | none =>
    rw [hv] at hsome
    have hno := fun h => Bool.false_ne_true (hsome.mpr h)
    refine ⟨fun h => ?_, fun h => ⟨⟨h.info, h.addend, h.symbol⟩, inside_pure⟩⟩
    obtain ⟨hinfo, hadd, hsym⟩ := h.1
    exact ⟨hinfo, hadd, hsym, fun h => absurd h hno⟩
  | some x =>
    rw [hv] at hsome
    have hyes := hsome.mp rfl
    simp only [inside_bind, inside_pure, and_true]
    rw [inside_iff_holds (by decide)]
    refine ⟨fun h => ?_, fun h => ⟨⟨h.info, h.addend, h.symbol⟩, h.slot hyes⟩⟩
    obtain ⟨⟨hinfo, hadd, hsym⟩, hslot⟩ := h
    exact ⟨hinfo, hadd, hsym, fun _ => hslot⟩

section Alike

variable {b' : Buffer} (hsize : b'.size = b.size)
  (hbytes : ∀ x, x < b.size → b'.bytes x = b.bytes x)
include hbytes

theorem read_alike (hn : 0 < n) (h : Inside b.size (b.read off n)) :
    b'.read off n = b.read off n := by
  rw [inside_iff_holds hn, Holds] at h
  rw [read, read, Traced.read, Traced.read, readLE_congr fun j hj =>
    hbytes (off % 2 ^ 64 + j) (by omega)]

include hsize

theorem resolveSymbol_alike (h : Inside b.size (b.resolveSymbol d sym base)) :
    b'.resolveSymbol d sym base = b.resolveSymbol d sym base := by
  rw [resolveSymbol] at h
  rw [resolveSymbol, resolveSymbol, hsize]
  split_ifs at h ⊢
  · rfl
  · rfl
  refine bind_congr_inside h (read_alike hbytes (by decide)) fun h => ?_
  split_ifs at h ⊢
  · rfl
  · exact bind_congr_inside h (read_alike hbytes (by decide)) fun _ => rfl

theorem relocValue_alike (h : Inside b.size (b.relocValue d base off)) :
    b'.relocValue d base off = b.relocValue d base off := by
  rw [relocValue] at h ⊢
  refine bind_congr_inside h (read_alike hbytes (by decide)) fun h => ?_
  split_ifs at h ⊢
  · exact bind_congr_inside h (read_alike hbytes (by decide)) fun _ => rfl
  · exact bind_congr_inside h (resolveSymbol_alike hsize hbytes) fun _ => rfl
  · refine bind_congr_inside h (resolveSymbol_alike hsize hbytes) fun h => ?_
    exact bind_congr_inside h (read_alike hbytes (by decide)) fun _ => rfl
  · rfl

/-- **A relocation inside the image is the same in every memory that holds the image.** -/
theorem relocRead_alike (h : Inside b.size (b.relocRead d base i)) :
    b'.relocRead d base i = b.relocRead d base i := by
  rw [relocRead] at h ⊢
  refine bind_congr_inside h (relocValue_alike hsize hbytes) fun h => ?_
  cases hv : (b.relocValue d base (d.relaOffset + i * d.relaEnt)).val with
  | none => rfl
  | some v =>
    rw [hv] at h
    exact bind_congr_inside h (read_alike hbytes (by decide)) fun _ => rfl

end Alike

variable {buf : Nat}

theorem LiesAt.seen (h : b.LiesAt buf l) : b.seen buf l = b := by
  rw [Buffer.seen, show (fun x => l.mm.mem (buf + x)) = b.bytes from funext h]

/-- A round reads what the buffer has of the image. -/
theorem relocRead_seen (hbytes : ∀ x, x < b.size → l.mm.mem (buf + x) = b.bytes x)
    (h : Inside b.size (b.relocRead d base i)) :
    (b.seen buf l).relocRead d base i = b.relocRead d base i :=
  relocRead_alike rfl hbytes h

/-- The stores of the loop, and what each of them keeps. -/
theorem relocLoop_wrote (b : Buffer) (buf cr3 : Nat) (d : Dynamic) (base : Nat) (is : List Nat)
    {I : Load → Prop} {W : Nat × Nat → Prop}
    (hstep : ∀ l va v, I l → W (pagingTranslate l.mm.mem cr3 va, 8) ∧
      I (l.write (pagingTranslate l.mm.mem cr3 va) 8 (word v))) (h : I l) :
    ∃ ws, (b.relocLoop buf cr3 d base is l).val.2.wrote = l.wrote ++ ws ∧ ∀ w ∈ ws, W w := by
  induction is generalizing l with
  | nil => exact ⟨[], (append_nil _).symm, fun w hw => absurd hw not_mem_nil⟩
  | cons i is ih =>
    rw [relocLoop, val_bind]
    cases ((b.seen buf l).relocRead d base i).val with
    | none => exact ih h
    | some x =>
      dsimp only
      rcases store_cases cr3 x.1 8 (word x.2) l with hstore | ⟨-, hstore⟩
      · rw [hstore]
        exact ⟨[], (append_nil _).symm, fun w hw => absurd hw not_mem_nil⟩
      · rw [hstore]
        obtain ⟨hw, hkept⟩ := hstep l x.1 x.2 h
        obtain ⟨ws, hws, hall⟩ := ih hkept
        refine ⟨_ :: ws, ?_, forall_mem_cons.mpr ⟨hw, hall⟩⟩
        rw [hws, Load.write_wrote, append_assoc, singleton_append]

/-- The stores of a loop come one after the other. -/
theorem Spares.step {va v : Nat} (h : b.Spares buf l
      (b.relocLoop buf cr3 d base is
        (l.write (pagingTranslate l.mm.mem cr3 va) 8 (word v))).val.2) :
    (pagingTranslate l.mm.mem cr3 va + 8 ≤ buf ∨ buf + b.size ≤ pagingTranslate l.mm.mem cr3 va) ∧
      b.Spares buf (l.write (pagingTranslate l.mm.mem cr3 va) 8 (word v))
        (b.relocLoop buf cr3 d base is
          (l.write (pagingTranslate l.mm.mem cr3 va) 8 (word v))).val.2 := by
  generalize pagingTranslate l.mm.mem cr3 va = a at h ⊢
  have hcons : ∀ ws, (l.write a 8 (word v)).wrote ++ ws = l.wrote ++ (a, 8) :: ws := fun ws => by
    rw [Load.write_wrote, append_assoc, singleton_append]
  refine ⟨?_, fun ws hws w hw => h _ (hws.trans (hcons ws)) w (mem_cons_of_mem _ hw)⟩
  obtain ⟨ws, hws, -⟩ :=
    relocLoop_wrote b buf cr3 d base is (I := fun _ => True) (W := fun _ => True)
      (l := l.write a 8 (word v)) (fun _ _ _ _ => ⟨trivial, trivial⟩) trivial
  exact h _ (hws.trans (hcons ws)) _ mem_cons_self

/-- What a store that spares the image keeps. -/
theorem bytes_write {a v : Nat} (hbytes : ∀ x, x < b.size → l.mm.mem (buf + x) = b.bytes x)
    (hout : a + 8 ≤ buf ∨ buf + b.size ≤ a) :
    ∀ x, x < b.size → (l.write a 8 (word v)).mm.mem (buf + x) = b.bytes x := by
  intro x hx
  rw [Load.write_mem, blit_of_out (by omega)]
  exact hbytes x hx

/-- **The loop reads what its rounds read of the image**, as long as its stores spare it. -/
theorem inside_relocLoop (h : ∀ i ∈ is, Inside b.size (b.relocRead d base i))
    (hbytes : ∀ x, x < b.size → l.mm.mem (buf + x) = b.bytes x)
    (hspares : b.Spares buf l (b.relocLoop buf cr3 d base is l).val.2) :
    Inside b.size (b.relocLoop buf cr3 d base is l) := by
  induction is generalizing l with
  | nil => exact inside_pure
  | cons i is ih =>
    obtain ⟨hi, his⟩ := forall_mem_cons.mp h
    rw [relocLoop, val_bind, relocRead_seen hbytes hi] at hspares
    rw [relocLoop, inside_bind, relocRead_seen hbytes hi]
    refine ⟨hi, ?_⟩
    cases hv : (b.relocRead d base i).val with
    | none =>
      rw [hv] at hspares
      exact ih his hbytes hspares
    | some x =>
      rw [hv] at hspares
      dsimp only at hspares ⊢
      rcases store_cases cr3 x.1 8 (word x.2) l with hstore | ⟨-, hstore⟩
      · rw [hstore]
        exact inside_pure
      · rw [hstore] at hspares ⊢
        obtain ⟨hout, hrest⟩ := hspares.step
        exact ih his (bytes_write hbytes hout) hrest

end Buffer

/-! ## 5. An address space without a hole -/

/-- Four tables, in the frames 1 to 4, whose entries all lead to the next one and at last to the
    frame 5. -/
def wholeMem : Phys := fun x =>
  if 4096 ≤ x ∧ x < 0x5000 then UInt8.ofNat (((x / 4096 + 1) * 4096 + 7) / 256 ^ (x % 8)) else 0

/-- The tables are as in `wholeMem`. -/
def Whole (m : Phys) : Prop := ∀ x, 4096 ≤ x → x < 0x5000 → m x = wholeMem x

namespace Whole

variable {m : Phys} {t : Nat}

theorem entry (h : Whole m) (hge : 1 ≤ t) (hle : t ≤ 4) (i : Fin 512) :
    Mem.entry m t i = (t + 1) * 4096 + 7 := by
  have hbytes : ∀ j, j < 8 →
      m (t * 4096 + i * 8 + j) = UInt8.ofNat (((t + 1) * 4096 + 7) / 256 ^ j) := by
    intro j hj
    have hdiv : (t * 4096 + i * 8 + j) / 4096 = t := by omega
    have hmod : (t * 4096 + i * 8 + j) % 8 = j := by omega
    rw [h _ (by omega) (by omega), wholeMem, if_pos (by omega), hdiv, hmod]
  rw [Mem.entry, readLE_bytes hbytes, Nat.mod_eq_of_lt (by omega)]

theorem frame : present ((t + 1) * 4096 + 7) = true ∧ large ((t + 1) * 4096 + 7) = false ∧
    entryFrame ((t + 1) * 4096 + 7) = t + 1 := by
  refine ⟨decide_eq_true (by omega), decide_eq_false (by omega), ?_⟩
  rw [entryFrame]
  omega

/-- Every address is mapped to the frame 5. -/
theorem translate (h : Whole m) (va : Nat) : pagingTranslate m 1 va = 5 * 4096 + va % 4096 := by
  have hstep : ∀ t, 1 ≤ t → t ≤ 4 → ∀ i, present (Mem.entry m t i) = true ∧
      large (Mem.entry m t i) = false ∧
      entryFrame (Mem.entry m t i) = t + 1 := by
    intro t hge hle i
    rw [h.entry hge hle i]
    exact frame
  obtain ⟨h1, -, f1⟩ := hstep 1 (by decide) (by decide) (pml4Idx va)
  obtain ⟨h2, -, f2⟩ := hstep 2 (by decide) (by decide) (pdptIdx va)
  obtain ⟨h3, l3, f3⟩ := hstep 3 (by decide) (by decide) (pdIdx va)
  obtain ⟨h4, -, f4⟩ := hstep 4 (by decide) (by decide) (ptIdx va)
  simp [pagingTranslate, h1, f1, h2, f2, h3, l3, f3, h4, f4]

/-- A store reaches neither the tables nor what lies from the frame 7 on. -/
theorem write (h : Whole l.mm.mem) (va v : Nat) :
    Whole (l.write (pagingTranslate l.mm.mem 1 va) 8 (word v)).mm.mem ∧
      ∀ x, 0x7000 ≤ x →
        (l.write (pagingTranslate l.mm.mem 1 va) 8 (word v)).mm.mem x = l.mm.mem x := by
  rw [Load.write_mem, h.translate]
  refine ⟨fun x hge hlt => ?_, fun x hx => blit_of_out (.inr (by omega))⟩
  rw [blit_of_out (.inl (by omega))]
  exact h x hge hlt

end Whole

namespace Buffer

variable {b : Buffer}

/-- In a space without a hole the loop comes to every relocation. -/
theorem relocReads_of_whole (hl : Whole l.mm.mem) (hat : b.LiesAt 0x7000 l)
    (h : Inside b.size (b.relocLoop 0x7000 1 d base is l)) :
    ∀ i ∈ is, Inside b.size (b.relocRead d base i) := by
  induction is generalizing l with
  | nil => exact fun i hi => absurd hi not_mem_nil
  | cons i is ih =>
    rw [relocLoop, inside_bind, hat.seen] at h
    refine forall_mem_cons.mpr ⟨h.1, ?_⟩
    have hrest := h.2
    cases hv : (b.relocRead d base i).val with
    | none =>
      rw [hv] at hrest
      exact ih hl hat hrest
    | some x =>
      have hne : pagingTranslate l.mm.mem 1 x.1 ≠ 0 := by
        rw [hl.translate]
        omega
      rw [hv] at hrest
      dsimp only at hrest
      rw [store_run hne] at hrest
      obtain ⟨hl', hkept⟩ := hl.write x.1 x.2
      exact ih hl' (fun x => (hkept _ (by omega)).trans (hat x)) hrest

/-- `apply_relocations` on an image with a valid header. -/
theorem applyRelocations_loop (cr3 base : Nat) (h : b.ValidHeader) (hat : b.LiesAt buf l) :
    (b.applyRelocations buf cr3 base l).val =
        (b.relocLoop buf cr3 b.dynamic base (List.range b.relocCount) l).val ∧
      (Inside b.size (b.applyRelocations buf cr3 base l) ↔
        Inside b.size (b.relocLoop buf cr3 b.dynamic base (List.range b.relocCount) l)) := by
  obtain ⟨hok, hdyn⟩ := parseDynamic_val h
  rw [applyRelocations, hat.seen, val_bind, inside_bind, and_iff_right (inside_parseDynamic h)]
  by_cases htrue : b.elf64ParseDynamic.val.1 = true
  · rw [hdyn htrue, htrue]
    have hgo : ¬ (¬ true = true ∨ ¬ b.dynamic.present = true) :=
      not_or.mpr ⟨fun h => h rfl, fun h => h rfl⟩
    rw [if_neg hgo]
    by_cases hsmall : b.relaEnt < 24
    · have hzero : b.relocCount = 0 := if_pos hsmall
      rw [dynamic_relaEnt, if_pos hsmall, hzero]
      exact ⟨rfl, Iff.rfl⟩
    · have hcount : b.relocCount = b.relaSize / b.relaEnt := if_neg hsmall
      rw [dynamic_relaEnt, dynamic_relaSize, if_neg hsmall, hcount]
      exact ⟨rfl, Iff.rfl⟩
  have hzero : b.relocCount = 0 := by
    rw [hok, decide_eq_true_iff, not_and_or, not_not, not_not] at htrue
    rw [relocCount]
    rcases htrue with hsize | hent
    · rw [hsize, Nat.zero_div, ite_self]
    · rw [hent, if_pos (by decide)]
  rw [if_pos (.inl htrue), hzero]
  exact ⟨rfl, Iff.rfl⟩

/-- A space without a hole, with the image in the frame 7 and behind it. -/
def wholeLoad (b : Buffer) : Load :=
  ⟨⟨⟨fun _ => false, 0, 0⟩, fun x => if 0x7000 ≤ x then b.bytes (x - 0x7000) else wholeMem x, 1, 0⟩,
    fun _ => false, []⟩

theorem wholeLoad_lies (b : Buffer) : b.LiesAt 0x7000 (wholeLoad b) := by
  intro x
  show (if 0x7000 ≤ 0x7000 + x then _ else _) = _
  rw [if_pos (by omega), Nat.add_sub_cancel_left]

theorem wholeLoad_whole (b : Buffer) : Whole (wholeLoad b).mm.mem :=
  fun _ _ hlt => if_neg (by omega)

theorem wholeLoad_spares (b : Buffer) (d : Dynamic) (is : List Nat) :
    b.Spares 0x7000 (wholeLoad b) (b.relocLoop 0x7000 1 d 0 is (wholeLoad b)).val.2 := by
  intro ws hws w hw
  obtain ⟨ws', hws', hall⟩ :=
    relocLoop_wrote b 0x7000 1 d 0 is
      (I := fun l => Whole l.mm.mem) (W := fun w => w.1 + w.2 ≤ 0x7000)
      (fun l va v hl => ⟨by rw [hl.translate]; dsimp only; omega, (hl.write va v).1⟩)
      (wholeLoad_whole b)
  rw [append_cancel_left (hws.symm.trans hws')] at hw
  exact .inl (hall w hw)

/-- **Relocating an accepted image reads nothing outside of it, in every address space in which no
    relocation is stored into the image**, exactly when the fields that its relocations use lie
    inside. -/
theorem relocs_inside_iff (b : Buffer) (maxSegs : Int)
    (h : (b.elf64ParseSegments maxSegs).val.isSome = true) :
    (Inside b.size b.elf64ParseDynamic ∧ (∀ vaddr, Inside b.size (b.elf64VaddrToOffset vaddr)) ∧
      ∀ buf cr3 base l, b.LiesAt buf l → b.Spares buf l (b.applyRelocations buf cr3 base l).val.2 →
        Inside b.size (b.applyRelocations buf cr3 base l)) ↔
      ∀ i, i < b.relocCount → b.RelocInside i := by
  obtain ⟨r, hr⟩ := Option.isSome_iff_exists.mp h
  have hvalid : b.ValidHeader := (((parse_iff maxSegs r.segs).mp ⟨r, hr, rfl⟩).1).valid
  constructor
  · intro ⟨_, _, hall⟩ i hi
    have hat := wholeLoad_lies b
    obtain ⟨hval, hinside⟩ := applyRelocations_loop 1 0 hvalid hat
    have hloop := hinside.mp (hall 0x7000 1 0 _ hat (by rw [hval]; exact wholeLoad_spares b _ _))
    exact inside_relocRead.mp
      (relocReads_of_whole (wholeLoad_whole b) hat hloop i (mem_range.mpr hi))
  · intro hrelocs
    refine ⟨inside_parseDynamic hvalid,
      fun _ => inside_vaddrToOffset hvalid, fun buf cr3 base l hat hspares => ?_⟩
    obtain ⟨hval, hinside⟩ := applyRelocations_loop cr3 base hvalid hat
    rw [hval] at hspares
    exact hinside.mpr (inside_relocLoop
      (fun i hi => inside_relocRead.mpr (hrelocs i (mem_range.mp hi))) (fun x _ => hat x) hspares)

/-- A shared object of one segment with a dynamic section: one relocation, of the type
    `R_X86_64_RELATIVE`, at the address `rela`. -/
def tableImage (rela : Nat) : Nat → UInt8 :=
  [(0, 4, 0x464C457F), (4, 1, 2), (5, 1, 1), (16, 2, 3), (18, 2, 62), (32, 8, 64),
    (54, 2, 56), (56, 2, 2),
    (64, 4, 1), (104, 8, 0x1000), (120, 4, 2), (128, 8, 176), (160, 8, 48),
    (176, 8, 7), (184, 8, rela), (192, 8, 8), (200, 8, 24), (208, 8, 9),
    (216, 8, 24), (232, 8, 8)].foldl
      (fun m w => writeLE m w.1 w.2.1 w.2.2) fun _ => 0

theorem tableImage_size : 248 < 2 ^ 64 := by decide

/-- Its table of relocations lies in the segment, but behind the end of the file. -/
def strayImage : Buffer := ⟨tableImage 0x800, 248, tableImage_size⟩

/-- Its table of relocations is the end of the file. -/
def tidyImage : Buffer := ⟨tableImage 224, 248, tableImage_size⟩

/-- **The relocation behind the end of the file is read.** -/
theorem reloc_outside_read : (strayImage.elf64ParseSegments elfSegmentMax).val.isSome = true ∧
    strayImage.LiesAt 0x7000 (wholeLoad strayImage) ∧
    ¬ Inside strayImage.size (strayImage.applyRelocations 0x7000 1 0 (wholeLoad strayImage)) := by
  refine ⟨by decide +kernel, wholeLoad_lies strayImage, fun h => ?_⟩
  have hread :
      (0x808, 8) ∈ (strayImage.applyRelocations 0x7000 1 0 (wholeLoad strayImage)).reads := by
    decide +kernel
  exact absurd (h _ hread 0 (by decide)) (by decide)

theorem tidy_inside : (tidyImage.elf64ParseSegments elfSegmentMax).val.isSome = true ∧
    Inside tidyImage.size tidyImage.elf64ParseDynamic ∧
    (∀ vaddr, Inside tidyImage.size (tidyImage.elf64VaddrToOffset vaddr)) ∧
    ∀ buf cr3 base l, tidyImage.LiesAt buf l →
      tidyImage.Spares buf l (tidyImage.applyRelocations buf cr3 base l).val.2 →
      Inside tidyImage.size (tidyImage.applyRelocations buf cr3 base l) := by
  have hsome : (tidyImage.elf64ParseSegments elfSegmentMax).val.isSome = true := by decide +kernel
  have hcount : tidyImage.relocCount = 1 := by decide +kernel
  have hat : tidyImage.relaAt 0 = 224 := by decide +kernel
  have htype : tidyImage.relaType 0 = 8 := by decide +kernel
  refine ⟨hsome, (relocs_inside_iff tidyImage elfSegmentMax hsome).mpr fun i hi => ?_⟩
  obtain rfl : i = 0 := by omega
  refine ⟨?_, fun _ => ?_, fun h => ?_, fun _ => ?_⟩
  · rw [hat, Holds]
    decide
  · rw [hat, Holds]
    decide
  · rw [htype] at h
    exact absurd h (by decide)
  · rw [hat, Holds]
    decide

end Buffer

/-! ## 6. The loader works with the results -/

namespace Image

variable {im : Image} {buf off : Nat}

theorem vaddrToOffset_buffer :
    (im.buffer.elf64VaddrToOffset vaddr).val = im.vaddrToOffset vaddr := by
  rw [Buffer.vaddrToOffset_val, Buffer.offsetOf, phdrs_buffer]
  rfl

theorem dynamicEntry_buffer :
    (im.buffer.dynamicEntry d off).val = im.dynamicEntry d (im.field off 8)
    (im.field (off + 8) 8) := by
  have htag : (im.buffer.read off 8).val = im.field off 8 := rfl
  have hvalue : (im.buffer.read (off + 8) 8).val = im.field (off + 8) 8 := rfl
  rw [Buffer.dynamicEntry, val_bind, Image.dynamicEntry, htag]
  simp only [val_ite, val_bind, val_pure, hvalue, vaddrToOffset_buffer]
  -- `DT_RELACOUNT` and `DT_STRTAB` change nothing
  generalize im.field off 8 = tag
  by_cases h7 : tag = 7
  · rw [if_pos h7, if_pos h7]
  by_cases h8 : tag = 8
  · rw [if_neg h7, if_pos h8, if_neg h7, if_pos h8]
  by_cases h9 : tag = 9
  · rw [if_neg h7, if_neg h8, if_pos h9, if_neg h7, if_neg h8, if_pos h9]
  rw [if_neg h7, if_neg h8, if_neg h9, if_neg h7, if_neg h8, if_neg h9]
  split_ifs <;> first | rfl | omega

theorem foldlM_buffer {offs : List Nat} : (offs.foldlM im.buffer.dynamicEntry d).val =
    offs.foldl (fun d off => im.dynamicEntry d (im.field off 8) (im.field (off + 8) 8)) d := by
  induction offs generalizing d with
  | nil => rfl
  | cons off offs ih => rw [foldlM_cons, val_bind, ih, dynamicEntry_buffer, foldl_cons]

/-- What `elf64_parse_dynamic` makes of a list of program headers. -/
theorem dynamicLoop_buffer {offs : List Nat} : (im.buffer.dynamicLoop offs).val =
    match (offs.map im.buffer.phdrAt).find? fun ph => ph.type = ptDynamic with
    | none => (false, cleared false)
    | some ph =>
      if ¬ rangeOk im.size ph.offset ph.memsz then (false, cleared false)
      else
        let d := (Buffer.dynOffsets ph.offset ph.memsz).foldl
          (fun d off => im.dynamicEntry d (im.field off 8) (im.field (off + 8) 8)) (cleared true)
        (d.relaSize ≠ 0 ∧ d.relaEnt ≠ 0, d) := by
  induction offs with
  | nil => rfl
  | cons off offs ih =>
    rw [Buffer.dynamicLoop, val_bind, val_ite, ih, map_cons, find?_cons]
    by_cases htype : (im.buffer.phdrAt off).type = ptDynamic
    · have hdyn : ¬ (im.buffer.read off 4).val ≠ ptDynamic := not_not.mpr htype
      rw [if_neg hdyn, decide_eq_true htype]
      simp only [val_bind, val_ite, val_pure, foldlM_buffer]
      exact (ite_not ..).symm
    · have hother : (im.buffer.read off 4).val ≠ ptDynamic := htype
      rw [if_pos hother, decide_eq_false htype]

theorem parseDynamic_buffer : im.buffer.elf64ParseDynamic.val = im.parseDynamic := by
  rw [Buffer.elf64ParseDynamic, val_bind, validate_buffer, parseDynamic]
  cases im.validate with
  | false => rfl
  | true =>
    rw [if_pos rfl, if_neg (not_not.mpr rfl), ← phdrs_buffer]
    refine dynamicLoop_buffer.trans ?_
    simp only [Buffer.dynOffsets, foldl_map]
    rfl

theorem resolveSymbol_buffer :
    (im.buffer.resolveSymbol d sym base).val = resolveSymbol im d sym base := by
  have hfield : ∀ k, im.field ((d.symtabOffset + sym * d.symEnt) % 2 ^ 64 + k) =
      im.field (d.symtabOffset + sym * d.symEnt + k) := by
    intro k
    funext n
    rw [Image.field, Image.field, Nat.mod_add_mod]
  rw [Buffer.resolveSymbol, resolveSymbol]
  simp only [val_ite, val_bind, val_pure, hfield]
  rfl

theorem relocRead_buffer : (im.buffer.relocRead d base i).val =
    (relocValue im d base (im.rela d i)).map fun v =>
    ((base + (im.rela d i).offset) % 2 ^ 64, v) := by
  have hvalue : (im.buffer.relocValue d base (d.relaOffset + i * d.relaEnt)).val =
      relocValue im d base (im.rela d i) := by
    rw [Buffer.relocValue, relocValue]
    simp only [val_bind, val_ite, val_pure, resolveSymbol_buffer]
    rfl
  rw [Buffer.relocRead, val_bind, hvalue]
  cases relocValue im d base (im.rela d i) with
  | none => rfl
  | some v => rfl

/-- The loops store the same, as long as the stores spare the image. -/
theorem relocLoop_image (h : ∀ i ∈ is, Inside im.size (im.buffer.relocRead d base i))
    (hbytes : ∀ x, x < im.size → l.mm.mem (buf + x) = im.bytes x)
    (hspares : im.buffer.Spares buf l (im.buffer.relocLoop buf cr3 d base is l).val.2) :
    (im.buffer.relocLoop buf cr3 d base is l).val = is.forM (applyRelocation cr3 im d base) l := by
  induction is generalizing l with
  | nil => rfl
  | cons i is ih =>
    obtain ⟨hi, his⟩ := forall_mem_cons.mp h
    have hsame := Buffer.relocRead_seen hbytes hi
    rw [Buffer.relocLoop, val_bind, hsame, relocRead_buffer] at hspares
    rw [Buffer.relocLoop, val_bind, hsame, relocRead_buffer, List.forM]
    cases hv : relocValue im d base (im.rela d i) with
    | none =>
      rw [hv] at hspares
      have hround : applyRelocation cr3 im d base i l = (some (), l) := by
        rw [applyRelocation, hv]
        rfl
      rw [bind_some hround]
      exact ih his hbytes hspares
    | some v =>
      rw [hv] at hspares
      simp only [Option.map_some] at hspares ⊢
      have hround : applyRelocation cr3 im d base i l =
          store cr3 ((base + (im.rela d i).offset) % 2 ^ 64) 8 (word v) l := by
        rw [applyRelocation, hv]
      rcases store_cases cr3 ((base + (im.rela d i).offset) % 2 ^ 64) 8 (word v) l with
        hstore | ⟨-, hstore⟩
      · rw [bind_none (hround.trans hstore), hstore]
        rfl
      · rw [hstore] at hspares
        rw [bind_some (hround.trans hstore), hstore]
        obtain ⟨hout, hrest⟩ := hspares.step
        exact ih his (Buffer.bytes_write hbytes hout) hrest

/-- The relocations of the loader are those of the tables. -/
theorem relocCount_buffer (h : im.buffer.ValidHeader) : im.relocCount = im.buffer.relocCount ∧
    (im.relocCount ≠ 0 → im.parseDynamic.2 = im.buffer.dynamic) := by
  obtain ⟨hok, hdyn⟩ := Buffer.parseDynamic_val h
  rw [parseDynamic_buffer] at hok hdyn
  rw [relocCount, Buffer.relocCount]
  by_cases htrue : im.parseDynamic.1 = true
  · rw [hdyn htrue, htrue, if_neg (by simp [Buffer.dynamic]), Buffer.dynamic_relaEnt,
      Buffer.dynamic_relaSize]
    exact ⟨rfl, fun _ => rfl⟩
  · rw [if_pos (.inl htrue)]
    refine ⟨?_, fun hne => absurd rfl hne⟩
    rw [hok, decide_eq_true_iff, not_and_or, not_not, not_not] at htrue
    rcases htrue with hsize | hent
    · rw [hsize, Nat.zero_div, ite_self]
    · rw [hent, if_pos (by decide)]

/-- **The relocations that the loader applies**, to an image whose relocations lie inside and are
    stored elsewhere. -/
theorem applyRelocations_image (h : im.buffer.ValidHeader)
    (hrelocs : ∀ i, i < im.buffer.relocCount → im.buffer.RelocInside i)
    (hat : im.buffer.LiesAt buf l)
    (hspares : im.buffer.Spares buf l (im.buffer.applyRelocations buf cr3 base l).val.2) :
    (im.buffer.applyRelocations buf cr3 base l).val = Exec.applyRelocations cr3 im base l := by
  obtain ⟨hcount, hdyn⟩ := relocCount_buffer h
  rw [(Buffer.applyRelocations_loop _ _ h hat).1] at hspares ⊢
  rw [Exec.applyRelocations, hcount]
  by_cases hzero : im.buffer.relocCount = 0
  · rw [hzero]
    rfl
  · rw [hdyn (hcount ▸ hzero)]
    exact relocLoop_image (fun i hi => Buffer.inside_relocRead.mpr (hrelocs i (mem_range.mp hi)))
      (fun x _ => hat x) hspares

end Image

end DyntKernel.Exec
