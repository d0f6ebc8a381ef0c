/-
  File:      DyntKernel/Exec/ElfReads.lean
  Subject:   WHAT OF AN ELF IMAGE IS READ (exec/elf.c), and which images are accepted.

  The routines of elf.c get a pointer and a size and check themselves what they read. Here they are
  traced computations on a buffer of any size, with a read where the source has one; the pure
  functions of `Image` are their results.

  * `Buffer`, `elf64Validate`, `elf64ParseSegments` -- the routines with their reads;
  * `Loadable` -- the header, the table of program headers and the segments an image should have;
  * `parse_exact` -- exactly those images are accepted, with the segments of the table in its order,
    and nothing outside the image is read.
-/
import DyntKernel.Exec.Elf
import DyntKernel.Library.Traced

namespace DyntKernel.Exec

open Library Traced List

variable {segs : List Segment} {size : Nat} {ph : Phdr} {offs : List Nat}

/-! ## 1. The routines -/

/-- An image and the size that is given for it. -/
structure Buffer where
  bytes : Nat → UInt8
  size : Nat
  size_lt : size < 2 ^ 64

namespace Buffer

variable (b : Buffer)

/-- The value of a little-endian field of `n` bytes. -/
def field (off n : Nat) : Nat := readLE b.bytes (off % 2 ^ 64) n

def read (off n : Nat) : Traced Nat := Traced.read b.bytes (off % 2 ^ 64) n

/-- A field is compared with a number. -/
def has (off n v : Nat) : Traced Bool := do pure (decide ((← b.read off n) = v))

/-- `elf64_validate`; an ELF header has 64 bytes and a program header 56. -/
def elf64Validate : Traced Bool :=
  if b.size < 64 then pure false
  else allOf [b.has 0 1 0x7F, b.has 1 1 0x45, b.has 2 1 0x4C, b.has 3 1 0x46,
    b.has 4 1 2, b.has 5 1 1,
    anyOf [b.has 16 2 etExec, b.has 16 2 etDyn], b.has 18 2 emX86, b.has 54 2 56,
    (do pure (decide ((← b.read 56 2) ≠ 0))),
    (do pure (rangeOk b.size (← b.read 32 8) ((← b.read 56 2) * (← b.read 54 2))))]

/-- One round of the loop of `elf64_parse_segments`, on the program header at `off`. -/
def parseSegment (maxSegs : Int) (segs : List Segment) (off : Nat) :
    Traced (Option (List Segment)) := do
  if (← b.read off 4) ≠ ptLoad then pure (some segs)
  else if ← anyOf [(do pure (decide ((← b.read (off + 40) 8) < (← b.read (off + 32) 8)))),
      (do pure (!rangeOk b.size (← b.read (off + 8) 8) (← b.read (off + 32) 8)))] then pure none
  else if maxSegs ≤ segs.length then pure none
  else pure (some (segs ++
    [⟨← b.read (off + 16) 8, ← b.read (off + 8) 8, ← b.read (off + 32) 8, ← b.read (off + 40) 8⟩]))

/-- The loop, over the offsets of program headers. -/
def segmentLoop (maxSegs : Int) : List Nat → List Segment → Traced (Option (List Segment))
  | [], segs => pure (some segs)
  | off :: offs, segs => do
    match ← b.parseSegment maxSegs segs off with
    | none => pure none
    | some segs => segmentLoop maxSegs offs segs

/-- The offsets of the program headers. -/
def phdrOffsets (phoff phnum : Nat) : List Nat := (List.range phnum).map fun i => phoff + i * 56

/-- What `elf64_parse_segments` returns besides `true`: `segs`, `*out_entry` and `*out_pie`. -/
structure Parsed where
  segs : List Segment
  entry : Nat
  pie : Bool
deriving Repr, DecidableEq

/-- The end of `elf64_parse_segments`, behind its loop. -/
def parsed : Option (List Segment) → Traced (Option Parsed)
  | none => pure none
  | some [] => pure none
  | some segs => do pure (some ⟨segs, ← b.read 24 8, decide ((← b.read 16 2) = etDyn)⟩)

/-- `elf64_parse_segments`; `none` if it returns `false`. -/
def elf64ParseSegments (maxSegs : Int) : Traced (Option Parsed) := do
  if ← b.elf64Validate then
    b.parsed (← b.segmentLoop maxSegs (phdrOffsets (← b.read 32 8) (← b.read 56 2)) [])
  else pure none

/-! ## 2. What an image should be -/

/-- The program header at `off`. -/
def phdrAt (off : Nat) : Phdr :=
  ⟨b.field off 4, b.field (off + 8) 8, b.field (off + 16) 8,
    b.field (off + 32) 8, b.field (off + 40) 8⟩

def phoff : Nat := b.field 32 8
def phnum : Nat := b.field 56 2

/-- The program headers, in the order of the table. -/
def phdrs : List Phdr := (phdrOffsets b.phoff b.phnum).map b.phdrAt

/-- **A 64-bit little-endian header for x86-64, of an executable or a shared object**, whose table
    of program headers lies inside the image. -/
structure ValidHeader : Prop where
  header : 64 ≤ b.size
  magic : b.field 0 1 = 0x7F ∧ b.field 1 1 = 0x45 ∧ b.field 2 1 = 0x4C ∧ b.field 3 1 = 0x46
  ident : b.field 4 1 = 2 ∧ b.field 5 1 = 1
  type : b.field 16 2 = etExec ∨ b.field 16 2 = etDyn
  machine : b.field 18 2 = emX86
  phentsize : b.field 54 2 = 56
  some : b.phnum ≠ 0
  table : b.phoff + b.phnum * 56 ≤ b.size

end Buffer

/-- The segment of a program header. -/
def Phdr.segment (ph : Phdr) : Segment := ⟨ph.vaddr, ph.offset, ph.filesz, ph.memsz⟩

/-- The `PT_LOAD` headers among `l`. -/
def loadsOf (l : List Phdr) : List Phdr := l.filter fun ph => ph.type = ptLoad

/-- The file part of a segment is not longer than the segment and lies inside the image. -/
structure Phdr.Fits (ph : Phdr) (size : Nat) : Prop where
  memsz : ph.filesz ≤ ph.memsz
  file : ph.offset + ph.filesz ≤ size

namespace Buffer

/-- The `PT_LOAD` headers of the image. -/
def loads (b : Buffer) : List Phdr := loadsOf b.phdrs

/-- **An image that can be loaded with at most `maxSegs` segments.** -/
structure Loadable (b : Buffer) (maxSegs : Int) : Prop where
  valid : b.ValidHeader
  one : 1 ≤ b.loads.length
  few : b.loads.length ≤ maxSegs
  fits : ∀ ph ∈ b.loads, ph.Fits b.size

variable {b : Buffer} {maxSegs : Int} {off n : Nat}

/-! ## 3. The results -/

@[simp] theorem read_val : (b.read off n).val = b.field off n := rfl

theorem rangeOk_iff {len : Nat} : rangeOk size off len = true ↔ off + len ≤ size := by
  rw [rangeOk, decide_eq_true_iff]
  omega

theorem fits_iff : ph.Fits size ↔ ph.filesz ≤ ph.memsz ∧ rangeOk size ph.offset ph.filesz = true :=
  ⟨fun h => ⟨h.memsz, rangeOk_iff.mpr h.file⟩, fun h => ⟨h.1, rangeOk_iff.mp h.2⟩⟩

theorem validate_iff : b.elf64Validate.val = true ↔ b.ValidHeader := by
  rw [elf64Validate, val_ite]
  by_cases hsize : b.size < 64
  · rw [if_pos hsize]
    exact ⟨nofun, fun h => absurd h.header (Nat.not_le.mpr hsize)⟩
  rw [if_neg hsize]
  simp only [val_allOf, val_anyOf, has, val_bind, val_pure, all_cons, any_cons, all_nil, any_nil,
    Bool.and_true, Bool.or_false, Bool.and_eq_true, Bool.or_eq_true, decide_eq_true_eq, rangeOk_iff]
  simp only [read_val]
  constructor
  · intro ⟨h0, h1, h2, h3, h4, h5, htype, hmachine, hsize', hsome, htable⟩
    rw [hsize'] at htable
    exact ⟨by omega, ⟨h0, h1, h2, h3⟩, ⟨h4, h5⟩, htype, hmachine, hsize', hsome, htable⟩
  · intro h
    obtain ⟨h0, h1, h2, h3⟩ := h.magic
    have htable := h.table
    rw [← h.phentsize] at htable
    exact ⟨h0, h1, h2, h3, h.ident.1, h.ident.2, h.type, h.machine, h.phentsize, h.some, htable⟩

/-- One round: the header at `off` is skipped, or its segment appended. -/
theorem parseSegment_iff {r : List Segment} : (b.parseSegment maxSegs segs off).val = some r ↔
    if (b.phdrAt off).type = ptLoad then
      (b.phdrAt off).Fits b.size ∧ segs.length < maxSegs ∧
      r = segs ++ [(b.phdrAt off).segment] else r = segs := by
  rw [parseSegment, val_bind]
  by_cases htype : (b.phdrAt off).type = ptLoad
  · have hload : ¬ (b.read off 4).val ≠ ptLoad := not_not.mpr htype
    have hbad : (anyOf [(do pure (decide ((← b.read (off + 40) 8) < (← b.read (off + 32) 8)))),
        (do pure (!rangeOk b.size (← b.read (off + 8) 8) (← b.read (off + 32) 8)))]).val = true ↔
          ¬ (b.phdrAt off).Fits b.size := by
      simp only [val_anyOf, val_bind, val_pure, any_cons, any_nil, Bool.or_false, Bool.or_eq_true,
        decide_eq_true_eq, Bool.not_eq_true']
      rw [fits_iff, not_and_or, Nat.not_le, Bool.not_eq_true]
      exact Iff.rfl
    rw [if_neg hload, if_pos htype, val_bind]
    by_cases hfits : (b.phdrAt off).Fits b.size
    · rw [if_neg (fun h => hbad.mp h hfits), val_ite]
      by_cases hfull : maxSegs ≤ segs.length
      · rw [if_pos hfull]
        exact ⟨nofun, fun h => absurd h.2.1 (not_lt.mpr hfull)⟩
      rw [if_neg hfull]
      have hval :
          (do pure (some (segs ++ [⟨← b.read (off + 16) 8, ← b.read (off + 8) 8,
            ← b.read (off + 32) 8, ← b.read (off + 40) 8⟩])) : Traced (Option (List Segment))).val =
          some (segs ++ [(b.phdrAt off).segment]) := rfl
      rw [hval, Option.some_inj, eq_comm]
      exact ⟨fun h => ⟨hfits, not_le.mp hfull, h⟩, fun h => h.2.2⟩
    · rw [if_pos (hbad.mpr hfits)]
      exact ⟨nofun, fun h => absurd h.1 hfits⟩
  · have hother : (b.read off 4).val ≠ ptLoad := htype
    rw [if_pos hother, if_neg htype, val_pure, Option.some_inj, eq_comm]

theorem loadsOf_cons {l : List Phdr} :
    loadsOf (ph :: l) = if ph.type = ptLoad then ph :: loadsOf l else loadsOf l := by
  rw [loadsOf, filter_cons]
  simp only [decide_eq_true_eq]
  rfl

/-- The headers `l` can be appended to `n` segments. -/
structure Room (size : Nat) (maxSegs : Int) (n : Nat) (l : List Phdr) : Prop where
  fits : ∀ ph ∈ l, ph.Fits size
  few : l ≠ [] → n + l.length ≤ maxSegs

theorem room_cons {l : List Phdr} : Room size maxSegs n (ph :: l) ↔
    ph.Fits size ∧ n < maxSegs ∧ Room size maxSegs (n + 1) l := by
  constructor
  · intro ⟨hfits, hfew⟩
    obtain ⟨hph, hl⟩ := forall_mem_cons.mp hfits
    have hlen := hfew (cons_ne_nil ph l)
    rw [length_cons] at hlen
    push_cast at hlen
    refine ⟨hph, by omega, hl, fun _ => ?_⟩
    push_cast
    omega
  intro ⟨hph, hlt, hl, hfew⟩
  refine ⟨forall_mem_cons.mpr ⟨hph, hl⟩, fun _ => ?_⟩
  rw [length_cons]
  cases l with
  | nil =>
    rw [length_nil]
    push_cast
    omega
  | cons ph' l =>
    have := hfew (cons_ne_nil ph' l)
    push_cast at this ⊢
    omega

/-- **The loop**: it comes to its end if all the segments fit and there is room for them. -/
theorem segmentLoop_iff {r : List Segment} : (b.segmentLoop maxSegs offs segs).val = some r ↔
      Room b.size maxSegs segs.length (loadsOf (offs.map b.phdrAt)) ∧
      r = segs ++ (loadsOf (offs.map b.phdrAt)).map Phdr.segment := by
  induction offs generalizing segs with
  | nil =>
    rw [segmentLoop, val_pure, Option.some_inj, map_nil, loadsOf, filter_nil, map_nil, append_nil,
      eq_comm]
    exact ⟨fun h => ⟨⟨fun _ hph => absurd hph not_mem_nil, fun h => absurd rfl h⟩, h⟩, fun h => h.2⟩
  | cons off offs ih =>
    have hround : ∀ s, (b.parseSegment maxSegs segs off).val = some s ↔ _ :=
      fun s => parseSegment_iff
    rw [segmentLoop, val_bind, map_cons, loadsOf_cons]
    by_cases htype : (b.phdrAt off).type = ptLoad
    · simp only [if_pos htype] at hround ⊢
      rw [room_cons]
      by_cases hok : (b.phdrAt off).Fits b.size ∧ segs.length < maxSegs
      · rw [(hround (segs ++ [(b.phdrAt off).segment])).mpr ⟨hok.1, hok.2, rfl⟩]
        have hmap : ∀ l : List Segment, segs ++ [(b.phdrAt off).segment] ++ l = segs ++
            (b.phdrAt off).segment :: l :=
          fun l => by rw [append_assoc, singleton_append]
        have hlen : (segs ++ [(b.phdrAt off).segment]).length = segs.length + 1 := by simp
        refine ih.trans ?_
        rw [hlen, hmap, map_cons]
        exact ⟨fun h => ⟨⟨hok.1, hok.2, h.1⟩, h.2⟩, fun h => ⟨h.1.2.2, h.2⟩⟩
      have hnone : (b.parseSegment maxSegs segs off).val = none := by
        refine Option.eq_none_iff_forall_ne_some.mpr fun s hs => ?_
        obtain ⟨hfits, hlt, -⟩ := (hround s).mp hs
        exact hok ⟨hfits, hlt⟩
      rw [hnone]
      exact ⟨nofun, fun h => absurd ⟨h.1.1, h.1.2.1⟩ hok⟩
    · simp only [if_neg htype] at hround ⊢
      rw [(hround segs).mpr rfl]
      exact ih

/-! ## 4. The reads -/

theorem inside_field (hn : 0 < n) (h : off + n ≤ b.size) : Inside b.size (b.read off n) := by
  have hlt := b.size_lt
  rw [read, inside_read hn, Nat.mod_eq_of_lt (by omega)]
  exact h

theorem inside_has {v : Nat} (hn : 0 < n) (h : off + n ≤ b.size) :
    Inside b.size (b.has off n v) := by
  rw [has, inside_bind]
  exact ⟨inside_field hn h, inside_pure⟩

theorem inside_validate : Inside b.size b.elf64Validate := by
  rw [elf64Validate, inside_ite]
  refine ⟨fun _ => inside_pure, fun hsize => ?_⟩
  have hin : ∀ off n, 0 < n → off + n ≤ 64 → Inside b.size (b.read off n) :=
    fun off n hn h => inside_field hn (by omega)
  have hhas : ∀ off n v, 0 < n → off + n ≤ 64 → Inside b.size (b.has off n v) :=
    fun off n v hn h => inside_has hn (by omega)
  have htype : Inside b.size (anyOf [b.has 16 2 etExec, b.has 16 2 etDyn]) :=
    inside_anyOf (forall_mem_cons.mpr ⟨hhas 16 2 _ (by decide) (by decide),
      forall_mem_singleton.mpr (hhas 16 2 _ (by decide) (by decide))⟩)
  refine inside_allOf ?_
  simp (disch := decide) only [forall_mem_cons, inside_bind, inside_pure, hin, hhas,
    htype, and_true, true_and]
  exact fun _ h => absurd h not_mem_nil

/-- The round on a program header inside the image. -/
theorem inside_parseSegment (h : off + 56 ≤ b.size) :
    Inside b.size (b.parseSegment maxSegs segs off) := by
  have hin : ∀ i n, 0 < n → i + n ≤ 56 → Inside b.size (b.read (off + i) n) :=
    fun i n hn h' => inside_field hn (by omega)
  have hbad :
      Inside b.size (anyOf [(do pure (decide ((← b.read (off + 40) 8) < (← b.read (off + 32) 8)))),
      (do pure (!rangeOk b.size (← b.read (off + 8) 8) (← b.read (off + 32) 8)))]) := by
    refine inside_anyOf ?_
    simp (disch := decide) only [forall_mem_cons, inside_bind, inside_pure, hin, and_true, true_and]
    exact fun _ h => absurd h not_mem_nil
  rw [parseSegment, inside_bind, inside_ite, inside_bind, inside_ite, inside_ite]
  refine ⟨inside_field (by decide) (by omega), fun _ => inside_pure, fun _ =>
    ⟨hbad, fun _ => inside_pure, fun _ =>
    ⟨fun _ => inside_pure, fun _ => ?_⟩⟩⟩
  simp (disch := decide) only [inside_bind, inside_pure, hin, and_true]

theorem inside_segmentLoop (h : ∀ off ∈ offs, off + 56 ≤ b.size) :
    Inside b.size (b.segmentLoop maxSegs offs segs) := by
  induction offs generalizing segs with
  | nil => exact inside_pure
  | cons off offs ih =>
    obtain ⟨hoff, hoffs⟩ := forall_mem_cons.mp h
    rw [segmentLoop, inside_bind]
    refine ⟨inside_parseSegment hoff, ?_⟩
    cases (b.parseSegment maxSegs segs off).val with
    | none => exact inside_pure
    | some segs => exact ih hoffs

namespace ValidHeader

/-- The program headers lie inside the image. -/
theorem phdr_inside (h : b.ValidHeader) :
    ∀ off ∈ phdrOffsets b.phoff b.phnum, off + 56 ≤ b.size := by
  intro off hoff
  obtain ⟨i, hi, rfl⟩ := mem_map.mp hoff
  have htable := h.table
  have hi' := mem_range.mp hi
  omega

end ValidHeader

/-- What is returned for the segments of the loop. -/
theorem parsed_iff {o : Option (List Segment)} :
    (∃ r, (b.parsed o).val = some r ∧ r.segs = segs) ↔ o = some segs ∧ segs ≠ [] := by
  match o with
  | none => exact ⟨nofun, nofun⟩
  | some [] => exact ⟨nofun, fun h => absurd (Option.some.inj h.1).symm h.2⟩
  | some (seg :: l) =>
    constructor
    · intro ⟨r, hr, hsegs⟩
      cases hr
      subst hsegs
      exact ⟨rfl, cons_ne_nil seg l⟩
    · intro ⟨h, _⟩
      cases h
      exact ⟨_, rfl, rfl⟩

theorem inside_parsed {o : Option (List Segment)} (h : 64 ≤ b.size) :
    Inside b.size (b.parsed o) := by
  match o with
  | none => exact inside_pure
  | some [] => exact inside_pure
  | some (seg :: l) =>
    simp only [parsed, inside_bind, inside_pure, and_true]
    exact ⟨inside_field (by decide) (by omega), inside_field (by decide) (by omega)⟩

theorem room_zero_iff : Room b.size maxSegs 0 b.loads ∧ b.loads ≠ [] ↔
    (∀ ph ∈ b.loads, ph.Fits b.size) ∧ 1 ≤ b.loads.length ∧ b.loads.length ≤ maxSegs := by
  rw [Nat.one_le_iff_ne_zero, Ne, Ne, length_eq_zero_iff]
  constructor
  · intro ⟨hroom, hne⟩
    have hfew := hroom.few hne
    exact ⟨hroom.fits, hne, by omega⟩
  · intro ⟨hfits, hne, hfew⟩
    exact ⟨⟨hfits, fun _ => by omega⟩, hne⟩

/-- The images that are accepted, and their segments. -/
theorem parse_iff (maxSegs : Int) (segs : List Segment) :
    (∃ r, (b.elf64ParseSegments maxSegs).val = some r ∧ r.segs = segs) ↔
      b.Loadable maxSegs ∧ segs = b.loads.map Phdr.segment := by
  have hloop : ∀ r, (b.segmentLoop maxSegs (phdrOffsets b.phoff b.phnum) []).val = some r ↔
      Room b.size maxSegs 0 b.loads ∧ r = b.loads.map Phdr.segment := fun r => segmentLoop_iff
  rw [elf64ParseSegments, val_bind]
  by_cases hvalid : b.elf64Validate.val = true
  · rw [if_pos hvalid]
    refine parsed_iff.trans ((and_congr_left' (hloop segs)).trans ?_)
    have hnil : b.loads.map Phdr.segment ≠ [] ↔ b.loads ≠ [] := map_eq_nil_iff.not
    constructor
    · intro ⟨⟨hroom, hsegs⟩, hne⟩
      rw [hsegs] at hne
      obtain ⟨hfits, hone, hfew⟩ := room_zero_iff.mp ⟨hroom, hnil.mp hne⟩
      exact ⟨⟨validate_iff.mp hvalid, hone, hfew, hfits⟩, hsegs⟩
    · intro ⟨h, hsegs⟩
      obtain ⟨hroom, hne⟩ := room_zero_iff.mpr ⟨h.fits, h.one, h.few⟩
      rw [hsegs]
      exact ⟨⟨hroom, rfl⟩, hnil.mpr hne⟩
  · rw [if_neg hvalid]
    exact ⟨nofun, fun h => absurd (validate_iff.mpr h.1.valid) hvalid⟩

theorem inside_parseSegments : Inside b.size (b.elf64ParseSegments maxSegs) := by
  rw [elf64ParseSegments, inside_bind, inside_ite]
  refine ⟨inside_validate, fun hvalid => ?_, fun _ => inside_pure⟩
  have h := validate_iff.mp hvalid
  have hsize := h.header
  simp only [inside_bind]
  exact ⟨inside_field (by decide) (by omega), inside_field (by decide) (by omega),
    inside_segmentLoop h.phdr_inside, inside_parsed hsize⟩

/-- **`elf64_parse_segments` accepts exactly the images that can be loaded**, with the segments of
    the table in its order, and reads nothing outside the image. -/
theorem parse_exact (b : Buffer) (maxSegs : Int) :
    (∀ segs, (∃ r, (b.elf64ParseSegments maxSegs).val = some r ∧ r.segs = segs) ↔
      b.Loadable maxSegs ∧ segs = b.loads.map Phdr.segment) ∧
        Inside b.size (b.elf64ParseSegments maxSegs) :=
  ⟨fun segs => parse_iff maxSegs segs, inside_parseSegments⟩

end Buffer

/-! ## 5. The loader works with the results -/

theorem Image.size_lt (im : Image) : im.size < 2 ^ 64 := Nat.lt_of_le_of_lt im.size_le (by decide)

/-- The buffer of an image. -/
def Image.buffer (im : Image) : Buffer := ⟨im.bytes, im.size, im.size_lt⟩

namespace Image

variable {im : Image}

theorem validate_buffer : im.buffer.elf64Validate.val = im.validate := by
  rw [Bool.eq_iff_iff, Buffer.validate_iff, Image.validate, decide_eq_true_iff]
  constructor
  · intro h
    refine ⟨h.header, h.magic, h.ident, h.type, h.machine, h.phentsize, h.some,
      Buffer.rangeOk_iff.mpr ?_⟩
    rw [show im.phentsize = 56 from h.phentsize]
    exact h.table
  · intro ⟨hsize, hmagic, hident, htype, hmachine, hent, hsome, htable⟩
    have htable := Buffer.rangeOk_iff.mp htable
    rw [hent] at htable
    exact ⟨hsize, hmagic, hident, htype, hmachine, hent, hsome, htable⟩

theorem phdrs_buffer : im.buffer.phdrs = im.phdrs := by
  rw [Buffer.phdrs, Buffer.phdrOffsets, map_map]
  rfl

theorem parseSegment_buffer {off : Nat} :
    (im.buffer.parseSegment elfSegmentMax segs off).val =
      im.parseSegment segs (im.buffer.phdrAt off) := by
  have hpure : ∀ (ph : Phdr) (r : List Segment), im.parseSegment segs ph = some r ↔
      if ph.type = ptLoad then ph.Fits im.size ∧ (segs.length : Int) < elfSegmentMax ∧
        r = segs ++ [ph.segment]
      else r = segs := by
    intro ph r
    rw [Image.parseSegment]
    by_cases htype : ph.type = ptLoad
    · rw [if_neg (not_not.mpr htype), if_pos htype]
      by_cases hfits : ph.Fits im.size
      · have hok : ¬ (ph.memsz < ph.filesz ∨ ¬ rangeOk im.size ph.offset ph.filesz = true) := by
          rw [not_or, Nat.not_lt, not_not]
          exact Buffer.fits_iff.mp hfits
        rw [if_neg hok]
        by_cases hfull : elfSegmentMax ≤ segs.length
        · rw [if_pos hfull]
          exact ⟨nofun, fun h => by omega⟩
        · rw [if_neg hfull, Option.some_inj, eq_comm]
          exact ⟨fun h => ⟨hfits, by omega, h⟩, fun h => h.2.2⟩
      have hbad : ph.memsz < ph.filesz ∨ ¬ rangeOk im.size ph.offset ph.filesz = true := by
        by_contra hok
        rw [not_or, Nat.not_lt, not_not] at hok
        exact hfits (Buffer.fits_iff.mpr hok)
      rw [if_pos hbad]
      exact ⟨nofun, fun h => absurd h.1 hfits⟩
    · rw [if_pos htype, if_neg htype, Option.some_inj, eq_comm]
  refine Option.ext fun r => ?_
  rw [Buffer.parseSegment_iff, hpure]
  rfl

theorem segmentLoop_buffer :
    (im.buffer.segmentLoop elfSegmentMax offs segs).val =
      (offs.map im.buffer.phdrAt).foldlM im.parseSegment segs := by
  induction offs generalizing segs with
  | nil => rfl
  | cons off offs ih =>
    rw [Buffer.segmentLoop, val_bind, parseSegment_buffer, map_cons, foldlM_cons]
    cases im.parseSegment segs (im.buffer.phdrAt off) with
    | none => rfl
    | some segs => exact ih

/-- **The segments that the loader gets.** -/
theorem parseSegments_buffer :
    (im.buffer.elf64ParseSegments elfSegmentMax).val.map Buffer.Parsed.segs = im.parseSegments := by
  rw [Buffer.elf64ParseSegments, val_bind, validate_buffer, parseSegments]
  cases im.validate with
  | false => rfl
  | true =>
    have hloop :
        (im.buffer.segmentLoop elfSegmentMax (Buffer.phdrOffsets im.buffer.phoff im.buffer.phnum)
          []).val =
        im.phdrs.foldlM im.parseSegment [] := by
      rw [segmentLoop_buffer, ← phdrs_buffer]
      rfl
    refine (congrArg (fun o => (im.buffer.parsed o).val.map Buffer.Parsed.segs) hloop).trans ?_
    rw [if_neg (not_not.mpr rfl)]
    rcases im.phdrs.foldlM im.parseSegment [] with _ | _ | ⟨seg, l⟩ <;> rfl

end Image

end DyntKernel.Exec
