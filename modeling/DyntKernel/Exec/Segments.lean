/-
  File:      DyntKernel/Exec/Segments.lean
  Subject:   WHAT A SEGMENT HOLDS AFTER `map_segment` (process/process.c).

  The end of a segment is rounded up to a page in 64 bits. When the sum wraps, the loop runs over no
  page, or over one, and the call succeeds all the same.

  * `SegmentLoaded` -- the bytes of the file and then zeros, at addresses that are mapped;
  * `mapSegmentPage_shows`, `pages_show` -- what the loop leaves in the pages it maps;
  * `EndFits` -- the condition; **`segment_loaded_iff`** -- the segment is loaded exactly then;
  * `segment_not_mapped` -- a segment up to the end of the address space, of which nothing is
    mapped.
-/
import DyntKernel.Exec.ElfReads
import DyntKernel.Exec.Pages

namespace DyntKernel.Exec

open Library Library.Fallible Mem List

variable {b : Boot} {s s₀ : Mm} {sp : List Nat} {r va vaddr base : Nat} {own mapped : Nat → Prop}
  {l : Load} {im : Image} {seg : Segment} {segs : List Segment}

/-! ## 1. The contents of a segment -/

/-- The byte `i` of a segment: from the file, or zero behind it. -/
def segmentByte (im : Image) (seg : Segment) (i : Nat) : UInt8 :=
  if i < seg.filesz then im.bytes (seg.offset + i) else 0

/-- **The segment is in memory**: its addresses are mapped and hold its bytes. -/
def SegmentLoaded (l : Load) (r : Nat) (im : Image) (seg : Segment) (base : Nat) : Prop :=
  ∀ i < seg.memsz, pagingTranslate l.mm.mem r ((base + seg.vaddr + i) % 2 ^ 64) ≠ 0 ∧
    byteAt l r ((base + seg.vaddr + i) % 2 ^ 64) = segmentByte im seg i

/-- The pages of a segment at `vaddr`: zeros before it, and its bytes. -/
def segmentImage (im : Image) (seg : Segment) (vaddr x : Nat) : UInt8 :=
  if vaddr ≤ x then segmentByte im seg (x - vaddr) else 0

/-- What a segment that was accepted may be. -/
structure SegmentFits (im : Image) (seg : Segment) : Prop where
  memsz : seg.filesz ≤ seg.memsz
  file : seg.offset + seg.filesz ≤ im.size
  small : seg.memsz < 2 ^ 64

theorem segment_fits (hsegs : im.parseSegments = some segs) (hseg : seg ∈ segs) :
    SegmentFits im seg := by
  rw [← Image.parseSegments_buffer] at hsegs
  obtain ⟨parsed, hparsed, heq⟩ := Option.map_eq_some_iff.mp hsegs
  obtain ⟨hload, rfl⟩ := (Buffer.parse_iff elfSegmentMax segs).mp ⟨parsed, hparsed, heq⟩
  obtain ⟨ph, hph, rfl⟩ := mem_map.mp hseg
  have hfits := hload.fits ph hph
  obtain ⟨off, -, rfl⟩ := mem_map.mp (mem_filter.mp hph).1
  exact ⟨hfits.memsz, hfits.file, readLE_lt⟩

/-! ## 2. The loop -/

section Loop

variable (hs : ∀ f, s.pmm.free f = true → b.Ram f) (hr : r ∈ sp) (hfits : SegmentFits im seg)
  (hend : vaddr + seg.memsz < 2 ^ 64)
include hs hr hfits hend

/-- **One page**: zeroed, and then the part of the file that falls into it. -/
theorem mapSegmentPage_shows (hva : va % 4096 = 0) :
    Triple (Showing b sp r own s s₀ mapped (segmentImage im seg vaddr))
    (mapSegmentPage r im seg vaddr va)
      (fun _ => Showing b sp r own s s₀ (fun v => v = va ∨ mapped v) (segmentImage im seg vaddr))
      (Loading b sp r own s s₀ fun _ => False) := by
  have hfile := hfits.file
  have hsize := im.size_le
  have hmem := hfits.memsz
  refine Triple.bind (mapFresh_shows hs hr va) fun f => ?_
  dsimp only [fileRange]
  rw [Nat.mod_eq_of_lt (show vaddr + seg.filesz < 2 ^ 64 by omega)]
  generalize hlo : max vaddr va = lo
  generalize hhi : min (vaddr + seg.filesz) (va + 0x1000) = hi
  -- outside of the part of the file the page is zero
  have hzero : ∀ x, x / 4096 * 4096 = va → ¬ (lo ≤ x ∧ x < hi) →
      segmentImage im seg vaddr x = 0 := by
    intro x hx hout
    rw [segmentImage, segmentByte]
    split_ifs
    · omega
    · rfl
    · rfl
  by_cases hrange : lo < hi
  · rw [if_pos hrange]
    refine Triple.edit fun l hl => ?_
    obtain ⟨h, hpage, hgot, hapart⟩ := hl
    have hpageLo : PageAt l.mm r lo f := PageAt.offset (by
      rw [show lo / 4096 * 4096 = va by omega]
      exact hpage)
    have hwrite := h.write hs hr hpageLo hgot (n := hi - lo) (by omega)
      (fun j => im.bytes ((seg.offset + (lo - vaddr) + j) % 2 ^ 64)) fun x hx hxf => by
        rcases hx with hx | hx
        · omega
        · exact absurd hxf (hapart x hx)
    rw [show f * 4096 + (lo - va) = f * 4096 + lo % 4096 by omega]
    refine hwrite.congr fun x hx => ?_
    by_cases hin : lo ≤ x ∧ x < hi
    · rw [blit, if_pos (by omega), segmentImage, if_pos (by omega), segmentByte, if_pos (by omega),
        Nat.mod_eq_of_lt (by omega)]
      exact congrArg im.bytes (by omega)
    · rw [blit, if_neg (by omega)]
      split_ifs with hpage
      · exact (hzero x hpage hin).symm
      · rfl
  · rw [if_neg hrange]
    refine Triple.pure fun l hl => hl.1.congr fun x _ => ?_
    split_ifs with hpage
    · exact (hzero x hpage (by omega)).symm
    · rfl

/-- **The loop of `map_segment`.** -/
theorem pages_show (vs : List Nat) (hvs : ∀ va ∈ vs, va % 4096 = 0) :
    Triple (Loading b sp r own s s₀ fun _ => False) (vs.forM (mapSegmentPage r im seg vaddr))
      (fun _ => Showing b sp r own s s₀ (· ∈ vs) (segmentImage im seg vaddr))
      (Loading b sp r own s s₀ fun _ => False) := by
  refine (Triple.forM
    (J := fun done => Showing b sp r own s s₀ (· ∈ done) (segmentImage im seg vaddr))
    fun va hva done => ?_).conseq (fun l h => ?_) fun _ _ h => h
  · exact (mapSegmentPage_shows hs hr hfits hend (hvs va hva)).conseq (fun _ h => h)
      fun _ _ h => h.mono (mem_snoc va done)
  · exact ⟨h.mono fun _ hno => absurd hno not_mem_nil, fun _ hno => absurd hno not_mem_nil⟩

end Loop

/-- A call begins with nothing mapped of its own. -/
theorem loading_begin (h : Inv b s sp) :
    Loading b sp r (Table s r) s s (fun _ => False) (Load.begin s) :=
  ⟨Confined.begin s, h, fun _ hf => hf, fun _ ht => .inr ht, Kept.refl, fun _ hno => hno.elim⟩

/-- **A segment that ends inside the address space is loaded.** -/
theorem segment_loaded (h : Inv b s sp) (hr : r ∈ sp) (hfits : SegmentFits im seg)
    (hend : (base + seg.vaddr) % 2 ^ 64 + seg.memsz + 0xFFF < 2 ^ 64)
    (hrun : mapSegment r im seg base (Load.begin s) = (some (), l)) :
    SegmentLoaded l r im seg base := by
  have hpages : ∀ va ∈ segmentPages seg base, va % 4096 = 0 := by
    intro va hva
    obtain ⟨k, -, rfl⟩ := mem_map.mp hva
    omega
  have hwhole : (base + seg.vaddr) % 2 ^ 64 + seg.memsz < 2 ^ 64 := by omega
  rcases pages_show h.free hr hfits hwhole (segmentPages seg base) hpages _ (loading_begin h) with
    ⟨u, l', hrun', hshow⟩ | ⟨l', hrun', -⟩
  swap
  · cases hrun'.symm.trans hrun
  obtain rfl : l' = l := congrArg Prod.snd (hrun'.symm.trans hrun)
  intro i hi
  have hx : (base + seg.vaddr + i) % 2 ^ 64 = (base + seg.vaddr) % 2 ^ 64 + i := by omega
  rw [hx]
  generalize hv : (base + seg.vaddr) % 2 ^ 64 = vaddr at hend hshow
  have hmem : (vaddr + i) / 4096 * 4096 ∈ segmentPages seg base := by
    rw [segmentPages, hv, pagesFrom, mem_map]
    exact ⟨(vaddr + i) / 4096 - vaddr / 4096, mem_range.mpr (by omega), by omega⟩
  obtain ⟨f, hpage, hgot⟩ := hshow.page _ hmem
  have hlow := Boot.tables_lt_ram (h.free f (hshow.got f hgot))
  refine ⟨?_, ?_⟩
  · rw [hpage.offset.translate]
    omega
  · rw [hshow.shows _ hmem, segmentImage, if_pos (Nat.le_add_right vaddr i),
      Nat.add_sub_cancel_left]

/-! ## 3. When the end wraps -/

/-- **The segment has no byte, or its end can be rounded up in 64 bits**; or it goes round the whole
    address space and starts in a page of the kernel, so that the call fails. -/
def EndFits (seg : Segment) (base : Nat) : Prop :=
  let vaddr := (base + seg.vaddr) % 2 ^ 64
  seg.memsz = 0 ∨ vaddr + seg.memsz + 0xFFF < 2 ^ 64 ∨
    vaddr / 4096 * 4096 + 2 ^ 64 < vaddr + seg.memsz ∧ vaddr / 4096 * 4096 % 2 ^ 48 < pagingUserBase

/-- The loop then runs over one page at most. -/
theorem segmentPages_wrapped (hv : (base + seg.vaddr) % 2 ^ 64 = vaddr)
    (hsmall : seg.memsz < 2 ^ 64)
    (hwrap : 2 ^ 64 ≤ vaddr + seg.memsz + 0xFFF) : segmentPages seg base =
      if vaddr / 4096 * 4096 + 2 ^ 64 < vaddr + seg.memsz ∧ vaddr / 4096 * 4096 + 4096 < 2 ^ 64 then
        [vaddr / 4096 * 4096] else [] := by
  rw [segmentPages, hv]
  dsimp only [pagesFrom]
  split_ifs with hone
  · rw [show (((vaddr + seg.memsz) % 2 ^ 64 + 0xFFF) % 2 ^ 64 / 4096 * 4096 -
      vaddr / 4096 * 4096 + 4095) / 4096 = 1 by omega, range_one, map_singleton,
      Nat.zero_mul, Nat.add_zero]
  · rw [show (((vaddr + seg.memsz) % 2 ^ 64 + 0xFFF) % 2 ^ 64 / 4096 * 4096 -
      vaddr / 4096 * 4096 + 4095) / 4096 = 0 by omega]
    rfl

/-- The paths that do not lead through the slot of the kernel. -/
theorem visible_pathOf : Visible (pathOf va) ↔ pagingUserBase ≤ va % 2 ^ 48 := by
  have hbase : pagingUserBase = 0x40000000 := rfl
  rw [pathOf, visible_cons_cons, Fin.ext_iff, Fin.ext_iff, pml4Idx, pdptIdx,
    Fin.val_ofNat, Fin.val_ofNat,
    Fin.val_zero]
  omega

/-- In a new space only the first slot of the root leads anywhere. -/
theorem translate_new {s' : Mm} (h : NewSpace b sp r s s') (hi : pml4Idx va ≠ 0) :
    pagingTranslate s'.mem r va = 0 := by
  have hp : ¬ present (entry s'.mem r (pml4Idx va)) = true := by
    intro hp
    have hw : walkFrom s'.mem r [pml4Idx va] = some (entryFrame (entry s'.mem r (pml4Idx va))) := by
      refine (walkFrom_snoc (p := []) rfl (pml4Idx va)).trans ?_
      simp [child, hp]
    exact hi (cons_prefix_cons.mp (h.paths _ _ (visible_single _) hw)).1
  simp [pagingTranslate, hp]

theorem oneSpace_new : NewSpace smallBoot [] 4 smallMm oneSpace := by
  have hroot : smallMm.pagingNewAddressSpace.1 = 4 := by decide +kernel
  rcases pagingNewAddressSpace_cases smallMm_inv with ⟨s', heq, -⟩ | ⟨r, s', heq, -, hnew⟩
  · rw [heq] at hroot
    cases hroot
  · rw [heq] at hroot
    rw [oneSpace, heq, ← hroot]
    exact hnew

/-- In the space of `oneSpace` the call succeeds when the end wraps, unless its page is the
    kernel's. -/
theorem wrapped_succeeds (im : Image) (hv : (base + seg.vaddr) % 2 ^ 64 = vaddr)
    (hsmall : seg.memsz < 2 ^ 64)
    (hwrap : 2 ^ 64 ≤ vaddr + seg.memsz + 0xFFF)
    (hpage : vaddr / 4096 * 4096 + 2 ^ 64 < vaddr + seg.memsz →
      pagingUserBase ≤ vaddr / 4096 * 4096 % 2 ^ 48) :
    ∃ l, mapSegment 4 im seg base (Load.begin oneSpace) = (some (), l) := by
  rw [mapSegment, segmentPages_wrapped hv hsmall hwrap, hv]
  split_ifs with hone
  · have hpage := hpage hone.1
    have hvis := visible_pathOf.mpr hpage
    have hfree : 4 ≤ freeCount oneSpace := le_freeCount (f := 6) (by decide +kernel) (by decide)
    obtain ⟨f, l₁, hrun, -⟩ :=
      mapFresh_of_free (l := Load.begin oneSpace) oneSpace_new.inv mem_cons_self rfl
      (Nat.le_trans hpage (Nat.mod_le _ _))
      (by omega) hvis (newSpace_unmapped oneSpace_new hvis) hfree
    have hround : ∃ l, mapSegmentPage 4 im seg vaddr (vaddr / 4096 * 4096) (Load.begin oneSpace) =
        (some (), l) := by
      rw [mapSegmentPage, bind_some hrun]
      dsimp only
      split_ifs
      · exact ⟨_, rfl⟩
      · exact ⟨_, rfl⟩
    obtain ⟨l, hl⟩ := hround
    exact ⟨l, bind_some hl⟩
  · exact ⟨_, rfl⟩

/-- **The segment is loaded in every address space in which `map_segment` succeeds, exactly when its
    end fits.** -/
theorem segment_loaded_iff (hsegs : im.parseSegments = some segs) (hseg : seg ∈ segs) (base : Nat) :
    (∀ (b : Boot) (s : Mm) (sp : List Nat) (r : Nat) (l : Load), Inv b s sp → r ∈ sp →
      mapSegment r im seg base (Load.begin s) = (some (), l) → SegmentLoaded l r im seg base) ↔
    EndFits seg base := by
  have hfits := segment_fits hsegs hseg
  generalize hv : (base + seg.vaddr) % 2 ^ 64 = vaddr
  have hsmall := hfits.small
  -- a call that succeeds has kept the invariant and mapped its pages
  have hspec : ∀ {b s sp r l}, Inv b s sp → r ∈ sp →
      mapSegment r im seg base (Load.begin s) = (some (), l) →
      Loading b sp r (Table s r) s s (fun v => v ∈ segmentPages seg base ∨ False) l := by
    intro b s sp r l h hr hrun
    rcases mapSegment_spec h.free hr im seg base _ (loading_begin h) with
      ⟨u, l', hrun', hload⟩ | ⟨l', hrun', -⟩
    · obtain rfl : l' = l := congrArg Prod.snd (hrun'.symm.trans hrun)
      exact hload
    · cases hrun'.symm.trans hrun
  rw [EndFits, hv]
  constructor
  · intro hall
    by_contra hno
    rw [not_or, not_or, not_and, Nat.not_lt, Nat.not_lt] at hno
    obtain ⟨hpos, hwrap, hpage⟩ := hno
    obtain ⟨l, hrun⟩ := wrapped_succeeds im hv hsmall hwrap hpage
    have hload := hall _ _ _ _ l oneSpace_new.inv mem_cons_self hrun
    by_cases hround : 2 ^ 64 < vaddr + seg.memsz
    · -- the segment goes on at address 0, which is not mapped
      have hat := (hload (2 ^ 64 - vaddr) (by omega)).1
      rw [show (base + seg.vaddr + (2 ^ 64 - vaddr)) % 2 ^ 64 = 0 by omega] at hat
      exact hat (kernel_mapped (hspec oneSpace_new.inv mem_cons_self hrun).inv.toShape mem_cons_self
        (by decide)).1
    -- no page is mapped, and the segment has its end in the last one
    rw [mapSegment, segmentPages_wrapped hv hsmall hwrap, if_neg (by omega)] at hrun
    obtain rfl : Load.begin oneSpace = l := congrArg Prod.snd hrun
    refine (hload (seg.memsz - 1) (by omega)).1 (translate_new oneSpace_new fun hzero => ?_)
    have hidx := congrArg Fin.val hzero
    rw [pml4Idx, Fin.val_ofNat, Fin.val_zero] at hidx
    omega
  intro hends b s sp r l h hr hrun
  rcases hends with hzero | hends | hround
  · intro i hi
    omega
  · exact segment_loaded h hr hfits (hv ▸ hends) hrun
  -- the page of the kernel cannot be mapped
  have huser : pagingUserBase = 0x40000000 := rfl
  have hmem : vaddr / 4096 * 4096 ∈ segmentPages seg base := by
    rw [segmentPages_wrapped hv hsmall (by omega), if_pos (by omega)]
    exact mem_singleton_self _
  obtain ⟨f, hpage, -⟩ := (hspec h hr hrun).page _ (.inl hmem)
  have hvis := visible_pathOf.mp hpage.visible
  omega

/-- A program of one segment at 1 GiB. -/
def programImage (memsz : Nat) : Image where
  bytes :=
    [(0, 4, 0x464C457F), (4, 1, 2), (5, 1, 1), (16, 2, 2), (18, 2, 62), (32, 8, 64), (54, 2, 56),
    (56, 2, 1), (64, 4, 1), (80, 8, 0x40000000), (96, 8, 64), (104, 8, memsz)].foldl
      (fun m x => writeLE m x.1 x.2.1 x.2.2) fun _ => 0
  size := 128
  size_le := by decide

theorem segment_loaded_page : (programImage 4096).parseSegments = some [⟨0x40000000, 0, 64, 4096⟩] ∧
    ∃ l, mapSegment 4 (programImage 4096) ⟨0x40000000, 0, 64, 4096⟩ 0 (Load.begin oneSpace) =
      (some (), l) ∧
      SegmentLoaded l 4 (programImage 4096) ⟨0x40000000, 0, 64, 4096⟩ 0 := by
  have hsegs : (programImage 4096).parseSegments = some [⟨0x40000000, 0, 64, 4096⟩] := by
    decide +kernel
  have hdone :
      (mapSegment 4 (programImage 4096) ⟨0x40000000, 0, 64, 4096⟩ 0 (Load.begin oneSpace)).1 =
        some () := by decide +kernel
  have hrun := Prod.ext (y := (some (), _)) hdone rfl
  exact ⟨hsegs, _, hrun, (segment_loaded_iff hsegs mem_cons_self 0).mpr (.inr (.inl (by decide)))
    smallBoot oneSpace [4] 4 _ oneSpace_new.inv mem_cons_self hrun⟩

/-- **A segment up to the end of the address space**: the call succeeds, and its first address is
    not mapped. -/
theorem segment_not_mapped : ∃ seg, (programImage 0xFFFFFFFFC0000000).parseSegments = some [seg] ∧
    ∃ l, mapSegment 4 (programImage 0xFFFFFFFFC0000000) seg 0 (Load.begin oneSpace) = (some (), l) ∧
      Inv smallBoot oneSpace [4] ∧ pagingTranslate l.mm.mem 4 seg.vaddr = 0 ∧
      ¬ SegmentLoaded l 4 (programImage 0xFFFFFFFFC0000000) seg 0 := by
  have hzero : pagingTranslate oneSpace.mem 4 0x40000000 = 0 := by decide +kernel
  refine ⟨⟨0x40000000, 0, 64, 0xFFFFFFFFC0000000⟩, by decide +kernel,
    Load.begin oneSpace, rfl, oneSpace_new.inv,
    hzero, fun hload => ?_⟩
  exact (hload 0 (by decide)).1 hzero

end DyntKernel.Exec
