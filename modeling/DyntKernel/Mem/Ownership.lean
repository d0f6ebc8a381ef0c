/-
  File:      DyntKernel/Mem/Ownership.lean
  Subject:   EVERY PRIVATE FRAME HAS ONE OWNER, in every run of the paging layer.

  A run starts after boot without user address spaces and makes, maps, unmaps, clones and frees
  them in any order; every allocation may fail.

  * `RefersTo`, `PrivateOwned` -- the table entries that refer to a private frame, and the
    property;
  * `World`, `Op`, `World.step` -- the machine with its live spaces, and the operations;
  * `inv_start`, `inv_step` -- the forest invariant of `Mem/Tree.lean` at boot and across an
    operation;
  * `private_frames_owned` -- the property in every run.
-/
import DyntKernel.Library.Runs
import DyntKernel.Mem.Spaces

namespace DyntKernel.Mem

open Library

/-! ## 1. The property -/

/-- The entry `i` of the table `t` of the space `r` refers to `f`. -/
def RefersTo (s : Mm) (r t : Nat) (i : Fin 512) (f : Nat) : Prop :=
  ∃ p, Visible (p ++ [i]) ∧ walkFrom s.mem r p = some t ∧ child p.length (entry s.mem t i) = some f

/-- **The private frames of the live spaces are taken, of one space only, and below the root
    reached by exactly one entry.** -/
structure PrivateOwned (s : Mm) (spaces : List Nat) : Prop where
  taken : ∀ r ∈ spaces, ∀ f, Private s r f → s.pmm.free f = false
  apart : ∀ r ∈ spaces, ∀ r' ∈ spaces, r ≠ r' → ∀ f, Private s r f → ¬ Private s r' f
  once : ∀ r ∈ spaces, ∀ f, Private s r f → f ≠ r → ∃! e : Nat × Fin 512, RefersTo s r e.1 e.2 f

/-! ## 2. Runs -/

/-- The machine and the roots of the live user address spaces. -/
structure World where
  mm : Mm
  spaces : List Nat

inductive Op where
  | mapLapic (phys : Nat)
  | newSpace
  /-- Allocate a frame and map it; `giveBack` tells whether the caller of a failed `paging_map`
      frees the frame again. -/
  | map (r vaddr flags : Nat) (giveBack : Bool)
  | unmap (r vaddr : Nat)
  | clone (src dst : Nat)
  | free (r : Nat)

/-- `pmm_alloc_frame` and `paging_map` of the frame it returned. -/
def Mm.allocAndMap (s : Mm) (r vaddr flags : Nat) (giveBack : Bool) : Mm :=
  if s.alloc.1 = 0 then s.alloc.2
  else
    match s.alloc.2.pagingMap r vaddr s.alloc.1 flags with
    | (true, s') => s'
    | (false, s') => if giveBack then s'.release s.alloc.1 else s'

/-- One operation on live spaces. The APIC base comes from an MSR field below 4 GiB, flags do not
    overlap the frame number, and `paging_unmap` is called on no huge page. -/
def World.step (w : World) : Op → Option World
  | .mapLapic phys =>
    if phys < 2 ^ 32 then some { w with mm := w.mm.pagingMapLapic phys } else none
  | .newSpace =>
    let r := w.mm.pagingNewAddressSpace.1
    some ⟨w.mm.pagingNewAddressSpace.2, if r = 0 then w.spaces else r :: w.spaces⟩
  | .map r vaddr flags giveBack =>
    if r ∈ w.spaces ∧ FlagsOk flags then
      some { w with mm := w.mm.allocAndMap r vaddr flags giveBack }
    else none
  | .unmap r vaddr =>
    if r ∈ w.spaces ∧ hugeAt w.mm.mem r vaddr = false then
      some { w with mm := w.mm.pagingUnmap r vaddr }
    else none
  | .clone src dst =>
    if src ∈ w.spaces ∧ dst ∈ w.spaces then
      some { w with mm := (w.mm.pagingCloneUserSpace src dst).2 }
    else none
  | .free r =>
    if r ∈ w.spaces then
      some ⟨w.mm.pagingFreeAddressSpace r, w.spaces.filter (· ≠ r)⟩
    else none

/-! ## 3. Boot -/

/-- The zeroed pages of boot.S. -/
theorem entry_bootZero (m : Phys) (t k : Nat) (hk : k < 3) (i : Fin 512) :
    entry (blit m (t * 4096) (3 * 4096) fun _ => 0) (t + k) i = 0 := by
  have haddr : (t + k) * 4096 + i.val * 8 = t * 4096 + (k * 4096 + i.val * 8) := by ring
  have hin : k * 4096 + i.val * 8 + 8 ≤ 3 * 4096 := by omega
  rw [entry, haddr, readLE_blit_of_within hin, readLE_zero]

/-- The huge identity entries of boot.S. -/
theorem entry_bootPd (m : Phys) (t : Nat) (i : Fin 512) : entry (blit m (t * 4096) 4096 fun j =>
      UInt8.ofNat ((j / 8 * 0x200000 + 0x87) / 256 ^ (j % 8))) t i = i * 0x200000 + 0x87 := by
  have hin : i.val * 8 + 8 ≤ 4096 := by omega
  rw [entry, readLE_blit_of_within hin]
  have hbytes : readLE (fun j => UInt8.ofNat ((j / 8 * 0x200000 + 0x87) / 256 ^ (j % 8)))
      (i.val * 8) 8 = (i.val * 0x200000 + 0x87) % 256 ^ 8 := by
    refine readLE_bytes fun j hj => ?_
    rw [show (i.val * 8 + j) / 8 = i.val by omega, show (i.val * 8 + j) % 8 = j by omega]
  rw [hbytes]
  exact Nat.mod_eq_of_lt (by norm_num; omega)

/-- **The boot page tables** are as the invariant has them. -/
theorem kernelTables_start (b : Boot) : KernelTables b b.start := by
  have hsmall := Boot.tables_small (b := b)
  have hentry : ∀ u i, ¬ (u = b.pml4 ∧ i = 0) → ¬ (u = b.pml4 + 1 ∧ i = 0) →
      entry b.start.mem u i = entry (blit (blit b.ram (b.pml4 * 4096) (3 * 4096) fun _ => 0)
        ((b.pml4 + 2) * 4096) 4096 fun j =>
          UInt8.ofNat ((j / 8 * 0x200000 + 0x87) / 256 ^ (j % 8))) u i := by
    intro u i h₀ h₁
    rw [Boot.start, bootPaging, entry_setEntry, if_neg h₀, entry_setEntry, if_neg h₁]
  have hlow : ∀ k i, k < 2 → i ≠ 0 → entry b.start.mem (b.pml4 + k) i = 0 := by
    intro k i hk hi
    rw [hentry _ _ (by simp [hi]) (by simp [hi]),
      entry_blit_of_ne (by omega) (Nat.le_refl _) (Nat.le_refl _)]
    exact entry_bootZero b.ram b.pml4 k (by omega) i
  refine ⟨rfl, ?_, fun i hi => hlow 0 i (by decide) hi, ?_, fun _ i hi => hlow 1 i (by decide) hi,
    fun i => ?_, Nat.two_pow_pos 39⟩
  · rw [Boot.start, bootPaging, entry_setEntry, if_pos ⟨rfl, rfl⟩, tableEntry_mod (by omega)]
    rfl
  · rw [Boot.start, bootPaging, entry_setEntry, if_neg (by simp [Boot.pdpt]), entry_setEntry,
      if_pos ⟨rfl, rfl⟩, tableEntry_mod hsmall]
    rfl
  · rw [hentry _ _ (by simp [Boot.pd]) (by simp [Boot.pd])]
    exact entry_bootPd _ (b.pml4 + 2) i

theorem inv_start (b : Boot) : Inv b b.start [] := by
  have hnone : ∀ r, r ∉ ([] : List Nat) := fun _ => List.not_mem_nil
  have htree : ∀ f, ¬ Tree b.start [] f := by
    rintro f ⟨r, -, hr, -⟩
    exact hnone r hr
  refine ⟨⟨kernelTables_start b, ⟨?_⟩, fun f hf => absurd hf (htree f), ?_, ?_⟩, fun f hf => hf,
    fun f hf => absurd hf (htree f)⟩
  · exact fun r _ _ _ _ hr => absurd hr (hnone r)
  · exact fun r hr => absurd hr (hnone r)
  · exact fun r hr => absurd hr (hnone r)

/-- A machine with 16 free frames, from frame 4 on. -/
def smallBoot : Boot where
  info := ⟨[⟨0x4000, 0x10000, 1⟩], 0x4000, 0x20000, 0, 0, 0⟩
  ram := fun _ => 0
  pml4 := 1
  kernelEnd_lt := by decide
  tables_lt := by decide

theorem smallBoot_free : (pmmInit smallBoot.info).free = fun g => decide (4 ≤ g ∧ g < 20) := by
  funext g
  have hframes : MmapEntry.frames ⟨0x4000, 0x10000, 1⟩ = List.range' 4 16 := by decide
  have hkernel : frameCeil smallBoot.info.kernelEnd = 4 := by decide
  have hmap : smallBoot.info.memoryMap = [⟨0x4000, 0x10000, 1⟩] := rfl
  have hbitmap : smallBoot.info.bitmap = 0x20000 := rfl
  have hfb : smallBoot.info.framebuffer = 0 := rfl
  have hmax : pmmMaxFrames = 16777216 := rfl
  rw [Bool.eq_iff_iff, pmmInit_free, decide_eq_true_iff, BootInfo.Usable, Reserved, Reserved,
    hkernel, hmap, hbitmap, hfb]
  simp only [List.mem_singleton, forall_eq, exists_eq_left, hframes, List.mem_range'_1, ne_eq,
    not_true_eq_false, false_imp_iff, and_true, true_and]
  omega

/-- The state of `smallBoot`, with the bitmap in a form that evaluates. -/
theorem smallBoot_start : smallBoot.start = ⟨⟨fun g => decide (4 ≤ g ∧ g < 20), 0,
    (pmmInit smallBoot.info).freeFrames⟩, bootPaging (fun _ => 0) 1, 1, 0⟩ := by
  have hpmm : ∀ (p : Pmm) (free : Nat → Bool) (m : Phys), p.free = free → p.hint = 0 →
      (⟨p, m, 1, 0⟩ : Mm) = ⟨⟨free, 0, p.freeFrames⟩, m, 1, 0⟩ := by
    rintro ⟨free, hint, count⟩ free' m rfl rfl
    rfl
  exact hpmm _ _ _ smallBoot_free (pmmInit_hint smallBoot.info)

/-- The memory of `smallBoot`. -/
def smallMm : Mm :=
  ⟨⟨fun g => decide (4 ≤ g ∧ g < 20), 0, 16⟩, bootPaging (fun _ => 0) 1, 1, 0⟩

theorem smallMm_inv : Inv smallBoot smallMm [] := by
  have hstart := inv_start smallBoot
  rw [smallBoot_start] at hstart
  exact hstart.setPmm fun _ hf => hf

/-! ## 4. The operations -/

variable {b : Boot} {s : Mm} {sp : List Nat}

theorem Inv.allocAndMap (h : Inv b s sp) {r vaddr flags : Nat} (hr : r ∈ sp)
    (hflags : FlagsOk flags)
    (giveBack : Bool) : Inv b (s.allocAndMap r vaddr flags giveBack) sp := by
  rw [Mm.allocAndMap]
  rcases Grown.alloc h with ⟨hzero, hsame⟩ | ⟨hne, hgrow, hf, -⟩
  · rw [if_pos hzero, hsame]
    exact h
  rw [if_neg hne]
  rcases pagingMap_cases vaddr hgrow.inv hr hf hflags with ⟨s', heq, hgrow'⟩ | ⟨s', heq, hgrow', -⟩
  · rw [heq]
    split_ifs
    · exact hgrow'.inv.release fun _ => (hgrow'.fresh _ (by simp) hf).toLoose
    · exact hgrow'.inv
  · rw [heq]
    exact hgrow'.inv

/-- **Every operation keeps the invariant.** -/
theorem inv_step {w w' : World} (op : Op) (h : Inv b w.mm w.spaces) (hs : w.step op = some w') :
    Inv b w'.mm w'.spaces := by
  cases op with
  | mapLapic phys =>
    simp only [World.step] at hs
    split_ifs at hs with hphys
    obtain rfl := Option.some.inj hs
    exact h.pagingMapLapic (by omega)
  | newSpace =>
    rw [← Option.some.inj hs]
    rcases pagingNewAddressSpace_cases h with ⟨s', heq, hinv, -⟩ | ⟨r, s', heq, hne, hnew⟩
    · simp only [heq, if_true]
      exact hinv
    · simp only [heq, if_neg hne]
      exact hnew.inv
  | map r vaddr flags giveBack =>
    simp only [World.step] at hs
    split_ifs at hs with hok
    obtain rfl := Option.some.inj hs
    exact h.allocAndMap hok.1 hok.2 giveBack
  | unmap r vaddr =>
    simp only [World.step] at hs
    split_ifs at hs with hok
    obtain rfl := Option.some.inj hs
    exact h.pagingUnmap hok.1 hok.2
  | clone src dst =>
    simp only [World.step] at hs
    split_ifs at hs with hok
    obtain rfl := Option.some.inj hs
    exact (h.pagingCloneUserSpace src hok.2).1
  | free r =>
    simp only [World.step] at hs
    split_ifs at hs with hok
    obtain rfl := Option.some.inj hs
    exact h.pagingFreeAddressSpace hok

/-! ## 5. The result -/

/-- The forest is what ownership needs. -/
theorem Inv.privateOwned (h : Inv b s sp) : PrivateOwned s sp := by
  refine ⟨?_, ?_, ?_⟩
  · rintro r hr f ⟨p, hv, hw⟩
    exact h.taken f ⟨r, p, hr, hv, hw⟩
  · rintro r hr r' hr' hne f ⟨p, hv, hw⟩ ⟨p', hv', hw'⟩
    exact hne (h.forest.inj r r' p p' f hr hr' hv hv' hw hw').1
  rintro r hr f ⟨p, hv, hw⟩ hne
  rcases List.eq_nil_or_concat p with rfl | ⟨q, i, rfl⟩
  · exact absurd (Option.some.inj hw).symm hne
  rw [List.concat_eq_append] at hv hw
  obtain ⟨t, ht, -⟩ := walk_prefix hw
  have hlast : child q.length (entry s.mem t i) = some f := (walkFrom_snoc ht i).symm.trans hw
  refine ⟨(t, i), ⟨q, hv, ht, hlast⟩, ?_⟩
  rintro ⟨t', i'⟩ ⟨q', hv', ht', hlast'⟩
  have hw' : walkFrom s.mem r (q' ++ [i']) = some f := (walkFrom_snoc ht' i').trans hlast'
  obtain ⟨-, hpath⟩ := h.forest.inj r r _ _ f hr hr hv' hv hw' hw
  obtain ⟨rfl, hi⟩ := List.append_inj' hpath rfl
  obtain rfl : i' = i := List.head_eq_of_cons_eq hi
  rw [show t' = t from Option.some.inj (ht'.symm.trans ht)]

/-- **In every run of the paging layer each private frame of a live address space is taken,
    belongs to that space alone, and is reached by exactly one table entry.** -/
theorem private_frames_owned (b : Boot) {w : World}
    (h : Reaches World.step Any ⟨b.start, []⟩ w) : PrivateOwned w.mm w.spaces :=
  Inv.privateOwned (b := b)
    (h.inv (I := fun w => Inv b w.mm w.spaces)
      (inv_start b) fun _ _ op hi _ hs => inv_step op hi hs)

theorem private_frames_owned_smallBoot :
    ∃ w, Reaches World.step Any ⟨smallBoot.start, []⟩ w ∧ w.spaces = [11, 5] ∧
      PrivateOwned w.mm w.spaces := by
  obtain ⟨w, hr, hw⟩ := Reaches.of_exec_any World.step Any ⟨smallBoot.start, []⟩
    [.mapLapic 0xFEE00000, .newSpace, .map 5 0x40000000 flagUserWritable true, .newSpace]
    (fun w => w.spaces = [11, 5]) (by rw [smallBoot_start]; decide +kernel)
  exact ⟨w, hr, of_decide_eq_true hw, private_frames_owned smallBoot hr⟩

end DyntKernel.Mem
