/-
  File:      DyntKernel/Mem/BootMap.lean
  Subject:   WHICH FRAMES ARE FREE AFTER BOOT (mem/mm/pmm.c, `pmm_init`), against the memory map.

  `pmm_init` rounds the usable entries outward, as it does the ranges it reserves: a frame that an
  entry covers in part only is marked free.

  * `BootInfo.Whole`, `BootInfo.taken`, `Meets` -- a frame inside usable memory, the ranges it must
    not meet; `OnlyUsable` -- what the bitmap should say;
  * `MmapEntry.edges` -- the frames at the two ends of an entry, `frames_inside` -- the others lie
    in it;
  * `BootInfo.Withheld` -- a frame that `reserve_range` takes, `free_iff` -- what boot leaves free;
  * `only_usable_iff` -- exactly when the bitmap is right.
-/
import DyntKernel.Mem.Pmm

namespace DyntKernel.Mem

open List MmapEntry

/-! ## 1. What should be free -/

/-- The frame `f` meets the bytes from `r.1` to `r.2`. -/
def Meets (r : Nat × Nat) (f : Nat) : Prop :=
  ∃ x, f * 4096 ≤ x ∧ x < (f + 1) * 4096 ∧ r.1 ≤ x ∧ x < r.2

namespace BootInfo

variable (b : BootInfo)

/-- Every byte of the frame lies in a usable entry. -/
def Whole (f : Nat) : Prop :=
  ∀ x, f * 4096 ≤ x → x < (f + 1) * 4096 → ∃ e ∈ b.memoryMap, e.type = 1 ∧
    e.addr ≤ x ∧ x < e.addr + e.length

/-- The kernel image, the bitmap, the entries that are not usable, and the framebuffer. -/
def taken : List (Nat × Nat) :=
  (0, b.kernelEnd) :: (b.bitmap, b.bitmap + pmmMaxFrames / 8) ::
    ((b.memoryMap.filter fun e => e.type ≠ 1).map fun e => (e.addr, e.addr + e.length)) ++
    if b.framebuffer = 0 then []
      else [(b.framebuffer, b.framebuffer + b.framebufferPitch * b.framebufferHeight)]

/-- **The bitmap is right**: a free frame is usable memory that nothing else occupies. -/
def OnlyUsable : Prop :=
  ∀ f, (pmmInit b).free f = true → b.Whole f ∧ ∀ r ∈ b.taken, ¬ Meets r f

/-- No sum of an address and a length wraps. -/
structure NoWrap : Prop where
  entries : ∀ e ∈ b.memoryMap, e.addr + e.length < 2 ^ 64
  kernel : b.kernelEnd < 2 ^ 64
  bitmap : b.bitmap + pmmMaxFrames / 8 < 2 ^ 64
  framebuffer : b.framebuffer + b.framebufferPitch * b.framebufferHeight < 2 ^ 64

/-- The end of the range can be rounded up in 64 bits. -/
def Rounds (r : Nat × Nat) : Prop := r.2 + 4095 < 2 ^ 64

/-- `reserve_range` takes the frame. -/
def Withheld (f : Nat) : Prop := ∃ r ∈ b.taken, Rounds r ∧ Meets r f

end BootInfo

/-- The frames of a usable entry that reach out of it, if any: those its start and its end lie
    in. -/
def MmapEntry.edges (e : MmapEntry) : List Nat :=
  (if e.addr % 4096 = 0 ∨ pmmMaxPhys ≤ e.addr then [] else [e.addr / 4096]) ++
    if (e.addr + e.length) % 4096 = 0 ∨ pmmMaxPhys ≤ e.addr + e.length then []
      else [(e.addr + e.length) / 4096]

namespace BootInfo

variable (b : BootInfo)

/-- **The condition**: the frames at the edges of the usable entries are usable memory anyway, or
    they are withheld; and so are all frames of usable entries in a range whose end cannot be
    rounded up. -/
structure EdgesCovered : Prop where
  edges : ∀ e ∈ b.memoryMap, e.type = 1 → ∀ f ∈ e.edges, b.Whole f ∨ b.Withheld f
  rounds : ∀ r ∈ b.taken, ¬ Rounds r → ∀ f, b.Usable f → Meets r f → b.Withheld f

end BootInfo

/-! ## 2. Ranges and frames -/

variable {b : BootInfo} {f : Nat} {e : MmapEntry}

theorem meets_iff {r : Nat × Nat} : Meets r f ↔ r.1 < r.2 ∧ r.1 / 4096 ≤ f ∧ f * 4096 < r.2 := by
  constructor
  · intro h
    obtain ⟨x, hlo, hhi, hr, hr'⟩ := h
    omega
  · intro h
    exact ⟨max r.1 (f * 4096), by omega, by omega, by omega, by omega⟩

/-- **The frames `reserve_range` takes are those the range meets**, if its end can be rounded up. -/
theorem reserved_iff {r : Nat × Nat} (hr : r.2 < 2 ^ 64) (hf : f < pmmMaxFrames) :
    Reserved r.1 r.2 f ↔ BootInfo.Rounds r ∧ Meets r f := by
  rw [Reserved, meets_iff, BootInfo.Rounds, Nat.lt_min, frameCeil]
  omega

theorem MmapEntry.end_eq (h : e.addr + e.length < 2 ^ 64) : e.end_ = e.addr + e.length :=
  Nat.mod_eq_of_lt h

/-- The frames of a usable entry are those its bytes lie in, and the one of an empty entry that
    begins inside a frame. -/
theorem MmapEntry.mem_frames (h : e.addr + e.length < 2 ^ 64) : f ∈ e.frames ↔
    e.addr < pmmMaxPhys ∧ e.addr / 4096 ≤ f ∧
    f < (min (e.addr + e.length) pmmMaxPhys + 4095) / 4096 := by
  have hmax : pmmMaxPhys = 68719476736 := by decide
  rw [MmapEntry.frames, end_eq h]
  split_ifs with hhigh
  · simp [hhigh]
  · rw [mem_range'_1, frameCeil]
    omega

theorem MmapEntry.mem_edges : f ∈ e.edges ↔
    (e.addr % 4096 ≠ 0 ∧ e.addr < pmmMaxPhys ∧ f = e.addr / 4096) ∨
    ((e.addr + e.length) % 4096 ≠ 0 ∧ e.addr + e.length < pmmMaxPhys ∧
      f = (e.addr + e.length) / 4096) := by
  rw [MmapEntry.edges, mem_append]
  refine or_congr ?_ ?_
  · split_ifs with h
    · simp only [not_mem_nil, false_iff]
      omega
    · rw [mem_singleton]
      omega
  · split_ifs with h
    · simp only [not_mem_nil, false_iff]
      omega
    · rw [mem_singleton]
      omega

theorem MmapEntry.edges_frames (h : e.addr + e.length < 2 ^ 64) (hf : f ∈ e.edges) :
    f ∈ e.frames ∧ f < pmmMaxFrames := by
  have hmax : pmmMaxPhys = 68719476736 := by decide
  have hframes : pmmMaxFrames = 16777216 := rfl
  rw [mem_frames h]
  rw [mem_edges] at hf
  omega

/-- **A frame of an entry that is not at its edges lies in it.** -/
theorem MmapEntry.frames_inside (h : e.addr + e.length < 2 ^ 64)
    (hf : f ∈ e.frames) (hedge : f ∉ e.edges) :
    e.addr ≤ f * 4096 ∧ (f + 1) * 4096 ≤ e.addr + e.length := by
  have hmax : pmmMaxPhys = 68719476736 := by decide
  rw [mem_frames h] at hf
  rw [mem_edges] at hedge
  omega

/-! ## 3. What boot leaves free -/

/-- A statement about all ranges that are taken. -/
theorem forall_taken {P : Nat × Nat → Prop} : (∀ r ∈ b.taken, P r) ↔
    P (0, b.kernelEnd) ∧ P (b.bitmap, b.bitmap + pmmMaxFrames / 8) ∧
    (∀ e ∈ b.memoryMap, e.type ≠ 1 → P (e.addr, e.addr + e.length)) ∧
    (b.framebuffer ≠ 0 →
      P (b.framebuffer, b.framebuffer + b.framebufferPitch * b.framebufferHeight)) := by
  have hentries :
      (∀ r ∈ (b.memoryMap.filter fun e => e.type ≠ 1).map fun e =>
        (e.addr, e.addr + e.length), P r) ↔
      ∀ e ∈ b.memoryMap, e.type ≠ 1 → P (e.addr, e.addr + e.length) := by
    rw [forall_mem_map]
    simp only [mem_filter, decide_eq_true_eq, and_imp]
  rw [BootInfo.taken]
  split_ifs with hfb
  · simp only [append_nil, forall_mem_cons, hentries, hfb, ne_eq, not_true_eq_false,
      false_imp_iff, and_true]
  · simp only [cons_append, forall_mem_cons, forall_mem_append, hentries, hfb, ne_eq,
      not_false_eq_true, true_imp_iff, not_mem_nil, false_imp_iff, implies_true, and_true]

theorem taken_lt (hb : b.NoWrap) : ∀ r ∈ b.taken, r.2 < 2 ^ 64 :=
  forall_taken.mpr ⟨hb.kernel, hb.bitmap, fun e he _ => hb.entries e he, fun _ => hb.framebuffer⟩

/-- **A frame is free after boot if it is of a usable entry and not withheld.** -/
theorem free_iff (hb : b.NoWrap) : (pmmInit b).free f = true ↔ b.Usable f ∧ ¬ b.Withheld f := by
  rw [pmmInit_free]
  refine and_congr_right fun husable => ?_
  have hends : ∀ e ∈ b.memoryMap, e.end_ = e.addr + e.length := fun e he => end_eq (hb.entries e he)
  have hreserved : (∀ r ∈ b.taken, ¬ Reserved r.1 r.2 f) ↔ ¬ b.Withheld f := by
    simp only [BootInfo.Withheld, not_exists, not_and]
    refine forall₂_congr fun r hr => ?_
    rw [reserved_iff (taken_lt hb r hr) husable.1, not_and]
  rw [← hreserved, forall_taken, Nat.mod_eq_of_lt hb.framebuffer]
  refine and_congr_right fun _ => and_congr_right fun _ => and_congr_left fun _ => ?_
  refine forall₂_congr fun e he => ?_
  rw [hends e he]

/-! ## 4. When the bitmap is right -/

theorem whole_of_inside (he : e ∈ b.memoryMap) (htype : e.type = 1) (hlo : e.addr ≤ f * 4096)
    (hhi : (f + 1) * 4096 ≤ e.addr + e.length) : b.Whole f :=
  fun _ hx hx' => ⟨e, he, htype, hlo.trans hx, hx'.trans_le hhi⟩

/-- **The frames that boot leaves free are usable memory, and nothing else occupies them, exactly
    when the edges of the usable entries are covered.** -/
theorem only_usable_iff (hb : b.NoWrap) : b.OnlyUsable ↔ b.EdgesCovered := by
  constructor
  · intro h
    refine ⟨fun e he htype f hf => ?_, fun r hr _ f husable hmeets => ?_⟩
    · obtain ⟨hframe, hlt⟩ := edges_frames (hb.entries e he) hf
      by_cases hw : b.Withheld f
      · exact .inr hw
      · exact .inl (h f ((free_iff hb).mpr ⟨⟨hlt, e, he, htype, hframe⟩, hw⟩)).1
    · by_contra hw
      exact (h f ((free_iff hb).mpr ⟨husable, hw⟩)).2 r hr hmeets
  intro h f hf
  obtain ⟨husable, hw⟩ := (free_iff hb).mp hf
  refine ⟨?_, fun r hr hmeets => ?_⟩
  · obtain ⟨-, e, he, htype, hframe⟩ := husable
    by_cases hedge : f ∈ e.edges
    · exact (h.edges e he htype f hedge).resolve_right hw
    · obtain ⟨hlo, hhi⟩ := frames_inside (hb.entries e he) hframe hedge
      exact whole_of_inside he htype hlo hhi
  · by_cases hround : BootInfo.Rounds r
    · exact hw ⟨r, hr, hround, hmeets⟩
    · exact hw (h.rounds r hr hround f husable hmeets)

/-- A machine with a usable entry of one page that begins in the middle of a frame, at 8 MiB. -/
def halfPage : BootInfo := ⟨[⟨0x800800, 0x1000, 1⟩], 0x400000, 0x180000, 0, 0, 0⟩

/-- Its first frame is free, although the first half of it is not in the memory map. -/
theorem half_page_free : ¬ halfPage.OnlyUsable := by
  intro h
  have hfree : (pmmInit halfPage).free 0x800 = true := by
    rw [pmmInit_free]
    refine ⟨⟨by decide, ⟨0x800800, 0x1000, 1⟩, mem_singleton.mpr rfl, rfl, by decide⟩, by decide,
      by decide, ?_, by decide⟩
    decide
  obtain ⟨e, he, -, hlo, -⟩ := (h 0x800 hfree).1 0x800000 (by decide) (by decide)
  obtain rfl := mem_singleton.mp he
  exact absurd hlo (by decide)

/-- The same entry on a page boundary. -/
def fullPage : BootInfo := ⟨[⟨0x800000, 0x1000, 1⟩], 0x400000, 0x180000, 0, 0, 0⟩

theorem only_usable_full_page : fullPage.OnlyUsable := by
  refine (only_usable_iff ⟨by decide, by decide, by decide, by decide⟩).mpr ⟨fun e he _ f hf =>
    ?_, fun r hr hround => ?_⟩
  · obtain rfl := mem_singleton.mp he
    exact absurd hf not_mem_nil
  · have hall : ∀ r ∈ fullPage.taken, r.2 + 4095 < 2 ^ 64 := by decide
    exact absurd (hall r hr) hround

end DyntKernel.Mem
