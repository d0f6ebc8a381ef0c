/-
  File:      DyntKernel/Mem/Pmm.lean
  Subject:   THE PHYSICAL MEMORY MANAGER (mem/mm/pmm.c).

  One bit per 4 KiB frame, set when the frame is free. A page-aligned physical address is written
  as its frame number; frame 0 stands for the failed allocation, as the address 0 does in the
  source.

  * `pmmInit`, `pmmInit_free` -- the bitmap after boot, and what it leaves free;
  * `Pmm.allocFrame`, `Pmm.freeFrame` and what they do to the bitmap (`allocFrame_cases`,
    `freeFrame_free`, `freeFrames_free`).
-/
import Mathlib.Algebra.Order.Ring.Nat
import Mathlib.Data.List.Range

namespace DyntKernel.Mem

open List

/-! ## 1. The bitmap -/

/-- `PMM_MAX_FRAMES`: 64 GiB of frames. -/
def pmmMaxFrames : Nat := 16777216

structure Pmm where
  free : Nat → Bool
  /-- `hint` of `pmm_alloc_frame`: where the next search starts. -/
  hint : Nat
  freeFrames : UInt64

namespace Pmm

def frameMarkFree (p : Pmm) (f : Nat) : Pmm := { p with free := Function.update p.free f true }

def frameMarkUsed (p : Pmm) (f : Nat) : Pmm := { p with free := Function.update p.free f false }

/-- The first free frame among the `n` frames from `f` on. -/
def scanFree (free : Nat → Bool) : Nat → Nat → Option Nat
  | 0, _ => none
  | n + 1, f => if free f then some f else scanFree free n (f + 1)

/-- What `pmm_alloc_frame` does with the frame it has found. -/
def take (p : Pmm) (f : Nat) : Pmm :=
  { p.frameMarkUsed f with freeFrames := p.freeFrames - 1, hint := f + 1 }

/-- `pmm_alloc_frame`: search from the hint to the end, then from 0 to the hint. -/
def allocFrame (p : Pmm) : Nat × Pmm :=
  match scanFree p.free (pmmMaxFrames - p.hint) p.hint with
  | some f => (f, p.take f)
  | none =>
    match scanFree p.free p.hint 0 with
    | some f => (f, p.take f)
    | none => (0, p)

/-- `pmm_free_frame`, on the frame of the address: a frame past the bitmap or already free is
    left alone. -/
def freeFrame (p : Pmm) (f : Nat) : Pmm :=
  if f < pmmMaxFrames ∧ p.free f = false then
    { p.frameMarkFree f with freeFrames := p.freeFrames + 1 }
  else p

/-- The search of `pmm_alloc_contig` over the `n` frames from `f` on: the `run` frames in front of
    `f` are free and begin at `start`. -/
def scanRun (free : Nat → Bool) (count : Nat) : Nat → Nat → Nat → Nat → Option Nat
  | 0, _, _, _ => none
  | n + 1, f, run, start =>
    if free f then
      let start := if run = 0 then f else start
      if run + 1 = count then some start else scanRun free count n (f + 1) (run + 1) start
    else scanRun free count n (f + 1) 0 start

/-- One round of the marking loop of `pmm_alloc_contig`. -/
def takeNext (p : Pmm) (f : Nat) : Pmm := { p.frameMarkUsed f with freeFrames := p.freeFrames - 1 }

/-- `pmm_alloc_contig`. -/
def allocContig (p : Pmm) (count : Nat) : Nat × Pmm :=
  if count = 0 then (0, p)
  else
    match scanRun p.free count pmmMaxFrames 0 0 0 with
    | some start => (start, (List.range' start count).foldl takeNext p)
    | none => (0, p)

/-- `pmm_free_range`, on addresses. -/
def freeRange (p : Pmm) (phys count : Nat) : Pmm :=
  (List.range count).foldl (fun p i => p.freeFrame ((phys + i * 4096) % 2 ^ 64 / 4096)) p

end Pmm

/-! ## 2. The bitmap after boot -/

/-- A multiboot2 memory map entry. -/
structure MmapEntry where
  addr : Nat
  length : Nat
  type : Nat

/-- What `pmm_init` reads: the memory map, the end of the kernel image, the bitmap's own place
    and the framebuffer. -/
structure BootInfo where
  memoryMap : List MmapEntry
  kernelEnd : Nat
  bitmap : Nat
  framebuffer : Nat
  framebufferPitch : Nat
  framebufferHeight : Nat

/-- `PMM_MAX_PHYS`. -/
def pmmMaxPhys : Nat := pmmMaxFrames * 4096

/-- `(end + PMM_FRAME_SIZE - 1) >> 12`, in 64 bits. -/
def frameCeil (end_ : Nat) : Nat := (end_ + 4095) % 2 ^ 64 / 4096

/-- `reserve_range`. -/
def Pmm.reserveRange (p : Pmm) (start end_ : Nat) : Pmm :=
  if end_ ≤ start then p
  else if pmmMaxFrames ≤ start / 4096 then p
  else
    (List.range' (start / 4096)
      (min (frameCeil end_) pmmMaxFrames - start / 4096)).foldl (fun p f =>
        if p.free f then { p.frameMarkUsed f with freeFrames := p.freeFrames - 1 }
        else p.frameMarkUsed f) p

/-- The end of a memory map entry, `start + length` in 64 bits. -/
def MmapEntry.end_ (e : MmapEntry) : Nat := (e.addr + e.length) % 2 ^ 64

/-- The frames `pmm_init` marks free for a usable entry. -/
def MmapEntry.frames (e : MmapEntry) : List Nat :=
  if pmmMaxPhys ≤ e.addr then []
  else
    List.range' (e.addr / 4096) (frameCeil (min e.end_ pmmMaxPhys) - e.addr / 4096)

/-- One round of the first loop of `pmm_init`. -/
def Pmm.addUsable (p : Pmm) (e : MmapEntry) : Pmm :=
  if e.type = 1 then
    e.frames.foldl (fun p f =>
      if f < pmmMaxFrames ∧ p.free f = false then
        { p.frameMarkFree f with freeFrames := p.freeFrames + 1 }
      else p) p
  else p

/-- One round of the second loop of `pmm_init`: firmware, MMIO, holes. -/
def Pmm.reserveEntry (p : Pmm) (e : MmapEntry) : Pmm :=
  if e.type = 1 then p else p.reserveRange e.addr e.end_

def Pmm.reserveFramebuffer (p : Pmm) (b : BootInfo) : Pmm :=
  if b.framebuffer = 0 then p
  else p.reserveRange b.framebuffer
    ((b.framebuffer + b.framebufferPitch * b.framebufferHeight) % 2 ^ 64)

/-- `pmm_init`, from the all-reserved bitmap of the BSS. `sizeof(bitmap)` is 2 MiB. -/
def pmmInit (b : BootInfo) : Pmm :=
  let p := b.memoryMap.foldl Pmm.addUsable ⟨fun _ => false, 0, 0⟩
  let p := p.reserveRange 0 b.kernelEnd
  let p := p.reserveRange b.bitmap (b.bitmap + pmmMaxFrames / 8)
  let p := b.memoryMap.foldl Pmm.reserveEntry p
  p.reserveFramebuffer b

/-- A frame of the RAM the memory map reports as usable. -/
def BootInfo.Usable (b : BootInfo) (f : Nat) : Prop :=
  f < pmmMaxFrames ∧ ∃ e ∈ b.memoryMap, e.type = 1 ∧ f ∈ e.frames

/-! ## 3. Allocation and release -/

namespace Pmm

theorem scanFree_some {free : Nat → Bool} {n f g : Nat} (h : scanFree free n f = some g) :
    free g = true := by
  induction n generalizing f with
  | zero => cases h
  | succ n ih =>
    by_cases hf : free f = true
    · rw [scanFree, if_pos hf] at h
      rw [← Option.some.inj h]
      exact hf
    · rw [scanFree, if_neg hf] at h
      exact ih h

theorem scanFree_none {free : Nat → Bool} {n f g : Nat} (h : scanFree free n f = none)
    (hfg : f ≤ g) (hg : g < f + n) : free g = false := by
  induction n generalizing f with
  | zero => omega
  | succ n ih =>
    by_cases hf : free f = true
    · rw [scanFree, if_pos hf] at h
      cases h
    · rw [scanFree, if_neg hf] at h
      rcases Nat.eq_or_lt_of_le hfg with rfl | hlt
      · simpa using hf
      · exact ih h hlt (by omega)

/-- **What an allocation does**: it takes a free frame, or there is none. -/
theorem allocFrame_cases (p : Pmm) : (∃ f, p.free f = true ∧ p.allocFrame = (f, p.take f)) ∨
    ((∀ f, f < pmmMaxFrames → p.free f = false) ∧ p.allocFrame = (0, p)) := by
  rw [allocFrame]
  cases hhi : scanFree p.free (pmmMaxFrames - p.hint) p.hint with
  | some f => exact .inl ⟨f, scanFree_some hhi, rfl⟩
  | none =>
    cases hlo : scanFree p.free p.hint 0 with
    | some f => exact .inl ⟨f, scanFree_some hlo, rfl⟩
    | none =>
      refine .inr ⟨fun f hf => ?_, rfl⟩
      rcases Nat.lt_or_ge f p.hint with hlt | hge
      · exact scanFree_none hlo (by omega) (by omega)
      · exact scanFree_none hhi hge (by omega)

@[simp] theorem take_free (p : Pmm) (f g : Nat) :
    (p.take f).free g = if g = f then false else p.free g := by
  simp [take, frameMarkUsed, Function.update_apply]

theorem take_taken {p : Pmm} {f g : Nat} (h : p.free g = false) : (p.take f).free g = false := by
  rw [take_free, h, ite_self]

theorem freeFrame_free (p : Pmm) (f g : Nat) :
    (p.freeFrame f).free g = true ↔ p.free g = true ∨ (g = f ∧ f < pmmMaxFrames) := by
  rw [freeFrame]
  by_cases h : f < pmmMaxFrames ∧ p.free f = false
  · rw [if_pos h]
    by_cases hg : g = f
    · simp [frameMarkFree, hg, h.1]
    · simp [frameMarkFree, hg]
  rw [if_neg h]
  by_cases hg : g = f
  · subst hg
    simp only [not_and, Bool.not_eq_false] at h
    exact ⟨.inl, fun hor => hor.elim id fun hlt => h hlt.2⟩
  · simp [hg]

/-- Releasing a list of frames. -/
theorem freeFrames_free (fs : List Nat) (p : Pmm) (g : Nat) : (fs.foldl freeFrame p).free g = true ↔
      p.free g = true ∨ (g ∈ fs ∧ g < pmmMaxFrames) := by
  induction fs generalizing p with
  | nil => simp
  | cons f fs ih =>
    rw [foldl_cons, ih, freeFrame_free, mem_cons]
    constructor
    · rintro ((h | ⟨rfl, h⟩) | ⟨h, hlt⟩)
      · exact .inl h
      · exact .inr ⟨.inl rfl, h⟩
      · exact .inr ⟨.inr h, hlt⟩
    · rintro (h | ⟨rfl | h, hlt⟩)
      · exact .inl (.inl h)
      · exact .inl (.inr ⟨rfl, hlt⟩)
      · exact .inr ⟨h, hlt⟩

end Pmm

/-! ## 4. What boot leaves free -/

/-- The frames `reserve_range` takes. -/
def Reserved (start end_ f : Nat) : Prop :=
  start < end_ ∧ start / 4096 ≤ f ∧ f < min (frameCeil end_) pmmMaxFrames

instance (start end_ f : Nat) : Decidable (Reserved start end_ f) :=
  inferInstanceAs (Decidable (_ ∧ _))

/-- The reserving loop leaves free what was free and is not among its frames. -/
theorem reserveFold_free (fs : List Nat) (p : Pmm) (g : Nat) : (fs.foldl (fun p f =>
        if p.free f then { p.frameMarkUsed f with freeFrames := p.freeFrames - 1 }
        else p.frameMarkUsed f) p).free g = true ↔ p.free g = true ∧ g ∉ fs := by
  induction fs generalizing p with
  | nil => simp
  | cons f fs ih =>
    rw [foldl_cons, ih]
    have hstep : (if p.free f then { p.frameMarkUsed f with freeFrames := p.freeFrames - 1 }
        else p.frameMarkUsed f).free = Function.update p.free f false := by
      split <;> rfl
    rw [hstep, Function.update_apply, mem_cons]
    by_cases hg : g = f <;> simp [hg]

theorem reserveRange_free (p : Pmm) (start end_ g : Nat) :
    (p.reserveRange start end_).free g = true ↔
      p.free g = true ∧ ¬ Reserved start end_ g := by
  rw [Pmm.reserveRange, Reserved]
  split_ifs with hempty hhigh
  · simp [Nat.not_lt.mpr hempty]
  · have hout : ¬ (start < end_ ∧ start / 4096 ≤ g ∧ g < min (frameCeil end_) pmmMaxFrames) := by
      omega
    exact ⟨fun hp => ⟨hp, hout⟩, fun hp => hp.1⟩
  · rw [reserveFold_free, mem_range'_1]
    refine and_congr_right fun _ => not_congr ?_
    omega

theorem reserveEntries_free (es : List MmapEntry) (p : Pmm) (g : Nat) :
    (es.foldl Pmm.reserveEntry p).free g = true ↔
      p.free g = true ∧ ∀ e ∈ es, e.type ≠ 1 → ¬ Reserved e.addr e.end_ g := by
  induction es generalizing p with
  | nil => simp
  | cons e es ih =>
    have he : (p.reserveEntry e).free g = true ↔
        p.free g = true ∧ (e.type ≠ 1 → ¬ Reserved e.addr e.end_ g) := by
      rw [Pmm.reserveEntry]
      split_ifs with htype
      · simp [htype]
      · simp [htype, reserveRange_free]
    rw [foldl_cons, ih, he, forall_mem_cons, and_assoc]

theorem reserveFramebuffer_free (p : Pmm) (b : BootInfo) (g : Nat) :
    (p.reserveFramebuffer b).free g = true ↔ p.free g = true ∧ (b.framebuffer ≠ 0 →
      ¬ Reserved b.framebuffer
        ((b.framebuffer + b.framebufferPitch * b.framebufferHeight) % 2 ^ 64) g) := by
  rw [Pmm.reserveFramebuffer]
  split_ifs with hnone
  · simp [hnone]
  · simp [hnone, reserveRange_free]

theorem addUsables_free (es : List MmapEntry) (p : Pmm) (g : Nat) :
    (es.foldl Pmm.addUsable p).free g = true ↔
      p.free g = true ∨ (g < pmmMaxFrames ∧ ∃ e ∈ es, e.type = 1 ∧ g ∈ e.frames) := by
  induction es generalizing p with
  | nil => simp
  | cons e es ih =>
    have he : (p.addUsable e).free g = true ↔
        p.free g = true ∨ (g < pmmMaxFrames ∧ e.type = 1 ∧ g ∈ e.frames) := by
      rw [Pmm.addUsable]
      split_ifs with htype
      · refine (Pmm.freeFrames_free e.frames p g).trans ?_
        simp [htype, and_comm]
      · simp [htype]
    rw [foldl_cons, ih, he, or_assoc, ← and_or_left]
    simp

/-- **What boot leaves free**: usable RAM outside the kernel, the bitmap, the reserved entries of
    the memory map and the framebuffer. -/
theorem pmmInit_free (b : BootInfo) (g : Nat) : (pmmInit b).free g = true ↔
      b.Usable g ∧ ¬ Reserved 0 b.kernelEnd g ∧
      ¬ Reserved b.bitmap (b.bitmap + pmmMaxFrames / 8) g ∧
      (∀ e ∈ b.memoryMap, e.type ≠ 1 → ¬ Reserved e.addr e.end_ g) ∧
      (b.framebuffer ≠ 0 → ¬ Reserved b.framebuffer
        ((b.framebuffer + b.framebufferPitch * b.framebufferHeight) % 2 ^ 64) g) := by
  rw [pmmInit, reserveFramebuffer_free, reserveEntries_free, reserveRange_free, reserveRange_free,
    addUsables_free, BootInfo.Usable]
  simp [and_assoc]

theorem foldl_hint {α : Type} {step : Pmm → α → Pmm} (hstep : ∀ p a, (step p a).hint = p.hint)
    (l : List α) (p : Pmm) : (l.foldl step p).hint = p.hint := by
  induction l generalizing p with
  | nil => rfl
  | cons a l ih => rw [foldl_cons, ih, hstep]

theorem reserveRange_hint (p : Pmm) (start end_ : Nat) :
    (p.reserveRange start end_).hint = p.hint := by
  rw [Pmm.reserveRange]
  split_ifs
  · rfl
  · rfl
  · refine foldl_hint (fun p f => ?_) _ p
    split <;> rfl

/-- The first search for a frame starts at frame 0. -/
theorem pmmInit_hint (b : BootInfo) : (pmmInit b).hint = 0 := by
  have husable : ∀ (p : Pmm) (e : MmapEntry), (p.addUsable e).hint = p.hint := by
    intro p e
    rw [Pmm.addUsable]
    split_ifs
    · refine foldl_hint (fun p f => ?_) _ p
      split <;> rfl
    · rfl
  have hentry : ∀ (p : Pmm) (e : MmapEntry), (p.reserveEntry e).hint = p.hint := by
    intro p e
    rw [Pmm.reserveEntry]
    split_ifs
    · rfl
    · exact reserveRange_hint p _ _
  have hfb : ∀ p : Pmm, (p.reserveFramebuffer b).hint = p.hint := by
    intro p
    rw [Pmm.reserveFramebuffer]
    split_ifs
    · rfl
    · exact reserveRange_hint p _ _
  rw [pmmInit, hfb, foldl_hint hentry, reserveRange_hint, reserveRange_hint, foldl_hint husable]

/-- No frame of the kernel image, its boot page tables included, is free after boot. -/
theorem pmmInit_kernel {b : BootInfo} {g : Nat} (hg : g < frameCeil b.kernelEnd)
    (hend : 0 < b.kernelEnd) : (pmmInit b).free g = false := by
  rw [← Bool.not_eq_true]
  intro h
  obtain ⟨husable, hkernel, -⟩ := (pmmInit_free b g).mp h
  exact hkernel ⟨hend, by omega, Nat.lt_min.mpr ⟨hg, husable.1⟩⟩

end DyntKernel.Mem
