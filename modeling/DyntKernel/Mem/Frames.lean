/-
  File:      DyntKernel/Mem/Frames.lean
  Subject:   NO FRAME IS HANDED OUT TWICE, and the counter of free frames is right (mem/mm/pmm.c).

  * `Pmm.setBits`, `Pmm.Counted` -- `free_frames` is the number of set bits; the four places that
    change a bit keep it (`Counted.markUsed`, `Counted.markFree`), so does `pmm_init`
    (`counted_pmmInit`);
  * `alloc_contig_lowest` -- `pmm_alloc_contig` takes the lowest run of free frames;
  * `FrameUse` -- the bitmap and the frames that are handed out, `FrameUse.step` -- the four calls,
    `FrameUse.OnlyHeld` -- only frames that are handed out are given back;
  * `frames_handed_out_once` -- the result, for every run from `pmm_init` on.
-/
import Mathlib.Data.Finset.Card
import DyntKernel.Library.Runs
import DyntKernel.Mem.Pmm

namespace DyntKernel.Mem

open Library List Function

/-! ## 1. The counter -/

namespace Pmm

variable {p : Pmm} {f : Nat}

/-- The number of set bits of the bitmap. -/
def setBits (free : Nat → Bool) : Nat :=
  ((Finset.range pmmMaxFrames).filter fun f => free f = true).card

theorem setBits_clear {free : Nat → Bool} (hlt : f < pmmMaxFrames) (hf : free f = true) :
    setBits free = setBits (Function.update free f false) + 1 := by
  have herase :
      (Finset.range pmmMaxFrames).filter (fun g => Function.update free f false g = true) =
        ((Finset.range pmmMaxFrames).filter fun g => free g = true).erase f := by
    ext g
    by_cases hg : g = f
    · simp [hg]
    · simp [hg]
  have hmem : f ∈ (Finset.range pmmMaxFrames).filter fun g => free g = true :=
    Finset.mem_filter.mpr ⟨Finset.mem_range.mpr hlt, hf⟩
  rw [setBits, setBits, herase, Finset.card_erase_add_one hmem]

/-- **`free_frames` is the number of set bits**, and no bit lies beyond the bitmap. -/
structure Counted (p : Pmm) : Prop where
  count : p.freeFrames = UInt64.ofNat (setBits p.free)
  bound : ∀ f, p.free f = true → f < pmmMaxFrames

theorem Counted.toNat (h : p.Counted) : p.freeFrames.toNat = setBits p.free := by
  have hle : setBits p.free ≤ pmmMaxFrames := by
    refine (Finset.card_filter_le _ _).trans ?_
    rw [Finset.card_range]
  rw [h.count, UInt64.toNat_ofNat']
  exact Nat.mod_eq_of_lt (hle.trans_lt (by decide))

/-- A set bit is cleared and the counter lowered. -/
theorem Counted.markUsed (h : p.Counted) (hf : p.free f = true) (hint : Nat) :
    Counted ⟨Function.update p.free f false, hint, p.freeFrames - 1⟩ where
  count := by
    rw [h.count, setBits_clear (h.bound f hf) hf, UInt64.ofNat_add]
    exact UInt64.add_sub_cancel _ _
  bound := by
    intro g hg
    by_cases hgf : g = f
    · simp [hgf] at hg
    · exact h.bound g ((update_of_ne hgf false p.free).symm.trans hg)

/-- A clear bit is set and the counter raised. -/
theorem Counted.markFree (h : p.Counted) (hlt : f < pmmMaxFrames)
    (hf : p.free f = false) (hint : Nat) :
    Counted ⟨Function.update p.free f true, hint, p.freeFrames + 1⟩ where
  count := by
    have hback : Function.update (Function.update p.free f true) f false = p.free := by
      rw [update_idem, ← hf, update_eq_self]
    rw [h.count, setBits_clear hlt (update_self f true p.free), hback, UInt64.ofNat_add]
    rfl
  bound := by
    intro g hg
    by_cases hgf : g = f
    · rw [hgf]
      exact hlt
    · exact h.bound g ((update_of_ne hgf true p.free).symm.trans hg)

theorem Counted.freeFrame (h : p.Counted) (f : Nat) : (p.freeFrame f).Counted := by
  rw [Pmm.freeFrame]
  split_ifs with hf
  · exact h.markFree hf.1 hf.2 p.hint
  · exact h

theorem Counted.foldl {α : Type} {step : Pmm → α → Pmm}
    (hstep : ∀ p a, p.Counted → (step p a).Counted)
    (l : List α) (h : p.Counted) : (l.foldl step p).Counted := by
  induction l generalizing p with
  | nil => exact h
  | cons a l ih => exact ih (hstep p a h)

theorem Counted.reserveRange (h : p.Counted) (start end_ : Nat) :
    (p.reserveRange start end_).Counted := by
  rw [Pmm.reserveRange]
  split_ifs
  · exact h
  · exact h
  refine h.foldl (fun p f hp => ?_) _
  split_ifs with hf
  · exact hp.markUsed hf p.hint
  · have hsame : p.frameMarkUsed f = p := by
      rw [Bool.not_eq_true] at hf
      rw [frameMarkUsed, ← hf, update_eq_self]
    rw [hsame]
    exact hp

end Pmm

theorem counted_pmmInit (b : BootInfo) : (pmmInit b).Counted := by
  have hzero : Pmm.Counted ⟨fun _ => false, 0, 0⟩ := by
    refine ⟨?_, fun _ hf => by cases hf⟩
    simp [Pmm.setBits]
  have husable : ∀ (p : Pmm) (e : MmapEntry), p.Counted → (p.addUsable e).Counted := by
    intro p e hp
    rw [Pmm.addUsable]
    split_ifs
    · exact hp.foldl (fun p f hp => hp.freeFrame f) _
    · exact hp
  have hentry : ∀ (p : Pmm) (e : MmapEntry), p.Counted → (p.reserveEntry e).Counted := by
    intro p e hp
    rw [Pmm.reserveEntry]
    split_ifs
    · exact hp
    · exact hp.reserveRange _ _
  have hmap := (hzero.foldl husable b.memoryMap).reserveRange 0 b.kernelEnd
  have hall := (hmap.reserveRange b.bitmap (b.bitmap + pmmMaxFrames / 8)).foldl hentry b.memoryMap
  rw [pmmInit, Pmm.reserveFramebuffer]
  split_ifs
  · exact hall
  · exact hall.reserveRange _ _

/-! ## 2. A run of frames -/

namespace Pmm

variable {p : Pmm} {f : Nat}

/-- The `count` frames from `start` on lie in the bitmap and are free. -/
def FreeRun (free : Nat → Bool) (count start : Nat) : Prop :=
  start + count ≤ pmmMaxFrames ∧ ∀ i, i < count → free (start + i) = true

/-- **The search finds the lowest run.** Behind the frame `b` it has seen `k` free frames, and in
    front of it no run begins. -/
theorem scanRun_spec {free : Nat → Bool} {count n b k start : Nat} (hend : b + k + n = pmmMaxFrames)
    (hrun : ∀ i, i < k → start = b ∧ free (b + i) = true) (hless : k < count)
    (hbelow : ∀ s, s < b → ¬ FreeRun free count s) :
    (∀ s, scanRun free count n (b + k) k start = some s →
      FreeRun free count s ∧ ∀ s', s' < s → ¬ FreeRun free count s') ∧
    (scanRun free count n (b + k) k start = none → ∀ s, ¬ FreeRun free count s) := by
  induction n generalizing b k start with
  | zero =>
    refine ⟨nofun, fun _ s hs => ?_⟩
    rcases Nat.lt_or_ge s b with hlt | hge
    · exact hbelow s hlt hs
    · have := hs.1
      omega
  | succ n ih =>
    rw [scanRun]
    by_cases hf : free (b + k) = true
    · have hstart : (if k = 0 then b + k else start) = b := by
        split_ifs with hzero
        · omega
        · exact (hrun 0 (by omega)).1
      have hmore : ∀ i, i < k + 1 → b = b ∧ free (b + i) = true := by
        intro i hi
        rcases Nat.lt_or_ge i k with hlt | hge
        · exact ⟨rfl, (hrun i hlt).2⟩
        · obtain rfl : i = k := by omega
          exact ⟨rfl, hf⟩
      rw [if_pos hf, hstart]
      by_cases hfull : k + 1 = count
      · rw [if_pos hfull]
        refine ⟨fun s hs => ?_, nofun⟩
        obtain rfl := Option.some.inj hs
        exact ⟨⟨by omega, fun i hi => (hmore i (by omega)).2⟩, hbelow⟩
      · rw [if_neg hfull]
        exact ih (b := b) (by omega) hmore (by omega) hbelow
    rw [if_neg hf]
    refine ih (b := b + k + 1) (k := 0) (by omega) nofun (by omega) fun s hlt hs => ?_
    rcases Nat.lt_or_ge s b with hlt' | hge
    · exact hbelow s hlt' hs
    · -- the run would go over the frame that is not free
      obtain ⟨i, hi⟩ := Nat.exists_eq_add_of_le (by omega : s ≤ b + k)
      rw [hi] at hf
      exact hf (hs.2 i (by omega))

theorem takeNexts_free (fs : List Nat) (p : Pmm) (g : Nat) :
    (fs.foldl takeNext p).free g = true ↔ p.free g = true ∧ g ∉ fs := by
  induction fs generalizing p with
  | nil => simp
  | cons f fs ih =>
    rw [foldl_cons, ih, takeNext, frameMarkUsed]
    by_cases hg : g = f <;> simp [hg]

theorem freeFrame_hint (p : Pmm) (f : Nat) : (p.freeFrame f).hint = p.hint := by
  rw [freeFrame]
  split_ifs <;> rfl

theorem takeNexts_hint (fs : List Nat) (p : Pmm) : (fs.foldl takeNext p).hint = p.hint := by
  have htake : ∀ (p : Pmm) (f : Nat), (p.takeNext f).hint = p.hint := fun _ _ => rfl
  exact foldl_hint htake fs p

/-- Taking distinct free frames. -/
theorem Counted.takeNexts {fs : List Nat} (h : p.Counted) (hnodup : fs.Nodup)
    (hfs : ∀ f ∈ fs, p.free f = true) :
    (fs.foldl takeNext p).Counted := by
  induction fs generalizing p with
  | nil => exact h
  | cons f fs ih =>
    obtain ⟨hnot, hnodup⟩ := nodup_cons.mp hnodup
    refine ih (h.markUsed (hfs f mem_cons_self) p.hint) hnodup fun g hg => ?_
    have hne : g ≠ f := fun heq => hnot (heq ▸ hg)
    exact (update_of_ne hne _ _).trans (hfs g (mem_cons_of_mem f hg))

/-- **What a contiguous allocation does**: it takes the lowest run, or there is none. -/
theorem allocContig_cases (p : Pmm) (count : Nat) :
    (∃ start, 0 < count ∧ FreeRun p.free count start ∧ (∀ s, s < start → ¬ FreeRun p.free count s) ∧
      p.allocContig count = (start, (List.range' start count).foldl takeNext p)) ∨
    (0 < count → ∀ s, ¬ FreeRun p.free count s) ∧ p.allocContig count = (0, p) := by
  rw [allocContig]
  split_ifs with hzero
  · exact .inr ⟨fun hpos => absurd hzero (Nat.ne_of_gt hpos), rfl⟩
  have hpos := Nat.pos_of_ne_zero hzero
  obtain ⟨hsome, hnone⟩ := @scanRun_spec p.free count pmmMaxFrames 0 0 0 (Nat.zero_add pmmMaxFrames)
    nofun hpos nofun
  cases hscan : scanRun p.free count pmmMaxFrames 0 0 0 with
  | some start => exact .inl ⟨start, hpos, (hsome start hscan).1, (hsome start hscan).2, rfl⟩
  | none => exact .inr ⟨fun _ => hnone hscan, rfl⟩

theorem takeNexts_count (fs : List Nat) (p : Pmm) :
    (fs.foldl takeNext p).freeFrames = p.freeFrames - .ofNat fs.length := by
  induction fs generalizing p with
  | nil => simp
  | cons f fs ih =>
    rw [foldl_cons, ih, length_cons, UInt64.ofNat_add, takeNext]
    grind

/-- **`pmm_alloc_contig` takes the lowest run of free frames**, and returns 0 without a change
    exactly when there is none. -/
theorem alloc_contig_lowest (p : Pmm) {count : Nat} (hcount : 0 < count) :
    (∀ start, FreeRun p.free count start → (∀ s, s < start → ¬ FreeRun p.free count s) →
      ∃ p', p.allocContig count = (start, p') ∧ p'.freeFrames = p.freeFrames - .ofNat count ∧
        p'.hint = p.hint ∧
        ∀ g, p'.free g = true ↔ p.free g = true ∧ ¬ (start ≤ g ∧ g < start + count)) ∧
    (p.allocContig count = (0, p) ↔ ∀ s, ¬ FreeRun p.free count s) := by
  rcases p.allocContig_cases count with ⟨start, -, hrun, hlow, heq⟩ | ⟨hnone, heq⟩
  · have hfree : ∀ g, ((List.range' start count).foldl takeNext p).free g = true ↔
        p.free g = true ∧ ¬ (start ≤ g ∧ g < start + count) := fun g => by
      rw [takeNexts_free, mem_range'_1]
    refine ⟨fun s hs hlow' => ?_, fun hzero => ?_, fun hnone => absurd hrun (hnone start)⟩
    · obtain rfl : s = start := by
        by_contra hne
        rcases Nat.lt_or_gt_of_ne hne with hlt | hgt
        · exact hlow s hlt hs
        · exact hlow' start hgt hrun
      refine ⟨_, heq, ?_, takeNexts_hint _ p, hfree⟩
      rw [takeNexts_count, length_range']
    · -- the first frame of the run is taken
      rw [heq] at hzero
      have hsame := congrArg (fun r => r.2.free start) hzero
      have htaken := (hfree start).mp (hsame.trans (hrun.2 0 hcount))
      omega
  · exact ⟨fun start hs _ => absurd hs (hnone hcount start), fun _ => hnone hcount, fun _ => heq⟩

/-- Of the free frames 5, 7 and 8 the last two are taken. -/
theorem alloc_contig_two : ∃ p', allocContig ⟨fun f => f = 5 ∨ f = 7 ∨ f = 8, 0, 3⟩ 2 = (7, p') ∧
    p'.freeFrames = 1 := by
  obtain ⟨p', heq, hcount, -⟩ :=
    (alloc_contig_lowest ⟨fun f => f = 5 ∨ f = 7 ∨ f = 8, 0, 3⟩ Nat.two_pos).1 7
    ⟨by decide, by decide⟩ (fun s hs hrun => by
      have h₀ := of_decide_eq_true (hrun.2 0 Nat.two_pos)
      have h₁ := of_decide_eq_true (hrun.2 1 Nat.one_lt_two)
      omega)
  exact ⟨p', heq, hcount⟩

end Pmm

/-! ## 3. The frames that are handed out -/

/-- The allocator and the frames its callers hold. -/
structure FrameUse where
  pmm : Pmm
  held : Nat → Bool

/-- A call of one of the four functions; a frame is given back by its address. -/
inductive FrameOp
  | alloc
  | allocContig (count : Nat)
  | free (phys : Nat)
  | freeRange (phys count : Nat)

namespace FrameUse

/-- The frame of the `i`-th address of a range. -/
def rangeFrame (phys i : Nat) : Nat := (phys + i * 4096) % 2 ^ 64 / 4096

/-- The callers take over what is returned, unless it is 0. -/
def step (u : FrameUse) : FrameOp → Option FrameUse
  | .alloc =>
    let r := u.pmm.allocFrame
    some ⟨r.2, fun g => u.held g || (r.1 ≠ 0 && g = r.1)⟩
  | .allocContig count =>
    let r := u.pmm.allocContig count
    some ⟨r.2, fun g => u.held g || (r.1 ≠ 0 && r.1 ≤ g && g < r.1 + count)⟩
  | .free phys => some ⟨u.pmm.freeFrame (phys / 4096), fun g => u.held g && g ≠ phys / 4096⟩
  | .freeRange phys count =>
    some ⟨u.pmm.freeRange phys count, fun g => u.held g &&
      g ∉ (List.range count).map (rangeFrame phys)⟩

/-- Only frames that are handed out are given back. -/
def OnlyHeld (u : FrameUse) : FrameOp → Prop
  | .free phys => u.held (phys / 4096) = true
  | .freeRange phys count => ∀ i, i < count → u.held (rangeFrame phys i) = true
  | _ => True

/-- **The invariant.** -/
structure Sound (u : FrameUse) : Prop where
  counted : u.pmm.Counted
  hint : u.pmm.hint ≤ pmmMaxFrames
  held : ∀ f, u.held f = true → u.pmm.free f = false
  zero : u.pmm.free 0 = false
  zero_held : u.held 0 = false

variable {u u' : FrameUse}

/-- Frames that were free go from the bitmap to the callers. -/
theorem Sound.take {p : Pmm} {held : Nat → Bool} (h : u.Sound) (hp : p.Counted)
    (hhint : p.hint ≤ pmmMaxFrames)
    (hfree : ∀ g, p.free g = true → u.pmm.free g = true ∧ (held g = true → u.held g = true))
    (hheld : ∀ g, held g = true → u.held g = true ∨ u.pmm.free g = true) : Sound ⟨p, held⟩ where
  counted := hp
  hint := hhint
  held := by
    intro f hf
    rw [← Bool.not_eq_true]
    intro htrue
    obtain ⟨hwas, hold⟩ := hfree f htrue
    exact absurd hwas (by rw [h.held f (hold hf)]; decide)
  zero := by
    rw [← Bool.not_eq_true]
    intro htrue
    exact absurd (hfree 0 htrue).1 (by rw [h.zero]; decide)
  zero_held := by
    rw [← Bool.not_eq_true]
    intro htrue
    rcases hheld 0 htrue with hold | hwas
    · exact absurd hold (by rw [h.zero_held]; decide)
    · exact absurd hwas (by rw [h.zero]; decide)

/-- Frames that are held go back to the bitmap. -/
theorem Sound.give (h : u.Sound) (fs : List Nat) (hfs : ∀ f ∈ fs, u.held f = true) :
    Sound ⟨fs.foldl Pmm.freeFrame u.pmm, fun g => u.held g && g ∉ fs⟩ where
  counted := h.counted.foldl (fun _ f hp => hp.freeFrame f) fs
  hint := by
    rw [foldl_hint Pmm.freeFrame_hint]
    exact h.hint
  held := by
    intro f hf
    simp only [Bool.and_eq_true, decide_eq_true_eq] at hf
    rw [← Bool.not_eq_true, Pmm.freeFrames_free]
    intro hor
    rcases hor with hwas | ⟨hmem, -⟩
    · exact absurd hwas (by rw [h.held f hf.1]; decide)
    · exact hf.2 hmem
  zero := by
    rw [← Bool.not_eq_true, Pmm.freeFrames_free]
    intro hor
    rcases hor with hwas | ⟨hmem, -⟩
    · exact absurd hwas (by rw [h.zero]; decide)
    · exact absurd (hfs 0 hmem) (by rw [h.zero_held]; decide)
  zero_held := by
    show (u.held 0 && _) = false
    rw [h.zero_held, Bool.false_and]

/-- **Every call keeps the invariant.** -/
theorem Sound.step {op : FrameOp} (h : u.Sound) (hop : u.OnlyHeld op) (hs : u.step op = some u') :
    u'.Sound := by
  cases op with
  | alloc =>
    rcases u.pmm.allocFrame_cases with ⟨f, hf, heq⟩ | ⟨-, heq⟩
    · rw [FrameUse.step, heq] at hs
      obtain rfl := Option.some.inj hs
      refine h.take (h.counted.markUsed hf (f + 1)) (h.counted.bound f hf)
        (fun g hg => ?_) fun g hg => ?_
      · rw [Pmm.take_free] at hg
        split_ifs at hg with hgf
        exact ⟨hg, by simp [hgf]⟩
      · by_cases hgf : g = f
        · exact .inr (hgf ▸ hf)
        · exact .inl (by simpa [hgf] using hg)
    · rw [FrameUse.step, heq] at hs
      obtain rfl := Option.some.inj hs
      exact h.take h.counted h.hint (fun g hg => ⟨hg, by simp⟩) fun g hg => .inl (by simpa using hg)
  | allocContig count =>
    rcases u.pmm.allocContig_cases count with ⟨start, hpos, ⟨-, hfree⟩, -, heq⟩ | ⟨-, heq⟩
    · rw [FrameUse.step, heq] at hs
      obtain rfl := Option.some.inj hs
      have hin : ∀ g, g ∈ List.range' start count → u.pmm.free g = true := by
        intro g hg
        obtain ⟨i, hi, rfl⟩ := mem_range'.mp hg
        rw [one_mul]
        exact hfree i hi
      have hhint : ((List.range' start count).foldl Pmm.takeNext u.pmm).hint ≤ pmmMaxFrames := by
        rw [Pmm.takeNexts_hint]
        exact h.hint
      refine h.take (h.counted.takeNexts nodup_range' hin) hhint (fun g hg => ?_) fun g hg => ?_
      · obtain ⟨hwas, hout⟩ := (Pmm.takeNexts_free _ _ _).mp hg
        rw [mem_range'_1] at hout
        refine ⟨hwas, fun hheld => ?_⟩
        simp only [Bool.or_eq_true, Bool.and_eq_true, decide_eq_true_eq] at hheld
        rcases hheld with hheld | hheld
        · exact hheld
        · exact absurd ⟨hheld.1.2, hheld.2⟩ hout
      · simp only [Bool.or_eq_true, Bool.and_eq_true, decide_eq_true_eq] at hg
        rcases hg with hg | hg
        · exact .inl hg
        · exact .inr (hin g (mem_range'_1.mpr ⟨hg.1.2, hg.2⟩))
    · rw [FrameUse.step, heq] at hs
      obtain rfl := Option.some.inj hs
      exact h.take h.counted h.hint (fun g hg => ⟨hg, by simp⟩) fun g hg => .inl (by simpa using hg)
  | free phys =>
    obtain rfl := Option.some.inj hs
    have hgive := h.give [phys / 4096] fun f hf => by
      rw [mem_singleton.mp hf]
      exact hop
    simpa using hgive
  | freeRange phys count =>
    obtain rfl := Option.some.inj hs
    have hgive := h.give ((List.range count).map (rangeFrame phys)) fun f hf => by
      obtain ⟨i, hi, rfl⟩ := mem_map.mp hf
      exact hop i (mem_range.mp hi)
    rw [foldl_map] at hgive
    exact hgive

/-! ## 4. Every run -/

/-- The linker places the end of the kernel behind 1 MiB, and an image does not reach the last
    page. -/
structure KernelPlaced (b : BootInfo) : Prop where
  pos : 0 < b.kernelEnd
  lt : b.kernelEnd + 4095 < 2 ^ 64

def boot (b : BootInfo) : FrameUse := ⟨pmmInit b, fun _ => false⟩

theorem sound_boot {b : BootInfo} (hb : KernelPlaced b) : (boot b).Sound where
  counted := counted_pmmInit b
  hint := by
    rw [boot, pmmInit_hint]
    exact Nat.zero_le _
  held := fun _ hf => by cases hf
  zero := by
    refine pmmInit_kernel ?_ hb.pos
    have := hb.pos
    have := hb.lt
    rw [frameCeil]
    omega
  zero_held := rfl

/-- **The counter is the number of set bits; what is handed out is not held; frame 0 is never handed
    out; and an allocation returns 0 exactly when no frame is free.** -/
theorem frames_handed_out_once {b : BootInfo} (hb : KernelPlaced b)
    (h : Reaches FrameUse.step OnlyHeld (boot b) u) : u.pmm.freeFrames.toNat =
      Pmm.setBits u.pmm.free ∧
    u.pmm.free 0 = false ∧ u.held 0 = false ∧
    (u.pmm.allocFrame.1 = 0 ↔ ∀ f, f < pmmMaxFrames → u.pmm.free f = false) ∧
    u.held u.pmm.allocFrame.1 = false ∧ ∀ count, (u.pmm.allocContig count).1 ≠ 0 →
      ∀ i, i < count → u.held ((u.pmm.allocContig count).1 + i) = false := by
  have hu : u.Sound := h.inv (sound_boot hb) fun _ _ _ hu hop hs => hu.step hop hs
  have hnot : ∀ {f}, u.pmm.free f = true → u.held f = false := by
    intro f hf
    rw [← Bool.not_eq_true]
    intro hheld
    exact absurd hf (by rw [hu.held f hheld]; decide)
  refine ⟨hu.counted.toNat, hu.zero, hu.zero_held, ?_, ?_, fun count hne i hi => ?_⟩
  · rcases u.pmm.allocFrame_cases with ⟨f, hf, heq⟩ | ⟨hnone, heq⟩
    · rw [heq]
      constructor
      · intro hzero
        exact absurd hf (by rw [show f = 0 from hzero, hu.zero]; decide)
      · intro hnone
        exact absurd hf (by rw [hnone f (hu.counted.bound f hf)]; decide)
    · rw [heq]
      exact ⟨fun _ => hnone, fun _ => rfl⟩
  · rcases u.pmm.allocFrame_cases with ⟨f, hf, heq⟩ | ⟨-, heq⟩
    · rw [heq]
      exact hnot hf
    · rw [heq]
      exact hu.zero_held
  · rcases u.pmm.allocContig_cases count with ⟨start, -, ⟨-, hfree⟩, -, heq⟩ | ⟨-, heq⟩
    · rw [heq]
      exact hnot (hfree i hi)
    · rw [heq] at hne
      exact absurd rfl hne

/-- Eight pages of memory, the kernel in the first two and the bitmap behind them. -/
def smallInfo : BootInfo := ⟨[⟨0, 0x8000, 1⟩], 0x2000, 0x8000, 0, 0, 0⟩

theorem frames_handed_out_once_small : ∃ u, Reaches FrameUse.step OnlyHeld (boot smallInfo) u ∧
    u.pmm.freeFrames.toNat = Pmm.setBits u.pmm.free ∧ u.held u.pmm.allocFrame.1 = false := by
  have hr : Reaches FrameUse.step OnlyHeld (boot smallInfo) _ :=
    .step _ _ (.allocContig 2) (.step _ _ .alloc .start trivial rfl) trivial rfl
  obtain ⟨hcount, -, -, -, honce, -⟩ := frames_handed_out_once ⟨by decide, by decide⟩ hr
  exact ⟨_, hr, hcount, honce⟩

end FrameUse

end DyntKernel.Mem
