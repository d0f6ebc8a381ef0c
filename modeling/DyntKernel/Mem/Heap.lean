/-
  File:      DyntKernel/Mem/Heap.lean
  Subject:   THE INVARIANT OF THE HEAP and what the functions of kheap.c keep.

  A block may be shorter than its header: `add_region` and the splitting record 48 bytes less than
  there are, so that even then the header lies in front of the next block. For the same reason a
  block never ends at the end of its region, and blocks of two regions are never merged.

  * `Good`, `Tiled` -- a block inside a region, and blocks that do not overlap;
  * `Inv s l` -- the invariant, with the list of the blocks;
  * `Keeps`, `Rests` -- the blocks in use stay in use, with their sizes, and no block more is in
    use;
  * `Inv.merge`, `Inv.insertFreeBlock`, `Inv.growHeap`, `Inv.coalesce`, `Inv.take` -- what the
    functions do to the list, with bounds on the rounds of their loops.
-/
import DyntKernel.Mem.HeapLinks
import Mathlib.Algebra.Order.Ring.Nat
import Mathlib.Tactic.IntervalCases

namespace DyntKernel.Mem.Heap

open Library List Kheap

variable {s s' s'' : Kheap} {a b c n x : UInt64} {l l' l'' l₁ l₂ : List UInt64}
  {regions : List Region}
  {D D' : UInt64 → Header} {fuel : Nat}

/-! ## 1. The invariant -/

/-- **A block inside a region**, with the header that it has. -/
structure Good (regions : List Region) (b : UInt64) (h : Header) : Prop where
  inside : ∃ r ∈ regions, r.1.toNat ≤ b.toNat ∧ b.toNat + h.size.toNat + 48 ≤ r.1.toNat + r.2
  aligned : b.toNat % 16 = 0
  size16 : h.size.toNat % 16 = 0
  pad : h.pad = 0
  magic : h.magic = heapMagic

/-- `[a, a + size)` lies in front of `b`. -/
def Before (D : UInt64 → Header) (a b : UInt64) : Prop := a.toNat + (D a).size.toNat ≤ b.toNat

/-- **Blocks that do not overlap**, in the order of their addresses. -/
structure Tiled (regions : List Region) (D : UInt64 → Header) (l : List UInt64) : Prop where
  apart : l.Pairwise (Before D)
  good : ∀ b ∈ l, Good regions b (D b)

/-- The regions lie in the address space, and apart from each other. -/
structure RegionsOk (regions : List Region) : Prop where
  apart : regions.Pairwise fun r r' => r.1.toNat + r.2 ≤ r'.1.toNat ∨ r'.1.toNat + r'.2 ≤ r.1.toNat
  pos : ∀ r ∈ regions, 0 < r.1.toNat
  fits : ∀ r ∈ regions, r.1.toNat + r.2 ≤ 2 ^ 64

/-- **The invariant of the heap**, with the list of its blocks. -/
structure Inv (s : Kheap) (l : List UInt64) : Prop where
  chained : Chained s l
  tiled : Tiled s.regions s.block l
  regions : RegionsOk s.regions

/-- The blocks that are in use stay in use, and keep their size. -/
def Keeps (s : Kheap) (l : List UInt64) (s' : Kheap) (l' : List UInt64) : Prop :=
  ∀ b ∈ l, (s.block b).blockFree = false →
    b ∈ l' ∧ (s'.block b).blockFree = false ∧ (s'.block b).size = (s.block b).size

theorem Keeps.refl : Keeps s l s l := fun _ hb hused => ⟨hb, hused, rfl⟩

theorem Keeps.trans (h₁ : Keeps s l s' l') (h₂ : Keeps s' l' s'' l'') : Keeps s l s'' l'' := by
  intro b hb hused
  obtain ⟨hb', hused', hsize'⟩ := h₁ b hb hused
  obtain ⟨hb'', hused'', hsize''⟩ := h₂ b hb' hused'
  exact ⟨hb'', hused'', hsize''.trans hsize'⟩

/-- The bytes of a block, its header among them, if it is free, or if it is in use. -/
def Kheap.share (s : Kheap) (free : Bool) (b : UInt64) : Nat :=
  if (s.block b).blockFree = free then (s.block b).size.toNat else 0

/-- **The total size of the blocks that are free, or that are in use.** -/
def Kheap.total (s : Kheap) (free : Bool) (l : List UInt64) : Nat := (l.map (s.share free)).sum

section Total

variable {free : Bool}

theorem share_congr (hs : (s'.block b).Same (s.block b)) : s'.share free b = s.share free b := by
  rw [Kheap.share, Kheap.share, hs.blockFree, hs.size]

theorem total_congr (h : ∀ c ∈ l, s'.share free c = s.share free c) :
    s'.total free l = s.total free l :=
  congrArg List.sum (map_congr_left h)

theorem total_cons : s.total free (b :: l) = s.share free b + s.total free l := sum_cons

theorem total_append : s.total free (l₁ ++ l₂) = s.total free l₁ + s.total free l₂ := by
  rw [Kheap.total, map_append, sum_append]
  rfl

theorem total_sides (free : Bool) (h : ∀ c ∈ l₁ ++ l₂, (s'.block c).Same (s.block c)) :
    s'.total free l₁ = s.total free l₁ ∧ s'.total free l₂ = s.total free l₂ :=
  ⟨total_congr fun c hc => share_congr (h c (mem_append_left l₂ hc)),
    total_congr fun c hc => share_congr (h c (mem_append_right l₁ hc))⟩

/-- One block changes. -/
theorem total_change (hnd : l.Nodup) (hb : b ∈ l)
    (h : ∀ c ∈ l, c ≠ b → s'.share free c = s.share free c) :
    s'.total free l + s.share free b = s.total free l + s'.share free b := by
  obtain ⟨l₁, l₂, rfl⟩ := append_of_mem hb
  rw [nodup_append, nodup_cons] at hnd
  have hl₁ : s'.total free l₁ = s.total free l₁ := total_congr fun c hc =>
    h c (mem_append_left _ hc) (hnd.2.2 c hc b mem_cons_self)
  have hl₂ : s'.total free l₂ = s.total free l₂ := total_congr fun c hc =>
    h c (mem_append_right _ (mem_cons_of_mem b hc)) fun e => hnd.2.1.1 (e ▸ hc)
  simp only [total_append, total_cons, hl₁, hl₂]
  omega

end Total

/-- **The blocks in use are as they were**, and the counter. -/
structure Rests (s : Kheap) (l : List UInt64) (s' : Kheap) (l' : List UInt64) : Prop where
  keeps : Keeps s l s' l'
  inUse : s'.total false l' = s.total false l
  counter : s'.allocatedBytes = s.allocatedBytes

theorem Rests.refl : Rests s l s l := ⟨.refl, rfl, rfl⟩

theorem Rests.trans (h₁ : Rests s l s' l') (h₂ : Rests s' l' s'' l'') : Rests s l s'' l'' :=
  ⟨h₁.keeps.trans h₂.keeps, h₂.inUse.trans h₁.inUse, h₂.counter.trans h₁.counter⟩

/-- A change outside of the headers. -/
theorem Rests.congr (hblocks : ∀ b ∈ l, s'.block b = s.block b)
    (hcounter : s'.allocatedBytes = s.allocatedBytes) :
    Rests s l s' l := by
  refine ⟨fun b hb hused => ?_, total_congr fun b hb => ?_, hcounter⟩
  · rw [hblocks b hb]
    exact ⟨hb, hused, rfl⟩
  · rw [Kheap.share, hblocks b hb]
    rfl

/-- **Blocks are merged**: the free ones keep their total size, and none of them shrinks. -/
structure Merges (s : Kheap) (l : List UInt64) (s' : Kheap) (l' : List UInt64) : Prop extends
    Rests s l s' l' where
  free : s'.total true l' = s.total true l
  room : ∀ c ∈ l, ∃ c' ∈ l', s.share true c ≤ s'.share true c'

theorem Merges.refl : Merges s l s l := ⟨.refl, rfl, fun c hc => ⟨c, hc, Nat.le_refl _⟩⟩

theorem Merges.trans (h₁ : Merges s l s' l') (h₂ : Merges s' l' s'' l'') : Merges s l s'' l'' := by
  refine ⟨h₁.toRests.trans h₂.toRests, h₂.free.trans h₁.free, fun c hc => ?_⟩
  obtain ⟨c', hc', hle⟩ := h₁.room c hc
  obtain ⟨c'', hc'', hle'⟩ := h₂.room c' hc'
  exact ⟨c'', hc'', hle.trans hle'⟩

theorem Good.congr {h h' : Header} (hg : Good regions b h)
    (hs : h'.Same h) : Good regions b h' where
  inside := by rw [hs.size]; exact hg.inside
  aligned := hg.aligned
  size16 := by rw [hs.size]; exact hg.size16
  pad := hs.pad.trans hg.pad
  magic := hs.magic.trans hg.magic

theorem Tiled.congr (h : Tiled regions D l) (hs : ∀ b ∈ l, (D' b).Same (D b)) :
    Tiled regions D' l where
  apart := h.apart.imp_of_mem fun ha _ hab => by rw [Before, (hs _ ha).size]; exact hab
  good := fun b hb => (h.good b hb).congr (hs b hb)

theorem Tiled.sublist (h : Tiled regions D l) (hl : l'.Sublist l) : Tiled regions D l' :=
  ⟨h.apart.sublist hl, fun b hb => h.good b (hl.subset hb)⟩

/-- More regions. -/
theorem Good.more {h : Header} (hg : Good regions b h) (r : Region) : Good (r :: regions) b h := by
  obtain ⟨r', hr', hin⟩ := hg.inside
  exact { hg with inside := ⟨r', mem_cons_of_mem r hr', hin⟩ }

/-! ## 2. Numbers -/

theorem Inv.fits (h : Inv s l) (hb : b ∈ l) : b.toNat + (s.block b).size.toNat + 48 ≤ 2 ^ 64 := by
  obtain ⟨r, hr, -, hin⟩ := (h.tiled.good b hb).inside
  exact hin.trans (h.regions.fits r hr)

/-- The end of a block, computed in 64 bits. -/
theorem Inv.end_toNat (h : Inv s l) (hb : b ∈ l) :
    (b + (s.block b).size).toNat = b.toNat + (s.block b).size.toNat := by
  have hfits := h.fits hb
  rw [UInt64.toNat_add, Nat.mod_eq_of_lt (by omega)]

theorem and_not_mask (v : UInt64) {m : UInt64} {k : Nat} (hk : k < 5)
    (hm : (~~~m).toNat = 2 ^ 64 - 2 ^ k) :
    (v &&& ~~~m).toNat = v.toNat / 2 ^ k * 2 ^ k := by
  have hlt : v.toNat < 2 ^ 64 := v.toNat_lt
  have hdiv : (v.toNat &&& (2 ^ 64 - 2 ^ k)) / 2 ^ k = v.toNat / 2 ^ k := by
    rw [Nat.and_div_two_pow, show (2 ^ 64 - 2 ^ k) / 2 ^ k =
      2 ^ (64 - k) - 1 by interval_cases k <;> rfl,
      Nat.and_two_pow_sub_one_eq_mod, Nat.mod_eq_of_lt (by interval_cases k <;> omega)]
  have hmod : (v.toNat &&& (2 ^ 64 - 2 ^ k)) % 2 ^ k = 0 := by
    rw [Nat.and_mod_two_pow, show (2 ^ 64 - 2 ^ k) % 2 ^ k = 0 by interval_cases k <;> rfl,
      Nat.and_zero]
  rw [UInt64.toNat_and, hm, ← hdiv]
  exact (Nat.div_mul_cancel (Nat.dvd_of_mod_eq_zero hmod)).symm

/-- These alignments leave a payload where it is. -/
theorem alignUp_eq {v alignment : UInt64} (hal : alignment ∈ [1, 2, 4, 8, 16])
    (hv : v.toNat % 16 = 0) :
    alignUp v alignment = v := by
  have hmasks : ∀ alignment ∈ [1, 2, 4, 8, 16], ∃ k, k < 5 ∧
      ((if alignment = 0 then 16 else alignment) - 1 : UInt64).toNat = 2 ^ k - 1 ∧
      (~~~((if alignment = 0 then 16 else alignment) - 1) : UInt64).toNat = 2 ^ 64 - 2 ^ k :=
    forall_iff_forall_mem.mp (by decide)
  have hlt : v.toNat < 2 ^ 64 := v.toNat_lt
  obtain ⟨k, hk, hmask, hnot⟩ := hmasks alignment hal
  refine UInt64.toNat_inj.mp ?_
  rw [alignUp, and_not_mask _ hk hnot, UInt64.toNat_add, hmask]
  interval_cases k <;> omega

theorem blockFree_setFree (h : Header) (free : Bool) : (h.setFree free).blockFree = free := by
  cases free with
  | true =>
    have hbit : (h.flags ||| 1) &&& 1 ≠ 0 := by
      intro e
      have hnat : (h.flags.toNat ||| 1) &&& 1 = 0 := by
        rw [← UInt64.toNat_inj, UInt64.toNat_and, UInt64.toNat_or] at e
        exact e
      rw [Nat.and_one_is_mod] at hnat
      have hodd : (h.flags.toNat ||| 1) % 2 = 1 := Nat.or_mod_two_eq_one.mpr (.inr rfl)
      omega
    exact decide_eq_true hbit
  | false =>
    have hbit : h.flags &&& ~~~1 &&& 1 = 0 := by
      rw [UInt64.and_assoc, show (~~~1 &&& 1 : UInt64) = 0 by decide, UInt64.and_zero]
    exact decide_eq_false (not_not.mpr hbit)

/-! ## 3. Blocks, apart from the links -/

theorem pairwise_insert {R : UInt64 → UInt64 → Prop} (h : (l₁ ++ l₂).Pairwise R)
    (hbefore : ∀ c ∈ l₁, R c x)
    (hafter : ∀ c ∈ l₂, R x c) : (l₁ ++ x :: l₂).Pairwise R := by
  obtain ⟨hl₁, hl₂, hacross⟩ := pairwise_append.mp h
  refine pairwise_append.mpr ⟨hl₁, pairwise_cons.mpr ⟨hafter, hl₂⟩, fun c hc d hd => ?_⟩
  cases mem_cons.mp hd with
  | inl hdx => exact hdx ▸ hbefore c hc
  | inr hd => exact hacross c hc d hd

/-- A block more. -/
theorem Tiled.insert (h : Tiled regions D (l₁ ++ l₂)) (hsame : ∀ c ∈ l₁ ++ l₂, (D' c).Same (D c))
    (hbefore : ∀ c ∈ l₁, Before D c x) (hafter : ∀ c ∈ l₂, Before D' x c)
    (hgood : Good regions x (D' x)) :
    Tiled regions D' (l₁ ++ x :: l₂) := by
  have h' := h.congr hsame
  refine ⟨pairwise_insert h'.apart (fun c hc => ?_) hafter, fun c hc => ?_⟩
  · rw [Before, (hsame c (mem_append_left _ hc)).size]
    exact hbefore c hc
  · rw [mem_append, mem_cons] at hc
    rcases hc with hc | hc | hc
    · exact h'.good c (mem_append_left _ hc)
    · exact hc ▸ hgood
    · exact h'.good c (mem_append_right _ hc)

/-- A block that gets another size, in front of the next ones. -/
theorem Tiled.resize (h : Tiled regions D (l₁ ++ b :: l₂))
    (hsame : ∀ c ∈ l₁ ++ l₂, (D' c).Same (D c))
    (hafter : ∀ c ∈ l₂, Before D' b c) (hgood : Good regions b (D' b)) :
    Tiled regions D' (l₁ ++ b :: l₂) := by
  obtain ⟨-, -, hacross⟩ := pairwise_append.mp h.apart
  refine Tiled.insert (h.sublist ((sublist_cons_self b l₂).append_left l₁)) hsame ?_ hafter hgood
  exact fun c hc => hacross c hc b mem_cons_self

/-- An address inside a region is in no other one. -/
theorem RegionsOk.unique (h : RegionsOk regions) {r r' : Region}
    (hr : r ∈ regions) (hr' : r' ∈ regions)
    {k : Nat} (hk : r.1.toNat ≤ k ∧ k < r.1.toNat + r.2)
    (hk' : r'.1.toNat ≤ k ∧ k < r'.1.toNat + r'.2) :
    r = r' := by
  by_contra hne
  have hsymm : Std.Symm fun r r' : Region =>
      r.1.toNat + r.2 ≤ r'.1.toNat ∨ r'.1.toNat + r'.2 ≤ r.1.toNat := ⟨fun _ _ h => h.symm⟩
  have hor := h.apart.forall hr hr' hne
  omega

/-- A block that takes over the next one, which begins where it ends. -/
theorem Tiled.merge (h : Tiled regions D (l₁ ++ b :: n :: l₂)) (hr : RegionsOk regions)
    (hn : n.toNat = b.toNat + (D b).size.toNat)
    (hsize : (D' b).size.toNat = (D b).size.toNat + (D n).size.toNat)
    (hpad : (D' b).pad = (D b).pad)
    (hmagic : (D' b).magic = (D b).magic) (hsame : ∀ c ∈ l₁ ++ l₂, (D' c).Same (D c)) :
    Tiled regions D' (l₁ ++ b :: l₂) := by
  have hb := h.good b (by simp)
  have hgn := h.good n (by simp)
  have hsub : (l₁ ++ b :: l₂).Sublist (l₁ ++ b :: n :: l₂) :=
    ((sublist_cons_self n l₂).cons_cons b).append_left l₁
  refine (h.sublist hsub).resize hsame ?_ ⟨?_, hb.aligned, ?_,
    hpad.trans hb.pad, hmagic.trans hb.magic⟩
  · intro c hc
    have hnc : Before D n c := by
      obtain ⟨-, hrest, -⟩ := pairwise_append.mp h.apart
      exact (pairwise_cons.mp (pairwise_cons.mp hrest).2).1 c hc
    rw [Before] at hnc ⊢
    omega
  · obtain ⟨r, hmem, hle, hin⟩ := hb.inside
    obtain ⟨r', hmem', hle', hin'⟩ := hgn.inside
    -- the block does not end at the end of its region, so the next one begins in it
    have heq := hr.unique hmem hmem' (k := n.toNat) (by omega) (by omega)
    subst heq
    exact ⟨r, hmem, hle, by omega⟩
  · have h16 := hb.size16
    have h16' := hgn.size16
    omega

/-! ## 4. Merging -/

theorem Chained.block_edit (h : Chained s l) (hb : b ∈ l) (hc : c ∈ l) (hne : c ≠ b)
    (f : Header → Header) : (s.edit b f).block c = s.block c :=
  block_edit_of_apart (h.apart hc hb hne)

/-- Stores that leave the links as they are. -/
theorem Chained.edit (h : Chained s l) (hb : b ∈ l) (f : Header → Header)
    (hf : ∀ h, (f h).next = h.next ∧ (f h).prev = h.prev) : Chained (s.edit b f) l := by
  refine h.congr rfl fun c hc => ?_
  by_cases hcb : c = b
  · rw [hcb, block_edit_self]
    exact hf _
  · rw [h.block_edit hb hc hcb]
    exact ⟨rfl, rfl⟩

/-- The blocks in front of one and behind it are others. -/
theorem Chained.ne_of_mem (h : Chained s (l₁ ++ b :: l₂)) (hc : c ∈ l₁ ++ l₂) : c ≠ b := by
  have hnd := h.nodup
  rw [nodup_append, nodup_cons] at hnd
  rintro rfl
  cases mem_append.mp hc with
  | inl hc => exact hnd.2.2 c hc c mem_cons_self rfl
  | inr hc => exact hnd.2.1.1 hc

/-- The block takes over the next one. -/
def Kheap.absorb (s : Kheap) (b n : UInt64) : Kheap :=
  (s.edit b fun h => { h with size := h.size + (s.block n).size }).unlink n

theorem Chained.absorb_chained (h : Chained s (l₁ ++ b :: n :: l₂)) :
    Chained (s.absorb b n) (l₁ ++ b :: l₂) := by
  have hedit := h.edit (show b ∈ l₁ ++ b :: n :: l₂ by simp)
    (fun h => { h with size := h.size + (s.block n).size }) fun _ => ⟨rfl, rfl⟩
  rw [append_cons] at hedit ⊢
  exact hedit.unlink

theorem absorb_rest : SameRest s (s.absorb b n) := Chained.unlink_rest (s := s.edit b _)

section

variable (h : Chained s (l₁ ++ b :: n :: l₂))
include h

theorem Chained.absorb_same (hc : c ∈ l₁ ++ b :: n :: l₂) : ((s.absorb b n).block c).Same
      ((s.edit b fun h => { h with size := h.size + (s.block n).size }).block c) := by
  have hedit := h.edit (show b ∈ l₁ ++ b :: n :: l₂ by simp)
    (fun h => { h with size := h.size + (s.block n).size }) fun _ => ⟨rfl, rfl⟩
  rw [append_cons] at hedit hc
  exact hedit.unlink_same hc

theorem Chained.absorb_self :
    ((s.absorb b n).block b).Same { s.block b with size :=
      (s.block b).size + (s.block n).size } := by
  have hsame := h.absorb_same (show b ∈ l₁ ++ b :: n :: l₂ by simp)
  rw [block_edit_self] at hsame
  exact hsame

theorem Chained.absorb_other (hc : c ∈ l₁ ++ l₂) : ((s.absorb b n).block c).Same (s.block c) := by
  have hc' : c ∈ l₁ ++ n :: l₂ := ((sublist_cons_self n l₂).append_left l₁).subset hc
  have hmem : c ∈ l₁ ++ b :: n :: l₂ := ((sublist_cons_self b _).append_left l₁).subset hc'
  have hsame := h.absorb_same hmem
  rw [h.block_edit (by simp) hmem (h.ne_of_mem hc')] at hsame
  exact hsame

end

/-- **Merging** keeps the invariant. -/
theorem Inv.absorb (h : Inv s (l₁ ++ b :: n :: l₂)) (hn : n = b + (s.block b).size)
    (hbf : (s.block b).blockFree = true) (hnf : (s.block n).blockFree = true) :
    Inv (s.absorb b n) (l₁ ++ b :: l₂) ∧ ((s.absorb b n).block b).blockFree = true ∧
      Merges s (l₁ ++ b :: n :: l₂) (s.absorb b n) (l₁ ++ b :: l₂) := by
  have hself := h.chained.absorb_self
  have hother := fun c => h.chained.absorb_other (c := c)
  have hfits := h.fits (show n ∈ l₁ ++ b :: n :: l₂ by simp)
  have hn' : n.toNat = b.toNat + (s.block b).size.toNat := by
    rw [← h.end_toNat (show b ∈ l₁ ++ b :: n :: l₂ by simp), ← hn]
  have hfree : ((s.absorb b n).block b).blockFree = true := by
    rw [Header.blockFree, hself.flags]
    exact hbf
  have hsize : ((s.absorb b n).block b).size.toNat =
      (s.block b).size.toNat + (s.block n).size.toNat := by
    rw [hself.size, UInt64.toNat_add, Nat.mod_eq_of_lt (by omega)]
  have hshare : ∀ free, (s.absorb b n).share free b = s.share free b + s.share free n := by
    intro free
    simp only [Kheap.share, hfree, hbf, hnf, hsize]
    split_ifs <;> rfl
  have htotal : ∀ free, (s.absorb b n).total free (l₁ ++ b :: l₂) =
      s.total free (l₁ ++ b :: n :: l₂) := by
    intro free
    obtain ⟨hl₁, hl₂⟩ := total_sides free hother
    simp only [total_append, total_cons, hl₁, hl₂, hshare, Nat.add_assoc]
  have hcases : ∀ c ∈ l₁ ++ b :: n :: l₂, c ∈ l₁ ++ l₂ ∨ c = b ∨ c = n := by
    grind
  have hmem : ∀ c ∈ l₁ ++ l₂, c ∈ l₁ ++ b :: l₂ := fun c hc =>
    ((sublist_cons_self b l₂).append_left l₁).subset hc
  refine ⟨⟨h.chained.absorb_chained, ?_, ?_⟩, hfree,
    ⟨fun c hc hused => ?_, htotal false, absorb_rest.2⟩,
    htotal true, fun c hc => ?_⟩
  · rw [absorb_rest.1]
    exact h.tiled.merge h.regions hn' hsize hself.pad hself.magic hother
  · rw [absorb_rest.1]
    exact h.regions
  · rcases hcases c hc with hc | rfl | rfl
    · have hs := hother c hc
      exact ⟨hmem c hc, hs.blockFree.trans hused, hs.size⟩
    · rw [hbf] at hused
      cases hused
    · rw [hnf] at hused
      cases hused
  · have hboth := hshare true
    rcases hcases c hc with hc | rfl | rfl
    · exact ⟨c, hmem c hc, (share_congr (hother c hc)).ge⟩
    · exact ⟨c, by simp, by omega⟩
    · exact ⟨b, by simp, by omega⟩

theorem Inv.coalesceNext (h : Inv s l) (hb : b ∈ l) (hbf : (s.block b).blockFree = true)
    (hfuel : l.length ≤ fuel) :
    ∃ s' l', s.coalesceNext b fuel = some s' ∧ Inv s' l' ∧ b ∈ l' ∧ (s'.block b).blockFree = true ∧
      Merges s l s' l' := by
  -- every round takes a block out of the list
  induction fuel generalizing s l with
  | zero =>
    rw [length_eq_zero_iff.mp (Nat.le_zero.mp hfuel)] at hb
    exact absurd hb not_mem_nil
  | succ fuel ih =>
    rw [Kheap.coalesceNext]
    split_ifs with hcond
    · obtain ⟨hne, hnf, hn⟩ := hcond
      obtain ⟨l₁, l₂, rfl⟩ := append_of_mem hb
      have hhead := h.chained.next_head hne
      obtain ⟨l₃, rfl⟩ := List.head?_eq_some_iff.mp hhead
      obtain ⟨hinv, hfree, hmerges⟩ := h.absorb hn hbf hnf
      obtain ⟨s', l', hrun, hinv', hb', hfree', hmerges'⟩ := ih hinv (by simp) hfree (by
        simp only [length_append, length_cons] at hfuel ⊢
        omega)
      exact ⟨s', l', hrun, hinv', hb', hfree', hmerges.trans hmerges'⟩
    · exact ⟨s, l, rfl, h, hb, hbf, .refl⟩

theorem Inv.coalescePrev (h : Inv s l) (hb : b ∈ l) (hbf : (s.block b).blockFree = true) :
    ∃ l', Inv (s.coalescePrev b) l' ∧ Merges s l (s.coalescePrev b) l' := by
  rw [Kheap.coalescePrev]
  split_ifs with hcond
  · obtain ⟨hne, hpf, hbp⟩ := hcond
    obtain ⟨l₁, l₂, rfl⟩ := append_of_mem hb
    have hlast := h.chained.prev_last hne
    obtain ⟨l₀, rfl⟩ := List.getLast?_eq_some_iff.mp hlast
    rw [← append_cons] at h ⊢
    obtain ⟨hinv, -, hmerges⟩ := h.absorb hbp hpf hbf
    exact ⟨_, hinv, hmerges⟩
  · exact ⟨l, h, .refl⟩

/-- **`coalesce`** keeps the invariant. -/
theorem Inv.coalesce (h : Inv s l) (hb : b ∈ l) (hbf : (s.block b).blockFree = true)
    (hfuel : l.length ≤ fuel) : ∃ s' l', s.coalesce fuel b = some s' ∧
    Inv s' l' ∧ Merges s l s' l' := by
  obtain ⟨s₁, l₁, hrun, hinv, hb₁, hfree, hmerges⟩ := h.coalesceNext hb hbf hfuel
  obtain ⟨l₂, hinv₂, hmerges₂⟩ := hinv.coalescePrev hb₁ hfree
  exact ⟨s₁.coalescePrev b, l₂, by rw [Kheap.coalesce, hrun]; rfl, hinv₂, hmerges.trans hmerges₂⟩

/-! ## 5. New regions -/

/-- A block that overlaps no block of the list. -/
def Beside (D : UInt64 → Header) (x a : UInt64) : Prop :=
  a.toNat + 48 ≤ x.toNat ∧ Before D a x ∨ x.toNat + 48 ≤ a.toNat ∧ Before D x a

theorem Beside.before (h : Beside D x a) (hlt : a.toNat ≤ x.toNat) :
    a.toNat + 48 ≤ x.toNat ∧ Before D a x := h.resolve_right fun hx => by omega

theorem Beside.after (h : Beside D x a) (hlt : x.toNat ≤ a.toNat) :
    x.toNat + 48 ≤ a.toNat ∧ Before D x a := h.resolve_left fun hx => by omega

/-- The list with `x` put in somewhere. -/
theorem Inv.ofInsert (h : Inv s (l₁ ++ l₂)) (hchained : Chained s' (l₁ ++ x :: l₂))
    (hrest : SameRest s s') (hsame : ∀ c ∈ l₁ ++ l₂, (s'.block c).Same (s.block c))
    (hbefore : ∀ c ∈ l₁, Before s.block c x) (hafter : ∀ c ∈ l₂, Before s'.block x c)
    (hgood : Good s.regions x (s'.block x)) (hfree : (s'.block x).blockFree = true) :
    Inv s' (l₁ ++ x :: l₂) ∧ Rests s (l₁ ++ l₂) s' (l₁ ++ x :: l₂) := by
  refine ⟨⟨hchained, ?_, ?_⟩, fun c hc hused => ?_, ?_, hrest.2⟩
  · rw [hrest.1]
    exact h.tiled.insert hsame hbefore hafter hgood
  · rw [hrest.1]
    exact h.regions
  · have hs := hsame c hc
    exact ⟨((sublist_cons_self x l₂).append_left l₁).subset hc, hs.blockFree.trans hused, hs.size⟩
  · obtain ⟨hl₁, hl₂⟩ := total_sides false hsame
    have hx : s'.share false x = 0 := by simp [Kheap.share, hfree]
    rw [total_append, total_append, total_cons, hl₁, hl₂, hx, Nat.zero_add]

/-- A change outside of the headers. -/
theorem Inv.congr (h : Inv s l) (hblocks : ∀ b ∈ l, s'.block b = s.block b)
    (hhead : s'.head = s.head)
    (hregions : s'.regions = s.regions) : Inv s' l := by
  refine ⟨h.chained.congr hhead fun b hb => ?_, ?_, hregions ▸ h.regions⟩
  · rw [hblocks b hb]
    exact ⟨rfl, rfl⟩
  · rw [hregions]
    refine h.tiled.congr fun b hb => ?_
    rw [hblocks b hb]

/-- Behind the head all blocks have larger addresses. -/
theorem Chained.head_le (h : Chained s l) (ha : a ∈ l) : s.head.toNat ≤ a.toNat := by
  cases l with
  | nil => exact absurd ha not_mem_nil
  | cons y l =>
    rw [(ptr_eq_some.mp h.head_eq.symm).1]
    cases mem_cons.mp ha with
    | inl hay => rw [hay]
    | inr ha =>
      have hsep := (pairwise_cons.mp h.sep).1 a ha
      omega

/-- **The loop of `insert_free_block` finds the place** of an address that is not below the head. -/
theorem Chained.place (h : Chained s l) (hhead : s.head ≠ 0) (hx : ¬ x < s.head)
    (hfuel : l.length ≤ fuel) :
    ∃ l₁ c l₂, l = l₁ ++ c :: l₂ ∧
      advance (fun a => s.next (some a)) (fun a => a < x) fuel s.head = some c ∧
      (∀ a ∈ l₁ ++ [c], a.toNat ≤ x.toNat) ∧ ∀ a ∈ l₂, x.toNat ≤ a.toNat := by
  have hfirst := h.head_eq.trans (ptr_of_ne hhead)
  obtain ⟨l₀, rfl⟩ := List.head?_eq_some_iff.mp hfirst
  obtain ⟨l₁, c, l₂, heq, hrun, hc, hl₂⟩ := h.links.linked.2.advance (P := fun a => a < x) hfuel
  rw [heq] at h
  obtain ⟨-, hsepc, hsep₁⟩ := pairwise_append.mp h.sep
  have hcx : c.toNat ≤ x.toNat := by
    by_cases hnil : l₁ = []
    · subst hnil
      cases heq
      exact Nat.le_of_not_lt fun hlt => hx (UInt64.lt_iff_toNat_lt.mpr hlt)
    · exact Nat.le_of_lt (UInt64.lt_iff_toNat_lt.mp (of_decide_eq_true (hc hnil)))
  refine ⟨l₁, c, l₂, heq, hrun, fun a ha => ?_, fun a ha => ?_⟩
  · cases mem_append.mp ha with
    | inl ha =>
      have hac := hsep₁ a ha c mem_cons_self
      omega
    | inr ha => rw [mem_singleton.mp ha]; exact hcx
  cases l₂ with
  | nil => exact absurd ha not_mem_nil
  | cons d l₃ =>
    have hd : x.toNat ≤ d.toNat := Nat.le_of_not_lt fun hlt =>
      of_decide_eq_false (hl₂ d rfl) (UInt64.lt_iff_toNat_lt.mpr hlt)
    cases mem_cons.mp ha with
    | inl had => rw [had]; exact hd
    | inr ha =>
      have hda := (pairwise_cons.mp (pairwise_cons.mp hsepc).2).1 a ha
      omega

/-- A new block in front of all others. -/
theorem Inv.linkFirst (h : Inv s l) (hx : x ≠ 0) (hbeside : ∀ a ∈ l, Beside s.block x a)
    (hgood : Good s.regions x (s.block x)) (hfree : (s.block x).blockFree = true)
    (hall : ∀ a ∈ l, x.toNat ≤ a.toNat) :
    Inv (s.linkFirst x) (x :: l) ∧ Rests s l (s.linkFirst x) (x :: l) := by
  obtain ⟨hlinked, hxsame, hsame⟩ :=
    h.chained.linkFirst hx fun a ha => ((hbeside a ha).after (hall a ha)).1
  have hnil : Inv s ([] ++ l) := h
  refine hnil.ofInsert hlinked linkFirst_rest hsame (fun _ hc => absurd hc not_mem_nil)
    (fun c hc => ?_) (hgood.congr hxsame) (hxsame.blockFree.trans hfree)
  rw [Before, hxsame.size]
  exact ((hbeside c hc).after (hall c hc)).2

/-- A new block behind the block `c`. -/
theorem Inv.linkIn (h : Inv s (l₁ ++ c :: l₂)) (hx : x ≠ 0)
    (hbeside : ∀ a ∈ l₁ ++ c :: l₂, Beside s.block x a) (hgood : Good s.regions x (s.block x))
    (hfree : (s.block x).blockFree = true) (hbefore : ∀ a ∈ l₁ ++ [c], a.toNat ≤ x.toNat)
    (hall : ∀ a ∈ l₂, x.toNat ≤ a.toNat) : Inv (s.linkIn c x id id) (l₁ ++ c :: x :: l₂) ∧
      Rests s (l₁ ++ c :: l₂) (s.linkIn c x id id) (l₁ ++ c :: x :: l₂) := by
  have hfront : ∀ a ∈ l₁ ++ [c], a.toNat + 48 ≤ x.toNat ∧ Before s.block a x := fun a ha =>
    (hbeside a (by rw [append_cons]; exact mem_append_left _ ha)).before (hbefore a ha)
  have hback : ∀ a ∈ l₂, x.toNat + 48 ≤ a.toNat ∧ Before s.block x a := fun a ha =>
    (hbeside a (by rw [append_cons]; exact mem_append_right _ ha)).after (hall a ha)
  have hsep : (l₁ ++ c :: x :: l₂).Pairwise fun a b => a.toNat + 48 ≤ b.toNat := by
    rw [append_cons]
    exact pairwise_insert (by rw [← append_cons]; exact h.chained.sep) (fun a ha => (hfront a ha).1)
      fun a ha => (hback a ha).1
  obtain ⟨hlinked, hxsame, hcsame, hsame⟩ :=
    h.chained.linkIn (f := id) (g := id) hx (fun _ => rfl) hsep
  rw [append_cons] at h
  rw [append_cons] at hlinked
  rw [append_cons l₁ c (x :: l₂), append_cons l₁ c l₂]
  refine h.ofInsert hlinked linkIn_rest (fun a ha => ?_) (fun a ha => (hfront a ha).2)
    (fun a ha => ?_) (hgood.congr hxsame) (hxsame.blockFree.trans hfree)
  · by_cases hac : a = c
    · rw [hac]
      exact hcsame
    · exact hsame a (by simpa [hac] using ha)
  · rw [Before, hxsame.size]
    exact (hback a ha).2

/-- **`insert_free_block`** puts the block in its place. -/
theorem Inv.insertFreeBlock (h : Inv s l) (hx : x ≠ 0) (hbeside : ∀ a ∈ l, Beside s.block x a)
    (hgood : Good s.regions x { s.block x with magic := heapMagic }) (hfuel : l.length ≤ fuel) :
    ∃ s' l', s.insertFreeBlock fuel x = some s' ∧ Inv s' l' ∧
      l'.length = l.length + 1 ∧ Rests s l s' l' := by
  have hapart : ∀ a ∈ l, HeadersApart a x := fun a ha => (hbeside a ha).imp And.left And.left
  generalize hs₁ : (s.edit x fun h => { h.setFree true with magic := heapMagic }) = s₁
  have hkept : ∀ a ∈ l, s₁.block a = s.block a := fun a ha => by
    rw [← hs₁, block_edit_of_apart (hapart a ha)]
  have hself : s₁.block x = { (s.block x).setFree true with magic := heapMagic } := by
    rw [← hs₁, block_edit_self]
  have h₁ := h.congr hkept (by rw [← hs₁, edit_head]) (by rw [← hs₁, edit_regions])
  have hrests₁ : Rests s l s₁ l := .congr hkept (by rw [← hs₁]; rfl)
  have hfree : (s₁.block x).blockFree = true := by
    rw [hself]
    exact blockFree_setFree _ true
  have hgood₁ : Good s₁.regions x (s₁.block x) := by
    rw [hself, ← hs₁, edit_regions]
    exact ⟨hgood.inside, hgood.aligned, hgood.size16, hgood.pad, rfl⟩
  have hbeside₁ : ∀ a ∈ l, Beside s₁.block x a := by
    intro a ha
    have hor := hbeside a ha
    rw [Beside, Before, Before] at hor ⊢
    rw [hkept a ha, hself]
    exact hor
  rw [Kheap.insertFreeBlock, hs₁]
  split_ifs with hfirst
  · have hall : ∀ a ∈ l, x.toNat ≤ a.toNat := by
      intro a ha
      have hhead : s₁.head ≠ 0 := fun e => by
        have hnil : l = [] :=
          List.head?_eq_none_iff.mp (h₁.chained.head_eq.trans (ptr_eq_none.mpr e))
        rw [hnil] at ha
        exact absurd ha not_mem_nil
      have hlt := UInt64.lt_iff_toNat_lt.mp (hfirst.resolve_left hhead)
      have hle := h₁.chained.head_le ha
      omega
    obtain ⟨hinv, hrests⟩ := h₁.linkFirst hx hbeside₁ hgood₁ hfree hall
    exact ⟨s₁.linkFirst x, x :: l, rfl, hinv, rfl, hrests₁.trans hrests⟩
  rw [not_or] at hfirst
  obtain ⟨l₁, c, l₂, rfl, hrun, hbefore, hall⟩ := h₁.chained.place hfirst.1 hfirst.2 hfuel
  rw [hrun]
  obtain ⟨hinv, hrests⟩ := h₁.linkIn hx hbeside₁ hgood₁ hfree hbefore hall
  refine ⟨s₁.linkIn c x id id, l₁ ++ c :: x :: l₂, rfl, hinv, ?_, hrests₁.trans hrests⟩
  simp only [length_append, length_cons]
  omega

theorem growChunks_spec : ∀ chunk ∈ Kheap.growChunks,
    65536 ≤ chunk ∧ chunk ≤ 4194304 ∧ chunk % 16 = 0 := by decide

/-- A region that was not in use is apart from every block. -/
theorem Inv.beside_unused {len : Nat} (h : Inv s l) (hun : Unused s.regions x len) (ha : a ∈ l) :
    a.toNat + (s.block a).size.toNat + 48 ≤ x.toNat ∨ x.toNat + len ≤ a.toNat := by
  obtain ⟨r, hr, hle, hin⟩ := (h.tiled.good a ha).inside
  have hor := hun.apart r hr
  omega

theorem regionsOk_cons {len : Nat} (h : RegionsOk regions) (hun : Unused regions x len) :
    RegionsOk ((x, len) :: regions) := by
  refine ⟨pairwise_cons.mpr ⟨hun.apart, h.apart⟩, fun r hr => ?_, fun r hr => ?_⟩
  · cases mem_cons.mp hr with
    | inl heq => rw [heq]; exact hun.pos
    | inr hr => exact h.pos r hr
  · cases mem_cons.mp hr with
    | inl heq => rw [heq]; exact hun.fits
    | inr hr => exact h.fits r hr

/-- **`add_region`** adds the region as one free block. -/
theorem Inv.addRegion {len : Nat} (h : Inv s l) (hun : Unused s.regions x len) (hmin : 65536 ≤ len)
    (hmax : len ≤ 4194304) (h16 : len % 16 = 0) (hfuel : l.length ≤ fuel) :
    ∃ s' l', ({ s with regions := (x, len) :: s.regions } : Kheap).addRegion fuel x len = some s' ∧
      Inv s' l' ∧ l'.length = l.length + 1 ∧ Rests s l s' l' := by
  have hto : (UInt64.ofNat len).toNat = len :=
    UInt64.toNat_ofNat_of_lt' (by change len < 2 ^ 64; omega)
  have hle : heapHeader ≤ UInt64.ofNat len :=
    UInt64.le_iff_toNat_le.mpr (by rw [hto]; change 48 ≤ len; omega)
  have hsize : (UInt64.ofNat len - heapHeader).toNat = len - 48 := by
    rw [UInt64.toNat_sub_of_le _ _ hle, hto]
    rfl
  rw [Kheap.addRegion, if_neg (by change ¬ len < 64; omega)]
  generalize hs₁ : ({ s with regions := (x, len) :: s.regions } : Kheap).edit x
    (fun h => { h with size := UInt64.ofNat len - heapHeader, pad := 0 }) = s₁
  have hkept : ∀ a ∈ l, s₁.block a = s.block a := by
    intro a ha
    have hor := h.beside_unused hun ha
    rw [← hs₁, block_edit_of_apart (by rw [HeadersApart]; omega)]
    exact block_congr rfl
  have hself : (s₁.block x).size.toNat = len - 48 ∧ (s₁.block x).pad = 0 := by
    rw [← hs₁, block_edit_self]
    exact ⟨hsize, rfl⟩
  have hregions : s₁.regions = (x, len) :: s.regions := by rw [← hs₁, edit_regions]
  have hinv : Inv s₁ l := by
    refine ⟨h.chained.congr (by rw [← hs₁, edit_head]) fun b hb => ?_, ?_, ?_⟩
    · rw [hkept b hb]
      exact ⟨rfl, rfl⟩
    · rw [hregions]
      have hmore : Tiled ((x, len) :: s.regions) s.block l :=
        ⟨h.tiled.apart, fun b hb => (h.tiled.good b hb).more _⟩
      refine hmore.congr fun b hb => ?_
      rw [hkept b hb]
    · rw [hregions]
      exact regionsOk_cons h.regions hun
  have hpage := hun.page
  have hpos := hun.pos
  have hx : x ≠ 0 := fun e => by rw [e] at hpos; exact absurd hpos (by decide)
  obtain ⟨s', l', hrun, hinv', hlength, hrests⟩ := hinv.insertFreeBlock (x := x) hx (fun a ha => by
      have hor := h.beside_unused hun ha
      rw [Beside, Before, Before, hkept a ha, hself.1]
      omega)
    ⟨⟨(x, len), by rw [hregions]; exact mem_cons_self, Nat.le_refl _, by dsimp only; omega⟩,
      by omega, by dsimp only; omega, hself.2, rfl⟩ hfuel
  have hrests₁ : Rests s l s₁ l := .congr hkept (by rw [← hs₁]; rfl)
  exact ⟨s', l', hrun, hinv', hlength, hrests₁.trans hrests⟩

/-- **`grow_heap`** adds a region, or does nothing. -/
theorem Inv.growHeap (pmm : Supply) (h : Inv s l) (hfuel : l.length ≤ fuel) :
    ∃ ok s' l', s.growHeap pmm fuel = some (ok, s') ∧ Inv s' l' ∧ l'.length ≤ l.length + 1 ∧
      Rests s l s' l' := by
  rw [Kheap.growHeap]
  split
  · exact ⟨false, s, l, rfl, h, Nat.le_succ _, .refl⟩
  rename_i chunk hfind
  obtain ⟨hmin, hmax, h16⟩ := growChunks_spec chunk (List.mem_of_find?_eq_some hfind)
  have hne : pmm.answer s.regions chunk ≠ 0 := by simpa using List.find?_some hfind
  obtain ⟨s', l', hrun, hinv, hlength, hrests⟩ :=
    h.addRegion (pmm.unused s.regions chunk hne) hmin hmax h16 hfuel
  refine ⟨true, s', l', ?_, hinv, Nat.le_of_eq hlength, hrests⟩
  dsimp only
  rw [hrun]
  rfl

end DyntKernel.Mem.Heap
