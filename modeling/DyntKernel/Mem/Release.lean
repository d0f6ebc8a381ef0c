/-
  File:      DyntKernel/Mem/Release.lean
  Subject:   WHAT paging_free_address_space GIVES BACK, against what the space took.

  Every frame of a space was free before `paging_new_address_space` (`NewSpace.account`,
  `Along.account`), so the free frames are the old ones again if and only if `free_user_tree`
  releases every private frame.

  * `Mm.mapCalls`, `Mm.Accepts` -- a sequence of `paging_map` calls with frames just allocated;
  * `Returnable`, `freed_iff_returnable` -- the spaces that are given back in full;
  * `Returned` -- the calls that make such a space;
  * `space_returned_iff` -- the two agree.
-/
import DyntKernel.Mem.Device

namespace DyntKernel.Mem

open Library List

variable {p : List (Fin 512)} {calls : List (Nat × Nat)} {b : Boot} {s s' : Mm} {sp : List Nat}
  {r t f vaddr flags : Nat}

/-! ## 1. The calls -/

/-- `pmm_alloc_frame` and `paging_map` for each address and its flags; the caller gives back a frame
    that could not be mapped. -/
def Mm.mapCalls (r : Nat) (calls : List (Nat × Nat)) (s : Mm) : Mm :=
  calls.foldl (fun s c => s.allocAndMap r c.1 c.2 true) s

/-- `paging_map` accepts every call. -/
def Mm.Accepts (r : Nat) : List (Nat × Nat) → Mm → Prop
  | [], _ => True
  | c :: calls, s => s.alloc.1 ≠ 0 ∧ (s.alloc.2.pagingMap r c.1 s.alloc.1 c.2).1 = true ∧
      Accepts r calls (s.allocAndMap r c.1 c.2 true)

/-- No leaf carries a bit above its frame number. -/
def Plain (m : Phys) (r : Nat) : Prop :=
  ∀ i j k l t, Visible [i, j] → walkFrom m r [i, j, k] = some t → present (entry m t l) = true →
    entryFrame (entry m t l) < 2 ^ 51

/-- **What one call does to the space**: its frames and the free ones are the same in total, and it
    grows along the path of the address. -/
structure Charged (b : Boot) (sp : List Nat) (r vaddr flags : Nat) (s s' : Mm) : Prop
    extends Kept sp s s' where
  inv : Inv b s' sp
  account : ∀ g, (s'.pmm.free g = true ∨ Private s' r g) ↔ (s.pmm.free g = true ∨ Private s r g)
  along : ∀ p f, Visible p → walkFrom s'.mem r p = some f →
    walkFrom s.mem r p = some f ∨ p <+: pathOf vaddr
  plain : flags < 4096 → Plain s.mem r → Plain s'.mem r

theorem walkFrom_last {m : Phys} {i : Fin 512} (hw : walkFrom m r (p ++ [i]) = some f) :
    ∃ t, walkFrom m r p = some t ∧ child p.length (entry m t i) = some f := by
  rw [walkFrom, walk_snoc, Option.bind_eq_some_iff, Nat.zero_add] at hw
  exact hw

theorem child_leaf_some {e : Nat} (h : child 3 e = some f) :
    present e = true ∧ entryFrame e % 2 ^ 51 = f := by
  by_cases hp : present e = true
  · simp [child, hp] at h
    exact ⟨hp, h⟩
  · simp [child, hp] at h

/-- Growth keeps the leaves, and adds at most one. -/
theorem Plain.grow {leaf : Option Nat} (h : Plain s.mem r) (hr : r ∈ sp)
    (hg : GrownAt b sp r (pathOf vaddr) leaf s s') (hleaf : ∀ f t, leaf = some f →
      walkFrom s'.mem r [pml4Idx vaddr, pdptIdx vaddr, pdIdx vaddr] = some t →
      entryFrame (entry s'.mem t (ptIdx vaddr)) < 2 ^ 51) : Plain s'.mem r := by
  intro i j k l t hv hw hpres
  have hv₃ : Visible [i, j, k] := visible_cons_cons.mpr (visible_cons_cons.mp hv)
  have hwalk := walk_leaf hw hpres
  have hv₄ : Visible ([i, j, k] ++ [l]) := visible_cons_cons.mpr (visible_cons_cons.mp hv)
  rcases hg.along ([i, j, k] ++ [l]) _ hv₄ hwalk with hold | ⟨hq, hnew⟩
  · obtain ⟨t', hw', hc⟩ := walkFrom_last (p := [i, j, k]) hold
    obtain rfl : t' = t := Option.some.inj ((hg.walks r hr _ t' hv₃ hw').symm.trans hw)
    have hp := (child_leaf_some hc).1
    rw [hg.entries r hr t' l ⟨_, hv₃, by simp, hw'⟩ hp]
    exact h i j k l t' hv hw' hp
  · have hpath : [i, j, k, l] = pathOf vaddr := hq.eq_of_length (by simp [pathOf])
    simp only [pathOf, List.cons.injEq, and_true] at hpath
    obtain ⟨rfl, rfl, rfl, rfl⟩ := hpath
    exact hleaf _ t (hnew.resolve_left (by simp)) hw

theorem entryFrame_leaf (hf : f < pmmMaxFrames) (hflags : flags < 4096) :
    entryFrame (leafEntry f flags % 2 ^ 64) < 2 ^ 51 := by
  have hmax : pmmMaxFrames = 16777216 := rfl
  have hbound : leafEntry f flags < 2 ^ 63 := by
    rw [leafEntry]
    exact Nat.or_lt_two_pow (Nat.or_lt_two_pow (by omega) (by omega)) (by omega)
  rw [Nat.mod_eq_of_lt (by omega), entryFrame]
  omega

/-- **One call.** -/
theorem Charged.call (h : Inv b s sp) (hr : r ∈ sp) (vaddr : Nat) (hflags : FlagsOk flags) :
    Charged b sp r vaddr flags s (s.allocAndMap r vaddr flags true) := by
  rw [Mm.allocAndMap]
  rcases Grown.alloc h with ⟨hzero, hsame⟩ | ⟨hne, hgrow, hf, -⟩
  · rw [if_pos hzero, hsame]
    exact ⟨Kept.refl, h, fun _ => Iff.rfl, fun _ _ _ hw => .inl hw, fun _ hp => hp⟩
  rw [if_neg hne]
  have hgot := alloc_obtained hne
  have htake : ∀ g, s.pmm.free g = true ↔ s.alloc.2.pmm.free g = true ∨ s.alloc.1 = g := by
    intro g
    refine ⟨fun hg => ?_, fun hg => hg.elim (alloc_frees s g) fun heq => heq ▸ hgot.1⟩
    by_cases hfg : s.alloc.1 = g
    · exact .inr hfg
    · exact .inl (alloc_keeps hg (Ne.symm hfg))
  have hpriv : ∀ g, Private s.alloc.2 r g ↔ Private s r g := fun _ => Iff.rfl
  rcases pagingMap_cases vaddr hgrow.inv hr hf hflags with
    ⟨s', heq, hgrow'⟩ | ⟨s', heq, hgrow', hv, -, pt, hwpt, he⟩
  · simp only [heq, if_true]
    have hloose := (hgrow'.fresh _ (by simp) hf).toLoose
    refine ⟨hgrow.toKept.trans ⟨hgrow'.lapic, hgrow'.walks, hgrow'.entries⟩,
      hgrow'.inv.release fun _ => hloose, fun g => ?_, fun p f hv hw => ?_, fun _ hp => ?_⟩
    · have hback : (s'.release s.alloc.1).pmm.free g = true ↔
          s'.pmm.free g = true ∨ s.alloc.1 = g := by
        refine (Pmm.freeFrame_free s'.pmm s.alloc.1 g).trans (or_congr_right ?_)
        exact ⟨fun hg => hg.1.symm, fun hg => ⟨hg.symm, Boot.ram_lt hf.ram⟩⟩
      have hacc := hgrow'.account g
      have hpriv' : Private (s'.release s.alloc.1) r g ↔ Private s' r g := Iff.rfl
      rw [hpriv g] at hacc
      simp only [reduceCtorEq, or_false] at hacc
      rw [hpriv', hback, htake g, or_right_comm, hacc, or_right_comm]
    · exact (hgrow'.along p f hv hw).imp_right And.left
    · have hplain : Plain s'.mem r :=
        Plain.grow (s := s.alloc.2) hp hr hgrow' fun _ _ hno => absurd hno (by simp)
      exact hplain
  simp only [heq]
  refine ⟨hgrow.toKept.trans hgrow'.toKept, hgrow'.inv, fun g => ?_, fun p f hv hw => ?_,
    fun hsmall hp => ?_⟩
  · have hacc := hgrow'.account g
    rw [hpriv g, Option.some.injEq] at hacc
    rw [hacc, htake g, ← or_assoc, or_right_comm]
  · exact (hgrow'.along p f hv hw).imp_right And.left
  · refine hp.grow (s := s.alloc.2) hr hgrow' fun f t _ hwt => ?_
    rw [Option.some.inj (hwt.symm.trans hwpt), he]
    exact entryFrame_leaf (Boot.ram_lt hf.ram) hsmall

/-! ## 2. The spaces that are given back in full -/

/-- **A space `free_user_tree` reaches all of**: every path is one it follows, and no leaf keeps a
    bit in what is passed to `pmm_free_frame`. -/
structure Returnable (s : Mm) (r : Nat) : Prop where
  walked : ∀ p f, Visible p → walkFrom s.mem r p = some f → Walked s.lapicBase p
  plain : Plain s.mem r

theorem walk_length {m : Phys} (hw : walkFrom m r p = some f) : p.length ≤ 4 := by
  by_contra hlong
  rcases eq_nil_or_concat p with rfl | ⟨q, i, rfl⟩
  · exact hlong (by simp)
  rw [concat_eq_append] at hw hlong
  obtain ⟨t, -, hc⟩ := walkFrom_last hw
  rw [length_append, length_singleton] at hlong
  rw [child_deep _ _ (by omega)] at hc
  cases hc

section Frames

variable {m : Phys} {base pd e : Nat} {j : Fin 512}

theorem mem_root : entryFrame (entry m r 0) ∈ Mm.userTreeFrames m base r ∧
    r ∈ Mm.userTreeFrames m base r :=
  ⟨mem_append_right _ (mem_cons_self ..),
    mem_append_right _ (mem_cons_of_mem _ (mem_singleton_self _))⟩

/-- The frames of a page directory on a path that is followed. -/
theorem mem_pd (hw : walkFrom m r [0, j] = some pd) (hj : j ≠ 0) (hskip : ¬ Skipped base j) :
    pd ∈ Mm.userTreeFrames m base r ∧ ∀ k f, f ∈ Mm.pdEntryFrames m (entry m pd k) →
      f ∈ Mm.userTreeFrames m base r := by
  obtain ⟨q, hq, hpd⟩ := walk_two hw
  obtain ⟨-, rfl, -⟩ := child_some hq (by decide)
  obtain ⟨hp, rfl, -⟩ := child_some hpd (by decide)
  have hmem : ∀ f, f ∈ Mm.pdptEntryFrames m base (entryFrame (entry m r 0)) j →
      f ∈ Mm.userTreeFrames m base r := by
    intro f hf
    refine mem_append_left _ (mem_flatMap.mpr ⟨j, ?_, hf⟩)
    exact mem_filter.mpr ⟨mem_finRange j, decide_eq_true hj⟩
  rw [Skipped] at hskip
  simp only [Mm.pdptEntryFrames, if_neg (not_not.mpr hp), if_neg hskip] at hmem
  refine ⟨hmem _ (mem_append_right _ (mem_singleton_self _)), fun k f hf => hmem f ?_⟩
  exact mem_append_left _ (mem_flatMap.mpr ⟨k, mem_finRange k, hf⟩)

/-- The frames of a page table. -/
theorem mem_pt (hp : present e = true) (hl : large e = false) :
    entryFrame e ∈ Mm.pdEntryFrames m e ∧ ∀ k, present (entry m (entryFrame e) k) = true →
      entryFrame (entry m (entryFrame e) k) ∈ Mm.pdEntryFrames m e := by
  rw [Mm.pdEntryFrames, if_neg (not_not.mpr hp), if_neg (by simp [hl])]
  refine ⟨mem_append_right _ (mem_singleton_self _), fun k hk => ?_⟩
  exact mem_append_left _ (mem_map.mpr ⟨k, mem_filter.mpr ⟨mem_finRange k, hk⟩, rfl⟩)

end Frames

/-- Every private frame of such a space is released. -/
theorem Returnable.mem (h : Returnable s r) (hf : Private s r f) :
    f ∈ Mm.userTreeFrames s.mem s.lapicBase r := by
  obtain ⟨p, hv, hw⟩ := hf
  have hwalked := h.walked p f hv hw
  have hlen := walk_length hw
  rcases p with _ | ⟨i, _ | ⟨j, p⟩⟩
  · rw [← Option.some.inj hw]
    exact mem_root.2
  · obtain rfl : i = 0 := hwalked
    obtain ⟨t, ht, hc⟩ := walkFrom_last (p := []) hw
    obtain rfl : r = t := Option.some.inj ht
    obtain ⟨-, rfl, -⟩ := child_some hc (by decide)
    exact mem_root.1
  obtain ⟨rfl, hskip⟩ := hwalked
  have hj : j ≠ 0 := fun hj => visible_cons_cons.mp hv ⟨rfl, hj⟩
  have hv₂ : Visible [0, j] := visible_cons_cons.mpr (visible_cons_cons.mp hv)
  rcases p with _ | ⟨k, _ | ⟨l, p⟩⟩
  · exact (mem_pd hw hj hskip).1
  · obtain ⟨pd, hw', hpt⟩ := walk_three hw
    obtain ⟨hp, rfl, hlarge⟩ := child_some hpt (by decide)
    exact (mem_pd hw' hj hskip).2 k _ (mem_pt hp (hlarge rfl)).1
  have hnil : p.length = 0 := by
    rw [length_cons, length_cons, length_cons, length_cons] at hlen
    omega
  obtain rfl := eq_nil_of_length_eq_zero hnil
  obtain ⟨pt, hw', hleaf⟩ := walkFrom_last (p := [0, j, k]) hw
  obtain ⟨hp', hmod⟩ := child_leaf_some hleaf
  rw [Nat.mod_eq_of_lt (h.plain 0 j k l pt hv₂ hw' hp')] at hmod
  obtain ⟨pd, hw'', hpt⟩ := walk_three hw'
  obtain ⟨hp, rfl, hlarge⟩ := child_some hpt (by decide)
  rw [← hmod]
  exact (mem_pd hw'' hj hskip).2 k _ ((mem_pt hp (hlarge rfl)).2 l hp')

/-- `paging_free_address_space` marks free what `free_user_tree` releases. -/
theorem pagingFreeAddressSpace_free (h : Inv b s sp) (hr : r ∈ sp) (g : Nat) :
    (s.pagingFreeAddressSpace r).pmm.free g = true ↔ s.pmm.free g = true ∨
      (g ∈ Mm.userTreeFrames s.mem s.lapicBase r ∧ g < pmmMaxFrames) := by
  have hlow := Boot.tables_lt_ram (h.ram r (tree_root hr))
  have hcr3 := h.kernel.cr3
  rw [Mm.pagingFreeAddressSpace, if_neg (by omega), Mm.freeUserTree]
  generalize Mm.userTreeFrames s.mem s.lapicBase r = fs
  rw [foldl_release]
  exact Pmm.freeFrames_free fs s.pmm g

/-- **The free frames are those from before the space was made if and only if it is returnable.** -/
theorem freed_iff_returnable {s₀ : Mm} (h : Inv b s sp) (hr : r ∈ sp)
    (hacc : ∀ g, s₀.pmm.free g = true ↔ s.pmm.free g = true ∨ Private s r g) :
    (∀ g, (s.pagingFreeAddressSpace r).pmm.free g = s₀.pmm.free g) ↔ Returnable s r := by
  have hlt : ∀ g, Private s r g → g < pmmMaxFrames := fun g hg =>
    Boot.ram_lt (h.ram g (tree_iff.mpr ⟨r, hr, hg⟩))
  refine ⟨fun hall => ?_, fun hret g => ?_⟩
  · -- a private frame is freed, hence released, hence on the path that reaches it
    have hpath : ∀ p f, Visible p → walkFrom s.mem r p = some f →
        Walked s.lapicBase p ∧ Exact s.mem r f p := by
      intro p f hv hw
      have hf : Private s r f := ⟨p, hv, hw⟩
      have hfreed := (hall f).trans ((hacc f).mpr (.inr hf))
      rcases (pagingFreeAddressSpace_free h hr f).mp hfreed with hfree | ⟨hmem, -⟩
      · rw [h.taken f (tree_of_walk hr hv hw)] at hfree
        cases hfree
      · obtain ⟨p', hv', hwalked, hexact, hw'⟩ := walk_of_mem_userTreeFrames h hr hmem (hlt f hf)
        obtain ⟨-, rfl⟩ := h.forest.inj r r p p' f hr hr hv hv' hw hw'
        exact ⟨hwalked, hexact⟩
    refine ⟨fun p f hv hw => (hpath p f hv hw).1, fun i j k l t hv hw hp => ?_⟩
    have hv₄ : Visible ([i, j, k] ++ [l]) := visible_cons_cons.mpr (visible_cons_cons.mp hv)
    rw [(hpath _ _ hv₄ (walk_leaf hw hp)).2 [i, j, k] l t rfl hw]
    exact Nat.mod_lt _ (by decide)
  · rw [Bool.eq_iff_iff, pagingFreeAddressSpace_free h hr, hacc g]
    refine or_congr_right ⟨fun hg => ?_, fun hg => ⟨hret.mem hg, hlt g hg⟩⟩
    obtain ⟨p, hv, -, -, hw⟩ := walk_of_mem_userTreeFrames h hr hg.1 hg.2
    exact ⟨p, hv, hw⟩

/-! ## 3. The calls that make one -/

/-- **The sequences after which a space is given back in full**: the space has no directory for the
    APIC, and every page is mapped without `PAGING_FLAG_NOEXEC` below 512 GiB and outside the
    gigabyte of the APIC. -/
def Returned (s : Mm) (calls : List (Nat × Nat)) : Prop :=
  (LapicBase s.lapicBase → freeCount s < 3) ∧
  ∀ c ∈ calls, Walked s.lapicBase (pathOf c.1) ∧ c.2 < 4096

theorem Walked.of_prefix {base : Nat} {q : List (Fin 512)} (h : Walked base q) (hp : p <+: q) :
    Walked base p := by
  obtain ⟨u, rfl⟩ := hp
  rcases p with _ | ⟨i, _ | ⟨j, p⟩⟩
  · trivial
  · rcases u with _ | ⟨j, u⟩
    · exact h
    · exact h.1
  · exact h

theorem Returnable.call (h : Returnable s r) (hc : Charged b sp r vaddr flags s s')
    (hwalked : Walked s.lapicBase (pathOf vaddr)) (hflags : flags < 4096) : Returnable s' r := by
  refine ⟨fun p f hv hw => ?_, hc.plain hflags h.plain⟩
  rw [hc.lapic]
  rcases hc.along p f hv hw with hw | hp
  · exact h.walked p f hv hw
  · exact hwalked.of_prefix hp

/-- **What a run of calls keeps.** -/
theorem mapCalls_charged (h : Inv b s sp) (hr : r ∈ sp) (hflags : ∀ c ∈ calls, FlagsOk c.2) :
    Inv b (s.mapCalls r calls) sp ∧ Kept sp s (s.mapCalls r calls) ∧
      ∀ g, ((s.mapCalls r calls).pmm.free g = true ∨ Private (s.mapCalls r calls) r g) ↔
        (s.pmm.free g = true ∨ Private s r g) := by
  induction calls generalizing s with
  | nil => exact ⟨h, Kept.refl, fun _ => Iff.rfl⟩
  | cons c calls ih =>
    have hc := Charged.call h hr c.1 (hflags c mem_cons_self)
    obtain ⟨hinv, hkept, hacc⟩ := ih hc.inv fun d hd => hflags d (mem_cons_of_mem c hd)
    exact ⟨hinv, hc.toKept.trans hkept, fun g => (hacc g).trans (hc.account g)⟩

theorem Returnable.mapCalls (h : Inv b s sp) (hr : r ∈ sp) (hret : Returnable s r)
    (hcalls : ∀ c ∈ calls, Walked s.lapicBase (pathOf c.1) ∧ c.2 < 4096) :
    Returnable (s.mapCalls r calls) r := by
  induction calls generalizing s with
  | nil => exact hret
  | cons c calls ih =>
    obtain ⟨hwalked, hsmall⟩ := hcalls c mem_cons_self
    have hflags : FlagsOk c.2 := ⟨by omega, by omega⟩
    have hc := Charged.call h hr c.1 hflags
    refine ih hc.inv (hret.call hc hwalked hsmall) fun d hd => ?_
    rw [hc.lapic]
    exact hcalls d (mem_cons_of_mem c hd)

theorem plain_iff_flags (hf : f < pmmMaxFrames) (hflags : FlagsOk flags)
    (h : entryFrame (leafEntry f flags % 2 ^ 64) < 2 ^ 51) : flags < 4096 := by
  obtain ⟨hlt, hmod⟩ := hflags
  by_contra hbig
  have hle : flags ≤ leafEntry f flags := by
    rw [leafEntry, Nat.or_comm (f * 4096) flags, Nat.or_assoc]
    exact Nat.left_le_or
  have hmax : pmmMaxFrames = 16777216 := rfl
  have hbound : leafEntry f flags < 2 ^ 64 := by
    rw [leafEntry]
    exact Nat.or_lt_two_pow (Nat.or_lt_two_pow (by omega) (by omega)) (by omega)
  rw [Nat.mod_eq_of_lt hbound, entryFrame] at h
  omega

/-- An accepted call leaves a page at its address, which stays. -/
theorem Returnable.accepted (h : Inv b s sp) (hr : r ∈ sp)
    (hflags : ∀ c ∈ calls, FlagsOk c.2) (hacc : s.Accepts r calls)
    (hret : Returnable (s.mapCalls r calls) r) :
    ∀ c ∈ calls, Walked s.lapicBase (pathOf c.1) ∧ c.2 < 4096 := by
  induction calls generalizing s with
  | nil => exact fun c hc => absurd hc not_mem_nil
  | cons c calls ih =>
    obtain ⟨hne, htrue, hrest⟩ := hacc
    have hok := hflags c mem_cons_self
    have hok' : ∀ d ∈ calls, FlagsOk d.2 := fun d hd => hflags d (mem_cons_of_mem c hd)
    have hc := Charged.call h hr c.1 hok
    have hlater := ih hc.inv hok' hrest hret
    obtain ⟨-, hkept, -⟩ := mapCalls_charged hc.inv hr hok'
    rw [hc.lapic] at hlater
    refine fun d hd => (mem_cons.mp hd).elim (fun heq => ?_) (hlater d)
    rw [heq]
    rcases Grown.alloc h with ⟨hzero, -⟩ | ⟨-, hgrow, hf, -⟩
    · exact absurd hzero hne
    rcases pagingMap_cases c.1 hgrow.inv hr hf hok with
      ⟨s₁, hmap, -⟩ | ⟨s₁, hmap, hgrow', hv, hw, pt, hwpt, he⟩
    · rw [hmap] at htrue
      cases htrue
    have hstate : s.allocAndMap r c.1 c.2 true = s₁ := by
      rw [Mm.allocAndMap, if_neg hne, hmap]
    rw [hstate] at hkept
    have hrun : s.mapCalls r (c :: calls) = s₁.mapCalls r calls := by
      rw [← hstate]
      rfl
    rw [hrun] at hret
    have hv₃ : Visible [pml4Idx c.1, pdptIdx c.1, pdIdx c.1] :=
      visible_cons_cons.mpr (visible_cons_cons.mp hv)
    have hpres : present (entry s₁.mem pt (ptIdx c.1)) = true := by
      obtain ⟨t, hwt, hleaf⟩ := walkFrom_last (p := [pml4Idx c.1, pdptIdx c.1, pdIdx c.1]) hw
      rw [Option.some.inj (hwpt.symm.trans hwt)]
      exact (child_leaf_some hleaf).1
    have hsame := hkept.entries r hr pt (ptIdx c.1) ⟨_, hv₃, by simp, hwpt⟩ hpres
    refine ⟨?_, plain_iff_flags (Boot.ram_lt hf.ram) hok ?_⟩
    · have hwalked := hret.walked _ _ hv (hkept.walks r hr _ _ hv hw)
      rw [hkept.lapic, hgrow'.lapic, hgrow.lapic] at hwalked
      exact hwalked
    · rw [← he, ← hsame]
      exact hret.plain _ _ _ _ pt (visible_cons_cons.mpr (visible_cons_cons.mp hv))
        (hkept.walks r hr _ _ hv₃ hwpt) (by rw [hsame]; exact hpres)

/-! ## 4. New spaces -/

/-- A third frame of a new space: three frames were free. -/
theorem NewSpace.three (h : NewSpace b sp r s s') {i j : Fin 512} {pd : Nat} (hv : Visible [i, j])
    (hw : walkFrom s'.mem r [i, j] = some pd) : 3 ≤ freeCount s := by
  obtain ⟨q, hq, -⟩ := walk_two hw
  have hwq : walkFrom s'.mem r [i] = some q := (walkFrom_snoc (p := []) rfl i).trans hq
  have hr : r ∈ r :: sp := mem_cons_self
  have hinj := fun p p' f hv hv' hw hw' => (h.inv.forest.inj r r p p' f hr hr hv hv' hw hw').2
  have hpr : ∀ f, Private s' r f → f ∈ (Finset.range pmmMaxFrames).filter fun f =>
      s.pmm.free f := by
    intro f hf
    rw [mem_freeFrames]
    exact ⟨Boot.ram_lt (h.inv.ram f (tree_iff.mpr ⟨r, hr, hf⟩)), (h.account f).mpr (.inr hf)⟩
  have hsub : ({r, q, pd} : Finset Nat) ⊆ (Finset.range pmmMaxFrames).filter fun f =>
      s.pmm.free f := by
    intro f hf
    simp only [Finset.mem_insert, Finset.mem_singleton] at hf
    rcases hf with rfl | rfl | rfl
    · exact hpr f ⟨[], visible_nil, rfl⟩
    · exact hpr f ⟨[i], visible_single i, hwq⟩
    · exact hpr f ⟨[i, j], hv, hw⟩
  have hrq : r ≠ q := by
    rintro rfl
    exact absurd (hinj [] [i] r visible_nil (visible_single i) rfl hwq) (by simp)
  have hrp : r ≠ pd := by
    rintro rfl
    exact absurd (hinj [] [i, j] r visible_nil hv rfl hw) (by simp)
  have hqp : q ≠ pd := by
    rintro rfl
    exact absurd (hinj [i] [i, j] q (visible_single i) hv hwq hw) (by simp)
  have hcard : ({r, q, pd} : Finset Nat).card = 3 := Finset.card_eq_three.mpr
    ⟨r, q, pd, hrq, hrp, hqp, rfl⟩
  rw [← hcard]
  exact Finset.card_le_card hsub

theorem skipped_lapic {base : Nat} (h : LapicBase base) : Skipped base (pdptIdx base) := by
  have hlow := h.user
  have hsmall := h.small
  have hbase : pagingUserBase = 0x40000000 := rfl
  refine ⟨by omega, ?_⟩
  rw [pdptIdx, Fin.val_ofNat]
  omega

/-- The directory of the APIC is on a path that is not followed. -/
theorem LapicMapped.not_returnable (h : LapicMapped s r) (hb : LapicBase s.lapicBase) :
    ¬ Returnable s r := by
  obtain ⟨pd, hw, -⟩ := h
  exact fun hret => (hret.walked _ _ hb.visible hw).2 (skipped_lapic hb)

/-- Without a base that `paging_map_large` accepts, a new space is its kernel half. -/
theorem newSpace_bare (h : Inv b s sp) (hb : ¬ LapicBase s.lapicBase) (hbase : s.lapicBase < 2 ^ 32)
    (hnew : s.pagingNewAddressSpace = (r, s')) (hr : r ≠ 0) (hv : Visible p)
    (hw : walkFrom s'.mem r p = some f) : p <+: [0] := by
  by_cases hzero : s.alloc.1 = 0 ∨ s.alloc.2.alloc.1 = 0
  · simp only [Mm.pagingNewAddressSpace, if_pos hzero] at hnew
    exact absurd (congrArg Prod.fst hnew).symm hr
  rw [Mm.pagingNewAddressSpace] at hnew
  simp only [if_neg hzero] at hnew
  push Not at hzero
  obtain ⟨hhalf, hshort⟩ := NewSpace.kernelHalf h hzero.1 hzero.2
  have hinit : s.alloc.2.alloc.2.initAddressSpace s.alloc.1 s.alloc.2.alloc.1 =
      s.alloc.2.alloc.2.kernelHalf s.alloc.1 s.alloc.2.alloc.1 := by
    rw [Mm.initAddressSpace]
    rw [Mm.pagingMapLarge, hhalf.kept.lapic]
    split_ifs with hl hguard
    · rfl
    · push Not at hguard
      exact absurd ⟨hguard.1, hguard.2.1, hbase⟩ hb
    · rfl
  rw [hinit, Prod.mk.injEq] at hnew
  obtain ⟨rfl, rfl⟩ := hnew
  exact hshort p f hv hw

/-- A new space without the directory of the APIC. -/
theorem NewSpace.returnable (h : NewSpace b sp r s s')
    (hbare : ∀ pd, walkFrom s'.mem r [0, pdptIdx s.lapicBase] = some pd →
      ¬ Visible [0, pdptIdx s.lapicBase]) : Returnable s' r := by
  have hshort : ∀ p f, Visible p → walkFrom s'.mem r p = some f → p <+: [0] := by
    intro p f hv hw
    have hp := h.paths p f hv hw
    rcases p with _ | ⟨i, _ | ⟨j, p⟩⟩
    · exact nil_prefix
    · exact cons_prefix_cons.mpr ⟨(cons_prefix_cons.mp hp).1, nil_prefix⟩
    · have heq : i :: j :: p = [0, pdptIdx s.lapicBase] :=
        hp.eq_of_length_le (by simp)
      rw [heq] at hv hw
      exact absurd hv (hbare f hw)
  refine ⟨fun p f hv hw => ?_, fun i j k l t hv hw _ => ?_⟩
  · exact Walked.of_prefix (q := [0]) rfl (hshort p f hv hw)
  · have hlen := (hshort [i, j, k] t (visible_cons_cons.mpr (visible_cons_cons.mp hv)) hw).length_le
    simp at hlen

/-- **A space is given back in full**: after the calls of `Returned`, accepted or not; and after no
    others, as long as `paging_map` accepts them. -/
theorem space_returned_iff {s₁ : Mm} {calls : List (Nat × Nat)} (h : Inv b s sp)
    (hbase : s.lapicBase < 2 ^ 32) (hnew : s.pagingNewAddressSpace = (r, s₁)) (hr : r ≠ 0)
    (hflags : ∀ c ∈ calls, FlagsOk c.2) : (Returned s calls → ∀ f,
      ((s₁.mapCalls r calls).pagingFreeAddressSpace r).pmm.free f = s.pmm.free f) ∧
        (s₁.Accepts r calls →
      (∀ f, ((s₁.mapCalls r calls).pagingFreeAddressSpace r).pmm.free f = s.pmm.free f) →
      Returned s calls) := by
  have hspace : NewSpace b sp r s s₁ := by
    rcases pagingNewAddressSpace_cases h with ⟨s', heq, -⟩ | ⟨r', s', heq, -, hspace⟩
    · rw [hnew] at heq
      exact absurd (congrArg Prod.fst heq) hr
    · rw [hnew] at heq
      cases heq
      exact hspace
  have hmem : r ∈ r :: sp := mem_cons_self
  obtain ⟨hinv, hkept, hacc⟩ := mapCalls_charged hspace.inv hmem hflags
  rw [freed_iff_returnable hinv hmem fun g => (hspace.account g).trans (hacc g).symm]
  have hlapic := hspace.kept.lapic
  refine ⟨fun hcond => ?_, fun haccepts hret => ⟨fun hb => ?_, ?_⟩⟩
  · refine Returnable.mapCalls hspace.inv hmem (hspace.returnable fun pd hw hv => ?_)
      (by rw [hlapic]; exact hcond.2)
    -- with that directory three frames were free and the APIC has a base
    have hthree := hspace.three hv hw
    by_cases hb : LapicBase s.lapicBase
    · exact absurd (hcond.1 hb) (by omega)
    · exact absurd (newSpace_bare h hb hbase hnew hr hv hw).length_le (by simp)
  · by_contra hfree
    obtain ⟨r', s', heq, -, -, hmapped⟩ := newSpace_lapic h hb (by omega)
    rw [hnew] at heq
    cases heq
    rw [← hlapic] at hb
    refine (hmapped.kept hb hkept hmem).not_returnable ?_ hret
    rw [hkept.lapic]
    exact hb
  · rw [← hlapic]
    exact Returnable.accepted hspace.inv hmem hflags haccepts hret

theorem space_returned_smallMm :
    ((smallMm.pagingNewAddressSpace.2.mapCalls smallMm.pagingNewAddressSpace.1
      [(0x40000000, flagUserWritable), (0x80001000, flagUserWritable)]).pagingFreeAddressSpace
        smallMm.pagingNewAddressSpace.1).pmm.free = smallMm.pmm.free := by
  refine funext ((space_returned_iff smallMm_inv (by decide) Prod.mk.eta.symm (by decide +kernel)
    ?_).1 ⟨?_, ?_⟩)
  · decide
  · exact fun hb => absurd hb.user (by decide)
  · decide

/-- **The directory of the APIC is not given back**: a space is made and freed, and the free frames
    are not those from before. -/
theorem apic_directory_leaks : ¬ ∀ f,
    (apicMm.pagingNewAddressSpace.2.pagingFreeAddressSpace
      apicMm.pagingNewAddressSpace.1).pmm.free f = apicMm.pmm.free f := by
  obtain ⟨r, s', heq, -, hnew, hmapped⟩ := newSpace_lapic apicMm_inv apicMm_base apicMm_free
  rw [heq, freed_iff_returnable hnew.inv mem_cons_self hnew.account]
  refine hmapped.not_returnable ?_
  rw [hnew.kept.lapic]
  exact apicMm_base

end DyntKernel.Mem
