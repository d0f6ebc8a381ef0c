/-
  File:      DyntKernel/Mem/Device.lean
  Subject:   THE SUPERVISOR MAPPINGS OF A USER SPACE: the kernel identity map and the APIC page.

  * `kernel_mapped` -- every space translates the kernel's addresses to themselves, out of reach
    of user mode;
  * `LapicMapped`, `LapicMapped.mapped` -- so does it with the page of the local APIC, while its
    2 MiB entry stands;
  * `LapicMapped.kept`, `LapicMapped.above` -- what keeps that entry: growth of the spaces, and
    edits below the page directories;
  * `Inv.sysMunmap`, `GivesBack`, `Inv.sysMmap` -- the calls on pages that are not huge, and on
    pages that are mapped;
  * `freeCount`, `Inv.alloc_of_free` -- how many frames the allocator has left;
  * `newSpace_lapic` -- a new space has the entry if there are three frames for it.
-/
import DyntKernel.Mem.Frames
import DyntKernel.Mem.Ownership
import DyntKernel.Mem.Syscalls
import DyntKernel.Mem.Translate
import Mathlib.Data.Finset.Card
import Mathlib.Data.Finset.Range

namespace DyntKernel.Mem

open Library List

variable {va f addr len r a : Nat} {m : Phys} {b : Boot} {s s' : Mm} {sp : List Nat}

/-! ## 1. The kernel identity map -/

theorem idx_low (ha : a < pagingUserBase) : pml4Idx a = 0 ∧ pdptIdx a = 0 := by
  have hbase : pagingUserBase = 0x40000000 := rfl
  refine ⟨Fin.ext ?_, Fin.ext ?_⟩
  · rw [pml4Idx, Fin.val_ofNat, Fin.val_zero]
    omega
  · rw [pdptIdx, Fin.val_ofNat, Fin.val_zero]
    omega

/-- A huge entry at the end of two tables. -/
theorem trailOf_huge {pd : Nat} (hw : walkFrom m r [pml4Idx a, pdptIdx a] = some pd)
    (hl : large (entry m pd (pdIdx a)) = true) :
    trailOf m r a =
    [entry m r (pml4Idx a), entry m (entryFrame (entry m r (pml4Idx a))) (pdptIdx a),
      entry m pd (pdIdx a)] := by
  obtain ⟨pdpt, hpdpt, hpd⟩ := walk_two hw
  rw [(child_some hpdpt (by decide)).2.1, trailOf, pathOf, trail, hpdpt,
    Option.elim_some, trail, hpd,
    Option.elim_some, trail, child_huge hl, Option.elim_none]

/-- What a huge entry maps, and to whom. -/
theorem huge_mapped {e₀ e₁ e : Nat} (htrail : trailOf m r a = [e₀, e₁, e])
    (hp : present e = true)
    (hl : large e = true) : pagingTranslate m r a = largeFrame e * 4096 + a % 0x200000 ∧
      userMapped m r a = (user e₀ && user e₁ && user e) := by
  refine ⟨?_, ?_⟩
  · rw [translate_eq, htrail, decode, if_pos ⟨hp, hl⟩]
  · rw [userMapped, mappedTrail, htrail]
    simp [hp, Bool.and_assoc]

/-- The slot of the kernel is out of reach of user mode. -/
theorem slot_mapped (h : Shape b s sp) (hr : r ∈ sp) (hi : pml4Idx a = 0) (hj : pdptIdx a = 0) :
    pagingTranslate s.mem r a = largeFrame (entry s.mem b.pd (pdIdx a)) * 4096 + a % 0x200000 ∧
      userMapped s.mem r a = false := by
  obtain ⟨q, hq, hk, hwq⟩ := h.slot_walk hr
  obtain ⟨hpres, hlarge⟩ := h.kernel.pd_huge (pdIdx a)
  have hw : walkFrom s.mem r [pml4Idx a, pdptIdx a] = some b.pd := by
    rw [hi, hj]
    refine (walkFrom_snoc hwq 0).trans ?_
    rw [hk]
    simp [child, present_kernelSlot, entryFrame_kernelSlot]
  have huser : user b.kernelSlot = false := by
    rw [kernelSlot_eq]
    exact decide_eq_false (by omega)
  obtain ⟨htrans, hmapped⟩ := huge_mapped (trailOf_huge hw hlarge) hpres hlarge
  rw [hi, hj, hq, entryFrame_tableEntry, hk, huser, Bool.and_false, Bool.false_and] at hmapped
  exact ⟨htrans, hmapped⟩

/-- **The kernel identity map** of every address space. -/
theorem kernel_mapped (h : Shape b s sp) (hr : r ∈ sp) (ha : a < pagingUserBase) :
    pagingTranslate s.mem r a = a ∧ userMapped s.mem r a = false := by
  obtain ⟨hi, hj⟩ := idx_low ha
  obtain ⟨htrans, hmapped⟩ := slot_mapped h hr hi hj
  have hframe : largeFrame (entry s.mem b.pd (pdIdx a)) * 4096 + a % 0x200000 = a := by
    have hbase : pagingUserBase = 0x40000000 := rfl
    rw [h.kernel.pd, largeFrame, pdIdx, Fin.val_ofNat]
    omega
  exact ⟨htrans.trans hframe, hmapped⟩

/-- Every step of a mapped trail finds a table, up to a huge entry or a leaf. -/
theorem mappedTrail_present {t : Nat} {q rest : List (Fin 512)} {i : Fin 512}
    (hpath : pathOf a = q ++ i :: rest) (hw : walkFrom m r q = some t)
    (hm : mappedTrail m r a ≠ none) : present (entry m t i) = true := by
  by_contra habsent
  exact hm (mappedTrail_absent hpath hw (by simpa using habsent))

/-- **User memory in small pages**: an address that user mode can use, and that no huge page covers,
    has a leaf in a page table of the space. -/
theorem userMapped_leaf (h : Shape b s sp) (hr : r ∈ sp) (hhuge : hugeAt s.mem r a = false)
    (hu : userMapped s.mem r a = true) :
    Visible (pathOf a) ∧ ∃ pt, walkFrom s.mem r [pml4Idx a, pdptIdx a, pdIdx a] = some pt ∧
      present (entry s.mem pt (ptIdx a)) = true := by
  have hm : mappedTrail s.mem r a ≠ none := by
    intro hnone
    rw [userMapped, hnone] at hu
    cases hu
  have hslot : ¬ (pml4Idx a = 0 ∧ pdptIdx a = 0) := by
    rintro ⟨hi, hj⟩
    rw [(slot_mapped h hr hi hj).2] at hu
    cases hu
  have h₀ := mappedTrail_present (q := []) (t := r) (i := pml4Idx a) rfl rfl hm
  have hw₁ : walkFrom s.mem r [pml4Idx a] = some (entryFrame (entry s.mem r (pml4Idx a))) := by
    simp [walkFrom, walk, child, h₀]
  have h₁ := mappedTrail_present (q := [pml4Idx a]) (i := pdptIdx a) rfl hw₁ hm
  have hw₂ := walkFrom_snoc hw₁ (pdptIdx a)
  simp only [child, h₁, length_singleton] at hw₂
  have h₂ := mappedTrail_present (q := [pml4Idx a, pdptIdx a]) (i := pdIdx a) rfl hw₂ hm
  have hsmall : large (entry s.mem (entryFrame (entry s.mem (entryFrame (entry s.mem r (pml4Idx a)))
      (pdptIdx a))) (pdIdx a)) = false := by
    simpa [hugeAt, h₀, h₁, h₂] using hhuge
  have hw₃ := walk_pt hw₂ h₂ (Bool.eq_false_iff.mp hsmall)
  exact ⟨visible_cons_cons.mpr hslot, _, hw₃,
    mappedTrail_present (q := [pml4Idx a, pdptIdx a, pdIdx a]) (i := ptIdx a) rfl hw₃ hm⟩

/-! ## 2. The page of the local APIC -/

/-- A base that `paging_map_large` accepts; `lapic_init` reads it from a field below 4 GiB. -/
structure LapicBase (base : Nat) : Prop where
  user : pagingUserBase ≤ base
  aligned : base % 0x200000 = 0
  small : base < 2 ^ 32

/-- **The 2 MiB entry of the local APIC** in the space `r`. -/
def LapicMapped (s : Mm) (r : Nat) : Prop :=
  ∃ pd, walkFrom s.mem r [0, pdptIdx s.lapicBase] = some pd ∧
    entry s.mem pd (pdIdx s.lapicBase) = s.lapicBase + 0x83

theorem LapicBase.visible {base : Nat} (h : LapicBase base) : Visible [0, pdptIdx base] := by
  have hsmall := h.small
  have hv := not_slot_of_user h.user (by omega)
  rw [show pml4Idx base = 0 from
    Fin.ext (by rw [pml4Idx, Fin.val_ofNat, Fin.val_zero]; omega)] at hv
  exact visible_cons_cons.mpr hv

theorem LapicMapped.mapped (h : LapicMapped s r) (hb : LapicBase s.lapicBase)
    (hlow : s.lapicBase ≤ a) (hhigh : a < s.lapicBase + 0x200000) :
    pagingTranslate s.mem r a = a ∧ userMapped s.mem r a = false := by
  obtain ⟨pd, hw, he⟩ := h
  have hal := hb.aligned
  have hsmall := hb.small
  have hi : pml4Idx a = 0 := Fin.ext (by rw [pml4Idx, Fin.val_ofNat, Fin.val_zero]; omega)
  have hj : pdptIdx a = pdptIdx s.lapicBase :=
    Fin.ext (by rw [pdptIdx, pdptIdx, Fin.val_ofNat, Fin.val_ofNat]; omega)
  have hk : pdIdx a = pdIdx s.lapicBase :=
    Fin.ext (by rw [pdIdx, pdIdx, Fin.val_ofNat, Fin.val_ofNat]; omega)
  have hlarge : large (s.lapicBase + 0x83) = true := decide_eq_true (by omega)
  have hpres : present (s.lapicBase + 0x83) = true := decide_eq_true (by omega)
  have huser : user (s.lapicBase + 0x83) = false := decide_eq_false (by omega)
  have htrail := trailOf_huge (a := a) (by rw [hi, hj]; exact hw) (by rw [hk, he]; exact hlarge)
  rw [hk, he] at htrail
  obtain ⟨htrans, hmapped⟩ := huge_mapped htrail hpres hlarge
  rw [huser, Bool.and_false] at hmapped
  refine ⟨htrans.trans ?_, hmapped⟩
  rw [largeFrame]
  omega

theorem LapicMapped.kept (h : LapicMapped s r) (hb : LapicBase s.lapicBase) (hk : Kept sp s s')
    (hr : r ∈ sp) : LapicMapped s' r := by
  obtain ⟨pd, hw, he⟩ := h
  have hal := hb.aligned
  rw [LapicMapped, hk.lapic]
  refine ⟨pd, hk.walks r hr _ pd hb.visible hw, ?_⟩
  rw [hk.entries r hr pd _ ⟨_, hb.visible, by simp, hw⟩, he]
  rw [he]
  exact decide_eq_true (by omega)

/-! ## 3. Releasing pages -/

/-- **The tables above the page tables are the same.** -/
structure Above (sp : List Nat) (s s' : Mm) : Prop where
  lapic : s'.lapicBase = s.lapicBase
  walks : ∀ r ∈ sp, ∀ p, Visible p → p.length < 4 → walkFrom s'.mem r p = walkFrom s.mem r p
  entries : ∀ r ∈ sp, ∀ p t i, Visible p → p.length < 3 → walkFrom s.mem r p = some t →
    entry s'.mem t i = entry s.mem t i

theorem Above.refl : Above sp s s := ⟨rfl, fun _ _ _ _ _ => rfl, fun _ _ _ _ _ _ _ _ => rfl⟩

theorem Above.trans {s'' : Mm} (h : Above sp s s') (h' : Above sp s' s'') : Above sp s s'' := by
  refine ⟨h'.lapic.trans h.lapic, fun r hr p hv hlen => ?_, fun r hr p t i hv hlen hw => ?_⟩
  · rw [h'.walks r hr p hv hlen, h.walks r hr p hv hlen]
  · rw [h'.entries r hr p t i hv hlen (by rw [h.walks r hr p hv (by omega)]; exact hw),
      h.entries r hr p t i hv hlen hw]

theorem LapicMapped.above (h : LapicMapped s r) (hb : LapicBase s.lapicBase) (ha : Above sp s s')
    (hr : r ∈ sp) : LapicMapped s' r := by
  obtain ⟨pd, hw, he⟩ := h
  rw [LapicMapped, ha.lapic]
  refine ⟨pd, (ha.walks r hr _ hb.visible (by simp)).trans hw, ?_⟩
  rw [ha.entries r hr _ pd _ hb.visible (by simp) hw, he]

theorem hugeAt_iff : hugeAt m r va = true ↔
    ∃ pd, walkFrom m r [pml4Idx va, pdptIdx va] = some pd ∧ present (entry m pd (pdIdx va)) = true ∧
      large (entry m pd (pdIdx va)) = true := by
  constructor
  · intro h
    simp only [hugeAt, Bool.and_eq_true] at h
    obtain ⟨⟨h₀, h₁⟩, h₂⟩ := h
    refine ⟨_, ?_, h₂⟩
    simp [walkFrom, walk, child, h₀, h₁]
  intro h
  obtain ⟨pd, hw, h₂⟩ := h
  obtain ⟨pdpt, hpdpt, hpd⟩ := walk_two hw
  obtain ⟨h₀, rfl, -⟩ := child_some hpdpt (by decide)
  obtain ⟨h₁, rfl, -⟩ := child_some hpd (by decide)
  simp [hugeAt, h₀, h₁, h₂]

theorem Above.hugeAt (h : Above sp s s') (hr : r ∈ sp)
    (hv : Visible [pml4Idx va, pdptIdx va]) (hhuge : hugeAt s.mem r va = false) :
    Mem.hugeAt s'.mem r va = false := by
  rw [← Bool.not_eq_true, hugeAt_iff] at hhuge ⊢
  intro hcon
  obtain ⟨pd, hw, he⟩ := hcon
  rw [h.walks r hr _ hv (by simp)] at hw
  rw [h.entries r hr _ pd _ hv (by simp) hw] at he
  exact hhuge ⟨pd, hw, he⟩

theorem release_release (s : Mm) (f : Nat) : (s.release f).release f = s.release f := by
  rw [Mm.release, Mm.release]
  congr 1
  by_cases h : f < pmmMaxFrames ∧ s.pmm.free f = false
  · rw [Pmm.freeFrame, if_neg]
    have hfree := (Pmm.freeFrame_free s.pmm f f).mpr (.inr ⟨rfl, h.1⟩)
    exact fun hcon => absurd (hcon.2.symm.trans hfree) (by decide)
  · simp only [Pmm.freeFrame, if_neg h]

/-- The release before `paging_unmap` is repeated by `paging_unmap` itself. -/
theorem unmapPage_eq (h : Shape b s sp) (hr : r ∈ sp)
    (hhuge : hugeAt s.mem r va = false) : s.unmapPage false r va = s.pagingUnmap r va := by
  have hrel : ∀ g, hugeAt (s.release g).mem r va = false := fun _ => hhuge
  rw [Mm.unmapPage]
  rcases leaf_cases h hr hhuge with ⟨hzero, -⟩ | ⟨pt, -, hw, hp, htrans, heq⟩
  · simp [hzero]
  by_cases hphys : pagingTranslate s.mem r va = 0
  · simp [hphys]
  have hframe : pagingTranslate s.mem r va / 4096 = entryFrame (entry s.mem pt (ptIdx va)) := by
    omega
  simp only [Bool.false_eq_true, false_or, ne_eq, hphys, not_false_eq_true, if_true, hframe]
  rcases leaf_cases (h.setPmm (s.pmm.freeFrame (entryFrame (entry s.mem pt (ptIdx va))))) hr
    (hrel _) with ⟨hzero, -⟩ | ⟨pt', -, hw', -, -, heq'⟩
  · exact absurd hzero hphys
  · obtain rfl : pt = pt' := Option.some.inj (hw.symm.trans hw')
    refine (heq'.trans ?_).trans heq.symm
    exact release_release (s.store pt (ptIdx va) 0) _

theorem Inv.unmapPage (h : Inv b s sp) (hr : r ∈ sp) (hhuge : hugeAt s.mem r va = false) :
    Inv b (s.unmapPage false r va) sp ∧ Above sp s (s.unmapPage false r va) := by
  rw [unmapPage_eq h.toShape hr hhuge]
  refine ⟨h.pagingUnmap hr hhuge, ?_⟩
  rcases leaf_cases h.toShape hr hhuge with ⟨-, hsame⟩ | ⟨pt, hv, hw, -, -, heq⟩
  · rw [hsame]
    exact Above.refl
  rw [heq]
  have hv' : Visible ([pml4Idx va, pdptIdx va, pdIdx va] ++ [ptIdx va]) := hv
  have hv₃ := visible_of_append _ _ hv'
  refine ⟨rfl, fun r' hr' p hp hlen => ?_, fun r' hr' p t i hp hlen hwt => ?_⟩
  · refine walk_write_ne visible_of_append h.forest hr hv₃ hw (fun _ _ =>
      entry_store_of_ne) hr' hp ?_
    intro hcon
    have hle := hcon.2.length_le
    simp only [length_append, length_cons, length_nil] at hle
    omega
  · refine entry_store_of_ne (.inl ?_)
    rintro rfl
    -- a page table is three levels down, not two
    obtain ⟨-, rfl⟩ := h.forest.inj r' r p _ t hr' hr hp hv₃ hwt hw
    exact absurd hlen (by simp)

theorem munmapPages_range (h : va ∈ Mm.munmapPages addr len) : pagingUserBase ≤ va ∧
    va < processUserStackTop := by
  rw [Mm.munmapPages] at h
  split_ifs at h with hbad
  · cases h
  · obtain ⟨k, hk, rfl⟩ := mem_map.mp h
    rw [mem_range] at hk
    omega

/-- **`sys_munmap`** of pages of which none is huge. -/
theorem Inv.sysMunmap (h : Inv b s sp) (hr : r ∈ sp)
    (hhuge : ∀ va ∈ Mm.munmapPages addr len, hugeAt s.mem r va = false) :
    Inv b (s.sysMunmap r addr len) sp ∧ Above sp s (s.sysMunmap r addr len) := by
  refine foldl_inv (I := fun s' => Inv b s' sp ∧ Above sp s s')
    (fun va hva s' hs' => ?_) ⟨h, Above.refl⟩
  obtain ⟨hinv, habove⟩ := hs'
  have hrange := munmapPages_range hva
  have htop : processUserStackTop = 0x4000000000 := rfl
  have hv : Visible [pml4Idx va, pdptIdx va] :=
    visible_cons_cons.mpr (not_slot_of_user hrange.1 (by omega))
  obtain ⟨hinv', habove'⟩ := hinv.unmapPage hr (habove.hugeAt hr hv (hhuge va hva))
  exact ⟨hinv', habove.trans habove'⟩

/-- The address is mapped, and by no huge page. -/
def SmallAt (s : Mm) (r va : Nat) : Prop :=
  pagingTranslate s.mem r va ≠ 0 ∧ hugeAt s.mem r va = false

/-- Releasing a page leaves the other ones mapped. -/
theorem Inv.unmapPage_other (h : Inv b s sp) (hr : r ∈ sp)
    (hva : SmallAt s r va) (ha : SmallAt s r a)
    (hne : ¬ SamePage a va) : SmallAt (s.unmapPage false r va) r a := by
  obtain ⟨-, habove⟩ := h.unmapPage hr hva.2
  rcases leaf_cases h.toShape hr ha.2 with ⟨hzero, -⟩ | ⟨pt, hv, hw, hpres, htrans, -⟩
  · exact absurd hzero ha.1
  have hv₃ : Visible [pml4Idx a, pdptIdx a, pdIdx a] := visible_of_append _ [ptIdx a] hv
  have hw₃ := (habove.walks r hr _ hv₃ (by simp)).trans hw
  have hentry : entry (s.unmapPage false r va).mem pt (ptIdx a) = entry s.mem pt (ptIdx a) := by
    rw [unmapPage_eq h.toShape hr hva.2]
    rcases leaf_cases h.toShape hr hva.2 with ⟨-, hsame⟩ | ⟨pt', hv', hw', -, -, heq⟩
    · rw [hsame]
    rw [heq]
    refine entry_store_of_ne (not_and_or.mp ?_)
    rintro ⟨rfl, hidx⟩
    -- one page table and one entry of it: one page
    have hv₃' : Visible [pml4Idx va, pdptIdx va, pdIdx va] := visible_of_append _ [ptIdx va] hv'
    obtain ⟨-, hpath⟩ := h.forest.inj r r _ _ pt hr hr hv₃ hv₃' hw hw'
    exact hne (pathOf_eq_iff.mp (congrArg₂ (· ++ [·]) hpath hidx))
  refine ⟨?_, habove.hugeAt hr (visible_of_append _ [pdIdx a] hv₃) ha.2⟩
  rw [translate_leaf hw₃ (by rw [hentry]; exact hpres), hentry, ← htrans]
  exact ha.1

/-- **The rollback of `sys_mmap`**, over pages that are all mapped. -/
theorem Inv.unmapPages {vs : List Nat} (h : Inv b s sp) (hr : r ∈ sp)
    (hapart : vs.Pairwise fun va a => ¬ SamePage a va) (hall : ∀ va ∈ vs, SmallAt s r va) :
    Inv b (vs.foldl (Mm.unmapPage true r) s) sp ∧
    Above sp s (vs.foldl (Mm.unmapPage true r) s) := by
  induction vs generalizing s with
  | nil => exact ⟨h, Above.refl⟩
  | cons va vs ih =>
    obtain ⟨hva, hvs⟩ := forall_mem_cons.mp hall
    obtain ⟨hne, hapart⟩ := pairwise_cons.mp hapart
    have hround : s.unmapPage true r va = s.unmapPage false r va := by simp [Mm.unmapPage, hva.1]
    obtain ⟨hinv, habove⟩ := h.unmapPage hr hva.2
    obtain ⟨hinv', habove'⟩ := ih hinv hapart fun a ha =>
      h.unmapPage_other hr hva (hvs a ha) (hne a ha)
    rw [foldl_cons, hround]
    exact ⟨hinv', habove.trans habove'⟩

/-- **What `sys_mmap` gives back is mapped**: the pages before the one for which no frame is
    left. -/
def GivesBack (s : Mm) (cr3 : Nat) (vs : List Nat) : Prop :=
  ∀ todo s', Mm.mmapPages cr3 vs s = (todo, s') → todo ≠ [] →
    ∀ va ∈ vs.take (vs.length - todo.length), SmallAt s' cr3 va

/-- A request that is mapped whole gives nothing back. -/
theorem GivesBack.of_done {vs : List Nat} (hdone : (Mm.mmapPages r vs s).1 = []) :
    GivesBack s r vs := by
  intro todo s' hrun hne
  rw [hrun] at hdone
  exact absurd hdone hne

theorem Inv.mmapPages (h : Inv b s sp) (hr : r ∈ sp) (vs : List Nat) :
    Inv b (Mm.mmapPages r vs s).2 sp ∧ Kept sp s (Mm.mmapPages r vs s).2 := by
  induction vs generalizing s with
  | nil => exact ⟨h, Kept.refl⟩
  | cons va vs ih =>
    rw [Mm.mmapPages]
    rcases Grown.alloc h with ⟨hzero, hsame⟩ | ⟨hne, hgrow, hf, -⟩
    · rw [if_pos hzero, hsame]
      exact ⟨h, Kept.refl⟩
    rw [if_neg hne]
    have hclear := (Grown.zeroPage hgrow.inv hf).1
    have hkept := (hgrow.trans hclear).toKept
    rcases pagingMap_cases va hclear.inv hr (hclear.fresh _ (by simp) hf)
      (show FlagsOk mmapFlags by decide) with ⟨s₁, heq, hgrow'⟩ | ⟨s₁, heq, hgrow', -⟩
    all_goals
      rw [heq]
      obtain ⟨hinv, hkept'⟩ := ih hgrow'.inv
      exact ⟨hinv, (hkept.trans hgrow'.toKept).trans hkept'⟩

/-- The pages of a request are different pages. -/
theorem mmapRequest_apart (cursor len : Nat) :
    (Mm.mmapRequest cursor len).Pairwise fun va a => ¬ SamePage a va := by
  have htop : processUserStackTop = 0x4000000000 := rfl
  rw [Mm.mmapRequest]
  generalize pageRound (if len = 0 then 4096 else len) = n
  split_ifs with hbad
  · exact Pairwise.nil
  · refine pairwise_map.mpr ((List.pairwise_lt_range).imp_of_mem fun {i j} hi hj hlt => ?_)
    rw [mem_range] at hi hj
    rw [SamePage]
    omega

/-- **`sys_mmap`**: the spaces grow, and are cut again below the page directories if it fails. -/
theorem Inv.sysMmap {cursor : Nat} (h : Inv b s sp) (hr : r ∈ sp)
    (hback : GivesBack s r (Mm.mmapRequest cursor len)) : Inv b (s.sysMmap r cursor len).2 sp ∧
      ∃ s₁, Kept sp s s₁ ∧ Above sp s₁ (s.sysMmap r cursor len).2 := by
  have hapart := mmapRequest_apart cursor len
  rw [Mm.mmapRequest] at hback hapart
  rw [Mm.sysMmap]
  generalize pageRound (if len = 0 then 4096 else len) = n at hback hapart ⊢
  split_ifs at hback hapart ⊢ with hbad
  · exact ⟨h, s, Kept.refl, Above.refl⟩
  dsimp only at hback hapart ⊢
  generalize pagesFrom cursor _ = vs at hback hapart ⊢
  obtain ⟨hinv, hkept⟩ := h.mmapPages hr vs
  generalize hrun : Mm.mmapPages r vs s = x at hinv hkept ⊢
  obtain ⟨todo, s₁⟩ := x
  cases todo with
  | nil => exact ⟨hinv, s₁, hkept, Above.refl⟩
  | cons va todo =>
    obtain ⟨hinv', habove⟩ := hinv.unmapPages hr (hapart.sublist (take_sublist _ _))
      (hback _ _ hrun (cons_ne_nil va todo))
    exact ⟨hinv', s₁, hkept, habove⟩

/-! ## 4. Frames left -/

/-- How many frames `pmm_alloc_frame` can still hand out. -/
def freeCount (s : Mm) : Nat := ((Finset.range pmmMaxFrames).filter fun f => s.pmm.free f).card

theorem mem_freeFrames {s : Mm} : f ∈ (Finset.range pmmMaxFrames).filter (fun f => s.pmm.free f) ↔
      f < pmmMaxFrames ∧ s.pmm.free f = true := by
  rw [Finset.mem_filter, Finset.mem_range]

/-- A run of free frames. -/
theorem le_freeCount {s : Mm} {n : Nat} (hfree : ∀ g ∈ List.range' f n, s.pmm.free g = true)
    (hlt : f + n ≤ pmmMaxFrames) : n ≤ freeCount s := by
  have hsub : (Finset.range n).image (f + ·) ⊆
      (Finset.range pmmMaxFrames).filter fun f => s.pmm.free f := by
    intro g hg
    obtain ⟨i, hi, rfl⟩ := Finset.mem_image.mp hg
    rw [Finset.mem_range] at hi
    rw [mem_freeFrames]
    exact ⟨by omega, hfree _ (mem_range'_1.mpr (by omega))⟩
  have hcard := Finset.card_le_card hsub
  rw [Finset.card_image_of_injective _ (add_right_injective f), Finset.card_range] at hcard
  exact hcard

theorem freeCount_alloc (s : Mm) : freeCount s ≤ freeCount s.alloc.2 + 1 := by
  rcases s.pmm.allocFrame_cases with ⟨f, -, halloc⟩ | ⟨-, halloc⟩
  · have hsub : ((Finset.range pmmMaxFrames).filter fun g => s.pmm.free g).erase f ⊆
        (Finset.range pmmMaxFrames).filter fun g => s.alloc.2.pmm.free g := by
      intro g hg
      rw [Finset.mem_erase, mem_freeFrames] at hg
      rw [mem_freeFrames, Mm.alloc, halloc, Pmm.take_free, if_neg hg.1]
      exact hg.2
    have hle := Finset.card_le_card hsub
    have herase := Finset.pred_card_le_card_erase
      (s := (Finset.range pmmMaxFrames).filter fun g => s.pmm.free g) (a := f)
    rw [freeCount, freeCount]
    omega
  · rw [Mm.alloc, halloc]
    exact Nat.le_succ _

/-- An allocator with a frame left hands one out. -/
theorem Inv.alloc_of_free (h : Inv b s sp) (hfree : 0 < freeCount s) : s.alloc.1 ≠ 0 := by
  obtain ⟨f, hf⟩ := Finset.card_pos.mp hfree
  rw [mem_freeFrames] at hf
  rcases s.pmm.allocFrame_cases with ⟨g, hg, halloc⟩ | ⟨hnone, -⟩
  · have hlow := Boot.tables_lt_ram (h.free g hg)
    rw [Mm.alloc, halloc]
    exact (show g ≠ 0 by omega)
  · rw [hnone f hf.1] at hf
    cases hf.2

theorem freeCount_newTable (s : Mm) (t : Nat) (i : Fin 512) :
    freeCount s ≤ freeCount (s.newTable t i).2 + 1 := by
  have halloc := freeCount_alloc s
  rw [Mm.newTable]
  split_ifs
  · exact halloc
  · have hpmm : (s.alloc.2.zeroPage s.alloc.1).pmm = s.alloc.2.pmm := zeroPage_pmm
    rw [freeCount] at halloc ⊢
    rw [freeCount, Mm.store, hpmm]
    exact halloc

theorem freeCount_nextTable (s : Mm) (t : Nat) (i : Fin 512) :
    freeCount s ≤ freeCount (s.nextTable t i).2 + 1 := by
  rw [Mm.nextTable]
  split_ifs
  · exact Nat.le_succ _
  · exact freeCount_newTable s t i

/-- `paging_map` takes at most three frames. -/
theorem freeCount_pagingMap (s : Mm) (r vaddr phys flags : Nat) :
    freeCount s ≤ freeCount (s.pagingMap r vaddr phys flags).2 + 3 := by
  rw [Mm.pagingMap]
  split_ifs
  · exact Nat.le_add_right _ _
  have h₁ := freeCount_nextTable s r (pml4Idx vaddr)
  generalize s.nextTable r (pml4Idx vaddr) = x₁ at h₁
  obtain ⟨_ | pdpt, s₁⟩ := x₁
  · dsimp only at h₁ ⊢
    omega
  dsimp only at h₁ ⊢
  have h₂ := freeCount_nextTable s₁ pdpt (pdptIdx vaddr)
  generalize s₁.nextTable pdpt (pdptIdx vaddr) = x₂ at h₂
  obtain ⟨_ | pd, s₂⟩ := x₂
  · dsimp only at h₂ ⊢
    omega
  dsimp only at h₂ ⊢
  have h₃ := freeCount_newTable s₂ pd (pdIdx vaddr)
  have hstore : ∀ s' t i e, freeCount (Mm.store s' t i e) = freeCount s' := fun _ _ _ _ => rfl
  split_ifs
  · dsimp only
    omega
  · rw [hstore]
    omega
  · dsimp only
    omega
  generalize s₂.newTable pd (pdIdx vaddr) = x₃ at h₃
  obtain ⟨_ | pt, s₃⟩ := x₃
  · dsimp only at h₃ ⊢
    omega
  · dsimp only at h₃ ⊢
    rw [hstore]
    omega

/-- The table below an entry, with frames left for it: nothing is mapped that was not. -/
theorem Inv.nextTable_of_free {p : List (Fin 512)} {t vaddr : Nat} {i : Fin 512} (h : Inv b s sp)
    (hr : r ∈ sp) (hv : Visible (p ++ [i])) (hw : walkFrom s.mem r p = some t) (hlen : p.length < 2)
    (hq : p ++ [i] <+: pathOf vaddr) (hfree : 0 < freeCount s)
    (hnone : walkFrom s.mem r (pathOf vaddr) = none) (hvis : Visible (pathOf vaddr)) :
    ∃ f s', s.nextTable t i = (some f, s') ∧ Inv b s' sp ∧ s'.lapicBase = s.lapicBase ∧
      walkFrom s'.mem r (p ++ [i]) = some f ∧ walkFrom s'.mem r (pathOf vaddr) = none ∧
      freeCount s ≤ freeCount s' + 1 := by
  rcases nextTable_cases h hr hv hw hlen hq with ⟨hzero, -⟩ | ⟨f, s', heq, hgrow, hw'⟩
  · exact absurd hzero (h.alloc_of_free hfree)
  have hcount := freeCount_nextTable s t i
  rw [heq] at hcount
  refine ⟨f, s', heq, hgrow.inv, hgrow.lapic, hw', Option.eq_none_iff_forall_ne_some.mpr ?_, hcount⟩
  intro g hg
  rcases hgrow.along _ g hvis hg with hold | ⟨-, hshort | hno⟩
  · rw [hnone] at hold
    cases hold
  · exact absurd hshort (by simp [pathOf])
  · cases hno

/-- **`paging_map` succeeds** at a page that is not mapped, with three frames left, in a space
    without huge pages. -/
theorem pagingMap_succeeds (h : Inv b s sp) (hr : r ∈ sp) (hl : s.lapicBase = 0)
    (hlow : pagingUserBase ≤ va) (hal : va % 4096 = 0) (hv : Visible [pml4Idx va, pdptIdx va])
    (hfree : 3 ≤ freeCount s) (hnone : walkFrom s.mem r (pathOf va) = none) (f flags : Nat) :
    ∃ s', s.pagingMap r va f flags = (true, s') := by
  have hvis : Visible (pathOf va) := visible_cons_cons.mpr (visible_cons_cons.mp hv)
  have hpre : ∀ n, (pathOf va).take n <+: pathOf va := fun n => take_prefix n _
  obtain ⟨pdpt, s₁, heq₁, h₁, hl₁, hw₁, hnone₁, hfree₁⟩ :=
    h.nextTable_of_free (p := []) hr (visible_single (pml4Idx va)) rfl Nat.zero_lt_two (hpre 1)
      (by omega) hnone hvis
  obtain ⟨pd, s₂, heq₂, h₂, hl₂, hw₂, hnone₂, hfree₂⟩ :=
    h₁.nextTable_of_free (p := [pml4Idx va]) hr hv hw₁ Nat.one_lt_two
    (hpre 2) (by omega) hnone₁ hvis
  rw [Mm.pagingMap, if_neg (by omega), heq₁]
  dsimp only
  rw [heq₂]
  dsimp only
  by_cases hpres : present (entry s₂.mem pd (pdIdx va)) = true
  · have hsmall : large (entry s₂.mem pd (pdIdx va)) ≠ true := fun hlarge =>
      (h₂.huge r hr _ _ _ pd hv hw₂ hpres hlarge).1 (by rw [hl₂, hl₁, hl])
    have hw₃ := walk_pt hw₂ hpres hsmall
    have habsent : present (entry s₂.mem (entryFrame (entry s₂.mem pd (pdIdx va))) (ptIdx va)) ≠
        true := by
      intro hleaf
      rw [pathOf, walk_leaf hw₃ hleaf] at hnone₂
      cases hnone₂
    rw [if_pos ⟨hpres, hsmall⟩, if_neg habsent]
    exact ⟨_, rfl⟩
  rw [if_neg (by simp [hpres]), if_neg hpres]
  rcases newTable_cases (q := pathOf va) h₂ hr (p := [pml4Idx va, pdptIdx va]) (i := pdIdx va)
      (visible_cons_cons.mpr (visible_cons_cons.mp hv)) hw₂ (by simp)
      (hpre 3) (by simpa using hpres)
    with ⟨hzero, -⟩ | ⟨pt, s₃, heq₃, -⟩
  · exact absurd hzero (h₂.alloc_of_free (by omega))
  · rw [heq₃]
    exact ⟨_, rfl⟩

/-- The frames `pmm_alloc_contig` takes when the heap grows. -/
def Mm.takeFrames (s : Mm) (fs : List Nat) : Mm :=
  { s with pmm := fs.foldl Pmm.takeNext s.pmm }

theorem Inv.takeFrames (h : Inv b s sp) (fs : List Nat) : Inv b (s.takeFrames fs) sp :=
  h.setPmm fun _ hf => ((Pmm.takeNexts_free fs s.pmm _).mp hf).1

/-- A step that writes no memory. -/
theorem Kept.of_mem (hmem : s'.mem = s.mem) (hlapic : s'.lapicBase = s.lapicBase) :
    Kept sp s s' := by
  refine ⟨hlapic, ?_, ?_⟩
  · rw [hmem]
    exact fun _ _ _ _ _ hw => hw
  · rw [hmem]
    exact fun _ _ _ _ _ _ => rfl

theorem Kept.freeSpace (s : Mm) (r : Nat) : Kept sp s (s.pagingFreeAddressSpace r) :=
  Kept.of_mem (pagingFreeAddressSpace_mem s r).1 (pagingFreeAddressSpace_mem s r).2

/-! ## 5. New spaces -/

/-- The entry of the APIC page in a space without any table behind its first two. -/
theorem pagingMapLarge_bare {q : Nat} (h : Inv b s sp) (hr : r ∈ sp) (hb : LapicBase s.lapicBase)
    (hq : walkFrom s.mem r [0] = some q)
    (habsent : present (entry s.mem q (pdptIdx s.lapicBase)) = false) (hne : s.alloc.1 ≠ 0) :
    ∃ s', s.pagingMapLarge r s.lapicBase s.lapicBase flagWritable = (true, s') ∧
      GrownAt b sp r [0, pdptIdx s.lapicBase] none s s' ∧ LapicMapped s' r := by
  have hlow := hb.user
  have hal := hb.aligned
  have hsmall := hb.small
  have hbase : pagingUserBase = 0x40000000 := rfl
  have hi : pml4Idx s.lapicBase = 0 := Fin.ext (by rw [pml4Idx, Fin.val_ofNat, Fin.val_zero]; omega)
  have hpres : present (entry s.mem r 0) = true ∧ entryFrame (entry s.mem r 0) = q := by
    have hc : child 0 (entry s.mem r 0) = some q := by simpa [walkFrom, walk] using hq
    exact ⟨(child_some hc (by decide)).1, (child_some hc (by decide)).2.1⟩
  have htrue : (s.pagingMapLarge r s.lapicBase s.lapicBase flagWritable).1 = true := by
    rw [Mm.pagingMapLarge, if_neg (by omega), hi, nextTable_of_present hpres.1, hpres.2]
    rcases newTable_cases h hr hb.visible hq (by simp) (prefix_refl _) habsent with
      ⟨hzero, -⟩ | ⟨pd, s', heq, -, -, hz⟩
    · exact absurd hzero hne
    · have hnext : s.nextTable q (pdptIdx s.lapicBase) = (some pd, s') := by
        rw [Mm.nextTable, if_neg (by simp [habsent]), heq]
      simp only [hnext]
      rw [if_neg (by rw [hz]; decide)]
  rcases pagingMapLarge_cases h hr (by omega) with ⟨s', heq, -⟩ | ⟨s', pd, heq, hgrow, -, hw, he⟩
  · rw [heq] at htrue
    cases htrue
  · refine ⟨s', heq, hgrow, ?_⟩
    rw [LapicMapped, hgrow.lapic]
    exact ⟨pd, hw, he⟩

/-- The root of a new space is new. -/
theorem NewSpace.not_mem (h : NewSpace b sp r s s') (hs : Inv b s sp) : r ∉ sp := by
  intro hr
  have hfree := (h.tables r ⟨[], visible_nil, by decide, rfl⟩).1
  rw [hs.taken r (tree_root hr)] at hfree
  cases hfree

/-- **A new address space has the APIC page**, if there are three frames for it. -/
theorem newSpace_lapic (h : Inv b s sp) (hb : LapicBase s.lapicBase) (hfree : 3 ≤ freeCount s) :
    ∃ r s', s.pagingNewAddressSpace = (r, s') ∧ r ≠ 0 ∧
      NewSpace b sp r s s' ∧ LapicMapped s' r := by
  have hne := h.alloc_of_free (by omega)
  have hcount := freeCount_alloc s
  have hcount' := freeCount_alloc s.alloc.2
  rcases Grown.alloc h with ⟨hzero, -⟩ | ⟨-, hgrow, -, -⟩
  · exact absurd hzero hne
  have hne' := hgrow.inv.alloc_of_free (by omega)
  obtain ⟨hnew, hwalk⟩ := NewSpace.kernelHalf h hne hne'
  have hpmm := (kernelHalf_bytes s.alloc.2.alloc.2 s.alloc.1 s.alloc.2.alloc.1).2
  have hspace : s.pagingNewAddressSpace =
      (s.alloc.1, s.alloc.2.alloc.2.initAddressSpace s.alloc.1 s.alloc.2.alloc.1) := by
    simp only [Mm.pagingNewAddressSpace, hne, hne', or_self, if_false]
  rw [hspace, Mm.initAddressSpace]
  have hlast : 0 < freeCount (s.alloc.2.alloc.2.kernelHalf s.alloc.1 s.alloc.2.alloc.1) := by
    have hsame : freeCount (s.alloc.2.alloc.2.kernelHalf s.alloc.1 s.alloc.2.alloc.1) =
        freeCount s.alloc.2.alloc.2 := by rw [freeCount, freeCount, hpmm]
    omega
  generalize s.alloc.2.alloc.2.kernelHalf s.alloc.1 s.alloc.2.alloc.1 = s₁ at hnew hwalk hlast ⊢
  rw [← hnew.kept.lapic] at hb
  have hlow := hb.user
  have hbase : pagingUserBase = 0x40000000 := rfl
  obtain ⟨q, -, -, hwq⟩ := hnew.inv.slot_walk mem_cons_self
  have habsent : present (entry s₁.mem q (pdptIdx s₁.lapicBase)) = false := by
    by_contra hpres
    rw [Bool.not_eq_false] at hpres
    have hpre :=
      hwalk [0, pdptIdx s₁.lapicBase] (entryFrame (entry s₁.mem q (pdptIdx s₁.lapicBase)))
      hb.visible ((walkFrom_snoc hwq _).trans (by simp [child, hpres]))
    exact absurd hpre.length_le (by simp)
  obtain ⟨s₂, heq, hgrow', hmapped⟩ := pagingMapLarge_bare hnew.inv mem_cons_self hb hwq habsent
    (hnew.inv.alloc_of_free hlast)
  refine ⟨s.alloc.1, s₂, ?_, hne, hnew.grow hgrow', hmapped⟩
  rw [if_pos (by omega), heq]

/-- A new space takes two frames at least. -/
theorem two_le_freeCount (h : Inv b s sp) (heq : s.pagingNewAddressSpace = (r, s')) (hr : r ≠ 0) :
    2 ≤ freeCount s := by
  have hne : s.alloc.1 ≠ 0 ∧ s.alloc.2.alloc.1 ≠ 0 := by
    refine not_or.mp fun hzero => hr ?_
    rw [Mm.pagingNewAddressSpace, if_pos hzero] at heq
    exact (congrArg Prod.fst heq).symm
  obtain ⟨hfree, htaken⟩ := alloc_obtained hne.1
  obtain ⟨hfree', -⟩ := alloc_obtained hne.2
  have hapart : s.alloc.1 ≠ s.alloc.2.alloc.1 := by
    intro hsame
    rw [hsame, hfree'] at htaken
    cases htaken
  have hsub : ({s.alloc.1, s.alloc.2.alloc.1} : Finset Nat) ⊆
      (Finset.range pmmMaxFrames).filter fun f => s.pmm.free f := by
    intro f hf
    have hf' : s.pmm.free f = true := by
      rcases Finset.mem_insert.mp hf with rfl | hf
      · exact hfree
      · rw [Finset.mem_singleton.mp hf]
        exact alloc_frees s _ hfree'
    exact mem_freeFrames.mpr ⟨Boot.ram_lt (h.free f hf'), hf'⟩
  have hcard := Finset.card_le_card hsub
  rwa [Finset.card_pair hapart] at hcard

/-- The memory of `smallBoot` after `lapic_init`. -/
def apicMm : Mm := smallMm.pagingMapLapic 0xFEE00000

theorem apicMm_inv : Inv smallBoot apicMm [] := smallMm_inv.pagingMapLapic (by decide)

theorem apicMm_base : LapicBase apicMm.lapicBase := by
  have hbase : apicMm.lapicBase = 0xFEE00000 := by decide +kernel
  rw [hbase]
  exact ⟨by decide, by decide, by decide⟩

theorem apicMm_free : 3 ≤ freeCount apicMm := by
  have hsub : ({10, 11, 12} : Finset Nat) ⊆
      (Finset.range pmmMaxFrames).filter fun f => apicMm.pmm.free f := by
    intro f hf
    rw [mem_freeFrames]
    simp only [Finset.mem_insert, Finset.mem_singleton] at hf
    rcases hf with rfl | rfl | rfl <;> exact ⟨by decide, by decide +kernel⟩
  exact Finset.card_le_card hsub

end DyntKernel.Mem
