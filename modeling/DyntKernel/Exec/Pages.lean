/-
  File:      DyntKernel/Exec/Pages.lean
  Subject:   WHAT THE PAGES OF A CALL HOLD, while the loader maps them.

  * `byteAt` -- the byte an address space has at an address;
  * `Showing` -- the invariant `Loading` of a call, with the contents of the pages it has mapped;
  * `mapFresh_shows` -- a page that is mapped is zeroed, and the other ones stay as they are;
  * `mapFresh_of_free` -- with four frames left, a page that is not mapped yet can be mapped.
-/
import DyntKernel.Exec.Confined
import DyntKernel.Mem.Device

namespace DyntKernel.Exec

open Library Library.Fallible Mem List

variable {b : Boot} {s s₀ : Mm} {sp : List Nat} {r f va : Nat} {own mapped : Nat → Prop}
  {l l' : Load} {img : Nat → UInt8}

/-! ## 1. One page -/

/-- The byte the space `r` has at an address. -/
def byteAt (l : Load) (r va : Nat) : UInt8 := l.mm.mem (pagingTranslate l.mm.mem r va)

/-- What a successful `mapFresh` consists of. -/
theorem mapFresh_run (hrun : mapFresh r va l = (some f, l')) : l.mm.alloc.1 = f ∧ f ≠ 0 ∧
      (l.mm.alloc.2.zeroPage f).pagingMap r va f flagUserWritable = (true, l'.mm) := by
  by_cases hne : l.mm.alloc.1 = 0
  · have hfail : alloc l = (none, l.gain l.mm.alloc.2) := by rw [alloc, if_pos hne]
    rw [mapFresh, bind_none hfail] at hrun
    cases hrun
  have halloc : alloc l = (some l.mm.alloc.1, l.gain l.mm.alloc.2) := by rw [alloc, if_neg hne]
  rw [mapFresh, bind_some halloc,
    bind_some (show edit _ (l.gain l.mm.alloc.2) = (some (), _) from rfl)] at hrun
  cases hmap : mapOrFree r va l.mm.alloc.1 ((l.gain l.mm.alloc.2).zeroPage l.mm.alloc.1) with
  | mk o l₁ =>
    cases o with
    | none =>
      rw [bind_none hmap] at hrun
      cases hrun
    | some u =>
      rw [bind_some hmap] at hrun
      obtain ⟨hf, rfl⟩ := Prod.mk.inj hrun
      obtain rfl := Option.some.inj hf
      rw [mapOrFree] at hmap
      split_ifs at hmap with hok
      · obtain ⟨-, rfl⟩ := Prod.mk.inj hmap
        exact ⟨rfl, hne, Prod.ext hok rfl⟩
      · cases hmap

theorem mapFresh_succeeds {mm : Mm} (hne : l.mm.alloc.1 ≠ 0)
    (hmap : (l.mm.alloc.2.zeroPage l.mm.alloc.1).pagingMap r va l.mm.alloc.1 flagUserWritable =
      (true, mm)) : ∃ l', mapFresh r va l = (some l.mm.alloc.1, l') ∧ l'.mm = mm := by
  have halloc : alloc l = (some l.mm.alloc.1, l.gain l.mm.alloc.2) := by rw [alloc, if_neg hne]
  have hrun : mapOrFree r va l.mm.alloc.1 ((l.gain l.mm.alloc.2).zeroPage l.mm.alloc.1) =
      (some (), ((l.gain l.mm.alloc.2).zeroPage l.mm.alloc.1).gain mm) := by
    rw [mapOrFree]
    rw [show ((l.gain l.mm.alloc.2).zeroPage l.mm.alloc.1).mm = l.mm.alloc.2.zeroPage l.mm.alloc.1
      from rfl, hmap]
    rfl
  refine ⟨((l.gain l.mm.alloc.2).zeroPage l.mm.alloc.1).gain mm, ?_, rfl⟩
  rw [mapFresh, bind_some halloc,
    bind_some (show edit _ (l.gain l.mm.alloc.2) = (some (), _) from rfl), bind_some hrun]
  rfl

/-- A page whose frame keeps its bytes. -/
theorem byteAt_kept (hpage : PageAt l.mm r va f) (hk : Kept sp l.mm l'.mm) (hr : r ∈ sp)
    (hsame : ∀ x, x / 4096 = f → l'.mm.mem x = l.mm.mem x) : byteAt l' r va = byteAt l r va := by
  rw [byteAt, byteAt, (hpage.kept hk hr).translate, hpage.translate]
  exact hsame _ (by omega)

/-- **What `mapFresh` writes**: the new page is zeroed, and the pages there were stay as they are,
    in frames of their own. -/
theorem mapFresh_bytes (h : Inv b l.mm sp) (hr : r ∈ sp) (hrun : mapFresh r va l = (some f, l')) :
    (∀ x, PageAt l'.mm r x f → byteAt l' r x = 0) ∧
      ∀ x g, PageAt l.mm r x g → byteAt l' r x = byteAt l r x ∧ ¬ PageAt l'.mm r x f := by
  obtain ⟨rfl, hne, hmap⟩ := mapFresh_run hrun
  rcases Grown.alloc h with ⟨hzero, -⟩ | ⟨-, hgrow, hf, -⟩
  · exact absurd hzero hne
  obtain ⟨hclear, -⟩ := Grown.zeroPage hgrow.inv hf
  generalize l.mm.alloc.1 = f at *
  have hzeroed : (l.mm.alloc.2.zeroPage f).mem = blit l.mm.mem (f * 4096) 4096 fun _ => 0 := by
    rw [Mm.zeroPage, if_neg hne]
    rfl
  have hf' := hclear.fresh f (by simp) hf
  have hkept := (hgrow.trans hclear).toKept
  generalize l.mm.alloc.2.zeroPage f = s₁ at *
  rcases pagingMap_cases va hclear.inv hr hf' (show FlagsOk flagUserWritable by decide) with
    ⟨mm, heq, -⟩ | ⟨mm, heq, hgrow', -⟩
  · rw [heq] at hmap
    cases hmap
  obtain rfl : mm = l'.mm := congrArg Prod.snd (heq.symm.trans hmap)
  -- a frame that is taken and no table of `r` keeps its bytes
  have hkeep : ∀ g, s₁.pmm.free g = false → ¬ Table s₁ r g → ∀ x, x / 4096 = g →
      l'.mm.mem x = s₁.mem x := by
    intro g hfree hnt x hx
    by_contra hchange
    rcases hgrow'.bytes x hchange with hgot | ht
    · rw [hx, Obtained, hfree] at hgot
      cases hgot.1
    · exact hnt (hx ▸ ht)
  refine ⟨fun x hpage => ?_, fun x g hpage => ?_⟩
  · have hnt : ¬ Table s₁ r f := by
      intro ht
      obtain ⟨p, hv, -, hw⟩ := ht
      exact hf'.apart (tree_of_walk hr hv hw)
    rw [byteAt, hpage.translate, hkeep f hf'.taken hnt _ (by omega), hzeroed, blit_of_in (by omega)]
  have hpage₁ := hpage.kept hkept hr
  have htree : Tree s₁ sp g := tree_of_walk hr hpage.visible hpage₁.walk
  have hgf : g ≠ f := by
    rintro rfl
    exact hf'.apart htree
  have hall := hkept.trans hgrow'.toKept
  refine ⟨byteAt_kept hpage hall hr fun y hy => ?_, fun hnew => hgf ?_⟩
  · rw [hkeep g (hclear.inv.taken g htree) (hpage₁.not_table hclear.inv.toShape hr r hr) y hy,
      hzeroed]
    exact blit_of_out (by omega)
  · exact Option.some.inj ((hpage.kept hall hr).walk.symm.trans hnew.walk)

/-! ## 2. The contents of the pages of a call -/

/-- **`Loading`, with the contents of the pages**: at the addresses of the pages `mapped` the space
    has the bytes `img`. -/
structure Showing (b : Boot) (sp : List Nat) (r : Nat) (own : Nat → Prop) (s s₀ : Mm)
    (mapped : Nat → Prop) (img : Nat → UInt8) (l : Load) : Prop
    extends Loading b sp r own s s₀ mapped l where
  shows : ∀ x, mapped (x / 4096 * 4096) → byteAt l r x = img x

theorem Showing.mono {mapped' : Nat → Prop} (h : Showing b sp r own s s₀ mapped img l)
    (hsub : ∀ va, mapped' va → mapped va) : Showing b sp r own s s₀ mapped' img l :=
  ⟨h.toLoading.mono hsub, fun x hx => h.shows x (hsub _ hx)⟩

theorem mem_snoc (va : Nat) (done : List Nat) (v : Nat) (hv : v ∈ done ++ [va]) :
    v = va ∨ v ∈ done :=
  (mem_append.mp hv).symm.imp_left mem_singleton.mp

theorem Showing.congr {img' : Nat → UInt8} (h : Showing b sp r own s s₀ mapped img l)
    (himg : ∀ x, mapped (x / 4096 * 4096) → img x = img' x) :
    Showing b sp r own s s₀ mapped img' l :=
  ⟨h.toLoading, fun x hx => (h.shows x hx).trans (himg x hx)⟩

section Steps

variable (hs : ∀ f, s.pmm.free f = true → b.Ram f) (hr : r ∈ sp)
include hs hr

/-- A store into one page of the call, when no other page has its frame. -/
theorem Showing.write (h : Showing b sp r own s s₀ mapped img l) (hpage : PageAt l.mm r va f)
    (hgot : l.got f = true) {n : Nat} (hin : va % 4096 + n ≤ 4096) (data : Nat → UInt8)
    (hinj : ∀ x, mapped (x / 4096 * 4096) → PageAt l.mm r x f → x / 4096 = va / 4096) :
    Showing b sp r own s s₀ mapped (blit img va n data)
    (l.write (f * 4096 + va % 4096) n data) := by
  have hnt := hpage.not_table h.inv.toShape hr
  have hkept := (h.toLoading.write_rows hs hgot hnt data (a := f * 4096 + va % 4096) (n := n)
    (by omega) (by omega)).2.1
  refine ⟨h.toLoading.write hs hr hgot hnt data (by omega) (by omega), fun x hx => ?_⟩
  obtain ⟨g, hg, -⟩ := h.page _ hx
  have hg := hg.offset
  have hold := h.shows x hx
  rw [byteAt, hg.translate] at hold
  rw [byteAt, (hg.kept hkept hr).translate, Load.write_mem]
  by_cases hsame : x / 4096 = va / 4096
  · have hpath : pathOf x = pathOf va := pathOf_eq_iff.mpr (by rw [SamePage, hsame])
    have hwalk := hg.walk
    rw [hpath, hpage.walk] at hwalk
    obtain rfl := Option.some.inj hwalk
    by_cases hx : va ≤ x ∧ x < va + n
    · rw [blit, if_pos (by omega), blit, if_pos hx]
      exact congrArg data (by omega)
    · rw [blit_of_out (by omega), blit_of_out (by omega), hold]
  · have hne : g ≠ f := by
      rintro rfl
      exact hsame (hinj x hx hg)
    rw [blit_of_out (by omega), blit_of_out (by omega), hold]

theorem mapFresh_shows (va : Nat) : Triple (Showing b sp r own s s₀ mapped img) (mapFresh r va)
      (fun f l => Showing b sp r own s s₀ (fun v => v = va ∨ mapped v)
          (fun x => if x / 4096 * 4096 = va then 0 else img x) l ∧
          PageAt l.mm r va f ∧ l.got f = true ∧
        ∀ x, mapped (x / 4096 * 4096) → ¬ PageAt l.mm r x f)
      (Loading b sp r own s s₀ fun _ => False) := by
  intro l h
  rcases mapFresh_spec hs hr va l h.toLoading with ⟨f, l', hrun, hload, hpage, hgot⟩ | hfail
  · obtain ⟨hnew, hold⟩ := mapFresh_bytes h.inv hr hrun
    refine .inl ⟨f, l', hrun, ⟨hload, fun x hx => ?_⟩, hpage, hgot, fun x hx => ?_⟩
    · split_ifs with hva
      · subst hva
        exact hnew x hpage.offset
      · have hx := hx.resolve_left hva
        obtain ⟨g, hg, -⟩ := h.page _ hx
        rw [(hold x g hg.offset).1]
        exact h.shows x hx
    · obtain ⟨g, hg, -⟩ := h.page _ hx
      exact (hold x g hg.offset).2
  · exact .inr hfail

end Steps

/-! ## 3. Frames enough -/

/-- One page, with four frames left; the others stay unmapped. -/
theorem mapFresh_of_free (h : Inv b l.mm sp) (hr : r ∈ sp) (hl : l.mm.lapicBase = 0)
    (hlow : pagingUserBase ≤ va) (hal : va % 4096 = 0) (hvis : Visible (pathOf va))
    (hnone : walkFrom l.mm.mem r (pathOf va) = none) (hfree : 4 ≤ freeCount l.mm) :
    ∃ f l', mapFresh r va l = (some f, l') ∧ Inv b l'.mm sp ∧ l'.mm.lapicBase = 0 ∧
      freeCount l.mm ≤ freeCount l'.mm + 4 ∧
      ∀ v, Visible (pathOf v) → ¬ SamePage v va → walkFrom l.mm.mem r (pathOf v) = none →
        walkFrom l'.mm.mem r (pathOf v) = none := by
  rcases Grown.alloc h with ⟨hzero, -⟩ | ⟨hne, hgrow, hf, -⟩
  · exact absurd hzero (h.alloc_of_free (by omega))
  obtain ⟨hclear, -⟩ := Grown.zeroPage hgrow.inv hf
  have hcount₁ := freeCount_alloc l.mm
  have hsame : freeCount (l.mm.alloc.2.zeroPage l.mm.alloc.1) = freeCount l.mm.alloc.2 := by
    rw [freeCount, freeCount, zeroPage_pmm]
  have hlapic : (l.mm.alloc.2.zeroPage l.mm.alloc.1).lapicBase = 0 :=
    (hgrow.trans hclear).lapic.trans hl
  -- the frame that is zeroed is on no path
  have hwalk : ∀ p, Visible p →
      walkFrom (l.mm.alloc.2.zeroPage l.mm.alloc.1).mem r p = walkFrom l.mm.mem r p := by
    intro p hv
    refine walk_write_fresh visible_of_append (hf.row fun t ht i => ?_) hr hv
    rw [Mm.zeroPage, if_neg hne]
    exact entry_blit_of_ne ht (by omega) (by omega) i
  obtain ⟨mm, hmap⟩ := pagingMap_succeeds hclear.inv hr hlapic hlow hal
    (visible_of_append [_, _] [_, _] hvis) (by omega)
    ((hwalk _ hvis).trans hnone) l.mm.alloc.1 flagUserWritable
  obtain ⟨l', hrun, rfl⟩ := mapFresh_succeeds hne hmap
  rcases pagingMap_cases va hclear.inv hr (hclear.fresh _ (by simp) hf)
    (show FlagsOk flagUserWritable by decide) with ⟨mm, heq, -⟩ | ⟨mm, heq, hgrow', -⟩
  · rw [heq] at hmap
    cases hmap
  obtain rfl : mm = l'.mm := congrArg Prod.snd (heq.symm.trans hmap)
  have hcount₂ := freeCount_pagingMap (l.mm.alloc.2.zeroPage l.mm.alloc.1) r va l.mm.alloc.1
    flagUserWritable
  rw [hmap] at hcount₂
  refine ⟨_, l', hrun, hgrow'.inv, hgrow'.lapic.trans hlapic, by dsimp only at hcount₂; omega, ?_⟩
  intro v hvisv hdiff hold
  refine Option.eq_none_iff_forall_ne_some.mpr fun g hg => ?_
  rcases hgrow'.along _ g hvisv hg with hw | ⟨hpre, -⟩
  · rw [hwalk _ hvisv, hold] at hw
    cases hw
  · exact hdiff (pathOf_eq_iff.mp (hpre.eq_of_length rfl))

/-- A new space has nothing mapped for the user. -/
theorem newSpace_unmapped {s' : Mm} (h : NewSpace b sp r s s') (hv : Visible (pathOf va)) :
    walkFrom s'.mem r (pathOf va) = none := by
  refine Option.eq_none_iff_forall_ne_some.mpr fun f hf => ?_
  have hlen := (h.paths _ f hv hf).length_le
  exact absurd hlen (by simp [pathOf])

end DyntKernel.Exec
