/-
  File:      DyntKernel/Mem/Spaces.lean
  Subject:   WHAT THE FUNCTIONS OF paging.c KEEP, each from the edits it is made of.

  * `Grown` -- only fresh frames were linked in: every walk and every present entry is kept;
  * `Within`, `Spread` -- which bytes a mapping changes: frames it obtained, tables of the space;
  * `newTable_cases`, `nextTable_cases`, `pagingMap_rule`, `pagingMap_cases`, `pagingMapLarge_cases`
    -- mapping;
  * `Inv.pagingUnmap` -- unmapping a 4 KiB page;
  * `pagingNewAddressSpace_cases`, `Inv.pagingFreeAddressSpace`, `Inv.pagingCloneUserSpace`,
    `Inv.pagingMapLapic` -- whole address spaces.
-/
import DyntKernel.Mem.Tree

namespace DyntKernel.Mem

open Library List

variable {b : Boot} {s s' s'' : Mm} {sp : List Nat} {r t f g vaddr flags : Nat}
  {p : List (Fin 512)} {i : Fin 512}

/-! ## 1. Growth -/

/-- The walks of the spaces `sp`, and the present entries of their tables, are kept. -/
structure Kept (sp : List Nat) (s s' : Mm) : Prop where
  lapic : s'.lapicBase = s.lapicBase
  walks : ∀ r ∈ sp, ∀ p f, Visible p → walkFrom s.mem r p = some f → walkFrom s'.mem r p = some f
  entries : ∀ r ∈ sp, ∀ t i, Table s r t → present (entry s.mem t i) = true →
    entry s'.mem t i = entry s.mem t i

theorem Kept.refl : Kept sp s s :=
  ⟨rfl, fun _ _ _ _ _ hw => hw, fun _ _ _ _ _ _ => rfl⟩

theorem Kept.trans (h : Kept sp s s') (h' : Kept sp s' s'') : Kept sp s s'' := by
  refine ⟨h'.lapic.trans h.lapic, ?_, ?_⟩
  · exact fun r hr p f hv hw => h'.walks r hr p f hv (h.walks r hr p f hv hw)
  · rintro r hr t i ⟨p, hv, hlen, hw⟩ hp
    have hkept := h.entries r hr t i ⟨p, hv, hlen, hw⟩ hp
    rw [← hkept] at hp
    rw [h'.entries r hr t i ⟨p, hv, hlen, h.walks r hr p t hv hw⟩ hp, hkept]

theorem Kept.mono {sp' : List Nat} (h : Kept sp' s s') (hsub : ∀ r ∈ sp, r ∈ sp') : Kept sp s s' :=
  ⟨h.lapic, fun r hr => h.walks r (hsub r hr), fun r hr => h.entries r (hsub r hr)⟩

/-- **Growth of the address spaces `sp`**, by fresh frames only; `leaf` is the frame that was
    mapped, if one was. -/
structure Grown (b : Boot) (sp : List Nat) (leaf : Option Nat) (s s' : Mm) : Prop
    extends Kept sp s s' where
  inv : Inv b s' sp
  fresh : ∀ g, leaf ≠ some g → Fresh b s sp g → Fresh b s' sp g

theorem Grown.refl (h : Inv b s sp) : Grown b sp none s s := ⟨Kept.refl, h, fun _ _ hg => hg⟩

theorem Grown.trans {leaf : Option Nat} (h : Grown b sp none s s') (h' : Grown b sp leaf s' s'') :
    Grown b sp leaf s s'' :=
  ⟨h.toKept.trans h'.toKept, h'.inv, fun g hg hf => h'.fresh g hg (h.fresh g (by simp) hf)⟩

/-- Writing to a fresh frame. -/
theorem Grown.freshRow (h : Inv b s sp) (hf : Fresh b s sp f) {m : Phys}
    (hm : ∀ t, t ≠ f → ∀ i, entry m t i = entry s.mem t i) :
    Grown b sp none s { s with mem := m } := by
  obtain ⟨hshape, htree⟩ := h.looseRow hf.toLoose hm
  refine ⟨⟨rfl, ?_, fun r hr t i ⟨p, hv, _, hw⟩ _ => hf.row hm t i (tree_of_walk hr hv hw)⟩,
    ⟨hshape, h.free, fun g hg => h.taken g ((htree g).mp hg)⟩, ?_⟩
  · intro r hr p g hv hw
    rw [← hw]
    exact walk_write_fresh visible_of_append (hf.row hm) hr hv
  · exact fun g _ hg => ⟨⟨hg.ram, fun ht => hg.apart ((htree g).mp ht)⟩, hg.taken⟩

theorem Grown.zeroPage (h : Inv b s sp) (hf : Fresh b s sp f) :
    Grown b sp none s (s.zeroPage f) ∧ ∀ j, entry (s.zeroPage f).mem f j = 0 := by
  have hpos : f ≠ 0 := by
    have hlow := Boot.tables_lt_ram hf.ram
    omega
  rw [Mm.zeroPage, if_neg hpos]
  exact ⟨Grown.freshRow h hf fun t ht i => entry_blit_of_ne ht (by omega) (by omega) i, entry_zero⟩

theorem entry_store_of_absent {e t' : Nat} {i' : Fin 512} (hold : present (entry s.mem t i) = false)
    (hp : present (entry s.mem t' i') = true) :
    entry (s.store t i e).mem t' i' = entry s.mem t' i' := by
  refine entry_store_of_ne ?_
  by_contra hcon
  push Not at hcon
  rw [hcon.1, hcon.2, hold] at hp
  cases hp

/-- Linking a fresh frame. -/
theorem Grown.link (h : Inv b s sp) (hr : r ∈ sp) (hv : Visible (p ++ [i]))
    (hw : walkFrom s.mem r p = some t) {e : Nat} (hold : present (entry s.mem t i) = false)
    (hf : Fresh b s sp f) (hc : child p.length (e % 2 ^ 64) = some f)
    (hz : p.length < 3 → ∀ j, entry s.mem f j = 0) : Grown b sp (some f) s (s.store t i e) ∧
      walkFrom (s.store t i e).mem r (p ++ [i]) = some f ∧
      ∀ p' f', Visible p' → walkFrom (s.store t i e).mem r p' = some f' →
        (p' = p ++ [i] ∧ f' = f) ∨ walkFrom s.mem r p' = some f' := by
  obtain ⟨hshape, hnew, htree, hkeep, hlink⟩ := h.link hr hv hw hold hf.toLoose hc hz
  have htaken : ∀ g, Tree (s.store t i e) sp g → s.pmm.free g = false := by
    intro g hg
    rcases (htree g).mp hg with rfl | hg
    · exact hf.taken
    · exact h.taken g hg
  refine ⟨⟨⟨rfl, hkeep, ?_⟩, ⟨hshape, h.free, htaken⟩, ?_⟩, hnew,
    fun p' f' hv' hw' => (hlink r hr p' f' hv' hw').imp_left fun hcase => hcase.2⟩
  · exact fun _ _ _ _ _ hp => entry_store_of_absent hold hp
  · intro g hg hfresh
    refine ⟨⟨hfresh.ram, fun ht => ?_⟩, hfresh.taken⟩
    rcases (htree g).mp ht with rfl | ht
    · exact hg rfl
    · exact hfresh.apart ht

/-- An allocation grows nothing. -/
theorem Grown.alloc (h : Inv b s sp) : (s.alloc.1 = 0 ∧ s.alloc.2 = s) ∨
    (s.alloc.1 ≠ 0 ∧ Grown b sp none s s.alloc.2 ∧ Fresh b s.alloc.2 sp s.alloc.1 ∧
      ∀ g, Fresh b s sp g → g ≠ s.alloc.1) := by
  rcases h.alloc with hfail | ⟨hne, hinv, hf, hfresh⟩
  · exact .inl hfail
  · refine .inr ⟨hne, ⟨⟨rfl, fun _ _ _ _ _ hw => hw, fun _ _ _ _ _ _ => rfl⟩, hinv, ?_⟩, hf,
      fun g hg => (hfresh g hg).1⟩
    exact fun g _ hg => (hfresh g hg).2

/-- Only bytes of the frames `F` change. -/
def Within (F : Nat → Prop) (s s' : Mm) : Prop := ∀ a, s'.mem a ≠ s.mem a → F (a / 4096)

section Within

variable {F : Nat → Prop}

theorem Within.trans (h : Within F s s') (h' : Within F s' s'') : Within F s s'' := by
  intro a hne
  by_cases hsame : s''.mem a = s'.mem a
  · exact h a (hsame ▸ hne)
  · exact h' a hsame

theorem Within.alloc (h : Within F s.alloc.2 s') : Within F s s' := h

/-- A store into one frame. -/
theorem Within.blit (hF : F f) {a n : Nat} {data : Nat → UInt8} (ha : f * 4096 ≤ a)
    (hn : a + n ≤ f * 4096 + 4096) : Within F s { s with mem := blit s.mem a n data } := by
  intro x hne
  have hframe : x / 4096 = f := by
    by_contra hout
    exact hne (blit_of_out (by omega))
  rw [hframe]
  exact hF

theorem Within.store (hF : F t) (e : Nat) : Within F s (s.store t i e) := by
  rw [Mm.store, setEntry, writeLE]
  exact Within.blit hF (by omega) (by omega)

theorem Within.zeroPage (hF : F f) : Within F s (s.zeroPage f) := by
  rw [Mm.zeroPage]
  split_ifs
  · exact fun _ hne => absurd rfl hne
  · exact Within.blit hF (Nat.le_refl _) (Nat.le_refl _)

end Within

/-- The frames taken off the free map between two states. -/
def Obtained (s s' : Mm) (f : Nat) : Prop := s.pmm.free f = true ∧ s'.pmm.free f = false

/-- **What a mapping in the space `r` touches**: frames it obtained, and tables of that space. -/
structure Spread (r : Nat) (s s' : Mm) : Prop where
  frees : ∀ f, s'.pmm.free f = true → s.pmm.free f = true
  bytes : Within (fun f => Obtained s s' f ∨ Table s r f) s s'
  tables : ∀ t, Table s' r t → Obtained s s' t ∨ Table s r t

theorem Spread.refl : Spread r s s :=
  ⟨fun _ hf => hf, fun _ hne => absurd rfl hne, fun _ ht => .inr ht⟩

theorem Obtained.trans_left (hf : Obtained s s' f)
    (h : ∀ f, s''.pmm.free f = true → s'.pmm.free f = true) : Obtained s s'' f := by
  refine ⟨hf.1, ?_⟩
  rw [← Bool.not_eq_true]
  intro hcon
  have htaken := hf.2
  rw [h f hcon] at htaken
  cases htaken

theorem Obtained.trans_right (h : ∀ f, s'.pmm.free f = true → s.pmm.free f = true)
    (hf : Obtained s' s'' f) : Obtained s s'' f := ⟨h f hf.1, hf.2⟩

theorem Spread.trans (h : Spread r s s') (h' : Spread r s' s'') : Spread r s s'' := by
  have hback : ∀ t, Table s' r t → Obtained s s'' t ∨ Table s r t := by
    intro t ht
    exact (h.tables t ht).imp_left fun hf => hf.trans_left h'.frees
  refine ⟨fun f hf => h.frees f (h'.frees f hf), ?_, fun t ht => ?_⟩
  · have hfirst : Within (fun f => Obtained s s'' f ∨ Table s r f) s s' := fun a hne =>
      (h.bytes a hne).imp_left fun hf => hf.trans_left h'.frees
    refine hfirst.trans fun a hne => ?_
    rcases h'.bytes a hne with hf | ht
    · exact .inl (hf.trans_right h.frees)
    · exact hback _ ht
  · rcases h'.tables t ht with hf | ht
    · exact .inl (hf.trans_right h.frees)
    · exact hback t ht

theorem alloc_frees (s : Mm) (g : Nat) (hg : s.alloc.2.pmm.free g = true) :
    s.pmm.free g = true := by
  rcases s.pmm.allocFrame_cases with ⟨f, -, halloc⟩ | ⟨-, halloc⟩
  · rw [Mm.alloc, halloc, Pmm.take_free] at hg
    split_ifs at hg
    exact hg
  · rw [Mm.alloc, halloc] at hg
    exact hg

theorem alloc_obtained (hne : s.alloc.1 ≠ 0) : Obtained s s.alloc.2 s.alloc.1 := by
  rcases s.pmm.allocFrame_cases with ⟨f, hfree, halloc⟩ | ⟨-, halloc⟩
  · rw [Mm.alloc, halloc]
    exact ⟨hfree, by rw [Pmm.take_free, if_pos rfl]⟩
  · exact absurd (by rw [Mm.alloc, halloc]) hne

/-- An allocation takes one frame. -/
theorem alloc_keeps {g : Nat} (hg : s.pmm.free g = true) (hne : g ≠ s.alloc.1) :
    s.alloc.2.pmm.free g = true := by
  rcases s.pmm.allocFrame_cases with ⟨f, -, halloc⟩ | ⟨-, halloc⟩
  · rw [Mm.alloc, halloc] at hne ⊢
    rw [Pmm.take_free, if_neg hne]
    exact hg
  · rw [Mm.alloc, halloc]
    exact hg

theorem zeroPage_pmm : (s.zeroPage f).pmm = s.pmm := by
  rw [Mm.zeroPage]
  split_ifs <;> rfl

/-- A store into a table of the space that makes no new table. -/
theorem Spread.store {e : Nat} (ht : Table s r t)
    (hback : ∀ p f, Visible p → p.length < 4 → walkFrom (s.store t i e).mem r p = some f →
      walkFrom s.mem r p = some f) : Spread r s (s.store t i e) := by
  refine ⟨fun _ hf => hf, Within.store (.inr ht) e, fun t' ⟨p, hv, hlen, hw⟩ => ?_⟩
  exact .inr ⟨p, hv, hlen, hback p t' hv hlen hw⟩

/-- **Where a space grows and out of what**: along one path, out of free frames and the page that is
    mapped. -/
structure Along (r : Nat) (q : List (Fin 512)) (leaf : Option Nat) (s s' : Mm) : Prop where
  account : ∀ g, (s'.pmm.free g = true ∨ Private s' r g) ↔
    (s.pmm.free g = true ∨ Private s r g ∨ leaf = some g)
  along : ∀ p f, Visible p → walkFrom s'.mem r p = some f →
    walkFrom s.mem r p = some f ∨ (p <+: q ∧ (p.length < 4 ∨ leaf = some f))

theorem Along.refl {q : List (Fin 512)} : Along r q none s s :=
  ⟨fun g => by simp, fun _ _ _ hw => .inl hw⟩

theorem Along.trans {q : List (Fin 512)} {leaf : Option Nat} (h : Along r q none s s')
    (h' : Along r q leaf s' s'') : Along r q leaf s s'' := by
  refine ⟨fun g => ?_, fun p f hv hw => ?_⟩
  · rw [h'.account g, ← or_assoc, h.account g]
    simp [or_assoc]
  · rcases h'.along p f hv hw with hw | hp
    · exact (h.along p f hv hw).imp_right fun hp => ⟨hp.1, hp.2.imp_right fun hno => by cases hno⟩
    · exact .inr hp

/-- **Growth of the space `r`**, one of the address spaces `sp`, along the path `q`. -/
structure GrownAt (b : Boot) (sp : List Nat) (r : Nat) (q : List (Fin 512)) (leaf : Option Nat)
    (s s' : Mm) : Prop extends Grown b sp leaf s s', Spread r s s', Along r q leaf s s'

variable {q : List (Fin 512)}

theorem GrownAt.refl (h : Inv b s sp) : GrownAt b sp r q none s s :=
  ⟨Grown.refl h, Spread.refl, Along.refl⟩

theorem GrownAt.trans {leaf : Option Nat} (h : GrownAt b sp r q none s s')
    (h' : GrownAt b sp r q leaf s' s'') : GrownAt b sp r q leaf s s'' :=
  ⟨h.toGrown.trans h'.toGrown, h.toSpread.trans h'.toSpread, h.toAlong.trans h'.toAlong⟩

/-! ## 2. Mapping -/

/-- A frame that was free is now in the space. -/
theorem Along.take (hne : s.alloc.1 ≠ 0) (hfree : s'.pmm.free = s.alloc.2.pmm.free)
    (hnew : Private s' r s.alloc.1)
    (hkeep : ∀ p f, Visible p → walkFrom s.mem r p = some f → walkFrom s'.mem r p = some f)
    (hback : ∀ p' f, Visible p' → walkFrom s'.mem r p' = some f →
      (p' = p ++ [i] ∧ f = s.alloc.1) ∨ walkFrom s.mem r p' = some f)
    (hq : p ++ [i] <+: q) (hlen : p.length < 3) : Along r q none s s' := by
  refine ⟨fun g => ?_, fun p' f hv hw => (hback p' f hv hw).elim (fun h => ?_) .inl⟩
  swap
  · rw [h.1]
    exact .inr ⟨hq, .inl (by rw [length_append, length_singleton]; omega)⟩
  rw [hfree]
  constructor
  · rintro (hg | ⟨p', hv, hw⟩)
    · exact .inl (alloc_frees s g hg)
    · rcases hback p' g hv hw with ⟨-, rfl⟩ | hw
      · exact .inl (alloc_obtained hne).1
      · exact .inr (.inl ⟨p', hv, hw⟩)
  rintro (hg | ⟨p', hv, hw⟩ | hg)
  · by_cases hgf : g = s.alloc.1
    · exact .inr (hgf ▸ hnew)
    · exact .inl (alloc_keeps hg hgf)
  · exact .inr ⟨p', hv, hkeep p' g hv hw⟩
  · cases hg

/-- **A new table** below an entry that was not present. -/
theorem newTable_cases (h : Inv b s sp) (hr : r ∈ sp) (hv : Visible (p ++ [i]))
    (hw : walkFrom s.mem r p = some t) (hlen : p.length < 3) (hq : p ++ [i] <+: q)
    (hold : present (entry s.mem t i) = false) : (s.alloc.1 = 0 ∧ s.newTable t i = (none, s)) ∨
    ∃ f s', s.newTable t i = (some f, s') ∧ GrownAt b sp r q none s s' ∧
      walkFrom s'.mem r (p ++ [i]) = some f ∧ ∀ j, entry s'.mem f j = 0 := by
  rcases Grown.alloc h with ⟨hzero, hsame⟩ | ⟨hne, hgrow, hf, hother⟩
  · exact .inl ⟨hzero, by rw [Mm.newTable, if_pos hzero, hsame]⟩
  right
  obtain ⟨hgrow₂, hz⟩ := Grown.zeroPage hgrow.inv hf
  have hf₂ := hgrow₂.fresh _ (by simp) hf
  have hp : Visible p := visible_of_append p [i] hv
  have hw₂ := hgrow₂.walks r hr p t hp (hgrow.walks r hr p t hp hw)
  have hrows : ∀ t', t' ≠ s.alloc.1 →
      ∀ i', entry (s.alloc.2.zeroPage s.alloc.1).mem t' i' = entry s.mem t' i' := by
    intro t' ht' i'
    rw [Mm.zeroPage, if_neg hne]
    exact entry_blit_of_ne ht' (by omega) (by omega) i'
  have hrow :=
    hrows t (fun heq => hf.apart (heq ▸ tree_of_walk hr hp (hgrow.walks r hr p _ hp hw))) i
  have hc : child p.length (tableEntry s.alloc.1 % 2 ^ 64) = some s.alloc.1 := by
    rw [tableEntry_mod (Boot.ram_lt hf.ram)]
    exact child_table hlen _
  obtain ⟨hlink, hnew, hback⟩ := Grown.link hgrow₂.inv hr hv hw₂ (by rw [hrow]; exact hold) hf₂ hc
    fun _ => hz
  have hall := (hgrow.trans hgrow₂).trans hlink
  have hpmm : (s.alloc.2.zeroPage s.alloc.1).pmm = s.alloc.2.pmm := zeroPage_pmm
  have hzero : ∀ p', Visible p' →
      walkFrom (s.alloc.2.zeroPage s.alloc.1).mem r p' = walkFrom s.mem r p' := by
    exact fun p' hv' => walk_write_fresh visible_of_append (hf.row hrows) hr hv'
  have hback' : ∀ p' f', Visible p' →
      walkFrom ((s.alloc.2.zeroPage s.alloc.1).store t i (tableEntry s.alloc.1)).mem r p' =
        some f' →
      (p' = p ++ [i] ∧ f' = s.alloc.1) ∨ walkFrom s.mem r p' = some f' := by
    intro p' f' hv' hw'
    rw [← hzero p' hv']
    exact hback p' f' hv' hw'
  refine ⟨s.alloc.1, _, by rw [Mm.newTable, if_neg hne], ⟨?_, ?_, ?_⟩, hnew, ?_⟩
  · refine ⟨hall.toKept, hall.inv, fun g _ hg => ?_⟩
    refine hall.fresh g (fun heq => ?_) hg
    exact hother g hg (Option.some.inj heq).symm
  · have hgot : Obtained s ((s.alloc.2.zeroPage s.alloc.1).store t i (tableEntry s.alloc.1))
        s.alloc.1 := (alloc_obtained hne).trans_left fun g hg => hpmm ▸ hg
    refine ⟨fun g hg => alloc_frees s g (hpmm ▸ hg), ?_, fun t' ⟨p', hv', hlen', hw'⟩ => ?_⟩
    · have hfirst : Within (fun g => Obtained s ((s.alloc.2.zeroPage s.alloc.1).store t i
          (tableEntry s.alloc.1)) g ∨ Table s r g) s (s.alloc.2.zeroPage s.alloc.1) :=
        Within.alloc (Within.zeroPage (Or.inl hgot))
      exact hfirst.trans (Within.store (Or.inr ⟨p, hp, by omega, hw⟩) _)
    · rcases hback' p' t' hv' hw' with ⟨-, rfl⟩ | hw'
      · exact .inl hgot
      · exact .inr ⟨p', hv', hlen', hw'⟩
  · refine Along.take hne (congrArg Pmm.free hpmm) ⟨_, hv, hnew⟩ (hall.walks r hr) hback' hq hlen
  · intro j
    rw [entry_store_of_ne, hz j]
    left
    rintro rfl
    exact hf₂.apart (tree_of_walk hr hp hw₂)

/-- **The next table** of a walk above the page directories. -/
theorem nextTable_cases (h : Inv b s sp) (hr : r ∈ sp) (hv : Visible (p ++ [i]))
    (hw : walkFrom s.mem r p = some t) (hlen : p.length < 2) (hq : p ++ [i] <+: q) :
    (s.alloc.1 = 0 ∧ s.nextTable t i = (none, s)) ∨
    ∃ f s', s.nextTable t i = (some f, s') ∧ GrownAt b sp r q none s s' ∧
      walkFrom s'.mem r (p ++ [i]) = some f := by
  by_cases hpres : present (entry s.mem t i) = true
  · refine .inr ⟨entryFrame (entry s.mem t i), s, ?_, GrownAt.refl h, ?_⟩
    · rw [Mm.nextTable, if_pos hpres]
    · rw [walkFrom_snoc hw, child, if_neg (by simp [hpres]), if_pos hlen]
  · rw [Mm.nextTable, if_neg hpres]
    rcases newTable_cases h hr hv hw (by omega) hq (by simpa using hpres) with
      hnone | ⟨f, s', heq, hgrow, hnew, -⟩
    · exact .inl hnone
    · exact .inr ⟨f, s', heq, hgrow, hnew⟩

/-- Flags of a leaf: bits below the frame number, and `PAGING_FLAG_NOEXEC`. -/
def FlagsOk (flags : Nat) : Prop := flags < 2 ^ 64 ∧ flags % 2 ^ 63 < 4096

instance : DecidablePred FlagsOk := fun _ => inferInstanceAs (Decidable (_ ∧ _))

/-- The bits of a leaf: the flags around the frame number. -/
theorem leafEntry_eq (hf : f < pmmMaxFrames) (hflags : FlagsOk flags) :
    ∃ hi lo, hi < 2 ∧ lo < 4096 ∧ lo % 2 = 1 ∧
      leafEntry f flags = hi * 2 ^ 63 + (f * 4096 + lo) := by
  obtain ⟨hlt, hlo⟩ := hflags
  have hmax : pmmMaxFrames = 16777216 := rfl
  have hone : flags % 2 ^ 63 ||| 1 < 2 ^ 12 := Nat.or_lt_two_pow hlo (by decide)
  refine ⟨flags / 2 ^ 63, flags % 2 ^ 63 ||| 1, by omega, by omega, ?_, ?_⟩
  · rw [Nat.or_mod_two_eq_one]
    exact .inr (by decide)
  have hsplit : flags = 2 ^ 63 * (flags / 2 ^ 63) ||| flags % 2 ^ 63 := by
    rw [← Nat.two_pow_add_eq_or_of_lt (Nat.mod_lt _ (by decide))]
    omega
  have hlow : f * 4096 ||| (flags % 2 ^ 63 ||| 1) = f * 4096 + (flags % 2 ^ 63 ||| 1) := by
    rw [Nat.mul_comm]
    exact (Nat.two_pow_add_eq_or_of_lt hone f).symm
  have hbound : f * 4096 + (flags % 2 ^ 63 ||| 1) < 2 ^ 63 := by omega
  calc leafEntry f flags = 2 ^ 63 * (flags / 2 ^ 63) ||| (f * 4096 ||| (flags % 2 ^ 63 ||| 1)) := by
        rw [leafEntry]
        conv_lhs => rw [hsplit]
        rw [← Nat.or_assoc, Nat.or_comm (f * 4096), Nat.or_assoc, Nat.or_assoc]
    _ = flags / 2 ^ 63 * 2 ^ 63 + (f * 4096 + (flags % 2 ^ 63 ||| 1)) := by
        rw [hlow, ← Nat.two_pow_add_eq_or_of_lt hbound, Nat.mul_comm]

theorem child_leaf (hf : f < pmmMaxFrames) (hflags : FlagsOk flags) :
    child 3 (leafEntry f flags % 2 ^ 64) = some f := by
  obtain ⟨hi, lo, hhi, hlo, hodd, heq⟩ := leafEntry_eq hf hflags
  have hmax : pmmMaxFrames = 16777216 := rfl
  have hmod : leafEntry f flags % 2 ^ 64 = hi * 2 ^ 63 + (f * 4096 + lo) := by omega
  have hpres : present (leafEntry f flags % 2 ^ 64) = true := by
    rw [hmod, present]
    exact decide_eq_true (by omega)
  have hframe : entryFrame (leafEntry f flags % 2 ^ 64) % 2 ^ 51 = f := by
    rw [hmod, entryFrame]
    omega
  simp only [child, hpres, hframe]
  rfl

/-- The indices of an address. -/
def pathOf (vaddr : Nat) : List (Fin 512) :=
  [pml4Idx vaddr, pdptIdx vaddr, pdIdx vaddr, ptIdx vaddr]

/-- The addresses of user mappings below 512 GiB are outside the kernel slot. -/
theorem not_slot_of_user {va : Nat} (hlo : pagingUserBase ≤ va) (hhi : va < 2 ^ 39) :
    ¬ (pml4Idx va = 0 ∧ pdptIdx va = 0) := by
  rintro ⟨-, hj⟩
  have hval := congrArg Fin.val hj
  rw [pdptIdx, Fin.val_ofNat, Fin.val_zero] at hval
  have hbase : pagingUserBase = 0x40000000 := rfl
  omega

theorem kernelSlot_eq : b.kernelSlot = b.pd * 4096 + 3 := by
  have hclear : tableEntry b.pd - tableEntry b.pd / 4 % 2 * 4 = b.pd * 4096 + 3 := by
    rw [tableEntry_eq]
    omega
  rw [Boot.kernelSlot, supervisorEntry, hclear, Nat.mul_comm,
    Nat.two_pow_add_eq_or_of_lt (show 3 < 2 ^ 12 by decide), Nat.or_assoc]
  rfl

theorem present_kernelSlot : present b.kernelSlot = true := by
  rw [kernelSlot_eq, present]
  exact decide_eq_true (by omega)

theorem entryFrame_kernelSlot : entryFrame b.kernelSlot = b.pd := by
  rw [kernelSlot_eq, entryFrame]
  omega

theorem KernelTables.pd_huge (h : KernelTables b s) (k : Fin 512) :
    present (entry s.mem b.pd k) = true ∧ large (entry s.mem b.pd k) = true := by
  rw [h.pd k, present, large]
  exact ⟨decide_eq_true (by omega), decide_eq_true (by omega)⟩

theorem nextTable_of_present (h : present (entry s.mem t i) = true) :
    s.nextTable t i = (some (entryFrame (entry s.mem t i)), s) := by
  rw [Mm.nextTable, if_pos h]

/-- The address of a kernel identity page, also under an alias with high bits set, is not mapped
    again: a huge page is in the way. -/
theorem pagingMap_of_slot (h : Inv b s sp) (hr : r ∈ sp) (hi : pml4Idx vaddr = 0)
    (hj : pdptIdx vaddr = 0) : s.pagingMap r vaddr f flags = (false, s) := by
  obtain ⟨q, hq, hk, -⟩ := h.slot_walk hr
  obtain ⟨hpres, hlarge⟩ := h.kernel.pd_huge (pdIdx vaddr)
  have h₁ : s.nextTable r 0 = (some q, s) := by
    rw [nextTable_of_present (by rw [hq, present_tableEntry]), hq, entryFrame_tableEntry]
  have h₂ : s.nextTable q 0 = (some b.pd, s) := by
    rw [nextTable_of_present (by rw [hk, present_kernelSlot]), hk, entryFrame_kernelSlot]
  simp only [Mm.pagingMap, hi, hj, h₁, h₂, hpres, hlarge, not_true_eq_false, and_false, if_true,
    if_false, ite_self]

/-- The last step of `paging_map`: a leaf below a page table. -/
theorem GrownAt.leaf (h : Inv b s sp) (hr : r ∈ sp) {i j k l : Fin 512} (hv : Visible [i, j])
    (hw : walkFrom s.mem r [i, j, k] = some t) (hold : present (entry s.mem t l) = false)
    (hf : Fresh b s sp f) (hflags : FlagsOk flags) :
    GrownAt b sp r [i, j, k, l] (some f) s (s.store t l (leafEntry f flags)) ∧
      walkFrom (s.store t l (leafEntry f flags)).mem r [i, j, k, l] = some f ∧
      walkFrom (s.store t l (leafEntry f flags)).mem r [i, j, k] = some t := by
  have hvis : Visible ([i, j, k] ++ [l]) := visible_cons_cons.mpr (visible_cons_cons.mp hv)
  obtain ⟨hgrow, hnew, hback⟩ := Grown.link h hr hvis hw hold hf
    (child_leaf (Boot.ram_lt hf.ram) hflags) fun hlt => absurd hlt (by simp)
  refine ⟨⟨hgrow, Spread.store ⟨_, visible_of_append _ _ hvis, by simp, hw⟩ ?_, ⟨fun g => ?_, ?_⟩⟩,
    hnew, hgrow.walks r hr _ t (visible_of_append _ _ hvis) hw⟩
  · intro p' f' hv' hlen hw'
    rcases hback p' f' hv' hw' with ⟨rfl, -⟩ | hw'
    · exact absurd hlen (by simp)
    · exact hw'
  · refine or_congr_right ⟨?_, ?_⟩
    · rintro ⟨p', hv', hw'⟩
      rcases hback p' g hv' hw' with ⟨-, rfl⟩ | hw'
      · exact .inr rfl
      · exact .inl ⟨p', hv', hw'⟩
    · rintro (⟨p', hv', hw'⟩ | hg)
      · exact ⟨p', hv', hgrow.walks r hr p' g hv' hw'⟩
      · rw [← Option.some.inj hg]
        exact ⟨_, hvis, hnew⟩
  · exact fun p' f' hv' hw' =>
      (hback p' f' hv' hw').elim
        (fun hcase => .inr ⟨hcase.1 ▸ prefix_refl _, .inr (congrArg some hcase.2.symm)⟩) .inl

/-- **The rule of `paging_map`**: what every new table on the way keeps holds when it fails, and
    when it fills an absent entry of the page table of the address. -/
theorem pagingMap_rule (r vaddr phys flags : Nat) {J : Mm → Prop}
    (hnew : ∀ s p i t, J s → p ++ [i] <+: pathOf vaddr → p.length < 3 →
      walkFrom s.mem r p = some t → present (entry s.mem t i) = false →
      (∃ s', s.newTable t i = (none, s') ∧ J s') ∨ ∃ f s', s.newTable t i = (some f, s') ∧ J s' ∧
        walkFrom s'.mem r (p ++ [i]) = some f ∧ ∀ j, entry s'.mem f j = 0) (h : J s) :
    (∃ s', s.pagingMap r vaddr phys flags = (false, s') ∧ J s') ∨
    ∃ s' pt, s.pagingMap r vaddr phys flags =
      (true, s'.store pt (ptIdx vaddr) (leafEntry phys flags)) ∧ J s' ∧
      pagingUserBase ≤ vaddr ∧
      walkFrom s'.mem r [pml4Idx vaddr, pdptIdx vaddr, pdIdx vaddr] = some pt ∧
      present (entry s'.mem pt (ptIdx vaddr)) = false := by
  have hpre : ∀ n, (pathOf vaddr).take n <+: pathOf vaddr := fun n => take_prefix n _
  -- Above the page directories every entry leads to a table.
  have hnext : ∀ s p i t, J s → p ++ [i] <+: pathOf vaddr → p.length < 2 →
      walkFrom s.mem r p = some t →
      (∃ s', s.nextTable t i = (none, s') ∧ J s') ∨
      ∃ f s', s.nextTable t i = (some f, s') ∧ J s' ∧ walkFrom s'.mem r (p ++ [i]) = some f := by
    intro s p i t hs hq hlen hw
    by_cases hpres : present (entry s.mem t i) = true
    · refine .inr ⟨_, s, nextTable_of_present hpres, hs, ?_⟩
      rw [walkFrom_snoc hw, child, if_neg (by simp [hpres]), if_pos hlen]
    · rw [Mm.nextTable, if_neg hpres]
      rcases hnew s p i t hs hq (by omega) hw (by simpa using hpres) with
        hnone | ⟨f, s', heq, hs', hw', -⟩
      · exact .inl hnone
      · exact .inr ⟨f, s', heq, hs', hw'⟩
  rw [Mm.pagingMap]
  by_cases hguard : vaddr < pagingUserBase ∨ vaddr % 4096 ≠ 0
  · exact .inl ⟨s, by rw [if_pos hguard], h⟩
  rw [if_neg hguard]
  have hlow : pagingUserBase ≤ vaddr := by omega
  rcases hnext s [] _ r h (hpre 1) (by decide) rfl with ⟨s₁, heq₁, h₁⟩ | ⟨pdpt, s₁, heq₁, h₁, hw₁⟩
  · exact .inl ⟨s₁, by rw [heq₁], h₁⟩
  rw [heq₁]
  rcases hnext s₁ _ _ pdpt h₁ (hpre 2) (by simp) hw₁ with ⟨s₂, heq₂, h₂⟩ | ⟨pd, s₂, heq₂, h₂, hw₂⟩
  · exact .inl ⟨s₂, by simp only [heq₂], h₂⟩
  simp only [heq₂]
  by_cases hpres : present (entry s₂.mem pd (pdIdx vaddr)) = true
  · by_cases hlarge : large (entry s₂.mem pd (pdIdx vaddr)) = true
    · exact .inl ⟨s₂, by simp [hpres, hlarge], h₂⟩
    have hw₃ := walk_pt hw₂ hpres hlarge
    rw [if_pos ⟨hpres, hlarge⟩]
    split_ifs with hleaf
    · exact .inl ⟨s₂, rfl, h₂⟩
    · exact .inr ⟨s₂, _, rfl, h₂, hlow, hw₃, by simpa using hleaf⟩
  · rw [if_neg fun h => hpres h.1, if_neg hpres]
    rcases hnew s₂ _ _ pd h₂ (hpre 3) (by simp) hw₂ (by simpa using hpres) with
      ⟨s₃, heq₃, h₃⟩ | ⟨pt, s₃, heq₃, h₃, hw₃, hz⟩
    · exact .inl ⟨s₃, by rw [heq₃], h₃⟩
    · exact .inr ⟨s₃, pt, by rw [heq₃], h₃, hlow, hw₃, by rw [hz]; rfl⟩

/-- **What `paging_map` does** with a fresh frame: it fails, or maps it at the address. Either way
    the tables only grow. -/
theorem pagingMap_cases (vaddr : Nat) (h : Inv b s sp) (hr : r ∈ sp) (hf : Fresh b s sp f)
    (hflags : FlagsOk flags) :
    (∃ s', s.pagingMap r vaddr f flags = (false, s') ∧ GrownAt b sp r (pathOf vaddr) none s s') ∨
    (∃ s', s.pagingMap r vaddr f flags = (true, s') ∧ GrownAt b sp r (pathOf vaddr) (some f) s s' ∧
      Visible (pathOf vaddr) ∧ walkFrom s'.mem r (pathOf vaddr) = some f ∧
      ∃ pt, walkFrom s'.mem r [pml4Idx vaddr, pdptIdx vaddr, pdIdx vaddr] = some pt ∧
        entry s'.mem pt (ptIdx vaddr) = leafEntry f flags % 2 ^ 64) := by
  by_cases hslot : pml4Idx vaddr = 0 ∧ pdptIdx vaddr = 0
  · exact .inl ⟨s, pagingMap_of_slot h hr hslot.1 hslot.2, GrownAt.refl h⟩
  have hv : Visible (pathOf vaddr) := visible_cons_cons.mpr hslot
  refine (pagingMap_rule r vaddr f flags (J := GrownAt b sp r (pathOf vaddr) none s)
    (fun s₁ p i t hgrow hq hlen hw hold => ?_) (GrownAt.refl h)).imp_right ?_
  · obtain ⟨rest, hrest⟩ := hq
    have hvis : Visible (p ++ [i]) := visible_of_append _ rest (hrest ▸ hv)
    rcases newTable_cases hgrow.inv hr hvis hw hlen ⟨rest, hrest⟩ hold with
      ⟨-, hnone⟩ | ⟨pt, s₂, heq, hgrow', hnew⟩
    · exact .inl ⟨s₁, hnone, hgrow⟩
    · exact .inr ⟨pt, s₂, heq, hgrow.trans hgrow', hnew⟩
  · rintro ⟨s₁, pt, heq, hgrow, -, hw, hold⟩
    obtain ⟨hgrow', hw', hpt⟩ := GrownAt.leaf hgrow.inv hr (visible_cons_cons.mpr hslot) hw hold
      (hgrow.fresh f (by simp) hf) hflags
    exact ⟨_, heq, hgrow.trans hgrow', hv, hw', pt, hpt, entry_store_self⟩

theorem largeEntry_eq {a : Nat} (ha : a % 0x200000 = 0) : largeEntry a flagWritable = a + 0x83 := by
  have hor : a / 0x200000 * 0x200000 ||| 0x83 = a / 0x200000 * 0x200000 + 0x83 := by
    rw [Nat.mul_comm]
    exact (Nat.two_pow_add_eq_or_of_lt (show 0x83 < 2 ^ 21 by decide) (a / 0x200000)).symm
  rw [largeEntry, Nat.or_assoc, Nat.or_assoc]
  exact hor.trans (by omega)

/-- **The APIC page of an address space**: mapped, or not; either way the tables only grow. -/
theorem pagingMapLarge_cases (h : Inv b s sp) (hr : r ∈ sp) (hl : s.lapicBase ≠ 0) :
    (∃ s', s.pagingMapLarge r s.lapicBase s.lapicBase flagWritable = (false, s') ∧
      GrownAt b sp r [0, pdptIdx s.lapicBase] none s s') ∨
    (∃ s' pd, s.pagingMapLarge r s.lapicBase s.lapicBase flagWritable = (true, s') ∧
      GrownAt b sp r [0, pdptIdx s.lapicBase] none s s' ∧ Visible [0, pdptIdx s.lapicBase] ∧
      walkFrom s'.mem r [0, pdptIdx s.lapicBase] = some pd ∧
      entry s'.mem pd (pdIdx s.lapicBase) = s.lapicBase + 0x83) := by
  by_cases hguard : s.lapicBase < pagingUserBase ∨ s.lapicBase % 0x200000 ≠ 0 ∨
      s.lapicBase % 0x200000 ≠ 0
  · exact .inl ⟨s, by rw [Mm.pagingMapLarge, if_pos hguard], GrownAt.refl h⟩
  have hbase : pagingUserBase = 0x40000000 := rfl
  have hlt := h.kernel.lapic
  have hi : pml4Idx s.lapicBase = 0 := Fin.ext (by simp [pml4Idx]; omega)
  have hjval : (pdptIdx s.lapicBase).val = s.lapicBase / 2 ^ 30 := by
    rw [pdptIdx, Fin.val_ofNat]
    omega
  have hv : Visible [0, pdptIdx s.lapicBase] := by
    refine visible_cons_cons.mpr fun hcon => ?_
    rw [hcon.2] at hjval
    simp only [Fin.val_zero] at hjval
    omega
  rw [Mm.pagingMapLarge, if_neg hguard, hi]
  have hw₀ : walkFrom s.mem r [] = some r := rfl
  rcases nextTable_cases h hr (visible_single 0) hw₀ (by simp)
      (show [] ++ [0] <+: [0, pdptIdx s.lapicBase] from ⟨[pdptIdx s.lapicBase], rfl⟩) with
    ⟨-, hnone⟩ | ⟨pdpt, s₁, heq₁, hgrow₁, hw₁⟩
  · exact .inl ⟨s, by rw [hnone], GrownAt.refl h⟩
  rw [heq₁]
  rcases nextTable_cases hgrow₁.inv hr hv hw₁ (by simp) (prefix_refl _) with
    ⟨-, hnone⟩ | ⟨pd, s₂, heq₂, hgrow₂, hw₂⟩
  · exact .inl ⟨s₁, by simp only [hnone], hgrow₁⟩
  simp only [heq₂]
  have hgrow := hgrow₁.trans hgrow₂
  split_ifs with hpres
  · exact .inl ⟨s₂, rfl, hgrow⟩
  have hentry : largeEntry s.lapicBase flagWritable % 2 ^ 64 = s.lapicBase + 0x83 := by
    rw [largeEntry_eq (by omega)]
    omega
  have hlarge : large (s.lapicBase + 0x83) = true := decide_eq_true (by omega)
  have hv₂ : Visible ([0, pdptIdx s.lapicBase] ++ [pdIdx s.lapicBase]) :=
    visible_cons_cons.mpr (visible_cons_cons.mp hv)
  have habsent : present (entry s₂.mem pd (pdIdx s.lapicBase)) = false := by simpa using hpres
  obtain ⟨hshape, hcut⟩ := hgrow.inv.cut hr hv₂ hw₂ (e := largeEntry s.lapicBase flagWritable)
    (by simp) (by rw [hentry]; exact child_huge hlarge)
    (fun _ _ _ => ⟨by rw [hgrow.lapic]; exact hl, pdptIdx s.lapicBase, rfl,
      by rw [hgrow.lapic]; exact hjval⟩)
  have hkeep := walk_store_of_absent hgrow.inv.toShape hr hv₂ hw₂ habsent
    (largeEntry s.lapicBase flagWritable)
  have hlast : GrownAt b sp r [0, pdptIdx s.lapicBase] none s₂ (s₂.store pd (pdIdx s.lapicBase)
      (largeEntry s.lapicBase flagWritable)) := by
    have hback : ∀ g, Tree (s₂.store pd (pdIdx s.lapicBase) (largeEntry s.lapicBase flagWritable))
        sp g → Tree s₂ sp g := by
      rintro g ⟨r', p', hr', hv', hw'⟩
      exact ⟨r', p', hr', hv', hcut r' hr' p' g hv' hw'⟩
    refine ⟨⟨⟨rfl, hkeep, ?_⟩, ⟨hshape, hgrow.inv.free, fun g hg => hgrow.inv.taken g (hback g hg)⟩,
      ?_⟩, Spread.store ⟨_, hv, by simp, hw₂⟩ fun p' f' hv' _ => hcut r hr p' f' hv',
      ⟨fun g => ?_, fun p' f' hv' hw' => .inl (hcut r hr p' f' hv' hw')⟩⟩
    · exact fun _ _ _ _ _ hp => entry_store_of_absent habsent hp
    · exact fun g _ hg => ⟨⟨hg.ram, fun ht => hg.apart (hback g ht)⟩, hg.taken⟩
    refine or_congr_right ⟨?_, ?_⟩
    · rintro ⟨p', hv', hw'⟩
      exact .inl ⟨p', hv', hcut r hr p' g hv' hw'⟩
    · rintro (⟨p', hv', hw'⟩ | hg)
      · exact ⟨p', hv', hkeep r hr p' g hv' hw'⟩
      · cases hg
  refine .inr ⟨_, pd, rfl, hgrow.trans hlast, hv, hkeep r hr _ pd hv hw₂, ?_⟩
  rw [entry_store_self, hentry]

/-! ## 3. Unmapping -/

/-- A huge page covers the address. -/
def hugeAt (m : Phys) (cr3 vaddr : Nat) : Bool :=
  let pdpt := entryFrame (entry m cr3 (pml4Idx vaddr))
  let pd := entryFrame (entry m pdpt (pdptIdx vaddr))
  present (entry m cr3 (pml4Idx vaddr)) && present (entry m pdpt (pdptIdx vaddr)) &&
    (present (entry m pd (pdIdx vaddr)) && large (entry m pd (pdIdx vaddr)))

/-- **The page at an address without a huge page**: nothing is mapped there, or a leaf is, which
    `paging_translate` returns and `paging_unmap` clears and releases. -/
theorem leaf_cases (h : Shape b s sp) (hr : r ∈ sp) (hhuge : hugeAt s.mem r vaddr = false) :
    (pagingTranslate s.mem r vaddr = 0 ∧ s.pagingUnmap r vaddr = s) ∨ ∃ pt, Visible (pathOf vaddr) ∧
      walkFrom s.mem r [pml4Idx vaddr, pdptIdx vaddr, pdIdx vaddr] = some pt ∧
      present (entry s.mem pt (ptIdx vaddr)) = true ∧ pagingTranslate s.mem r vaddr =
        entryFrame (entry s.mem pt (ptIdx vaddr)) * 4096 + vaddr % 4096 ∧ s.pagingUnmap r vaddr =
          (s.store pt (ptIdx vaddr) 0).release (entryFrame (entry s.mem pt (ptIdx vaddr))) := by
  by_cases h₀ : present (entry s.mem r (pml4Idx vaddr)) = true
  swap
  · exact .inl ⟨by simp [pagingTranslate, h₀], by simp [Mm.pagingUnmap, h₀]⟩
  by_cases h₁ :
    present (entry s.mem (entryFrame (entry s.mem r (pml4Idx vaddr))) (pdptIdx vaddr)) = true
  swap
  · exact .inl ⟨by simp [pagingTranslate, h₁], by simp [Mm.pagingUnmap, h₁]⟩
  generalize hpd : entryFrame (entry s.mem (entryFrame (entry s.mem r (pml4Idx vaddr)))
    (pdptIdx vaddr)) = pd
  by_cases h₂ : present (entry s.mem pd (pdIdx vaddr)) = true
  swap
  · exact .inl ⟨by simp [pagingTranslate, hpd, h₂], by simp [Mm.pagingUnmap, hpd, h₂]⟩
  have hlarge : large (entry s.mem pd (pdIdx vaddr)) = false := by
    simpa [hugeAt, h₀, h₁, hpd, h₂] using hhuge
  have hslot : ¬ (pml4Idx vaddr = 0 ∧ pdptIdx vaddr = 0) := by
    -- below the kernel slot every entry is huge
    rintro ⟨hi, hj⟩
    obtain ⟨q, hq, hk, -⟩ := h.slot_walk hr
    rw [hi, hj, hq, entryFrame_tableEntry, hk, entryFrame_kernelSlot] at hpd
    rw [← hpd, (h.kernel.pd_huge (pdIdx vaddr)).2] at hlarge
    cases hlarge
  have hlow : ¬ vaddr < pagingUserBase := by
    intro hlt
    have hbase : pagingUserBase = 0x40000000 := rfl
    refine hslot ⟨Fin.ext ?_, Fin.ext ?_⟩
    · rw [pml4Idx, Fin.val_ofNat, Fin.val_zero]
      omega
    · rw [pdptIdx, Fin.val_ofNat, Fin.val_zero]
      omega
  by_cases hleaf :
    present (entry s.mem (entryFrame (entry s.mem pd (pdIdx vaddr))) (ptIdx vaddr)) = true
  · refine .inr ⟨entryFrame (entry s.mem pd (pdIdx vaddr)), visible_cons_cons.mpr hslot, ?_, hleaf,
      ?_, ?_⟩
    · simp [walkFrom, walk, child, h₀, h₁, hpd, h₂, hlarge]
    · simp [pagingTranslate, h₀, h₁, hpd, h₂, hlarge, hleaf]
    · simp [Mm.pagingUnmap, hlow, h₀, h₁, hpd, h₂, hlarge, hleaf, Mm.release, Mm.store]
  · exact .inl ⟨by simp [pagingTranslate, hpd, hlarge, hleaf],
      by simp [Mm.pagingUnmap, hpd, hlarge, hleaf]⟩

/-- Clearing a leaf leaves its frame in no address space. -/
theorem Shape.clearLeaf (h : Shape b s sp) (hr : r ∈ sp) {pt : Nat} (hv : Visible (pathOf vaddr))
    (hw : walkFrom s.mem r [pml4Idx vaddr, pdptIdx vaddr, pdIdx vaddr] = some pt)
    (hpres : present (entry s.mem pt (ptIdx vaddr)) = true) :
    Shape b (s.store pt (ptIdx vaddr) 0) sp ∧
      walkFrom s.mem r (pathOf vaddr) = some (entryFrame (entry s.mem pt (ptIdx vaddr)) % 2 ^ 51) ∧
      (∀ r' ∈ sp, ∀ f, Private (s.store pt (ptIdx vaddr) 0) r' f → Private s r' f) ∧
      ¬ Tree (s.store pt (ptIdx vaddr) 0) sp
        (entryFrame (entry s.mem pt (ptIdx vaddr)) % 2 ^ 51) := by
  have hv' : Visible ([pml4Idx vaddr, pdptIdx vaddr, pdIdx vaddr] ++ [ptIdx vaddr]) := hv
  obtain ⟨hshape, hcut⟩ := h.cut hr hv' hw (e := 0) (by simp) (child_zero _) (by simp)
  have hleaf := walk_leaf hw hpres
  refine ⟨hshape, hleaf, ?_, ?_⟩
  · rintro r' hr' f ⟨p', hv'', hw'⟩
    exact ⟨p', hv'', hcut r' hr' p' f hv'' hw'⟩
  -- the leaf was the only entry that referred to the frame
  rintro ⟨r', p', hr', hv'', hw'⟩
  obtain ⟨rfl, rfl⟩ := h.forest.inj r' r p' _ _ hr' hr hv'' hv (hcut r' hr' p' _ hv'' hw') hleaf
  have hnew : walkFrom (s.store pt (ptIdx vaddr) 0).mem r' (pathOf vaddr) = none := by
    show walk child _ 0 r' ([pml4Idx vaddr, pdptIdx vaddr, pdIdx vaddr] ++ [ptIdx vaddr]) = _
    rw [walk_write_eq visible_of_append h.forest hr (visible_of_append _ _ hv') hw
      fun _ _ => entry_store_of_ne, entry_store_self]
    rfl
  rw [show walk child _ 0 r' _ = none from hnew] at hw'
  cases hw'

theorem Inv.pagingUnmap (h : Inv b s sp) (hr : r ∈ sp) (hhuge : hugeAt s.mem r vaddr = false) :
    Inv b (s.pagingUnmap r vaddr) sp := by
  rcases leaf_cases h.toShape hr hhuge with ⟨-, hsame⟩ | ⟨pt, hv, hw, hpres, -, heq⟩
  · rw [hsame]
    exact h
  rw [heq]
  obtain ⟨hshape, hleaf, hback, hgone⟩ := h.clearLeaf hr hv hw hpres
  have hinv : Inv b (s.store pt (ptIdx vaddr) 0) sp := by
    refine ⟨hshape, h.free, fun g hg => h.taken g ?_⟩
    obtain ⟨r', hr', hp⟩ := tree_iff.mp hg
    exact tree_iff.mpr ⟨r', hr', hback r' hr' g hp⟩
  generalize entryFrame (entry s.mem pt (ptIdx vaddr)) = g at hleaf hgone ⊢
  refine hinv.release fun hlt => ?_
  rw [Nat.mod_eq_of_lt (Nat.lt_trans hlt (by decide))] at hleaf hgone
  exact ⟨h.ram g ⟨r, _, hr, hv, hleaf⟩, hgone⟩

/-! ## 4. Cloning -/

theorem Inv.clonePage (h : Inv b s sp) {dst : Nat} (hr : dst ∈ sp) (vaddr srcp : Nat) :
    Inv b (s.clonePage dst vaddr srcp).2 sp ∧ Kept sp s (s.clonePage dst vaddr srcp).2 := by
  rcases Grown.alloc h with ⟨hzero, hsame⟩ | ⟨hne, hgrow, hf, -⟩
  · rw [Mm.clonePage, if_pos hzero, hsame]
    exact ⟨h, Kept.refl⟩
  rw [Mm.clonePage, if_neg hne]
  have hgrow₂ := (Grown.zeroPage hgrow.inv hf).1
  have hf₂ := hgrow₂.fresh _ (by simp) hf
  have hgrow₃ : Grown b sp none _ ((s.alloc.2.zeroPage s.alloc.1).copyPage s.alloc.1 srcp) :=
    Grown.freshRow hgrow₂.inv hf₂ fun t ht i => entry_blit_of_ne ht (by omega) (by omega) i
  have hkept := ((hgrow.trans hgrow₂).trans hgrow₃).toKept
  have hflags : FlagsOk flagUserWritable := by decide
  rcases pagingMap_cases vaddr hgrow₃.inv hr (hgrow₃.fresh _ (by simp) hf₂) hflags with
    ⟨s', heq, hgrow₄⟩ | ⟨s', heq, hgrow₄, -⟩
  · rw [heq]
    exact ⟨hgrow₄.inv, hkept.trans hgrow₄.toKept⟩
  · rw [heq]
    exact ⟨hgrow₄.inv, hkept.trans hgrow₄.toKept⟩

section Clone

variable {I : Mm → Prop} {src dst base : Nat}
  (hpage : ∀ s vaddr srcp, I s → I (s.clonePage dst vaddr srcp).2)
include hpage

theorem clonePt_inv (h : I s) (spt : Nat) (k : Fin 512) : I (Mm.clonePt dst base spt k s).2 := by
  by_cases hp : present (entry s.mem spt k) = true
  · by_cases hu : user (entry s.mem spt k) = true
    · simpa [Mm.clonePt, hp, hu] using hpage _ _ _ h
    · simpa [Mm.clonePt, hu] using h
  · simpa [Mm.clonePt, hp] using h

theorem clonePd_inv (h : I s) (spd : Nat) (c : Fin 512) : I (Mm.clonePd dst base spd c s).2 := by
  rw [Mm.clonePd]
  generalize entry s.mem spd c = e
  by_cases hskip : present e = false ∨ user e = false ∨ base + c * 2 ^ 21 < pagingUserBase
  · rcases hskip with hp | hu | hlow
    · simpa [hp] using h
    · simpa [hu] using h
    · simp only [if_pos hlow, ite_self]
      exact h
  · simp only [not_or, Bool.not_eq_false] at hskip
    simp only [hskip.1, hskip.2.1, hskip.2.2, not_true_eq_false, if_false]
    split_ifs
    · exact runWhile_inv (I := I) (fun _ _ _ h => hpage _ _ _ h) h
    · exact runWhile_inv (I := I) (fun k _ _ h => clonePt_inv hpage h _ k) h

theorem clonePdpt_inv (h : I s) (spdpt : Nat) (c : Fin 512) :
    I (Mm.clonePdpt dst base spdpt c s).2 := by
  rw [Mm.clonePdpt]
  generalize entry s.mem spdpt c = e
  by_cases hp : present e = true
  · rw [if_neg (not_not.mpr hp)]
    exact runWhile_inv (I := I) (fun c _ _ h => clonePd_inv hpage h _ c) h
  · rw [if_pos hp]
    exact h

theorem clonePml4_inv (h : I s) (a : Fin 512) : I (Mm.clonePml4 src dst a s).2 := by
  rw [Mm.clonePml4]
  generalize entry s.mem src a = e
  by_cases hp : present e = true
  · rw [if_neg (not_not.mpr hp)]
    exact runWhile_inv (I := I) (fun c _ _ h => clonePdpt_inv hpage h _ c) h
  · rw [if_pos hp]
    exact h

/-- **What every cloned page keeps, `paging_clone_user_space` keeps.** -/
theorem pagingCloneUserSpace_inv (h : I s) : I (s.pagingCloneUserSpace src dst).2 := by
  rw [Mm.pagingCloneUserSpace]
  by_cases hnull : src = 0 ∨ dst = 0
  · rw [if_pos hnull]
    exact h
  · rw [if_neg hnull]
    exact runWhile_inv (I := I) (fun a _ _ h => clonePml4_inv hpage h a) h

end Clone

theorem Inv.pagingCloneUserSpace (h : Inv b s sp) (src : Nat) {dst : Nat} (hr : dst ∈ sp) :
    Inv b (s.pagingCloneUserSpace src dst).2 sp ∧ Kept sp s (s.pagingCloneUserSpace src dst).2 := by
  refine pagingCloneUserSpace_inv (I := fun s' => Inv b s' sp ∧ Kept sp s s') ?_ ⟨h, Kept.refl⟩
  intro s' vaddr srcp hs'
  obtain ⟨hinv, hkept⟩ := hs'.1.clonePage hr vaddr srcp
  exact ⟨hinv, hs'.2.trans hkept⟩

/-! ## 5. Whole address spaces -/

theorem entry_copyEntries (s : Mm) (dst src : Nat) :
    entry (s.copyEntries dst src).mem dst 0 = entry s.mem dst 0 ∧
      ∀ i : Fin 512, i ≠ 0 → entry (s.copyEntries dst src).mem dst i = entry s.mem src i := by
  constructor
  · rw [entry, entry, Mm.copyEntries, readLE_blit_of_disjoint]
    simp
  intro i hi
  have hdst : dst * 4096 + i.val * 8 = dst * 4096 + 8 + (i.val - 1) * 8 := by omega
  have hin : (i.val - 1) * 8 + 8 ≤ 511 * 8 := by omega
  rw [entry, entry, Mm.copyEntries, hdst, readLE_blit_of_within hin]
  refine readLE_congr fun j _ => ?_
  have hidx : src * 4096 + 8 + ((i.val - 1) * 8 + j) = src * 4096 + i.val * 8 + j := by
    clear hin hdst
    omega
  exact congrArg s.mem hidx

/-- A store to a fresh frame. -/
theorem Grown.storeFresh (h : Inv b s sp) (hf : Fresh b s sp f) (i : Fin 512) (e : Nat) :
    Grown b sp none s (s.store f i e) :=
  Grown.freshRow h hf fun _ ht _ => entry_store_of_ne (.inl ht)

/-- **The kernel half of a new address space** makes two fresh frames one more space. -/
theorem Inv.kernelHalf (h : Inv b s sp) {pml4 pdpt : Nat} (hr : Fresh b s sp pml4)
    (hf : Fresh b s sp pdpt) (hne : pml4 ≠ pdpt) : Grown b sp none s (s.kernelHalf pml4 pdpt) ∧
      Inv b (s.kernelHalf pml4 pdpt) (pml4 :: sp) ∧
      ∀ p t, Visible p → walkFrom (s.kernelHalf pml4 pdpt).mem pml4 p = some t →
        (p = [] ∧ t = pml4) ∨ (p = [0] ∧ t = pdpt) := by
  have hnone : ∀ g, (none : Option Nat) ≠ some g := by simp
  obtain ⟨g₁, z₁⟩ := Grown.zeroPage h hr
  obtain ⟨g₂, z₂⟩ := Grown.zeroPage g₁.inv (g₁.fresh _ (hnone _) hf)
  have g₁₂ := g₁.trans g₂
  have hroot₂ : ∀ i, entry ((s.zeroPage pml4).zeroPage pdpt).mem pml4 i = 0 := by
    intro i
    rw [← z₁ i, Mm.zeroPage]
    split_ifs
    · rfl
    · exact entry_blit_of_ne hne (by omega) (by omega) i
  generalize hs₂ : (s.zeroPage pml4).zeroPage pdpt = s₂ at g₂ z₂ g₁₂ hroot₂
  have hcr3 : s.kernelCr3 = b.pml4 := h.kernel.cr3
  have g₃ : Grown b sp none s₂ (s₂.copyEntries pml4 s.kernelCr3) :=
    Grown.freshRow g₂.inv (g₁₂.fresh _ (hnone _) hr) fun t ht i =>
      entry_blit_of_ne ht (by omega) (by omega) i
  obtain ⟨hroot₃, hrest₃⟩ := entry_copyEntries s₂ pml4 s.kernelCr3
  have hrest₃ : ∀ i, i ≠ 0 → entry (s₂.copyEntries pml4 s.kernelCr3).mem pml4 i = 0 := by
    intro i hi
    rw [hrest₃ i hi, hcr3]
    exact g₂.inv.kernel.rootRest i hi
  have hpdpt₃ : ∀ i, entry (s₂.copyEntries pml4 s.kernelCr3).mem pdpt i = 0 := by
    intro i
    rw [← z₂ i]
    exact entry_blit_of_ne hne.symm (by omega) (by omega) i
  have g₁₃ := g₁₂.trans g₃
  generalize hs₃ : s₂.copyEntries pml4 s.kernelCr3 = s₃ at g₃ g₁₃ hroot₃ hrest₃ hpdpt₃
  have hk₃ := g₃.inv.kernel
  have hslot : supervisorEntry (entry s₃.mem (entryFrame (entry s₃.mem s₃.kernelCr3 0)) 0) =
      b.kernelSlot := by
    rw [hk₃.cr3, hk₃.root, entryFrame_tableEntry, hk₃.pdpt]
    rfl
  have hhalf : s.kernelHalf pml4 pdpt =
      (s₃.store pdpt 0 b.kernelSlot).store pml4 0 (tableEntry pdpt) := by
    rw [Mm.kernelHalf, hs₂, hs₃, hslot]
  have g₄ := Grown.storeFresh g₃.inv (g₁₃.fresh _ (hnone _) hf) 0 b.kernelSlot
  have g₁₄ := g₁₃.trans g₄
  have g₅ := Grown.storeFresh g₄.inv (g₁₄.fresh _ (hnone _) hr) 0 (tableEntry pdpt)
  have g₁₅ := g₁₄.trans g₅
  rw [hhalf]
  generalize hs₅ : (s₃.store pdpt 0 b.kernelSlot).store pml4 0 (tableEntry pdpt) = s₅ at g₅ g₁₅
  have hroot₅ : entry s₅.mem pml4 0 = tableEntry pdpt := by
    rw [← hs₅, entry_store_self, tableEntry_mod (Boot.ram_lt hf.ram)]
  have hrest₅ : ∀ i, i ≠ 0 → entry s₅.mem pml4 i = 0 := by
    intro i hi
    rw [← hs₅, entry_store_of_ne (.inr hi), entry_store_of_ne (.inl hne), hrest₃ i hi]
  have hslot₅ : entry s₅.mem pdpt 0 = b.kernelSlot := by
    have hsmall := Boot.tables_small (b := b)
    have hmax : pmmMaxFrames = 16777216 := rfl
    rw [← hs₅, entry_store_of_ne (.inl hne.symm), entry_store_self, kernelSlot_eq, Boot.pd]
    omega
  have hpdpt₅ : ∀ i, i ≠ 0 → entry s₅.mem pdpt i = 0 := by
    intro i hi
    rw [← hs₅, entry_store_of_ne (.inl hne.symm), entry_store_of_ne (.inr hi), hpdpt₃ i]
  refine ⟨g₁₅,
    g₅.inv.addRoot (g₁₅.fresh _ (hnone _) hr) (g₁₅.fresh _ (hnone _) hf) hne hroot₅ hrest₅
    hslot₅ hpdpt₅, fun p t hv hw => walk_bare hroot₅ hrest₅ hpdpt₅ hv hw⟩

theorem kernelHalf_bytes (s : Mm) (pml4 pdpt : Nat) :
    Within (fun f => f = pml4 ∨ f = pdpt) s (s.kernelHalf pml4 pdpt) ∧
      (s.kernelHalf pml4 pdpt).pmm = s.pmm := by
  have hcopy : Within (fun f => f = pml4 ∨ f = pdpt) ((s.zeroPage pml4).zeroPage pdpt)
      (((s.zeroPage pml4).zeroPage pdpt).copyEntries pml4 s.kernelCr3) :=
    Within.blit (.inl rfl) (by omega) (by omega)
  refine ⟨?_, ?_⟩
  · have hzero := Within.trans (F := fun f => f = pml4 ∨ f = pdpt)
      (Within.zeroPage (s := s) (.inl rfl)) (Within.zeroPage (.inr rfl))
    exact ((hzero.trans hcopy).trans (Within.store (.inr rfl) _)).trans (Within.store (.inl rfl) _)
  · show ((s.zeroPage pml4).zeroPage pdpt).pmm = s.pmm
    rw [zeroPage_pmm, zeroPage_pmm]

/-- **A new address space**: the old ones are kept, and all it is made of was obtained for it. -/
structure NewSpace (b : Boot) (sp : List Nat) (r : Nat) (s s' : Mm) : Prop where
  inv : Inv b s' (r :: sp)
  kept : Kept sp s s'
  bytes : Within (Obtained s s') s s'
  account : ∀ g, s.pmm.free g = true ↔ s'.pmm.free g = true ∨ Private s' r g
  paths : ∀ p f, Visible p → walkFrom s'.mem r p = some f → p <+: [0, pdptIdx s.lapicBase]

theorem NewSpace.frees (h : NewSpace b sp r s s') (f : Nat) (hf : s'.pmm.free f = true) :
    s.pmm.free f = true := (h.account f).mpr (.inl hf)

theorem NewSpace.tables (h : NewSpace b sp r s s') (t : Nat) (ht : Table s' r t) :
    Obtained s s' t := by
  obtain ⟨p, hv, -, hw⟩ := ht
  exact ⟨(h.account t).mpr (.inr ⟨p, hv, hw⟩), h.inv.taken t ⟨r, p, mem_cons_self, hv, hw⟩⟩

theorem NewSpace.grow (h : NewSpace b sp r s s')
    (h' : GrownAt b (r :: sp) r [0, pdptIdx s'.lapicBase] none s' s'') : NewSpace b sp r s s'' := by
  have hback : ∀ t, Table s' r t → Obtained s s'' t :=
    fun t ht => (h.tables t ht).trans_left h'.frees
  refine ⟨h'.inv, h.kept.trans (h'.toKept.mono fun _ => mem_cons_of_mem r), ?_, fun g => ?_,
    fun p f hv hw => ?_⟩
  · have hfirst : Within (Obtained s s'') s s' := fun a hne => (h.bytes a hne).trans_left h'.frees
    refine hfirst.trans fun a hne => ?_
    exact (h'.bytes a hne).elim (fun hf => hf.trans_right h.frees) (hback _)
  · rw [h.account g, h'.account g]
    simp
  · rw [← h.kept.lapic]
    rcases h'.along p f hv hw with hw | hp
    · rw [h.kept.lapic]
      exact h.paths p f hv hw
    · exact hp.1

theorem NewSpace.initAddressSpace {pml4 pdpt : Nat}
    (h : NewSpace b sp pml4 s (s'.kernelHalf pml4 pdpt)) :
    NewSpace b sp pml4 s (s'.initAddressSpace pml4 pdpt) := by
  rw [Mm.initAddressSpace]
  by_cases hl : (s'.kernelHalf pml4 pdpt).lapicBase = 0
  · rw [if_neg (by simpa using hl)]
    exact h
  rw [if_pos hl]
  rcases pagingMapLarge_cases h.inv mem_cons_self hl with ⟨s₂, heq, hgrow⟩ | ⟨s₂, pd, heq, hgrow, -⟩
  · rw [heq]
    exact h.grow hgrow
  · rw [heq]
    exact h.grow hgrow

/-- **The kernel half of a new space**: its root and one table, which are the frames it was
    given. -/
theorem NewSpace.kernelHalf (h : Inv b s sp) (hne : s.alloc.1 ≠ 0) (hne' : s.alloc.2.alloc.1 ≠ 0) :
    NewSpace b sp s.alloc.1 s (s.alloc.2.alloc.2.kernelHalf s.alloc.1 s.alloc.2.alloc.1) ∧
      ∀ p t, Visible p →
        walkFrom (s.alloc.2.alloc.2.kernelHalf s.alloc.1 s.alloc.2.alloc.1).mem s.alloc.1 p =
          some t →
        p <+: [0] := by
  rcases Grown.alloc h with ⟨hzero, -⟩ | ⟨-, hgrow, hf, -⟩
  · exact absurd hzero hne
  rcases Grown.alloc hgrow.inv with ⟨hzero', -⟩ | ⟨-, hgrow', hf', hother⟩
  · exact absurd hzero' hne'
  obtain ⟨hhalf, hinv, hwalk⟩ :=
    hgrow'.inv.kernelHalf (hgrow'.fresh _ (by simp) hf) hf' (hother _ hf)
  obtain ⟨hbytes, hpmm⟩ := kernelHalf_bytes s.alloc.2.alloc.2 s.alloc.1 s.alloc.2.alloc.1
  obtain ⟨q, -, -, hwq⟩ := hinv.slot_walk mem_cons_self
  have hkept := ((hgrow.trans hgrow').trans hhalf).toKept
  generalize s.alloc.2.alloc.2.kernelHalf s.alloc.1 s.alloc.2.alloc.1 = s' at *
  have hfree : s'.pmm.free = s.alloc.2.alloc.2.pmm.free := congrArg Pmm.free hpmm
  have hq : q = s.alloc.2.alloc.1 := by
    rcases hwalk [0] q (visible_single 0) hwq with ⟨hnil, -⟩ | ⟨-, hq⟩
    · cases hnil
    · exact hq
  have hsub : ∀ g, s'.pmm.free g = true → s.alloc.2.pmm.free g = true :=
    fun g hg => alloc_frees s.alloc.2 g (by rw [← hfree]; exact hg)
  have hpml4 : Obtained s s' s.alloc.1 := (alloc_obtained hne).trans_left hsub
  have hpdpt : Obtained s s' s.alloc.2.alloc.1 :=
    ((alloc_obtained hne').trans_left fun g hg => by rw [← hfree]; exact hg).trans_right
    (alloc_frees s)
  have hpre : ∀ p t, Visible p → walkFrom s'.mem s.alloc.1 p = some t → p <+: [0] := by
    intro p t hv hw
    rcases hwalk p t hv hw with ⟨rfl, -⟩ | ⟨rfl, -⟩
    · exact nil_prefix
    · exact prefix_refl _
  refine ⟨⟨hinv, hkept, fun a hchange => ?_, fun g => ⟨fun hg => ?_, ?_⟩,
    fun p t hv hw => ?_⟩, hpre⟩
  · exact (hbytes a hchange).elim (fun h => h ▸ hpml4) fun h => h ▸ hpdpt
  · rw [hfree]
    by_cases hg₁ : g = s.alloc.1
    · exact .inr ⟨[], visible_nil, by rw [hg₁]; rfl⟩
    · by_cases hg₂ : g = s.alloc.2.alloc.1
      · exact .inr ⟨[0], visible_single 0, by rw [hg₂, ← hq]; exact hwq⟩
      · exact .inl (alloc_keeps (alloc_keeps hg hg₁) hg₂)
  · rintro (hg | ⟨p, hv, hw⟩)
    · exact alloc_frees s g (hsub g hg)
    · rcases hwalk p g hv hw with ⟨-, rfl⟩ | ⟨-, rfl⟩
      · exact hpml4.1
      · exact hpdpt.1
  · exact (hpre p t hv hw).trans ⟨[pdptIdx s.lapicBase], rfl⟩

/-- **What `paging_new_address_space` does**: it fails and gives back what it took, or it makes a
    new address space. -/
theorem pagingNewAddressSpace_cases (h : Inv b s sp) :
    (∃ s', s.pagingNewAddressSpace = (0, s') ∧ Inv b s' sp ∧ s'.mem = s.mem ∧
      s'.lapicBase = s.lapicBase ∧ ∀ f, s'.pmm.free f = true → s.pmm.free f = true) ∨
    (∃ r s', s.pagingNewAddressSpace = (r, s') ∧ r ≠ 0 ∧ NewSpace b sp r s s') := by
  rw [Mm.pagingNewAddressSpace]
  rcases Grown.alloc h with ⟨hzero, hsame⟩ | ⟨hne, hgrow, hf, -⟩
  · -- no frame for the root, hence none for the second table
    refine .inl ⟨s, ?_, h, rfl, rfl, fun _ hf => hf⟩
    rw [hsame, hzero, hsame]
    simp
  rcases Grown.alloc hgrow.inv with ⟨hzero', hsame'⟩ | ⟨hne', -⟩
  · refine .inl ⟨s.alloc.2.release s.alloc.1, ?_, hgrow.inv.release fun _ =>
      hf.toLoose, rfl, rfl, ?_⟩
    · rw [hzero', hsame']
      simp [hne]
    · intro g hg
      rcases (Pmm.freeFrame_free _ _ g).mp hg with hold | ⟨rfl, -⟩
      · exact alloc_frees s g hold
      · exact (alloc_obtained hne).1
  · refine .inr ⟨s.alloc.1, s.alloc.2.alloc.2.initAddressSpace s.alloc.1 s.alloc.2.alloc.1, ?_, hne,
      (NewSpace.kernelHalf h hne hne').1.initAddressSpace⟩
    simp only [hne, hne', or_self, if_false]

theorem Inv.pagingNewAddressSpace (h : Inv b s sp) (hne : s.pagingNewAddressSpace.1 ≠ 0) :
    Inv b s.pagingNewAddressSpace.2 (s.pagingNewAddressSpace.1 :: sp) := by
  rcases pagingNewAddressSpace_cases h with ⟨s', heq, -⟩ | ⟨r, s', heq, -, hnew⟩
  · exact absurd (by rw [heq]) hne
  · rw [heq]
    exact hnew.inv

/-- The index of the page directory that `free_user_tree` leaves out. -/
def Skipped (lapicBase : Nat) (j : Fin 512) : Prop :=
  lapicBase ≠ 0 ∧ j.val = lapicBase / 2 ^ 30 % 2 ^ 32

instance (lapicBase : Nat) (j : Fin 512) : Decidable (Skipped lapicBase j) :=
  inferInstanceAs (Decidable (_ ∧ _))

/-- The paths `free_user_tree` follows: behind the entry 0 of the root, without the directory of the
    APIC. -/
def Walked (lapicBase : Nat) : List (Fin 512) → Prop
  | [] => True
  | [i] => i = 0
  | i :: j :: _ => i = 0 ∧ ¬ Skipped lapicBase j

instance (lapicBase : Nat) : DecidablePred (Walked lapicBase)
  | [] => isTrue trivial
  | [i] => inferInstanceAs (Decidable (i = 0))
  | i :: j :: _ => inferInstanceAs (Decidable (i = 0 ∧ ¬ Skipped lapicBase j))

/-- The frames `free_user_tree` releases below a page directory without huge entries. -/
theorem mem_pdEntryFrames {m : Phys} {e : Nat} (hsmall : present e = true → large e = false)
    (hf : f ∈ Mm.pdEntryFrames m e) : present e = true ∧ large e = false ∧
      (f = entryFrame e ∨ ∃ k, present (entry m (entryFrame e) k) = true ∧
        f = entryFrame (entry m (entryFrame e) k)) := by
  by_cases hp : present e = true
  · have hl := hsmall hp
    refine ⟨hp, hl, ?_⟩
    simp only [Mm.pdEntryFrames, hp, hl, not_true_eq_false, if_false, Bool.false_eq_true,
      mem_append, mem_map, mem_filter, mem_singleton] at hf
    rcases hf with ⟨k, ⟨-, hk⟩, rfl⟩ | rfl
    · exact .inr ⟨k, hk, rfl⟩
    · exact .inl rfl
  · simp [Mm.pdEntryFrames, hp] at hf

/-- The last entry on the path `p` holds the frame `f` and nothing else above its flags. -/
def Exact (m : Phys) (r f : Nat) (p : List (Fin 512)) : Prop :=
  ∀ q l t, p = q ++ [l] → walkFrom m r q = some t → entryFrame (entry m t l) = f

theorem exact_snoc {m : Phys} (hw : walkFrom m r p = some t) (i : Fin 512) :
    Exact m r (entryFrame (entry m t i)) (p ++ [i]) := by
  intro q l t' hpath hw'
  obtain ⟨rfl, hl⟩ := append_inj' hpath rfl
  obtain rfl : i = l := head_eq_of_cons_eq hl
  rw [Option.some.inj (hw.symm.trans hw')]

/-- **The frames `free_user_tree` releases** are frames of the tree of its root. -/
theorem walk_of_mem_userTreeFrames (h : Inv b s sp) (hr : r ∈ sp)
    (hf : f ∈ Mm.userTreeFrames s.mem s.lapicBase r) (hlt : f < pmmMaxFrames) :
    ∃ p, Visible p ∧ Walked s.lapicBase p ∧ Exact s.mem r f p ∧ walkFrom s.mem r p = some f := by
  obtain ⟨q, hq, -, hwq⟩ := h.slot_walk hr
  have hroot : walkFrom s.mem r [] = some r := rfl
  simp only [Mm.userTreeFrames, hq, entryFrame_tableEntry, mem_append, mem_flatMap,
    mem_filter, mem_cons, not_mem_nil, or_false] at hf
  rcases hf with ⟨i, ⟨-, hi⟩, hf⟩ | rfl | rfl
  · have hv : Visible [0, i] := visible_cons_cons.mpr fun hcon => by simp [hcon.2] at hi
    by_cases hp : present (entry s.mem q i) = true
    swap
    · simp [Mm.pdptEntryFrames, hp] at hf
    have hwpd : walkFrom s.mem r [0, i] = some (entryFrame (entry s.mem q i)) := by
      refine (walkFrom_snoc hwq i).trans ?_
      simp [child, hp]
    by_cases hskip : s.lapicBase ≠ 0 ∧ i.val = s.lapicBase / 2 ^ 30 % 2 ^ 32
    · rw [Mm.pdptEntryFrames, if_neg (not_not.mpr hp), if_pos hskip] at hf
      cases hf
    rw [Mm.pdptEntryFrames, if_neg (not_not.mpr hp), if_neg hskip] at hf
    simp only [mem_append, mem_flatMap, mem_singleton] at hf
    rcases hf with ⟨j, -, hf⟩ | rfl
    · -- outside the gigabyte of the APIC no entry is huge
      have hsmall : present (entry s.mem (entryFrame (entry s.mem q i)) j) = true →
          large (entry s.mem (entryFrame (entry s.mem q i)) j) = false := by
        intro hpj
        rw [← Bool.not_eq_true]
        intro hlj
        obtain ⟨hl, -, hji⟩ := h.huge r hr 0 i j _ hv hwpd hpj hlj
        exact hskip ⟨hl, by omega⟩
      obtain ⟨hpj, hlj, hf⟩ := mem_pdEntryFrames hsmall hf
      have hwpt := walk_pt hwpd hpj (Bool.eq_false_iff.mp hlj)
      rcases hf with rfl | ⟨k, hpk, rfl⟩
      · exact ⟨[0, i, j], visible_cons_cons.mpr (visible_cons_cons.mp hv), ⟨rfl, hskip⟩,
          exact_snoc hwpd j, hwpt⟩
      · refine ⟨[0, i, j, k], visible_cons_cons.mpr (visible_cons_cons.mp hv), ⟨rfl, hskip⟩,
          exact_snoc hwpt k, ?_⟩
        rw [walk_leaf hwpt hpk, Nat.mod_eq_of_lt (Nat.lt_trans hlt (by decide))]
    · exact ⟨[0, i], hv, ⟨rfl, hskip⟩, exact_snoc hwq i, hwpd⟩
  · have hexact := exact_snoc hroot 0
    rw [hq, entryFrame_tableEntry] at hexact
    exact ⟨[0], visible_single 0, rfl, hexact, hwq⟩
  · refine ⟨[], visible_nil, trivial, fun q l t hpath _ => ?_, rfl⟩
    cases q <;> cases hpath

theorem Inv.pagingFreeAddressSpace (h : Inv b s sp) (hr : r ∈ sp) :
    Inv b (s.pagingFreeAddressSpace r) (sp.filter (· ≠ r)) := by
  rw [Mm.pagingFreeAddressSpace]
  by_cases hnull : r = 0 ∨ r = s.kernelCr3
  · rw [if_pos hnull]
    exact h.dropRoot r
  rw [if_neg hnull]
  refine (h.dropRoot r).releaseAll fun f hf hlt => ?_
  obtain ⟨p, hv, -, -, hw⟩ := walk_of_mem_userTreeFrames h hr hf hlt
  refine ⟨h.ram f ⟨r, p, hr, hv, hw⟩, ?_⟩
  rintro ⟨r', p', hr', hv', hw'⟩
  obtain ⟨hr'sp, hne⟩ := mem_filter.mp hr'
  obtain ⟨rfl, -⟩ := h.forest.inj r r' p p' f hr hr'sp hv hv' hw hw'
  simp at hne

/-- `paging_free_address_space` writes no memory. -/
theorem pagingFreeAddressSpace_mem (s : Mm) (r : Nat) : (s.pagingFreeAddressSpace r).mem = s.mem ∧
      (s.pagingFreeAddressSpace r).lapicBase = s.lapicBase := by
  rw [Mm.pagingFreeAddressSpace]
  split_ifs
  · exact ⟨rfl, rfl⟩
  · rw [Mm.freeUserTree, foldl_release]
    exact ⟨rfl, rfl⟩

/-- A store to the kernel's page directory pointer table, away from its entry 0. -/
theorem Shape.storeKernel (h : Shape b s sp) (hl : s.lapicBase ≠ 0) (hi : i ≠ 0) (e : Nat) :
    Shape b (s.store b.pdpt i e) sp ∧ ∀ g, Tree (s.store b.pdpt i e) sp g ↔ Tree s sp g := by
  have hpml4 : b.pml4 ≠ b.pdpt := by simp [Boot.pdpt]
  have hpd : b.pd ≠ b.pdpt := by simp [Boot.pdpt, Boot.pd]
  refine h.otherRow ⟨h.kernel.cr3, ?_, ?_, ?_, fun h0 => absurd h0 hl, ?_, h.kernel.lapic⟩ ?_
  · exact (entry_store_of_ne (.inl hpml4)).trans h.kernel.root
  · exact fun i hi => (entry_store_of_ne (.inl hpml4)).trans (h.kernel.rootRest i hi)
  · exact (entry_store_of_ne (.inr hi.symm)).trans h.kernel.pdpt
  · exact fun k => (entry_store_of_ne (.inl hpd)).trans (h.kernel.pd k)
  · intro t i' ht
    refine entry_store_of_ne (.inl ?_)
    have hlow := Boot.tables_lt_ram (h.ram t ht)
    rw [Boot.pdpt]
    omega

theorem Inv.storeKernel (h : Inv b s sp) (hl : s.lapicBase ≠ 0) (hi : i ≠ 0) (e : Nat) :
    Inv b (s.store b.pdpt i e) sp ∧ ∀ g, Tree (s.store b.pdpt i e) sp g ↔ Tree s sp g := by
  obtain ⟨hshape, htree⟩ := h.toShape.storeKernel hl hi e
  exact ⟨⟨hshape, h.free, fun g hg => h.taken g ((htree g).mp hg)⟩, htree⟩

/-- A new table below the kernel's page directory pointer table. -/
theorem Inv.newKernelTable (h : Inv b s sp) (hl : s.lapicBase ≠ 0) (hi : i ≠ 0) :
    s.newTable b.pdpt i = (none, s) ∨
    ∃ f s', s.newTable b.pdpt i = (some f, s') ∧ Inv b s' sp ∧ Fresh b s' sp f := by
  rcases Grown.alloc h with ⟨hzero, hsame⟩ | ⟨hne, hgrow, hf, -⟩
  · left
    rw [Mm.newTable, if_pos hzero, hsame]
  right
  have hgrow₂ := (Grown.zeroPage hgrow.inv hf).1
  have hf₂ := hgrow₂.fresh _ (by simp) hf
  obtain ⟨h₃, htree₃⟩ := hgrow₂.inv.storeKernel (by rw [hgrow₂.lapic, hgrow.lapic]; exact hl) hi
    (tableEntry s.alloc.1)
  exact ⟨s.alloc.1, _, by rw [Mm.newTable, if_neg hne], h₃,
    ⟨hf₂.ram, fun ht => hf₂.apart ((htree₃ _).mp ht)⟩, hf₂.taken⟩

/-- The APIC page in the kernel root. -/
theorem Inv.mapKernelLarge (h : Inv b s sp) (hrest : ∀ i, i ≠ 0 → entry s.mem b.pdpt i = 0) :
    Inv b (s.pagingMapLarge b.pml4 s.lapicBase s.lapicBase flagWritable).2 sp := by
  by_cases hguard : s.lapicBase < pagingUserBase ∨ s.lapicBase % 0x200000 ≠ 0 ∨
      s.lapicBase % 0x200000 ≠ 0
  · rw [Mm.pagingMapLarge, if_pos hguard]
    exact h
  have hbase : pagingUserBase = 0x40000000 := rfl
  have hlt := h.kernel.lapic
  have hl : s.lapicBase ≠ 0 := by omega
  have hi : pml4Idx s.lapicBase = 0 := Fin.ext (by simp [pml4Idx]; omega)
  have hj : pdptIdx s.lapicBase ≠ 0 := by
    intro hcon
    have hval := congrArg Fin.val hcon
    rw [pdptIdx, Fin.val_ofNat, Fin.val_zero] at hval
    omega
  have hroot : s.nextTable b.pml4 0 = (some b.pdpt, s) := by
    rw [nextTable_of_present (by rw [h.kernel.root, present_tableEntry]), h.kernel.root,
      entryFrame_tableEntry]
  have hnext : s.nextTable b.pdpt (pdptIdx s.lapicBase) =
      s.newTable b.pdpt (pdptIdx s.lapicBase) := by
    rw [Mm.nextTable, if_neg]
    rw [hrest _ hj]
    decide
  rw [Mm.pagingMapLarge, if_neg hguard, hi, hroot]
  simp only [hnext]
  rcases h.newKernelTable hl hj with hnone | ⟨f, s', heq, h', hf⟩
  · rw [hnone]
    exact h
  · rw [heq]
    dsimp only
    split_ifs
    · exact h'
    · exact (Grown.storeFresh h' hf _ _).inv

/-- The APIC entry of the kernel root is outside every address space. -/
theorem Inv.pagingMapLapic (h : Inv b s sp) {phys : Nat} (hphys : phys < 2 ^ 39) :
    Inv b (s.pagingMapLapic phys) sp := by
  rw [Mm.pagingMapLapic]
  by_cases hl : s.lapicBase = 0
  swap
  · rw [if_pos hl]
    exact h
  have hrest := h.kernel.pdptRest hl
  have h₁ : Inv b { s with lapicBase := phys } sp := by
    refine ⟨⟨⟨h.kernel.cr3, h.kernel.root, h.kernel.rootRest, h.kernel.pdpt, fun _ => hrest,
      h.kernel.pd, hphys⟩, h.forest, h.ram, h.slot, ?_⟩, h.free, h.taken⟩
    intro r hr i j k pd hv hw hp hlarge
    exact absurd hl (h.huge r hr i j k pd hv hw hp hlarge).1
  have hmap := h₁.mapKernelLarge hrest
  rw [← h.kernel.cr3] at hmap
  rw [if_neg (not_not.mpr hl)]
  exact hmap

end DyntKernel.Mem
