/-
  File:      DyntKernel/Mem/Race.lean
  Subject:   NO FRAME IN USE IS MARKED FREE, in every interleaving that keeps one window closed.

  `sys_munmap` and the rollback of `sys_mmap` release a page twice: `pmm_free_frame` on what
  `paging_translate` returns, and then again inside `paging_unmap`. After the first release another
  cpu may be given the frame, and the second one marks it free under that cpu.

  * `OwnedTaken` -- the property; `Between`, `Quiet` -- the window between the two releases, and
    the condition: no cpu allocates while another is in it, and no page that is released is huge;
  * `Core` -- the invariant of the memory: address spaces apart, ownership exclusive, pending
    second releases still free; `Core.alloc`, `Core.link`, `Core.release`, `Core.unmap` -- its
    steps;
  * `SmpInv`, `smpInv_step` -- with the program counters;
  * `owned_never_free`, `owned_marked_free` -- every run under the condition, and a run without it.
-/
import DyntKernel.Mem.Ownership
import DyntKernel.Mem.Smp
import Mathlib.Data.List.OfFn

namespace DyntKernel.Mem

open Library Function

variable {va stop t pt phys : Nat} {p : List (Fin 512)} {i : Fin 512}

/-! ## 1. What the tables of one space decide -/

section Rows

variable {b : Boot} {s : Mm} {sp : List Nat} {r : Nat} {m : Phys}

/-- `paging_translate` and the look for a huge page read the rows of the space and the kernel's
    page directory, nothing else. -/
theorem translate_congr (h : Shape b s sp) (hr : r ∈ sp)
    (hrow : ∀ t, Private s r t → ∀ i, entry m t i = entry s.mem t i)
    (hpd : ∀ i, entry m b.pd i = entry s.mem b.pd i) (va : Nat) :
    pagingTranslate m r va = pagingTranslate s.mem r va ∧ hugeAt m r va = hugeAt s.mem r va := by
  have hw₀ : walkFrom s.mem r [] = some r := rfl
  have h₀ := hrow r ⟨[], visible_nil, hw₀⟩ (pml4Idx va)
  by_cases hp₀ : present (entry s.mem r (pml4Idx va)) = true
  swap
  · simp [pagingTranslate, hugeAt, h₀, hp₀]
  have hw₁ : walkFrom s.mem r [pml4Idx va] = some (entryFrame (entry s.mem r (pml4Idx va))) := by
    refine (walkFrom_snoc hw₀ (pml4Idx va)).trans ?_
    simp [child, hp₀]
  have h₁ := hrow _ ⟨_, visible_single _, hw₁⟩ (pdptIdx va)
  generalize hpdpt : entryFrame (entry s.mem r (pml4Idx va)) = pdpt at hw₁ h₁
  by_cases hp₁ : present (entry s.mem pdpt (pdptIdx va)) = true
  swap
  · simp [pagingTranslate, hugeAt, h₀, hpdpt, h₁, hp₁]
  generalize hpd' : entryFrame (entry s.mem pdpt (pdptIdx va)) = pd
  by_cases hslot : pml4Idx va = 0 ∧ pdptIdx va = 0
  · -- the kernel identity slot
    obtain ⟨q, hq, hk, -⟩ := h.slot_walk hr
    obtain rfl : pdpt = q := by rw [← hpdpt, hslot.1, hq, entryFrame_tableEntry]
    obtain rfl : pd = b.pd := by rw [← hpd', hslot.2, hk, entryFrame_kernelSlot]
    obtain ⟨hpres, hlarge⟩ := h.kernel.pd_huge (pdIdx va)
    simp [pagingTranslate, hugeAt, h₀, hpdpt, h₁, hpd', hpd, hpres, hlarge]
  have hv : Visible [pml4Idx va, pdptIdx va] := visible_cons_cons.mpr hslot
  have hw₂ : walkFrom s.mem r [pml4Idx va, pdptIdx va] = some pd := by
    refine (walkFrom_snoc hw₁ (pdptIdx va)).trans ?_
    simp [child, hp₁, hpd']
  have h₂ := hrow _ ⟨_, hv, hw₂⟩ (pdIdx va)
  by_cases hp₂ : present (entry s.mem pd (pdIdx va)) = true
  swap
  · simp [pagingTranslate, hugeAt, h₀, hpdpt, h₁, hpd', h₂, hp₂]
  by_cases hl : large (entry s.mem pd (pdIdx va)) = true
  · simp [pagingTranslate, hugeAt, h₀, hpdpt, h₁, hpd', h₂, hl]
  have hw₃ := walk_pt hw₂ hp₂ hl
  have h₃ := hrow _ ⟨_, visible_cons_cons.mpr hslot, hw₃⟩ (ptIdx va)
  simp [pagingTranslate, hugeAt, h₀, hpdpt, h₁, hpd', h₂, h₃]

end Rows

/-! ## 2. The condition and the property -/

section Statement

variable {n : Nat}

/-- The cpu is between the two releases of a page, or inside the second one. -/
def Between (s : Smp n) (c : Fin n) : Prop :=
  match (s.cpus c).pc with
  | .unmap _ va _ => pagingTranslate s.mm.mem (s.cpus c).cr3 va ≠ 0
  | .unmapHuge _ _ _ _ => True
  | _ => False

/-- The event allocates a frame. -/
def Allocates (s : Smp n) (ev : Fin n × Smp.Act) : Prop :=
  match ev.2, (s.cpus ev.1).pc with
  | .alloc, .idle => True
  | .run, .mmap _ va stop => va < stop
  | .run, .table _ va _ _ k t => present (entry s.mm.mem t (Smp.levelIdx va k)) = false
  | _, _ => False

/-- The event is the first release of a page. -/
def FirstRelease (s : Smp n) (ev : Fin n × Smp.Act) (va : Nat) : Prop :=
  match ev.2, (s.cpus ev.1).pc with
  | .run, .release _ va' stop => va' < stop ∧ va = va'
  | _, _ => False

/-- **The condition on an event**: no cpu allocates while another one is between the two releases
    of a page, and a page that is released is not huge. -/
structure Quiet (s : Smp n) (ev : Fin n × Smp.Act) : Prop where
  window : Allocates s ev → ∀ d, d ≠ ev.1 → ¬ Between s d
  small : ∀ va, FirstRelease s ev va → hugeAt s.mm.mem (s.cpus ev.1).cr3 va = false

/-- **A frame returned to a cpu and not yet released by it is not marked free**, so the next
    allocation does not return it. -/
structure OwnedTaken (s : Smp n) : Prop where
  taken : ∀ c f, s.owned c f = true → s.mm.pmm.free f = false
  once : s.mm.alloc.1 ≠ 0 → ∀ c, s.owned c s.mm.alloc.1 = false

/-! ## 3. The invariant of the memory -/

/-- **The invariant of the memory.** `pend c f`: the second release of `f` by `c` is to come. -/
structure Core (b : Boot) (mm : Mm) (root : Fin n → Nat) (own : Fin n → Nat → Bool)
    (pend : Fin n → Nat → Prop) : Prop where
  inj : Function.Injective root
  shape : Shape b mm (List.ofFn root)
  /-- Frame 0 is released by a rollback over a page that was not mapped. -/
  free : ∀ f, f ≠ 0 → mm.pmm.free f = true → b.Ram f
  taken : ∀ c f, Private mm (root c) f → mm.pmm.free f = false ∨ pend c f
  owned : ∀ c f, own c f = true → mm.pmm.free f = false ∧ b.Ram f
  exclusive : ∀ c d f, own c f = true → own d f = true → c = d
  priv : ∀ c d f, Private mm (root c) f → own d f = true → d = c
  pending : ∀ c f, pend c f → f < pmmMaxFrames → mm.pmm.free f = true

variable {b : Boot} {mm : Mm} {root : Fin n → Nat} {own : Fin n → Nat → Bool}
  {pend : Fin n → Nat → Prop} {c : Fin n} {f : Nat}

theorem mem_roots (root : Fin n → Nat) (c : Fin n) : root c ∈ List.ofFn root :=
  List.mem_ofFn.mpr ⟨c, rfl⟩

theorem tree_roots {mm : Mm} : Tree mm (List.ofFn root) f ↔ ∃ c, Private mm (root c) f := by
  rw [tree_iff]
  constructor
  · rintro ⟨r, hr, hp⟩
    obtain ⟨c, rfl⟩ := List.mem_ofFn.mp hr
    exact ⟨c, hp⟩
  · rintro ⟨c, hp⟩
    exact ⟨root c, mem_roots root c, hp⟩

/-- Address spaces are apart. -/
theorem Core.apart (h : Core b mm root own pend) {d : Fin n} (hc : Private mm (root c) f)
    (hd : Private mm (root d) f) : c = d := by
  obtain ⟨p, hv, hw⟩ := hc
  obtain ⟨p', hv', hw'⟩ := hd
  exact h.inj (h.shape.forest.inj _ _ p p' f (mem_roots root c) (mem_roots root d) hv hv' hw hw').1

theorem Core.congr (h : Core b mm root own pend) {pend' : Fin n → Nat → Prop}
    (hp : ∀ c f, pend' c f ↔ pend c f) : Core b mm root own pend' where
  __ := h
  taken c f hf := (h.taken c f hf).imp_right (hp c f).mpr
  pending c f hf := h.pending c f ((hp c f).mp hf)

theorem Core.setPend (h : Core b mm root own pend) {pendc : Nat → Prop}
    (hc : ∀ f, pendc f ↔ pend c f) : Core b mm root own (Function.update pend c pendc) := by
  refine h.congr fun d f => ?_
  by_cases hd : d = c
  · subst hd
    simpa using hc f
  · simp [hd]

theorem Core.swapPend {p p' : Nat → Prop} (h : Core b mm root own (Function.update pend c p))
    (hp : ∀ f, p' f ↔ p f) : Core b mm root own (Function.update pend c p') := by
  have hset := h.setPend (c := c) fun f => (hp f).trans (by simp)
  rwa [update_idem] at hset

/-- The owner of the frames after one was returned to `c`. -/
def gained (own : Fin n → Nat → Bool) (c : Fin n) (f : Nat) : Fin n → Nat → Bool :=
  Function.update own c (Function.update (own c) f true)

/-- The owner of the frames after `c` released one. -/
def lost (own : Fin n → Nat → Bool) (c : Fin n) (f : Nat) : Fin n → Nat → Bool :=
  Function.update own c (Function.update (own c) f false)

theorem gained_iff {d : Fin n} {g : Nat} : gained own c f d g = true ↔
    (d = c ∧ g = f) ∨ own d g = true := by
  by_cases hd : d = c
  · subst hd
    by_cases hg : g = f
    · simp [gained, hg]
    · simp [gained, hg]
  · simp [gained, hd]

theorem lost_iff {d : Fin n} {g : Nat} : lost own c f d g = true ↔
    ¬ (d = c ∧ g = f) ∧ own d g = true := by
  by_cases hd : d = c
  · subst hd
    by_cases hg : g = f
    · simp [lost, hg]
    · simp [lost, hg]
  · simp [lost, hd]

/-- **An allocation while no second release is to come.** -/
theorem Core.alloc (h : Core b mm root own pend) (hq : ∀ c f, ¬ pend c f) (c : Fin n) :
    (mm.alloc.1 = 0 ∧ Core b mm.alloc.2 root own pend) ∨
    (mm.alloc.1 ≠ 0 ∧ Core b mm.alloc.2 root (gained own c mm.alloc.1) pend ∧
      Loose b mm.alloc.2 (List.ofFn root) mm.alloc.1 ∧ ∀ d, own d mm.alloc.1 = false) := by
  rcases mm.pmm.allocFrame_cases with ⟨f, hfree, halloc⟩ | ⟨-, halloc⟩
  swap
  · refine .inl ?_
    rw [Mm.alloc, halloc]
    exact ⟨rfl, h⟩
  have hmm : mm.alloc = (f, { mm with pmm := mm.pmm.take f }) := by rw [Mm.alloc, halloc]
  have hshape := h.shape.setPmm (mm.pmm.take f)
  have hkeep : ∀ g, g ≠ 0 → (mm.pmm.take f).free g = true → b.Ram g := by
    intro g hg hfree'
    refine h.free g hg ?_
    by_contra hne
    rw [Pmm.take_taken (by simpa using hne)] at hfree'
    cases hfree'
  have htaken : ∀ d g, Private mm (root d) g → (mm.pmm.take f).free g = false ∨ pend d g :=
    fun d g hg => (h.taken d g hg).imp_left Pmm.take_taken
  have howned : ∀ d g, own d g = true → (mm.pmm.take f).free g = false ∧ b.Ram g :=
    fun d g hg => ⟨Pmm.take_taken (h.owned d g hg).1, (h.owned d g hg).2⟩
  have hother : ∀ d, own d f = false := by
    intro d
    by_contra hne
    rw [(h.owned d f (by simpa using hne)).1] at hfree
    cases hfree
  rw [hmm]
  by_cases hzero : f = 0
  · -- a released frame 0 is found, and the caller sees a failure
    exact .inl ⟨hzero, h.inj, hshape, hkeep, htaken, howned, h.exclusive, h.priv,
      fun d g hp => absurd hp (hq d g)⟩
  have hram : b.Ram f := h.free f hzero hfree
  have hapart : ∀ d, ¬ Private mm (root d) f := by
    intro d hp
    rcases h.taken d f hp with hf | hf
    · rw [hf] at hfree
      cases hfree
    · exact hq d f hf
  refine .inr ⟨hzero, ⟨h.inj, hshape, hkeep, htaken, ?_, ?_, ?_, ?_⟩, ⟨hram, ?_⟩, hother⟩
  · intro d g hg
    rcases gained_iff.mp hg with ⟨-, rfl⟩ | hg
    · exact ⟨if_pos rfl, hram⟩
    · exact howned d g hg
  · intro d d' g hg hg'
    rcases gained_iff.mp hg with ⟨rfl, rfl⟩ | hold
    · rcases gained_iff.mp hg' with ⟨rfl, -⟩ | hold'
      · rfl
      · rw [hother d'] at hold'
        cases hold'
    · rcases gained_iff.mp hg' with ⟨rfl, rfl⟩ | hold'
      · rw [hother d] at hold
        cases hold
      · exact h.exclusive d d' g hold hold'
  · intro d d' g hp hg
    rcases gained_iff.mp hg with ⟨-, rfl⟩ | hg
    · exact absurd hp (hapart d)
    · exact h.priv d d' g hp hg
  · exact fun d g hp => absurd hp (hq d g)
  · rw [tree_roots]
    rintro ⟨d, hp⟩
    exact hapart d hp

/-- The rows of every space are the same in both memories. -/
def SameRows (mm mm' : Mm) (r : Nat) : Prop :=
  (∀ p f, Visible p → (walkFrom mm'.mem r p = some f ↔ walkFrom mm.mem r p = some f)) ∧
    ∀ t, Private mm r t → ∀ i, entry mm'.mem t i = entry mm.mem t i

theorem SameRows.private {mm' : Mm} {r : Nat} (h : SameRows mm mm' r) :
    Private mm' r f ↔ Private mm r f :=
  exists_congr fun p => and_congr_right fun hv => h.1 p f hv

theorem SameRows.trans {mm' mm'' : Mm} {r : Nat} (h : SameRows mm mm' r)
    (h' : SameRows mm' mm'' r) : SameRows mm mm'' r := by
  refine ⟨fun p f hv => (h'.1 p f hv).trans (h.1 p f hv), fun t ht i => ?_⟩
  rw [h'.2 t (h.private.mpr ht) i, h.2 t ht i]

section

variable (h : Core b mm root own pend)
include h

/-- Writing to a frame in no address space. -/
theorem Core.looseRow (hf : Loose b mm (List.ofFn root) f) {m : Phys}
    (hm : ∀ t, t ≠ f → ∀ i, entry m t i = entry mm.mem t i) :
    Core b { mm with mem := m } root own pend ∧
      ∀ d, SameRows mm { mm with mem := m } (root d) := by
  obtain ⟨hshape, -⟩ := h.shape.looseRow hf hm
  have hsame : ∀ d, SameRows mm { mm with mem := m } (root d) := by
    refine fun d => ⟨fun p g hv => ?_, fun t ht i => hf.row hm t i (tree_roots.mpr ⟨d, ht⟩)⟩
    rw [show walkFrom m (root d) p = walkFrom mm.mem (root d) p from
      walk_write_fresh visible_of_append (hf.row hm) (mem_roots root d) hv]
  refine ⟨⟨h.inj, hshape, h.free, ?_, h.owned, h.exclusive, ?_, h.pending⟩, hsame⟩
  · exact fun d g hp => h.taken d g ((hsame d).private.mp hp)
  · exact fun d d' g hp => h.priv d d' g ((hsame d).private.mp hp)

/-- A frame that is allocated and zeroed. -/
theorem Core.allocZeroed (hq : ∀ c f, ¬ pend c f) (c : Fin n) :
    (mm.alloc.1 = 0 ∧ Core b mm.alloc.2 root own pend) ∨
    ∃ f mm', mm.alloc.1 = f ∧ mm.alloc.2.zeroPage f = mm' ∧ f ≠ 0 ∧
      Core b mm' root (gained own c f) pend ∧
      Loose b mm' (List.ofFn root) f ∧ (∀ j, entry mm'.mem f j = 0) ∧ (∀ d, own d f = false) ∧
      (∀ d, SameRows mm mm' (root d)) ∧ ∀ g, Tree mm' (List.ofFn root) g ↔
        Tree mm (List.ofFn root) g := by
  rcases h.alloc hq c with hzero | ⟨hne, hcore, hf, hother⟩
  · exact .inl hzero
  obtain ⟨hcore', hsame⟩ := hcore.looseRow (m := blit mm.mem (mm.alloc.1 * 4096) 4096 fun _ => 0) hf
    fun t' ht' i' => entry_blit_of_ne ht' (Nat.le_refl _) (Nat.le_refl _) i'
  have htree : ∀ g, Tree (mm.alloc.2.zeroPage mm.alloc.1) (List.ofFn root) g ↔
      Tree mm (List.ofFn root) g := by
    intro g
    rw [Mm.zeroPage, if_neg hne, tree_roots, tree_roots]
    exact exists_congr fun d => (hsame d).private
  refine .inr ⟨_, _, rfl, rfl, hne, ?_, ⟨hf.ram, fun ht => hf.apart ((htree _).mp ht)⟩, ?_,
    hother, ?_, htree⟩
  · rw [Mm.zeroPage, if_neg hne]
    exact hcore'
  · rw [Mm.zeroPage, if_neg hne]
    exact entry_zero
  · rw [Mm.zeroPage, if_neg hne]
    exact hsame

/-- A store to a table of the space of `c` leaves the other spaces alone. -/
theorem Core.sameRows_store
    {e : Nat} (hv : Visible (p ++ [i])) (hw : walkFrom mm.mem (root c) p = some t) {d : Fin n}
    (hd : d ≠ c) : SameRows mm (mm.store t i e) (root d) := by
  have hp : Visible p := visible_of_append p [i] hv
  refine ⟨fun q g hq => ?_, fun t' ht' i' => entry_store_of_ne (.inl ?_)⟩
  · rw [show walkFrom (mm.store t i e).mem (root d) q = walkFrom mm.mem (root d) q from
      walk_write_ne visible_of_append h.shape.forest (mem_roots root c) hp hw
        (fun _ _ => entry_store_of_ne) (mem_roots root d) hq fun hcon => hd (h.inj hcon.1)]
  · rintro rfl
    exact hd (h.apart ht' ⟨p, hp, hw⟩)

/-- **Linking a frame of its own** into the space of `c`. -/
theorem Core.link {e : Nat} (hv : Visible (p ++ [i])) (hw : walkFrom mm.mem (root c) p = some t)
    (hold : present (entry mm.mem t i) = false) (hf : Loose b mm (List.ofFn root) f)
    (hown : own c f = true) (hc : child p.length (e % 2 ^ 64) = some f)
    (hz : p.length < 3 → ∀ j, entry mm.mem f j = 0) : Core b (mm.store t i e) root own pend ∧
      walkFrom (mm.store t i e).mem (root c) (p ++ [i]) = some f ∧
      ∀ g, Tree (mm.store t i e) (List.ofFn root) g ↔ g = f ∨ Tree mm (List.ofFn root) g := by
  obtain ⟨hshape, hnew, htree, -⟩ := h.shape.link (mem_roots root c) hv hw hold hf hc hz
  have hpriv : ∀ d g, Private (mm.store t i e) (root d) g → (d = c ∧ g = f) ∨
      Private mm (root d) g := by
    intro d g hp
    by_cases hd : d = c
    · subst hd
      rcases (htree g).mp (tree_roots.mpr ⟨d, hp⟩) with rfl | hg
      · exact .inl ⟨rfl, rfl⟩
      obtain ⟨d', hd'⟩ := tree_roots.mp hg
      by_cases hdd : d' = d
      · exact .inr (hdd ▸ hd')
      -- the frame was in another space, and still is
      have hp' := (h.sameRows_store (e := e) hv hw hdd).private.mpr hd'
      obtain ⟨q, hq, hwq⟩ := hp
      obtain ⟨q', hq', hwq'⟩ := hp'
      exact absurd (h.inj (hshape.forest.inj _ _ q' q g (mem_roots root d') (mem_roots root d)
        hq' hq hwq' hwq).1) hdd
    · exact .inr ((h.sameRows_store hv hw hd).private.mp hp)
  refine ⟨⟨h.inj, hshape, h.free, ?_, h.owned, h.exclusive, ?_, h.pending⟩, hnew, htree⟩
  · intro d g hp
    rcases hpriv d g hp with ⟨-, rfl⟩ | hp
    · exact .inl (h.owned c g hown).1
    · exact h.taken d g hp
  · intro d d' g hp hg
    rcases hpriv d g hp with ⟨rfl, rfl⟩ | hp
    · exact h.exclusive d' d g hg hown
    · exact h.priv d d' g hp hg

theorem Core.disown : Core b mm root (lost own c f) pend where
  __ := h
  owned d g hg := h.owned d g (lost_iff.mp hg).2
  exclusive d d' g hg hg' := h.exclusive d d' g (lost_iff.mp hg).2 (lost_iff.mp hg').2
  priv d d' g hg hg' := h.priv d d' g hg (lost_iff.mp hg').2

/-- A frame that no cpu holds is marked free; if it is in a space, a second release is to come. -/
theorem Core.freed {pend' : Fin n → Nat → Prop} (hown : ∀ d, own d f = false)
    (hram : f ≠ 0 → f < pmmMaxFrames → b.Ram f) (hf : ∀ d, Private mm (root d) f → pend' d f)
    (hkeep : ∀ d g, pend d g → pend' d g) (hnew : ∀ d g, pend' d g → pend d g ∨ g = f) :
    Core b (mm.release f) root own pend' := by
  have hfree : ∀ g, (mm.release f).pmm.free g = true ↔
      mm.pmm.free g = true ∨ (g = f ∧ f < pmmMaxFrames) := Pmm.freeFrame_free mm.pmm f
  have hstay : ∀ g, mm.pmm.free g = false → g ≠ f → (mm.release f).pmm.free g = false := by
    intro g hg hne
    rw [← Bool.not_eq_true, hfree, hg]
    simp [hne]
  refine ⟨h.inj, h.shape.setPmm _, ?_, ?_, ?_, h.exclusive, h.priv, ?_⟩
  · intro g hg hfg
    rcases (hfree g).mp hfg with hold | ⟨rfl, hlt⟩
    · exact h.free g hg hold
    · exact hram hg hlt
  · intro d g hg
    by_cases hgf : g = f
    · exact .inr (hgf ▸ hf d (hgf ▸ hg))
    · exact (h.taken d g hg).imp (fun hold => hstay g hold hgf) (hkeep d g)
  · intro d g hg
    refine ⟨hstay g (h.owned d g hg).1 ?_, (h.owned d g hg).2⟩
    rintro rfl
    rw [hown d] at hg
    cases hg
  · intro d g hg hlt
    rcases hnew d g hg with hold | rfl
    · exact (hfree g).mpr (.inl (h.pending d g hold hlt))
    · exact (hfree g).mpr (.inr ⟨rfl, hlt⟩)

/-- **The first release** of a page of the space of `c`. -/
theorem Core.release (hp : f < pmmMaxFrames → Private mm (root c) f)
    (hc : ∀ g, ¬ pend c g) : Core b (mm.release f) root (lost own c f)
    (Function.update pend c (· = f)) := by
  have hpend : ∀ d g, Function.update pend c (· = f) d g ↔ (d = c ∧ g = f) ∨ pend d g := by
    intro d g
    by_cases hd : d = c
    · subst hd
      simp [hc]
    · simp [hd]
  refine h.disown.freed (fun d => ?_) (fun _ hlt => h.shape.ram f (tree_roots.mpr ⟨c, hp hlt⟩))
    (fun d hd => ?_)
    (fun d g hg => (hpend d g).mpr (.inr hg)) fun d g hg =>
    ((hpend d g).mp hg).symm.imp_right And.right
  · by_contra hne
    obtain ⟨hnot, hold⟩ := lost_iff.mp (Bool.not_eq_false _ ▸ hne)
    exact hnot ⟨h.priv c d f (hp (Boot.ram_lt (h.owned d f hold).2)) hold, rfl⟩
  · have hlt := Boot.ram_lt (h.shape.ram f (tree_roots.mpr ⟨d, hd⟩))
    exact (hpend d f).mpr (.inl ⟨h.apart hd (hp hlt), rfl⟩)

/-- The release of frame 0, by a rollback over a page that was not mapped. -/
theorem Core.releaseZero : Core b (mm.release 0) root (lost own c 0) pend := by
  have hram : ¬ b.Ram 0 := fun hr => absurd (Boot.tables_lt_ram hr) (by omega)
  refine h.disown.freed (fun d => ?_) (fun hne => absurd rfl hne) (fun d hd => ?_)
    (fun _ _ => id) fun _ _ => .inl
  · by_contra hne
    exact hram (h.owned d 0 (lost_iff.mp (Bool.not_eq_false _ ▸ hne)).2).2
  · exact absurd (h.shape.ram 0 (tree_roots.mpr ⟨d, hd⟩)) hram

/-- **The second release**: the frame is still free, and the leaf goes. -/
theorem Core.unmap (hv : Visible (pathOf va))
    (hw : walkFrom mm.mem (root c) [pml4Idx va, pdptIdx va, pdIdx va] = some pt)
    (hpres : present (entry mm.mem pt (ptIdx va)) = true)
    (hf : f = entryFrame (entry mm.mem pt (ptIdx va))) (hc : ∀ g, pend c g ↔ g = f) :
    Core b ((mm.store pt (ptIdx va) 0).release f) root (lost own c f)
    (Function.update pend c fun _ => False) := by
  obtain ⟨hshape, -, hback, hgone⟩ := h.shape.clearLeaf (mem_roots root c) hv hw hpres
  rw [← hf] at hgone
  have hsame : ∀ g, ((mm.store pt (ptIdx va) 0).release f).pmm.free g = true ↔
      mm.pmm.free g = true := by
    intro g
    refine (Pmm.freeFrame_free mm.pmm f g).trans ⟨?_, .inl⟩
    rintro (hold | ⟨rfl, hlt⟩)
    · exact hold
    · exact h.pending c g ((hc g).mpr rfl) hlt
  have hsame' : ∀ g, ((mm.store pt (ptIdx va) 0).release f).pmm.free g = mm.pmm.free g :=
    fun g => Bool.eq_iff_iff.mpr (hsame g)
  have hpriv : ∀ d g, Private ((mm.store pt (ptIdx va) 0).release f) (root d) g →
      Private mm (root d) g := fun d g hp => hback (root d) (mem_roots root d) g hp
  refine Core.disown ⟨h.inj, hshape.setPmm _, ?_, ?_, ?_, h.exclusive, ?_, ?_⟩
  · exact fun g hg hfg => h.free g hg ((hsame g).mp hfg)
  · intro d g hg
    rw [hsame' g]
    rcases h.taken d g (hpriv d g hg) with hold | hold
    · exact .inl hold
    by_cases hd : d = c
    · subst hd
      obtain rfl := (hc g).mp hold
      have hlt := Boot.ram_lt (h.shape.ram g (tree_roots.mpr ⟨d, hpriv d g hg⟩))
      rw [Nat.mod_eq_of_lt (Nat.lt_trans hlt (by decide))] at hgone
      exact absurd (tree_roots.mpr ⟨d, hg⟩) hgone
    · exact .inr (by simpa [hd] using hold)
  · intro d g hg
    rw [hsame' g]
    exact h.owned d g hg
  · exact fun d d' g hg => h.priv d d' g (hpriv d g hg)
  · intro d g hg hlt
    by_cases hd : d = c
    · subst hd
      simp at hg
    · exact (hsame g).mpr (h.pending d g (by simpa [hd] using hg) hlt)

/-- **A new table** for `c`, while no second release is to come. -/
theorem Core.newTable (hq : ∀ c f, ¬ pend c f) (hv : Visible (p ++ [i]))
    (hw : walkFrom mm.mem (root c) p = some t) (hlen : p.length < 3)
    (hold : present (entry mm.mem t i) = false) :
    (∃ mm', mm.newTable t i = (none, mm') ∧ Core b mm' root own pend ∧ mm'.mem = mm.mem) ∨
    ∃ f mm', mm.newTable t i = (some f, mm') ∧ Core b mm' root (gained own c f) pend ∧
      walkFrom mm'.mem (root c) (p ++ [i]) = some f ∧ (∀ j, entry mm'.mem f j = 0) ∧
      (∀ d, d ≠ c → SameRows mm mm' (root d)) ∧
      ∀ d g, own d g = true → ¬ Tree mm (List.ofFn root) g → ¬ Tree mm' (List.ofFn root) g := by
  rcases h.allocZeroed hq c with
    ⟨hzero, hcore⟩ | ⟨f, mm', hf, hmm, hne, hcore, hloose, hz, hother, hsame, htree⟩
  · exact .inl ⟨mm.alloc.2, by rw [Mm.newTable, if_pos hzero], hcore, rfl⟩
  have hp : Visible p := visible_of_append p [i] hv
  have hw' : walkFrom mm'.mem (root c) p = some t := ((hsame c).1 p t hp).mpr hw
  have hold' : present (entry mm'.mem t i) = false := by
    rw [(hsame c).2 t ⟨p, hp, hw⟩ i]
    exact hold
  have hchild : child p.length (tableEntry f % 2 ^ 64) = some f := by
    rw [tableEntry_mod (Boot.ram_lt hloose.ram)]
    exact child_table hlen _
  obtain ⟨hcore', hnew, htree'⟩ :=
    hcore.link hv hw' hold' hloose (gained_iff.mpr (.inl ⟨rfl, rfl⟩)) hchild
    fun _ => hz
  refine .inr ⟨f, _, by rw [Mm.newTable, hf, if_neg hne, hmm], hcore', hnew, ?_, ?_, ?_⟩
  · intro j
    rw [entry_store_of_ne (.inl ?_), hz j]
    rintro rfl
    exact hloose.apart (tree_roots.mpr ⟨c, p, hp, hw'⟩)
  · intro d hd
    have hstore := hcore.sameRows_store (e := tableEntry f) hv hw' hd
    exact SameRows.trans (hsame d) hstore
  · intro d g hg hout ht
    rcases (htree' g).mp ht with rfl | ht
    · rw [hother d] at hg
      cases hg
    · exact hout ((htree g).mp ht)

end

/-! ## 4. With the program counters -/

/-- The frame of a second release to come, of a cpu with root `r`. -/
def PendingAt (mm : Mm) (r : Nat) (f : Nat) : Pc → Prop
  | .unmap _ va _ => pagingTranslate mm.mem r va ≠ 0 ∧ f = pagingTranslate mm.mem r va / 4096
  | _ => False

def Pending (mm : Mm) (cpu : Cpu) (f : Nat) : Prop := PendingAt mm cpu.cr3 f cpu.pc

/-- The roots of the cpus' address spaces. -/
def Smp.roots (s : Smp n) (c : Fin n) : Nat := (s.cpus c).cr3

/-- What a program counter stands for. -/
def PcOk (mm : Mm) (root : Fin n → Nat) (own : Fin n → Nat → Bool) (c : Fin n) : Pc → Prop
  | .unmap _ va _ => hugeAt mm.mem (root c) va = false
  | .unmapHuge _ _ _ _ => False
  | .mmap _ _ stop => stop ≤ processUserStackTop
  | .table _ va stop phys k t =>
    (pagingUserBase ≤ va ∧ va < stop ∧ stop ≤ processUserStackTop) ∧ k ≤ 2 ∧
      walkFrom mm.mem (root c) ((pathOf va).take k) = some t ∧
      ¬ Tree mm (List.ofFn root) phys ∧ own c phys = true
  | _ => True

/-- **The invariant of the cpus.** -/
structure SmpInv (b : Boot) (s : Smp n) : Prop where
  core : Core b s.mm s.roots s.owned fun c => Pending s.mm (s.cpus c)
  pcs : ∀ c, PcOk s.mm s.roots s.owned c (s.cpus c).pc

end Statement

section Steps

variable {n : Nat} {b : Boot} {s : Smp n} {c : Fin n}

/-- What another cpu sees of a step of `c`: its rows, its frames, and that frames it holds stay
    out of the address spaces. -/
structure Apart (s : Smp n) (c : Fin n) (mm : Mm) (own : Fin n → Nat → Bool) : Prop where
  rows : ∀ d, d ≠ c → SameRows s.mm mm (s.roots d)
  held : ∀ d, d ≠ c → ∀ f, s.owned d f = true → own d f = true
  loose : ∀ d, d ≠ c → ∀ f, s.owned d f = true → ¬ Tree s.mm (List.ofFn s.roots) f →
    ¬ Tree mm (List.ofFn s.roots) f

/-- A change of the bitmap alone. -/
theorem Apart.ofMem (mm : Mm) {own : Fin n → Nat → Bool} (hmem : mm.mem = s.mm.mem)
    (hheld : ∀ d, d ≠ c → ∀ f, s.owned d f = true → own d f = true) : Apart s c mm own := by
  obtain ⟨pmm, mem, kernelCr3, lapicBase⟩ := mm
  obtain rfl : mem = s.mm.mem := hmem
  exact ⟨fun d _ => ⟨fun _ _ _ => Iff.rfl, fun _ _ _ => rfl⟩, hheld, fun _ _ _ _ ht => ht⟩

/-- **The step rule**: a step of `c` keeps the invariant if it keeps the memory's part of it and
    leaves the others alone. -/
theorem SmpInv.edit (h : SmpInv b s) {mm : Mm} {own : Fin n → Nat → Bool} (cpu : Cpu)
    (hcr3 : cpu.cr3 = (s.cpus c).cr3) (hapart : Apart s c mm own) (hcore : Core b mm s.roots own
      (Function.update (fun d => Pending s.mm (s.cpus d)) c (Pending mm cpu)))
    (hpc : PcOk mm s.roots own c cpu.pc) : SmpInv b ⟨mm, Function.update s.cpus c cpu, own⟩ := by
  have hroots : Smp.roots ⟨mm, Function.update s.cpus c cpu, own⟩ = s.roots := by
    funext d
    by_cases hd : d = c
    · subst hd
      simpa [Smp.roots] using hcr3
    · simp [Smp.roots, hd]
  have htranslate : ∀ d, d ≠ c → ∀ va,
      pagingTranslate mm.mem (s.roots d) va = pagingTranslate s.mm.mem (s.roots d) va ∧
        hugeAt mm.mem (s.roots d) va = hugeAt s.mm.mem (s.roots d) va := by
    intro d hd va
    refine translate_congr h.core.shape (mem_roots s.roots d) (hapart.rows d hd).2 (fun i => ?_) va
    rw [hcore.shape.kernel.pd i, h.core.shape.kernel.pd i]
  refine ⟨?_, fun d => ?_⟩
  · rw [hroots]
    refine hcore.congr fun d f => ?_
    by_cases hd : d = c
    · subst hd
      simp
    have htr := fun va => (htranslate d hd va).1
    simp only [Smp.roots] at htr
    simp only [update_of_ne hd, Pending]
    cases (s.cpus d).pc with
    | unmap rollback va stop => simp only [PendingAt, htr]
    | _ => exact Iff.rfl
  rw [hroots]
  by_cases hd : d = c
  · subst hd
    simpa using hpc
  simp only [update_of_ne hd]
  have hold := h.pcs d
  cases hpcd : (s.cpus d).pc with
  | unmap rollback va stop =>
    rw [hpcd] at hold
    exact (htranslate d hd va).2.trans hold
  | unmapHuge rollback va stop k =>
    rw [hpcd] at hold
    exact hold
  | mmap base va stop =>
    rw [hpcd] at hold
    exact hold
  | table base va stop phys k t =>
    rw [hpcd] at hold
    obtain ⟨hva, hk, hw, hloose, hown⟩ := hold
    have hv : Visible ((pathOf va).take k) := by
      refine visible_of_append _ ((pathOf va).drop k) ?_
      rw [List.take_append_drop]
      exact visible_cons_cons.mpr (not_slot_of_user hva.1
        (Nat.lt_trans (Nat.lt_of_lt_of_le hva.2.1 hva.2.2) (by decide)))
    exact ⟨hva, hk, ((hapart.rows d hd).1 _ t hv).mpr hw,
      hapart.loose d hd phys hown hloose, hapart.held d hd phys hown⟩
  | idle => trivial
  | release rollback va stop => trivial

/-- No second release is to come when an event that allocates is quiet. -/
theorem Quiet.noPending {act : Smp.Act} (hq : Quiet s (c, act)) (halloc : Allocates s (c, act))
    (hself : ∀ f, ¬ Pending s.mm (s.cpus c) f) (d : Fin n)
    (f : Nat) : ¬ Pending s.mm (s.cpus d) f := by
  by_cases hd : d = c
  · rw [hd]
    exact hself f
  intro hp
  refine hq.window halloc d hd ?_
  unfold Between
  unfold Pending at hp
  cases hpc : (s.cpus d).pc with
  | unmap rollback va stop =>
    rw [hpc] at hp
    exact hp.1
  | unmapHuge rollback va stop k => trivial
  | _ => rw [hpc] at hp; exact hp.elim

theorem not_pending (mm : Mm) {cpu : Cpu}
    (hpc : ∀ rollback va stop, cpu.pc ≠ .unmap rollback va stop)
    (f : Nat) : ¬ Pending mm cpu f := by
  unfold Pending
  cases hc : cpu.pc with
  | unmap rollback va stop => exact absurd hc (hpc rollback va stop)
  | _ => exact id

/-- A step of `c` outside the window. -/
theorem SmpInv.editQuiet (h : SmpInv b s) {mm : Mm} {own : Fin n → Nat → Bool} (cpu : Cpu)
    (hcr3 : cpu.cr3 = (s.cpus c).cr3) (hapart : Apart s c mm own)
    (hcore : Core b mm s.roots own fun d => Pending s.mm (s.cpus d))
    (hold : ∀ f, ¬ Pending s.mm (s.cpus c) f)
    (hnew : ∀ f, ¬ Pending mm cpu f) (hpc : PcOk mm s.roots own c cpu.pc) :
    SmpInv b ⟨mm, Function.update s.cpus c cpu, own⟩ :=
  h.edit cpu hcr3 hapart (hcore.setPend fun f => iff_of_false (hnew f) (hold f)) hpc

/-- It may only move its program counter. -/
theorem SmpInv.moveQuiet (h : SmpInv b s) (cpu : Cpu) (hcr3 : cpu.cr3 = (s.cpus c).cr3)
    (hold : ∀ f, ¬ Pending s.mm (s.cpus c) f) (hnew : ∀ f, ¬ Pending s.mm cpu f)
    (hpc : PcOk s.mm s.roots s.owned c cpu.pc) :
    SmpInv b ⟨s.mm, Function.update s.cpus c cpu, s.owned⟩ :=
  h.editQuiet cpu hcr3 (Apart.ofMem s.mm rfl fun _ _ _ hf => hf) h.core hold hnew hpc

/-! ## 5. The steps -/

section Idle

variable (h : SmpInv b s) (hpc : (s.cpus c).pc = .idle)
include h hpc

theorem SmpInv.startMunmap (addr len : Nat) : SmpInv b (s.startMunmap c addr len) := by
  unfold Smp.startMunmap
  dsimp only
  split_ifs
  · exact h
  · exact h.moveQuiet _ rfl (not_pending _ (by simp [hpc])) (not_pending _ (by simp)) trivial

theorem SmpInv.startMmap (len : Nat) : SmpInv b (s.startMmap c len) := by
  unfold Smp.startMmap
  generalize pageRound (if len = 0 then 4096 else len) = len'
  dsimp only
  split_ifs with hbad
  · exact h
  · refine h.moveQuiet _ rfl (not_pending _ (by simp [hpc])) (not_pending _ (by simp)) ?_
    exact Nat.le_of_not_lt fun hlt => hbad (.inr hlt)

theorem SmpInv.allocKeep (hq : Quiet s (c, .alloc)) : SmpInv b (s.allocKeep c) := by
  have hself : ∀ f, ¬ Pending s.mm (s.cpus c) f := not_pending _ (by simp [hpc])
  have halloc : Allocates s (c, .alloc) := by simp [Allocates, hpc]
  have hnone := hq.noPending halloc hself
  have hpcok : ∀ mm own, PcOk mm s.roots own c (s.cpus c).pc := by
    intro mm own
    rw [hpc]
    trivial
  have hnew : ∀ mm f, ¬ Pending mm (s.cpus c) f := fun mm => not_pending mm (by simp [hpc])
  unfold Smp.allocKeep
  rcases h.core.alloc hnone c with ⟨hzero, hcore⟩ | ⟨hne, hcore, -, -⟩
  · rw [if_pos hzero]
    have hstep :=
      h.editQuiet (s.cpus c) rfl (Apart.ofMem s.mm.alloc.2 rfl fun _ _ _ hf => hf) hcore hself
      (hnew _) (hpcok _ _)
    rwa [update_eq_self] at hstep
  · rw [if_neg hne]
    have hstep := h.editQuiet (s.cpus c) rfl
      (Apart.ofMem s.mm.alloc.2 rfl fun _ _ _ hf => gained_iff.mpr (.inr hf)) hcore hself (hnew _)
      (hpcok _ _)
    rwa [update_eq_self] at hstep

end Idle

/-- The leaf a page is mapped by is a private frame, as long as it is a frame of the bitmap. -/
theorem private_of_leaf {mm : Mm} {r : Nat} (hv : Visible (pathOf va))
    (hw : walkFrom mm.mem r [pml4Idx va, pdptIdx va, pdIdx va] = some pt)
    (hpres : present (entry mm.mem pt (ptIdx va)) = true) :
    Private mm r (entryFrame (entry mm.mem pt (ptIdx va)) % 2 ^ 51) :=
  ⟨pathOf va, hv, walk_leaf hw hpres⟩

/-- What `paging_translate` says of a page that is mapped by a leaf. -/
theorem SmpInv.leaf_translate (h : SmpInv b s) {f : Nat} (hv : Visible (pathOf va))
    (hw : walkFrom s.mm.mem (s.roots c) [pml4Idx va, pdptIdx va, pdIdx va] = some pt)
    (hpres : present (entry s.mm.mem pt (ptIdx va)) = true)
    (hf : f = entryFrame (entry s.mm.mem pt (ptIdx va)))
    (htr : pagingTranslate s.mm.mem (s.cpus c).cr3 va = f * 4096 + va % 4096) :
    pagingTranslate s.mm.mem (s.cpus c).cr3 va ≠ 0 ∧
    pagingTranslate s.mm.mem (s.cpus c).cr3 va / 4096 = f ∧
      (f < pmmMaxFrames → Private s.mm (s.roots c) f) ∧
      ∀ g,
        (pagingTranslate s.mm.mem (s.cpus c).cr3 va ≠ 0 ∧
          g = pagingTranslate s.mm.mem (s.cpus c).cr3 va / 4096) ↔
        g = f := by
  have hpriv := private_of_leaf hv hw hpres
  rw [← hf] at hpriv
  have hpos : f ≠ 0 := by
    rintro rfl
    have hlow := Boot.tables_lt_ram (h.core.shape.ram _ (tree_roots.mpr ⟨c, hpriv⟩))
    omega
  have hframe : pagingTranslate s.mm.mem (s.cpus c).cr3 va / 4096 = f := by omega
  refine ⟨by omega, hframe, fun hlt => ?_, fun g => ?_⟩
  · rwa [Nat.mod_eq_of_lt (Nat.lt_trans hlt (by decide))] at hpriv
  · rw [hframe]
    exact and_iff_right (by omega)

/-- **The first release.** -/
theorem SmpInv.release (h : SmpInv b s) {rollback : Bool}
    (hpc : (s.cpus c).pc = .release rollback va stop) (hq : Quiet s (c, .run)) {s' : Smp n}
    (hs : s.run c = some s') : SmpInv b s' := by
  have hself : ∀ f, ¬ Pending s.mm (s.cpus c) f := not_pending _ (by simp [hpc])
  simp only [Smp.run, hpc] at hs
  by_cases hend : stop ≤ va
  · rw [if_pos hend] at hs
    obtain rfl := Option.some.inj hs
    exact h.moveQuiet _ rfl hself (not_pending _ (by simp)) trivial
  rw [if_neg hend] at hs
  have hhuge : hugeAt s.mm.mem (s.roots c) va = false :=
    hq.small va (by simp only [FirstRelease, hpc]; exact ⟨by omega, trivial⟩)
  have hheld : ∀ f, ∀ d, d ≠ c → ∀ g, s.owned d g = true → lost s.owned c f d g = true :=
    fun f d hd g hg => lost_iff.mpr ⟨fun hcon => hd hcon.1, hg⟩
  rcases leaf_cases h.core.shape (mem_roots s.roots c) hhuge with
    ⟨hzero, -⟩ | ⟨pt, hv, hw, hpres, htr, -⟩
  · -- nothing is mapped: the rollback releases frame 0, `sys_munmap` nothing
    have hnew : ∀ mm cursor f, mm.mem = s.mm.mem →
        ¬ Pending mm ⟨s.roots c, cursor, .unmap rollback va stop⟩ f := by
      intro mm cursor f hmem hp
      refine hp.1 ?_
      rw [hmem]
      exact hzero
    have hzero' : pagingTranslate s.mm.mem (s.cpus c).cr3 va = 0 := hzero
    rw [hzero'] at hs
    cases rollback with
    | false =>
      obtain rfl := Option.some.inj hs
      exact h.moveQuiet _ rfl hself (fun f => hnew s.mm _ f rfl) hhuge
    | true =>
      obtain rfl := Option.some.inj hs
      exact h.editQuiet _ rfl (Apart.ofMem _ rfl (hheld 0)) h.core.releaseZero hself
        (fun f => hnew _ _ f rfl) hhuge
  · obtain ⟨hmapped, hframe, hpriv, hpend⟩ := h.leaf_translate hv hw hpres rfl htr
    rw [if_pos (.inr hmapped), hframe] at hs
    obtain rfl := Option.some.inj hs
    exact h.edit _ rfl (Apart.ofMem _ rfl (hheld _))
      ((h.core.release hpriv hself).swapPend hpend) hhuge

/-- **The second release.** -/
theorem SmpInv.unmap (h : SmpInv b s) {rollback : Bool}
    (hpc : (s.cpus c).pc = .unmap rollback va stop) {s' : Smp n}
    (hs : s.run c = some s') : SmpInv b s' := by
  have hhuge : hugeAt s.mm.mem (s.cpus c).cr3 va = false := by
    have hok := h.pcs c
    rw [hpc] at hok
    exact hok
  simp only [Smp.run, hpc, hhuge, Bool.false_eq_true, if_false] at hs
  obtain rfl := Option.some.inj hs
  rcases leaf_cases h.core.shape (mem_roots s.roots c) hhuge with
    ⟨hzero, hsame⟩ | ⟨pt, hv, hw, hpres, htr, heq⟩
  · have hmm : s.runUnmap c va = s := by
      have hzero' : pagingTranslate s.mm.mem (s.cpus c).cr3 va = 0 := hzero
      have hsame' : s.mm.pagingUnmap (s.cpus c).cr3 va = s.mm := hsame
      simp only [Smp.runUnmap, hzero', hsame', if_true]
    rw [hmm]
    refine h.moveQuiet _ rfl (fun f hp => ?_) (not_pending _ (by simp)) trivial
    rw [Pending, hpc] at hp
    exact hp.1 hzero
  obtain ⟨f, hf⟩ : ∃ f, f = entryFrame (entry s.mm.mem pt (ptIdx va)) := ⟨_, rfl⟩
  rw [← hf] at htr heq
  obtain ⟨hmapped, hframe, -, hpend'⟩ := h.leaf_translate hv hw hpres hf htr
  have hmm : s.runUnmap c va = ⟨(s.mm.store pt (ptIdx va) 0).release f,
      s.cpus, lost s.owned c f⟩ := by
    have heq' : s.mm.pagingUnmap (s.cpus c).cr3 va = _ := heq
    simp only [Smp.runUnmap, heq', if_neg hmapped, hframe]
    rfl
  rw [hmm]
  have hpend : ∀ g, Pending s.mm (s.cpus c) g ↔ g = f := by
    intro g
    rw [Pending, hpc]
    exact hpend' g
  have hcore := h.core.unmap hv hw hpres hf hpend
  obtain ⟨-, -, hback, -⟩ := h.core.shape.clearLeaf (mem_roots s.roots c) hv hw hpres
  refine h.edit _ rfl ⟨?_, ?_, ?_⟩ (hcore.swapPend fun g => Iff.rfl) trivial
  · exact fun d hd => h.core.sameRows_store (p := [_, _, _]) hv hw hd
  · exact fun d hd g hg => lost_iff.mpr ⟨fun hcon => hd hcon.1, hg⟩
  · intro d _ g _ hloose ht
    obtain ⟨d', hp⟩ := tree_roots.mp ht
    exact hloose (tree_roots.mpr ⟨d', hback _ (mem_roots s.roots d') g hp⟩)

/-- **The head of the loop of `sys_mmap`.** -/
theorem SmpInv.mmap (h : SmpInv b s) {base : Nat}
    (hpc : (s.cpus c).pc = .mmap base va stop) (hq : Quiet s (c, .run)) {s' : Smp n}
    (hs : s.run c = some s') : SmpInv b s' := by
  have hself : ∀ f, ¬ Pending s.mm (s.cpus c) f := not_pending _ (by simp [hpc])
  have htop : stop ≤ processUserStackTop := by
    have hok := h.pcs c
    rw [hpc] at hok
    exact hok
  simp only [Smp.run, hpc] at hs
  by_cases hend : stop ≤ va
  · rw [if_pos hend] at hs
    obtain rfl := Option.some.inj hs
    exact h.moveQuiet _ rfl hself (not_pending _ (by simp)) trivial
  rw [if_neg hend] at hs
  have halloc : Allocates s (c, .run) := by
    simp only [Allocates, hpc]
    omega
  rcases h.core.allocZeroed (hq.noPending halloc hself) c with
    ⟨hzero, hcore⟩ | ⟨f, mm', hf, hmm, hne, hcore, hloose, -, -, hsame, htree⟩
  · rw [if_pos hzero] at hs
    obtain rfl := Option.some.inj hs
    exact h.editQuiet _ rfl (Apart.ofMem _ rfl fun _ _ _ hg => hg) hcore hself
      (not_pending _ (by simp)) trivial
  rw [hf, if_neg hne, hmm] at hs
  have hapart : Apart s c mm' (gained s.owned c f) :=
    ⟨fun d _ => hsame d, fun _ _ _ hg => gained_iff.mpr (.inr hg), fun _ _ g _ hout ht =>
      hout ((htree g).mp ht)⟩
  split_ifs at hs with hguard
  · obtain rfl := Option.some.inj hs
    exact h.editQuiet _ rfl hapart hcore hself (not_pending _ (by simp)) htop
  · obtain rfl := Option.some.inj hs
    refine h.editQuiet _ rfl hapart hcore hself (not_pending _ (by simp)) ?_
    exact ⟨⟨by omega, by omega, htop⟩, by omega, rfl, hloose.apart,
      gained_iff.mpr (.inl ⟨rfl, rfl⟩)⟩

theorem take_pathOf {k : Nat} (hk : k ≤ 2) :
    (pathOf va).take (k + 1) = (pathOf va).take k ++ [Smp.levelIdx va k] := by
  rcases (by omega : k = 0 ∨ k = 1 ∨ k = 2) with rfl | rfl | rfl <;> rfl

/-- Mapping the frame `phys` that `c` holds at a leaf below its table. -/
theorem SmpInv.leaf {mm : Mm} {own : Fin n → Nat → Bool} {pend : Fin n → Nat → Prop}
    {root : Fin n → Nat} (h : Core b mm root own pend) (hv : Visible (pathOf va))
    (hw : walkFrom mm.mem (root c) [pml4Idx va, pdptIdx va, pdIdx va] = some pt)
    (hold : present (entry mm.mem pt (ptIdx va)) = false)
    (hloose : ¬ Tree mm (List.ofFn root) phys) (hown : own c phys = true) :
    Core b (mm.store pt (ptIdx va) (leafEntry phys mmapFlags)) root own pend ∧
      (∀ d, d ≠ c → SameRows mm (mm.store pt (ptIdx va) (leafEntry phys mmapFlags)) (root d)) ∧
      ∀ g, Tree (mm.store pt (ptIdx va) (leafEntry phys mmapFlags)) (List.ofFn root) g →
        g = phys ∨ Tree mm (List.ofFn root) g := by
  have hram := (h.owned c phys hown).2
  have hv' : Visible ([pml4Idx va, pdptIdx va, pdIdx va] ++ [ptIdx va]) := hv
  have hflags : FlagsOk mmapFlags := by decide
  obtain ⟨hcore, -, htree⟩ := h.link hv' hw hold ⟨hram, hloose⟩ hown
    (child_leaf (Boot.ram_lt hram) hflags) fun hlt => absurd hlt (by simp)
  exact ⟨hcore, fun d hd => h.sameRows_store hv' hw hd, fun g hg => (htree g).mp hg⟩

/-- **One step of `paging_map`.** -/
theorem SmpInv.table (h : SmpInv b s) {base k : Nat}
    (hpc : (s.cpus c).pc = .table base va stop phys k t) (hq : Quiet s (c, .run)) :
    SmpInv b (s.runTable c base va stop phys k t) := by
  have hself : ∀ f, ¬ Pending s.mm (s.cpus c) f := not_pending _ (by simp [hpc])
  obtain ⟨⟨hlo, hlt, htop⟩, hk, hw, hloose, hown⟩ :
      PcOk s.mm s.roots s.owned c (.table base va stop phys k t) := hpc ▸ h.pcs c
  have hvis : Visible (pathOf va) :=
    visible_cons_cons.mpr
      (not_slot_of_user hlo (Nat.lt_trans (Nat.lt_of_lt_of_le hlt htop) (by decide)))
  have hv : Visible ((pathOf va).take k ++ [Smp.levelIdx va k]) := by
    rw [← take_pathOf hk]
    refine visible_of_append _ ((pathOf va).drop (k + 1)) ?_
    rwa [List.take_append_drop]
  have hlen : ((pathOf va).take k).length = k := by
    rw [List.length_take]
    exact Nat.min_eq_left (Nat.le_trans hk (by decide : 2 ≤ 4))
  have hnext : SmpInv b (s.setPc c (.mmap base (va + 4096) stop)) :=
    h.moveQuiet _ rfl hself (not_pending _ (by simp)) htop
  have hchild := walkFrom_snoc hw (Smp.levelIdx va k)
  rw [hlen, ← take_pathOf hk] at hchild
  -- what a new table at this depth does
  have hnew := fun hold : present (entry s.mm.mem t (Smp.levelIdx va k)) = false =>
    h.core.newTable (hq.noPending (by simp only [Allocates, hpc]; exact hold) hself) hv hw
      (by omega) hold
  unfold Smp.runTable
  generalize entry s.mm.mem t (Smp.levelIdx va k) = e at hchild hnew
  by_cases hk2 : k < 2
  · rw [if_pos hk2]
    by_cases hp : present e = true
    · rw [if_pos hp]
      refine h.moveQuiet _ rfl hself (not_pending _ (by simp)) ⟨⟨hlo, hlt, htop⟩, by omega, ?_,
        hloose, hown⟩
      rw [hchild]
      simp [child, hp, hk2]
    rw [if_neg hp]
    rcases hnew (by simpa using hp) with ⟨mm', heq, hcore, hmem⟩ |
      ⟨f, mm', heq, hcore, hwf, -, hrows, hstay⟩
    · simp only [Smp.newTable, heq]
      exact h.editQuiet _ rfl (Apart.ofMem mm' hmem fun _ _ _ hg => hg) hcore hself
        (not_pending _ (by simp)) htop
    · simp only [Smp.newTable, heq]
      rw [← take_pathOf hk] at hwf
      exact h.editQuiet _ rfl ⟨hrows, fun _ _ _ hg => gained_iff.mpr (.inr hg), fun d _ =>
        hstay d⟩ hcore hself
        (not_pending _ (by simp))
        ⟨⟨hlo, hlt, htop⟩, by omega, hwf, hstay c phys hown hloose, gained_iff.mpr (.inr hown)⟩
  obtain rfl : k = 2 := by omega
  rw [if_neg hk2]
  by_cases hp : present e = true
  · by_cases hl : large e = true
    · rw [if_neg (by simp [hl]), if_pos hp]
      exact hnext
    rw [if_pos ⟨hp, hl⟩]
    have hw₃ : walkFrom s.mm.mem (s.roots c) [pml4Idx va, pdptIdx va, pdIdx va] =
        some (entryFrame e) := by
      refine hchild.trans ?_
      simp [child, hp, hl]
    split_ifs with hleaf
    · exact hnext
    obtain ⟨hcore, hrows, htree⟩ := SmpInv.leaf h.core hvis hw₃ (by simpa using hleaf) hloose hown
    refine h.editQuiet _ rfl ⟨hrows, fun _ _ _ hg => hg, fun d hd g hg hl' ht => ?_⟩ hcore hself
      (not_pending _ (by simp)) htop
    rcases htree g ht with rfl | ht
    · exact hd (h.core.exclusive d c g hg hown)
    · exact hl' ht
  rw [if_neg (by simp [hp]), if_neg hp]
  rcases hnew (by simpa using hp) with ⟨mm', heq, hcore, hmem⟩ |
    ⟨f, mm', heq, hcore, hwf, hz, hrows, hstay⟩
  · simp only [Smp.newTable, heq]
    exact h.editQuiet _ rfl (Apart.ofMem mm' hmem fun _ _ _ hg => hg) hcore hself
      (not_pending _ (by simp)) htop
  simp only [Smp.newTable, heq]
  have hold : present (entry mm'.mem f (ptIdx va)) = false := by
    rw [hz]
    decide
  obtain ⟨hcore', hrows', htree'⟩ := SmpInv.leaf hcore hvis hwf hold
    (hstay c phys hown hloose) (gained_iff.mpr (.inr hown))
  refine h.editQuiet _ rfl ⟨fun d hd => (hrows d hd).trans (hrows' d hd),
    fun _ _ _ hg => gained_iff.mpr (.inr hg), fun d hd g hg hl' ht => ?_⟩ hcore' hself
    (not_pending _ (by simp)) htop
  rcases htree' g ht with rfl | ht
  · exact hd (h.core.exclusive d c g hg hown)
  · exact hstay d g hg hl' ht

/-- **Every quiet step keeps the invariant.** -/
theorem smpInv_step {ev : Fin n × Smp.Act} {s' : Smp n} (h : SmpInv b s) (hq : Quiet s ev)
    (hs : s.step ev = some s') : SmpInv b s' := by
  obtain ⟨c, act⟩ := ev
  simp only [Smp.step] at hs
  cases act with
  | run =>
    have hrun : s.run c = some s' := by
      cases hpc : (s.cpus c).pc <;> rw [hpc] at hs <;> exact hs
    cases hpc : (s.cpus c).pc with
    | idle => simp [Smp.run, hpc] at hrun
    | release rollback va stop => exact h.release hpc hq hrun
    | unmap rollback va stop => exact h.unmap hpc hrun
    | unmapHuge rollback va stop k =>
      have hok := h.pcs c
      rw [hpc] at hok
      exact hok.elim
    | mmap base va stop => exact h.mmap hpc hq hrun
    | table base va stop phys k t =>
      simp only [Smp.run, hpc] at hrun
      obtain rfl := Option.some.inj hrun
      exact h.table hpc hq
  | munmap addr len =>
    cases hpc : (s.cpus c).pc with
    | idle =>
      rw [hpc] at hs
      obtain rfl := Option.some.inj hs
      exact h.startMunmap hpc addr len
    | _ => rw [hpc] at hs; cases hs
  | mmap len =>
    cases hpc : (s.cpus c).pc with
    | idle =>
      rw [hpc] at hs
      obtain rfl := Option.some.inj hs
      exact h.startMmap hpc len
    | _ => rw [hpc] at hs; cases hs
  | alloc =>
    cases hpc : (s.cpus c).pc with
    | idle =>
      rw [hpc] at hs
      obtain rfl := Option.some.inj hs
      exact h.allocKeep hpc hq
    | _ => rw [hpc] at hs; cases hs

end Steps

/-! ## 6. The result -/

/-- **A start**: every cpu in its own address space and in no syscall, every frame handed out
    before with one owner. -/
structure SmpStart {n : Nat} (b : Boot) (s : Smp n) : Prop where
  inv : Inv b s.mm (List.ofFn s.roots)
  inj : Function.Injective s.roots
  idle : ∀ c, (s.cpus c).pc = .idle
  owned : ∀ c f, s.owned c f = true → s.mm.pmm.free f = false ∧ b.Ram f
  exclusive : ∀ c d f, s.owned c f = true → s.owned d f = true → c = d
  priv : ∀ c d f, Private s.mm (s.roots c) f → s.owned d f = true → d = c

theorem smpInv_start {n : Nat} {b : Boot} {s : Smp n} (h : SmpStart b s) : SmpInv b s := by
  have hidle : ∀ c f, ¬ Pending s.mm (s.cpus c) f := fun c => not_pending _ (by simp [h.idle c])
  refine ⟨⟨h.inj, h.inv.toShape, fun f _ => h.inv.free f, ?_, h.owned, h.exclusive, h.priv,
    fun c f hp => absurd hp (hidle c f)⟩, fun c => ?_⟩
  · exact fun c f hp => .inl (h.inv.taken f (tree_roots.mpr ⟨c, hp⟩))
  · rw [h.idle c]
    trivial

theorem SmpInv.ownedTaken {n : Nat} {b : Boot} {s : Smp n} (h : SmpInv b s) : OwnedTaken s := by
  refine ⟨fun c f hf => (h.core.owned c f hf).1, fun hne c => ?_⟩
  rcases s.mm.pmm.allocFrame_cases with ⟨f, hfree, halloc⟩ | ⟨-, halloc⟩
  · have hf : s.mm.alloc.1 = f := by rw [Mm.alloc, halloc]
    rw [hf]
    by_contra hown
    rw [(h.core.owned c f (by simpa using hown)).1] at hfree
    cases hfree
  · exact absurd (by rw [Mm.alloc, halloc]) hne

/-- Two address spaces, and a page at 64 GiB in the second one. -/
def twoSpaces : Mm :=
  smallMm.pagingNewAddressSpace.2.pagingNewAddressSpace.2.allocAndMap 6 0x1000000000 mmapFlags true

/-- The same memory when every other frame of the machine is in use. -/
def fullMm : Mm := { twoSpaces with pmm := ⟨fun _ => false, 20, 0⟩ }

theorem twoSpaces_inv : Inv smallBoot twoSpaces [6, 4] := by
  have h₁ := smallMm_inv.pagingNewAddressSpace (by decide +kernel)
  have h₂ := h₁.pagingNewAddressSpace (by decide +kernel)
  have hroots : smallMm.pagingNewAddressSpace.2.pagingNewAddressSpace.1 = 6 ∧
      smallMm.pagingNewAddressSpace.1 = 4 := by decide +kernel
  rw [hroots.1, hroots.2] at h₂
  have hflags : FlagsOk mmapFlags := by decide
  exact h₂.allocAndMap (by simp) hflags true

theorem fullMm_mem : fullMm.mem = twoSpaces.mem := by rw [fullMm]

theorem fullMm_inv : Inv smallBoot fullMm [6, 4] :=
  twoSpaces_inv.setPmm fun _ hf => absurd hf (by simp)

theorem fullMm_translate : pagingTranslate fullMm.mem 6 0x1000000000 = 0x8000 := by decide +kernel

theorem fullMm_small : hugeAt fullMm.mem 6 0x1000000000 = false := by decide +kernel

/-- Two cpus in the spaces with roots 6 and 4; the second one has the frame 12. -/
def twoCpus (mm : Mm) : Smp 2 :=
  ⟨mm, fun c => ⟨if c = 0 then 6 else 4, 0x1000001000, .idle⟩, fun c f => c = 1 ∧ f = 12⟩

theorem twoCpus_start {mm : Mm} (h : Inv smallBoot mm [6, 4]) (hmem : mm.mem = twoSpaces.mem)
    (hfree : mm.pmm.free 12 = false) : SmpStart smallBoot (twoCpus mm) := by
  have hroots : List.ofFn (twoCpus mm).roots = [6, 4] := rfl
  have howned : ∀ c f, (twoCpus mm).owned c f = true → c = 1 ∧ f = 12 :=
    fun c f => of_decide_eq_true
  refine ⟨?_, ?_, fun _ => rfl, fun c f hf => ?_, fun c d f hf hf' => ?_, fun c d f hp hf => ?_⟩
  · rw [hroots]
    exact h
  · exact List.nodup_ofFn.mp (by rw [hroots]; decide)
  · obtain ⟨-, rfl⟩ := howned c f hf
    refine ⟨hfree, ?_⟩
    rw [Boot.Ram, smallBoot_free]
    decide
  · exact (howned c f hf).1.trans (howned d f hf').1.symm
  · -- it was free when the spaces were made
    obtain ⟨-, rfl⟩ := howned d f hf
    have htree : Tree twoSpaces [6, 4] 12 := by
      refine tree_iff.mpr ⟨(twoCpus mm).roots c, hroots ▸ List.mem_ofFn.mpr ⟨c, rfl⟩, ?_⟩
      rw [Private, ← hmem]
      exact hp
    have hfree' : twoSpaces.pmm.free 12 = true := by decide +kernel
    rw [twoSpaces_inv.taken 12 htree] at hfree'
    cases hfree'

/-- `sys_munmap` of the page by cpu 0, at the head of its loop. -/
def munmapStarted (mm : Mm) : Smp 2 :=
  (twoCpus mm).setPc 0 (.release false 0x1000000000 0x1000001000)

/-- The same after the first release. -/
def munmapReleased (mm : Mm) : Smp 2 :=
  ((munmapStarted mm).free 0 8).setPc 0 (.unmap false 0x1000000000 0x1000001000)

theorem step_munmapStarted (mm : Mm) :
    (twoCpus mm).step (0, .munmap 0x1000000000 4096) = some (munmapStarted mm) := rfl

theorem step_munmapReleased {mm : Mm} (h : pagingTranslate mm.mem 6 0x1000000000 = 0x8000) :
    (munmapStarted mm).step (0, .run) = some (munmapReleased mm) := by
  have htr :
      pagingTranslate (munmapStarted mm).mm.mem ((munmapStarted mm).cpus 0).cr3 0x1000000000 =
        0x8000 := h
  have hpc : ((munmapStarted mm).cpus 0).pc = .release false 0x1000000000 0x1000001000 := rfl
  change (munmapStarted mm).run 0 = _
  simp only [Smp.run, hpc, htr]
  rfl

/-- **Under the condition no frame in use is marked free**, in every interleaving of every number
    of cpus. -/
theorem owned_never_free {n : Nat} {b : Boot} {s₀ s : Smp n} (h₀ : SmpStart b s₀)
    (h : Reaches Smp.step Quiet s₀ s) : OwnedTaken s := by
  have hinv : SmpInv b s :=
    h.inv (I := SmpInv b) (smpInv_start h₀) fun _ _ _ hi hq hs => smpInv_step hi hq hs
  exact hinv.ownedTaken

theorem owned_never_free_munmap : Reaches Smp.step Quiet (twoCpus fullMm) (munmapReleased fullMm) ∧
    (munmapReleased fullMm).owned 1 12 = true ∧ (munmapReleased fullMm).mm.pmm.free 8 = true ∧
    OwnedTaken (munmapReleased fullMm) := by
  have h₁ : Reaches Smp.step Quiet (twoCpus fullMm) (munmapStarted fullMm) := by
    refine .step _ _ _ .start ⟨?_, ?_⟩ (step_munmapStarted fullMm)
    · exact fun halloc => halloc.elim
    · exact fun va hfirst => hfirst.elim
  have h₂ : Reaches Smp.step Quiet (twoCpus fullMm) (munmapReleased fullMm) := by
    refine .step _ _ _ h₁ ⟨?_, ?_⟩ (step_munmapReleased fullMm_translate)
    · exact fun halloc => halloc.elim
    · rintro va ⟨-, rfl⟩
      exact fullMm_small
  exact ⟨h₂, rfl, by decide +kernel, owned_never_free (twoCpus_start fullMm_inv fullMm_mem rfl) h₂⟩

/-- **Without it a frame cpu 1 uses is marked free**: cpu 1 allocates between the two releases of
    `sys_munmap` on cpu 0. -/
theorem owned_marked_free : ¬ ∀ (n : Nat) (b : Boot) (s₀ s : Smp n), SmpStart b s₀ →
    Reaches Smp.step Any s₀ s → OwnedTaken s := by
  intro hall
  have hinv : Inv smallBoot { fullMm with pmm := ⟨fun _ => false, 0, 0⟩ } [6, 4] :=
    fullMm_inv.setPmm fun _ hf => absurd hf (by simp)
  obtain ⟨s, hr, hf⟩ :=
    Reaches.of_exec_any Smp.step Any (twoCpus { fullMm with pmm := ⟨fun _ => false, 0, 0⟩ })
    [(0, .munmap 0x1000000000 4096), (0, .run), (1, .alloc), (0, .run)]
    (fun s => s.owned 1 8 && s.mm.pmm.free 8) (by decide +kernel)
  obtain ⟨hown, hfree⟩ := Bool.and_eq_true_iff.mp hf
  rw [(hall 2 smallBoot _ s (twoCpus_start hinv (by simp only [fullMm_mem]) rfl) hr).taken 1 8
    hown] at hfree
  cases hfree

end DyntKernel.Mem
