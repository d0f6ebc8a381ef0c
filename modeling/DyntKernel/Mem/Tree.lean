/-
  File:      DyntKernel/Mem/Tree.lean
  Subject:   THE FOREST OF ADDRESS SPACES: what one edit of a page table keeps.

  The page tables of the user address spaces are a forest (`Library.Forest`) over physical
  memory, once the shared kernel identity slot is left out of sight.

  * `Boot` -- the boot page tables of boot.S and the bitmap after `pmm_init`;
  * `child`, `Visible`, `Tree` -- which frame an entry refers to, the paths outside the kernel
    slot, and the frames the spaces own;
  * `Shape` -- the tables are a forest of RAM frames, the kernel slot and the kernel tables are
    intact, huge entries occur for the APIC only;
  * `Inv` -- `Shape`, and the bitmap agrees with it;
  * `Shape.looseRow`, `Shape.link`, `Shape.cut`, `Inv.alloc`, `Inv.release`, `Inv.addRoot`,
    `Inv.dropRoot` -- the edits the functions of paging.c are made of.
-/
import DyntKernel.Library.Radix
import DyntKernel.Mem.Paging

namespace DyntKernel.Mem

open Library List

variable {e f : Nat} {m : Phys}

/-! ## 1. Boot -/

/-- The paging part of boot.S: three zeroed pages, 512 huge identity entries, two links. -/
def bootPaging (m : Phys) (pml4 : Nat) : Phys :=
  let m := blit m (pml4 * 4096) (3 * 4096) fun _ => 0
  let m := blit m ((pml4 + 2) * 4096) 4096 fun j =>
    UInt8.ofNat ((j / 8 * 0x200000 + 0x87) / 256 ^ (j % 8))
  let m := setEntry m (pml4 + 1) 0 (tableEntry (pml4 + 2))
  setEntry m pml4 0 (tableEntry (pml4 + 1))

/-- A machine at boot: the kernel image ends below 4 GiB and holds the three boot tables. -/
structure Boot where
  info : BootInfo
  ram : Phys
  /-- `boot_pml4`; `boot_pdpt` and `boot_pd` are the two pages behind it. -/
  pml4 : Nat
  kernelEnd_lt : info.kernelEnd < 2 ^ 32
  tables_lt : (pml4 + 3) * 4096 ≤ info.kernelEnd

namespace Boot

variable (b : Boot)

def pdpt : Nat := b.pml4 + 1
def pd : Nat := b.pml4 + 2

/-- The RAM the memory manager hands out: what `pmm_init` leaves free. -/
def Ram (f : Nat) : Prop := (pmmInit b.info).free f = true

/-- All of it lies in the identity map of `boot.S`, through which the kernel reaches frames. -/
def Low : Prop := ∀ f, b.Ram f → f * 4096 < pagingUserBase

/-- The machine after `pmm_init` and `paging_init`. -/
def start : Mm := ⟨pmmInit b.info, bootPaging b.ram b.pml4, b.pml4, 0⟩

/-- The entry 0 of every user page directory pointer table. -/
def kernelSlot : Nat := supervisorEntry (tableEntry b.pd)

variable {b}

theorem ram_lt (h : b.Ram f) : f < pmmMaxFrames :=
  ((pmmInit_free b.info f).mp h).1.1

theorem tables_lt_ram (h : b.Ram f) : b.pml4 + 2 < f := by
  have hend := b.kernelEnd_lt
  have htab := b.tables_lt
  by_contra hle
  have hkernel : (pmmInit b.info).free f = false := by
    refine pmmInit_kernel ?_ (by omega)
    rw [frameCeil]
    omega
  rw [Ram, hkernel] at h
  cases h

theorem tables_small : b.pml4 + 2 < pmmMaxFrames := by
  have hend := b.kernelEnd_lt
  have htab := b.tables_lt
  have hmax : pmmMaxFrames = 16777216 := rfl
  omega

end Boot

/-! ## 2. The tree of an address space -/

/-- The frame an entry of a table at depth `k` refers to. The bit `PAGING_FLAG_NOEXEC` of a leaf
    is not part of the frame number. -/
def child (k : Nat) (e : Nat) : Option Nat :=
  if ¬ present e then none
  else if k < 2 then some (entryFrame e)
  else if k = 2 then if large e then none else some (entryFrame e)
  else if k = 3 then some (entryFrame e % 2 ^ 51)
  else none

/-- The frame reached from a root along the indices of a path. -/
def walkFrom (m : Phys) (r : Nat) (p : List (Fin 512)) : Option Nat := walk child (entry m) 0 r p

theorem walkFrom_snoc {r t : Nat} {p : List (Fin 512)} (hw : walkFrom m r p = some t)
    (i : Fin 512) :
    walkFrom m r (p ++ [i]) = child p.length (entry m t i) := by
  rw [walkFrom, walk_snoc, show walk child (entry m) 0 r p = some t from hw, Option.bind_some,
    Nat.zero_add]

/-- The page table below an entry of a page directory. -/
theorem walk_pt {r t : Nat} {i j k : Fin 512} (hw : walkFrom m r [i, j] = some t)
    (hp : present (entry m t k) = true)
    (hl : large (entry m t k) ≠ true) : walkFrom m r [i, j, k] =
      some (entryFrame (entry m t k)) := by
  refine (walkFrom_snoc hw k).trans ?_
  simp [child, hp, hl]

/-- The frame below an entry of a page table. -/
theorem walk_leaf {r t : Nat} {i j k l : Fin 512} (hw : walkFrom m r [i, j, k] = some t)
    (hp : present (entry m t l) = true) : walkFrom m r [i, j, k, l] =
      some (entryFrame (entry m t l) % 2 ^ 51) := by
  refine (walkFrom_snoc hw l).trans ?_
  simp [child, hp]

/-- Outside the shared kernel identity slot. -/
def Visible (p : List (Fin 512)) : Prop := ¬ [0, 0] <+: p

/-- The frames the address spaces `sp` own: roots, tables and mapped pages. -/
def Tree (s : Mm) (sp : List Nat) (f : Nat) : Prop :=
  Reached child (entry s.mem) (· ∈ sp) Visible f

/-- The private frames of the space `r`: its root, its tables and its pages, as far as they are
    reached outside the shared kernel identity slot; the huge APIC entry refers to none. -/
def Private (s : Mm) (r f : Nat) : Prop := ∃ p, Visible p ∧ walkFrom s.mem r p = some f

/-- The tables of the space `r`: its root and what an entry of depth 0, 1 or 2 refers to. -/
def Table (s : Mm) (r t : Nat) : Prop :=
  ∃ p, Visible p ∧ p.length < 4 ∧ walkFrom s.mem r p = some t

theorem tree_iff {s : Mm} {sp : List Nat} : Tree s sp f ↔ ∃ r ∈ sp, Private s r f := by
  constructor
  · rintro ⟨r, p, hr, hv, hw⟩
    exact ⟨r, hr, p, hv, hw⟩
  · rintro ⟨r, hr, p, hv, hw⟩
    exact ⟨r, p, hr, hv, hw⟩

theorem visible_of_append (p q : List (Fin 512)) (h : Visible (p ++ q)) : Visible p :=
  fun hp => h (hp.trans (prefix_append p q))

theorem visible_nil : Visible [] := by
  rintro ⟨t, ht⟩
  cases ht

theorem visible_single (i : Fin 512) : Visible [i] := by
  rintro ⟨t, ht⟩
  simp at ht

theorem visible_cons_cons {i j : Fin 512} {p : List (Fin 512)} :
    Visible (i :: j :: p) ↔ ¬ (i = 0 ∧ j = 0) := by
  simp only [Visible, cons_prefix_cons, nil_prefix, and_true]
  rw [eq_comm (a := i), eq_comm (a := j)]

theorem child_of_not_present {k : Nat} (h : present e = false) : child k e = none := by
  simp [child, h]

theorem child_zero (k : Nat) : child k 0 = none := child_of_not_present (by decide)

theorem child_huge (h : large e = true) : child 2 e = none := by
  simp [child, h]

theorem child_table {k : Nat} (hk : k < 3) (f : Nat) : child k (tableEntry f) = some f := by
  simp only [child, present_tableEntry, large_tableEntry, entryFrame_tableEntry]
  rcases Nat.lt_or_ge k 2 with hlt | hge
  · simp [hlt]
  · simp [show k = 2 by omega]

theorem child_deep (k e : Nat) (hk : 4 ≤ k) : child k e = none := by
  simp only [child, show ¬ k < 2 by omega, show ¬ k = 2 by omega, show ¬ k = 3 by omega, if_false,
    ite_self]

/-! ## 3. The invariant -/

/-- The kernel's own tables, as boot.S left them; the entry of the APIC is all that was added. -/
structure KernelTables (b : Boot) (s : Mm) : Prop where
  cr3 : s.kernelCr3 = b.pml4
  root : entry s.mem b.pml4 0 = tableEntry b.pdpt
  rootRest : ∀ i, i ≠ 0 → entry s.mem b.pml4 i = 0
  pdpt : entry s.mem b.pdpt 0 = tableEntry b.pd
  pdptRest : s.lapicBase = 0 → ∀ i, i ≠ 0 → entry s.mem b.pdpt i = 0
  pd : ∀ i : Fin 512, entry s.mem b.pd i = i * 0x200000 + 0x87
  lapic : s.lapicBase < 2 ^ 39

/-- **The shape of the address spaces `sp`**: what the memory alone has to keep. -/
structure Shape (b : Boot) (s : Mm) (sp : List Nat) : Prop where
  kernel : KernelTables b s
  forest : Forest child (entry s.mem) (· ∈ sp) Visible
  ram : ∀ f, Tree s sp f → b.Ram f
  slot : ∀ r ∈ sp, ∃ q, entry s.mem r 0 = tableEntry q ∧ entry s.mem q 0 = b.kernelSlot
  huge : ∀ r ∈ sp, ∀ i j k pd, Visible [i, j] → walkFrom s.mem r [i, j] = some pd →
    present (entry s.mem pd k) = true → large (entry s.mem pd k) = true →
    s.lapicBase ≠ 0 ∧ i = 0 ∧ j.val = s.lapicBase / 2 ^ 30

/-- **The invariant of the address spaces `sp`**: the bitmap agrees with the memory. -/
structure Inv (b : Boot) (s : Mm) (sp : List Nat) : Prop extends Shape b s sp where
  free : ∀ f, s.pmm.free f = true → b.Ram f
  taken : ∀ f, Tree s sp f → s.pmm.free f = false

/-- RAM in no address space. -/
structure Loose (b : Boot) (s : Mm) (sp : List Nat) (f : Nat) : Prop where
  ram : b.Ram f
  apart : ¬ Tree s sp f

/-- A frame that was handed out and is in no address space. -/
structure Fresh (b : Boot) (s : Mm) (sp : List Nat) (f : Nat) : Prop extends Loose b s sp f where
  taken : s.pmm.free f = false

variable {b : Boot} {s s' : Mm} {sp : List Nat} {r t f g : Nat} {p : List (Fin 512)} {i : Fin 512}

theorem tree_root (hr : r ∈ sp) : Tree s sp r := ⟨r, [], hr, visible_nil, rfl⟩

theorem tree_of_walk (hr : r ∈ sp) (hp : Visible p) (hw : walkFrom s.mem r p = some f) :
    Tree s sp f := ⟨r, p, hr, hp, hw⟩

/-- The page directory pointer table behind the entry 0 of a root. -/
theorem Shape.slot_walk (h : Shape b s sp) (hr : r ∈ sp) :
    ∃ q, entry s.mem r 0 = tableEntry q ∧ entry s.mem q 0 = b.kernelSlot ∧
      walkFrom s.mem r [0] = some q := by
  obtain ⟨q, hq, hk⟩ := h.slot r hr
  refine ⟨q, hq, hk, ?_⟩
  simp only [walkFrom, walk, hq, child_table (show 0 < 3 by decide)]
  rfl

theorem KernelTables.congr (h : KernelTables b s) (hcr3 : s'.kernelCr3 = s.kernelCr3)
    (hlapic : s'.lapicBase = s.lapicBase)
    (hm : ∀ t, t ≤ b.pml4 + 2 → ∀ i, entry s'.mem t i = entry s.mem t i) : KernelTables b s' := by
  have hroot := hm b.pml4 (by omega)
  have hpdpt := hm b.pdpt (by rw [Boot.pdpt]; omega)
  have hpd := hm b.pd (by rw [Boot.pd])
  exact {
    cr3 := hcr3.trans h.cr3
    root := (hroot 0).trans h.root
    rootRest := fun i hi => (hroot i).trans (h.rootRest i hi)
    pdpt := (hpdpt 0).trans h.pdpt
    pdptRest := fun hl i hi => (hpdpt i).trans (h.pdptRest (hlapic ▸ hl) i hi)
    pd := fun i => (hpd i).trans (h.pd i)
    lapic := hlapic ▸ h.lapic }

/-! ## 4. Taking and giving back frames -/

theorem Shape.setPmm (h : Shape b s sp) (p : Pmm) : Shape b { s with pmm := p } sp :=
  ⟨h.kernel.congr rfl rfl fun _ _ _ => rfl, h.forest, h.ram, h.slot, h.huge⟩

theorem Inv.setPmm (h : Inv b s sp) {p : Pmm} (hfree : ∀ f, p.free f = true → s.pmm.free f = true) :
    Inv b { s with pmm := p } sp := by
  refine ⟨h.toShape.setPmm p, fun f hf => h.free f (hfree f hf), fun f hf => ?_⟩
  rw [← Bool.not_eq_true]
  intro hcon
  have hold := hfree f hcon
  rw [h.taken f hf] at hold
  cases hold

/-- **An allocation** fails and changes nothing, or hands out a fresh frame. -/
theorem Inv.alloc (h : Inv b s sp) : (s.alloc.1 = 0 ∧ s.alloc.2 = s) ∨
    (s.alloc.1 ≠ 0 ∧ Inv b s.alloc.2 sp ∧ Fresh b s.alloc.2 sp s.alloc.1 ∧
      ∀ g, Fresh b s sp g → g ≠ s.alloc.1 ∧ Fresh b s.alloc.2 sp g) := by
  rcases s.pmm.allocFrame_cases with ⟨f, hfree, halloc⟩ | ⟨-, halloc⟩
  · have hram : b.Ram f := h.free f hfree
    have hs : s.alloc = (f, { s with pmm := s.pmm.take f }) := by rw [Mm.alloc, halloc]
    have hold : ∀ g, s.pmm.free g = false → g ≠ f := by
      intro g hg hgf
      rw [hgf, hfree] at hg
      cases hg
    rw [hs]
    refine .inr ⟨?_, ⟨h.toShape.setPmm _, ?_, fun g hg => Pmm.take_taken (h.taken g hg)⟩,
      ⟨⟨hram, fun ht => hold f (h.taken f ht) rfl⟩, if_pos rfl⟩,
      fun g hg => ⟨hold g hg.taken, ⟨hg.ram, hg.apart⟩, Pmm.take_taken hg.taken⟩⟩
    · have hlow := Boot.tables_lt_ram hram
      show f ≠ 0
      omega
    · intro g hg
      refine h.free g ?_
      by_contra hne
      rw [Pmm.take_taken (by simpa using hne)] at hg
      cases hg
  · exact .inl (by rw [Mm.alloc, halloc]; exact ⟨rfl, rfl⟩)

theorem foldl_release (fs : List Nat) (s : Mm) :
    fs.foldl Mm.release s = { s with pmm := fs.foldl Pmm.freeFrame s.pmm } := by
  induction fs generalizing s with
  | nil => rfl
  | cons f fs ih => rw [foldl_cons, ih]; rfl

/-- Releasing frames that are in no address space. -/
theorem Inv.releaseAll (h : Inv b s sp) {fs : List Nat}
    (hfs : ∀ f ∈ fs, f < pmmMaxFrames → Loose b s sp f) : Inv b (fs.foldl Mm.release s) sp := by
  rw [foldl_release]
  refine ⟨h.toShape.setPmm _, ?_, ?_⟩
  · intro g hg
    rcases (Pmm.freeFrames_free fs s.pmm g).mp hg with hold | ⟨hmem, hlt⟩
    · exact h.free g hold
    · exact (hfs g hmem hlt).ram
  intro g hg
  rw [← Bool.not_eq_true]
  intro hfree
  rcases (Pmm.freeFrames_free fs s.pmm g).mp hfree with hold | ⟨hmem, hlt⟩
  · rw [h.taken g hg] at hold
    cases hold
  · exact (hfs g hmem hlt).apart hg

theorem Inv.release (h : Inv b s sp) (hf : f < pmmMaxFrames → Loose b s sp f) :
    Inv b (s.release f) sp := by
  have hfs : ∀ g ∈ [f], g < pmmMaxFrames → Loose b s sp g := by
    intro g hg
    rw [mem_singleton.mp hg]
    exact hf
  exact h.releaseAll hfs

/-! ## 5. Stores -/

/-- A memory with the same tables. -/
theorem Shape.tableRows (h : Shape b s sp) (hk : KernelTables b { s with mem := m })
    (hrow : ∀ r ∈ sp, ∀ t i, Table s r t → entry m t i = entry s.mem t i) :
    Shape b { s with mem := m } sp ∧ ∀ r ∈ sp, ∀ p, Visible p →
    walkFrom m r p = walkFrom s.mem r p := by
  have hwalk : ∀ r ∈ sp, ∀ p, Visible p → walkFrom m r p = walkFrom s.mem r p := by
    intro r hr p hv
    exact walk_write_leaf visible_of_append child_deep
      (fun q t i hq hlen hw => hrow r hr t i ⟨q, hq, hlen, hw⟩) hv
  have htree : ∀ g, Tree { s with mem := m } sp g ↔ Tree s sp g := fun g => reached_congr hwalk
  refine ⟨⟨hk, forest_congr h.forest hwalk, ?_, ?_, ?_⟩, hwalk⟩
  · exact fun g hg => h.ram g ((htree g).mp hg)
  · intro r hr
    obtain ⟨q, hq, hk, hw⟩ := h.slot_walk hr
    refine ⟨q, ?_, ?_⟩
    · exact (hrow r hr r 0 ⟨[], visible_nil, by decide, rfl⟩).trans hq
    · exact (hrow r hr q 0 ⟨[0], visible_single 0, by decide, hw⟩).trans hk
  · intro r hr i j k pd hv hw
    rw [show walkFrom m r [i, j] = _ from hwalk r hr _ hv] at hw
    rw [show entry m pd k = entry s.mem pd k from hrow r hr pd k ⟨[i, j], hv, by simp, hw⟩]
    exact h.huge r hr i j k pd hv hw

/-- A memory that differs outside the address spaces. -/
theorem Shape.otherRow (h : Shape b s sp) (hk : KernelTables b { s with mem := m })
    (hrow : ∀ t i, Tree s sp t → entry m t i = entry s.mem t i) :
    Shape b { s with mem := m } sp ∧ ∀ g, Tree { s with mem := m } sp g ↔ Tree s sp g := by
  obtain ⟨hshape, hwalk⟩ := h.tableRows hk fun r hr t i ⟨p, hv, _, hw⟩ =>
    hrow t i (tree_of_walk hr hv hw)
  exact ⟨hshape, fun g => reached_congr hwalk⟩

theorem Loose.row (hf : Loose b s sp f)
    (hm : ∀ t, t ≠ f → ∀ i, entry m t i = entry s.mem t i) (t : Nat) (i : Fin 512)
    (ht : Tree s sp t) : entry m t i = entry s.mem t i := by
  refine hm t ?_ i
  rintro rfl
  exact hf.apart ht

/-- A memory that differs in one frame outside the address spaces. -/
theorem Shape.looseRow (h : Shape b s sp) (hf : Loose b s sp f)
    (hm : ∀ t, t ≠ f → ∀ i, entry m t i = entry s.mem t i) :
    Shape b { s with mem := m } sp ∧ ∀ g, Tree { s with mem := m } sp g ↔ Tree s sp g := by
  refine h.otherRow (h.kernel.congr rfl rfl fun t ht i => ?_) (hf.row hm)
  have hlow := Boot.tables_lt_ram hf.ram
  exact hm t (by omega) i

/-- The entries a store to `(t, i)` leaves alone. -/
theorem entry_store_of_ne {t' : Nat} {i' : Fin 512} (h : t' ≠ t ∨ i' ≠ i) :
    entry (s.store t i e).mem t' i' = entry s.mem t' i' := by
  rw [Mm.store, entry_setEntry, if_neg]
  rintro ⟨rfl, rfl⟩
  simp at h

theorem entry_store_self : entry (s.store t i e).mem t i = e % 2 ^ 64 := by
  rw [Mm.store, entry_setEntry, if_pos ⟨rfl, rfl⟩]

section Store

variable (h : Shape b s sp) (hr : r ∈ sp) (hv : Visible (p ++ [i]))
  (hw : walkFrom s.mem r p = some t)
include h hr hv hw

theorem KernelTables.store (e : Nat) : KernelTables b (s.store t i e) := by
  refine h.kernel.congr rfl rfl fun t' ht' i' => entry_store_of_ne (.inl ?_)
  have ht : Tree s sp t := tree_of_walk hr (visible_of_append p [i] hv) hw
  have hlow := Boot.tables_lt_ram (h.ram t ht)
  omega

/-- The kernel slot survives every store to another entry of a tree. -/
theorem Shape.slot_store (hslot : p = [] → i ≠ 0) (e : Nat) {r' : Nat} (hr' : r' ∈ sp) :
    ∃ q, entry (s.store t i e).mem r' 0 = tableEntry q ∧
      entry (s.store t i e).mem q 0 = b.kernelSlot := by
  obtain ⟨q, hq, hk, hwq⟩ := h.slot_walk hr'
  have hp : Visible p := visible_of_append p [i] hv
  refine ⟨q, ?_, ?_⟩
  · rw [entry_store_of_ne, hq]
    by_contra hcon
    push Not at hcon
    obtain ⟨rfl, rfl⟩ := hcon
    obtain ⟨-, hpnil⟩ := h.forest.inj r r' p [] r' hr hr' hp visible_nil hw rfl
    exact hslot hpnil rfl
  rw [entry_store_of_ne, hk]
  by_contra hcon
  push Not at hcon
  obtain ⟨rfl, rfl⟩ := hcon
  obtain ⟨-, rfl⟩ := h.forest.inj r r' p [0] q hr hr' hp (visible_single 0) hw hwq
  exact visible_cons_cons.mp hv ⟨rfl, rfl⟩

/-- Huge entries stay where they were, if the store makes none. -/
theorem Shape.huge_store (hwalk : ∀ r' ∈ sp, ∀ i' j' pd, Visible [i', j'] →
      walkFrom (s.store t i e).mem r' [i', j'] = some pd → walkFrom s.mem r' [i', j'] = some pd ∨
        ∀ k, present (entry (s.store t i e).mem pd k) = false)
    (hhuge : p.length = 2 → present (e % 2 ^ 64) = true → large (e % 2 ^ 64) = true →
      s.lapicBase ≠ 0 ∧ ∃ j : Fin 512, p = [0, j] ∧ j.val = s.lapicBase / 2 ^ 30)
    {r' : Nat} (hr' : r' ∈ sp) (i' j' k : Fin 512) (pd : Nat) (hv' : Visible [i', j'])
    (hw' : walkFrom (s.store t i e).mem r' [i', j'] = some pd)
    (hp' : present (entry (s.store t i e).mem pd k) = true)
    (hl' : large (entry (s.store t i e).mem pd k) = true) :
    s.lapicBase ≠ 0 ∧ i' = 0 ∧ j'.val = s.lapicBase / 2 ^ 30 := by
  rcases hwalk r' hr' i' j' pd hv' hw' with hold | hbare
  · by_cases hsame : pd = t ∧ k = i
    · obtain ⟨rfl, rfl⟩ := hsame
      obtain ⟨-, rfl⟩ :=
        h.forest.inj r r' p [i', j'] pd hr hr' (visible_of_append p _ hv) hv' hw hold
      rw [entry_store_self] at hp' hl'
      obtain ⟨hlapic, j, hpj, hj⟩ := hhuge rfl hp' hl'
      obtain ⟨rfl, rfl⟩ : i' = 0 ∧ j' = j := by simpa using hpj
      exact ⟨hlapic, rfl, hj⟩
    · have hne : pd ≠ t ∨ k ≠ i := not_and_or.mp hsame
      rw [entry_store_of_ne hne] at hp' hl'
      exact h.huge r' hr' i' j' k pd hv' hold hp' hl'
  · rw [hbare k] at hp'
    cases hp'

/-- No old walk goes through an entry that was not present. -/
theorem walk_store_of_absent (hold : present (entry s.mem t i) = false) (e : Nat) :
    ∀ r' ∈ sp, ∀ p' f', Visible p' → walkFrom s.mem r' p' = some f' →
      walkFrom (s.store t i e).mem r' p' = some f' := by
  intro r' hr' p' f' hv' hw'
  rw [← hw']
  refine walk_write_ne visible_of_append h.forest hr (visible_of_append p [i] hv) hw
    (fun _ _ => entry_store_of_ne) hr' hv' ?_
  rintro ⟨rfl, q, rfl⟩
  obtain ⟨t', ht', -⟩ := walk_prefix hw'
  have hnone := walkFrom_snoc hw i
  rw [child_of_not_present hold] at hnone
  cases hnone.symm.trans ht'

/-- **Overwriting an entry** by one that refers to nothing. -/
theorem Shape.cut (hslot : p = [] → i ≠ 0) (hc : child p.length (e % 2 ^ 64) = none)
    (hhuge : p.length = 2 → present (e % 2 ^ 64) = true → large (e % 2 ^ 64) = true →
      s.lapicBase ≠ 0 ∧ ∃ j : Fin 512, p = [0, j] ∧ j.val = s.lapicBase / 2 ^ 30) :
    Shape b (s.store t i e) sp ∧ ∀ r' ∈ sp, ∀ p' f', Visible p' →
      walkFrom (s.store t i e).mem r' p' = some f' → walkFrom s.mem r' p' = some f' := by
  have hp : Visible p := visible_of_append p [i] hv
  have hm : ∀ t' i', t' ≠ t ∨ i' ≠ i → entry (s.store t i e).mem t' i' = entry s.mem t' i' :=
    fun _ _ => entry_store_of_ne
  have hc' : child p.length (entry (s.store t i e).mem t i) = none := by
    rw [entry_store_self]
    exact hc
  have hwalk : ∀ r' ∈ sp, ∀ p' f', Visible p' →
      walkFrom (s.store t i e).mem r' p' = some f' → walkFrom s.mem r' p' = some f' :=
    fun r' hr' p' f' hv' =>
      walk_clear visible_of_append h.forest hr hp hw hm hc' hr' hv'
  refine ⟨⟨KernelTables.store h hr hv hw e, ?_, ?_, ?_, ?_⟩, hwalk⟩
  · exact forest_clear visible_of_append h.forest hr hp hw hm hc'
  · rintro g ⟨r', p', hr', hv', hw'⟩
    exact h.ram g ⟨r', p', hr', hv', hwalk r' hr' p' g hv' hw'⟩
  · exact fun r' hr' => h.slot_store hr hv hw hslot e hr'
  · intro r' hr' i' j' k pd hv' hw'
    refine h.huge_store hr hv hw ?_ hhuge hr' i' j' k pd hv' hw'
    exact fun r' hr' i' j' pd hv' hw' => .inl (hwalk r' hr' _ pd hv' hw')

/-- **Linking a fresh frame** into an entry that was not present. -/
theorem Shape.link (hold : present (entry s.mem t i) = false) (hf : Loose b s sp f)
    (hc : child p.length (e % 2 ^ 64) = some f) (hz : p.length < 3 → ∀ j, entry s.mem f j = 0) :
    Shape b (s.store t i e) sp ∧ walkFrom (s.store t i e).mem r (p ++ [i]) = some f ∧
      (∀ g, Tree (s.store t i e) sp g ↔ g = f ∨ Tree s sp g) ∧
      (∀ r' ∈ sp, ∀ p' f', Visible p' → walkFrom s.mem r' p' = some f' →
        walkFrom (s.store t i e).mem r' p' = some f') ∧
      ∀ r' ∈ sp, ∀ p' f', Visible p' → walkFrom (s.store t i e).mem r' p' = some f' →
        (r' = r ∧ p' = p ++ [i] ∧ f' = f) ∨ walkFrom s.mem r' p' = some f' := by
  have hp : Visible p := visible_of_append p [i] hv
  have hm : ∀ t' i', t' ≠ t ∨ i' ≠ i → entry (s.store t i e).mem t' i' = entry s.mem t' i' :=
    fun _ _ => entry_store_of_ne
  have hc' : child p.length (entry (s.store t i e).mem t i) = some f := by
    rw [entry_store_self]
    exact hc
  have hne : f ≠ t := by
    rintro rfl
    exact hf.apart (tree_of_walk hr hp hw)
  have hbare : p.length < 3 → ∀ j, entry (s.store t i e).mem f j = 0 := by
    intro hlt j
    rw [entry_store_of_ne (.inl hne)]
    exact hz hlt j
  have hleaf : ∀ j, Visible (p ++ [i, j]) →
      child (p.length + 1) (entry (s.store t i e).mem f j) = none := by
    intro j _
    rcases Nat.lt_or_ge p.length 3 with hlt | hge
    · rw [hbare hlt j]
      exact child_zero _
    · exact child_deep _ _ (by omega)
  have hkeep := walk_store_of_absent h hr hv hw hold e
  have hnew : walkFrom (s.store t i e).mem r (p ++ [i]) = some f := by
    rw [walkFrom, walk_write_eq visible_of_append h.forest hr hp hw hm, hc']
    rfl
  have hlink : ∀ r' ∈ sp, ∀ p' f', Visible p' → walkFrom (s.store t i e).mem r' p' = some f' →
      (r' = r ∧ p' = p ++ [i] ∧ f' = f) ∨ walkFrom s.mem r' p' = some f' :=
    fun r' hr' p' f' hv' =>
      walk_link visible_of_append h.forest hr hp hw hm hc' hleaf hr' hv'
  have htree : ∀ g, Tree (s.store t i e) sp g ↔ g = f ∨ Tree s sp g := by
    intro g
    constructor
    · rintro ⟨r', p', hr', hv', hw'⟩
      rcases hlink r' hr' p' g hv' hw' with ⟨-, -, rfl⟩ | hw'
      · exact .inl rfl
      · exact .inr ⟨r', p', hr', hv', hw'⟩
    · rintro (rfl | ⟨r', p', hr', hv', hw'⟩)
      · exact ⟨r, p ++ [i], hr, hv, hnew⟩
      · exact ⟨r', p', hr', hv', hkeep r' hr' p' g hv' hw'⟩
  refine ⟨⟨KernelTables.store h hr hv hw e, ?_, ?_, ?_, ?_⟩, hnew, htree, hkeep, hlink⟩
  · exact forest_link visible_of_append h.forest hr hp hw hm hc' hf.apart hleaf
  · intro g hg
    rcases (htree g).mp hg with rfl | hg
    · exact hf.ram
    · exact h.ram g hg
  · refine fun r' hr' => h.slot_store hr hv hw ?_ e hr'
    rintro rfl rfl
    obtain ⟨q, hq, -⟩ := h.slot r hr
    rw [← Option.some.inj hw, hq, present_tableEntry] at hold
    cases hold
  intro r' hr' i' j' k pd hv' hw'
  refine h.huge_store hr hv hw ?_ ?_ hr' i' j' k pd hv' hw'
  · intro r' hr' i' j' pd hv' hw'
    rcases hlink r' hr' _ pd hv' hw' with ⟨-, hpath, rfl⟩ | hw'
    · have hlen : p.length + 1 = 2 := by simpa using congrArg List.length hpath.symm
      refine .inr fun k => ?_
      rw [hbare (by omega) k]
      decide
    · exact .inl hw'
  · intro hlen _ hlarge
    rw [hlen, child_huge hlarge] at hc
    cases hc

end Store

/-! ## 6. Roots -/

theorem Inv.mono {sp' : List Nat} (h : Inv b s sp) (hsub : ∀ r ∈ sp', r ∈ sp) : Inv b s sp' := by
  have htree : ∀ f, Tree s sp' f → Tree s sp f := by
    rintro f ⟨r', p, hr', hv, hw⟩
    exact ⟨r', p, hsub r' hr', hv, hw⟩
  refine ⟨⟨h.kernel, forest_mono h.forest hsub, fun f hf => h.ram f (htree f hf), ?_, ?_⟩, h.free,
    fun f hf => h.taken f (htree f hf)⟩
  · exact fun r' hr' => h.slot r' (hsub r' hr')
  · exact fun r' hr' => h.huge r' (hsub r' hr')

theorem Inv.dropRoot (h : Inv b s sp) (r : Nat) : Inv b s (sp.filter (· ≠ r)) :=
  h.mono fun _ hr' => (mem_filter.mp hr').1

/-- The frames of a space that has its kernel slot and nothing else. -/
theorem walk_bare {q : Nat} (hroot : entry m r 0 = tableEntry q)
    (hrest : ∀ i, i ≠ 0 → entry m r i = 0) (hq : ∀ j, j ≠ 0 → entry m q j = 0)
    {p : List (Fin 512)} (hv : Visible p) (hw : walkFrom m r p = some f) :
    (p = [] ∧ f = r) ∨ (p = [0] ∧ f = q) := by
  cases p with
  | nil => exact .inl ⟨rfl, (Option.some.inj hw).symm⟩
  | cons i p =>
    by_cases hi : i = 0
    · subst hi
      rw [walkFrom, walk, hroot, child_table (by decide), Option.bind_some] at hw
      cases p with
      | nil => exact .inr ⟨rfl, (Option.some.inj hw).symm⟩
      | cons j p =>
        have hj : j ≠ 0 := fun hj => visible_cons_cons.mp hv ⟨rfl, hj⟩
        rw [walk, hq j hj, child_zero] at hw
        cases hw
    · rw [walkFrom, walk, hrest i hi, child_zero] at hw
      cases hw

/-- **A new address space**: a fresh root with a fresh table behind its entry 0. -/
theorem Inv.addRoot (h : Inv b s sp) {q : Nat} (hr : Fresh b s sp r) (hf : Fresh b s sp q)
    (hne : r ≠ q) (hroot : entry s.mem r 0 = tableEntry q)
    (hrest : ∀ i, i ≠ 0 → entry s.mem r i = 0) (hslot : entry s.mem q 0 = b.kernelSlot)
    (hq : ∀ j, j ≠ 0 → entry s.mem q j = 0) : Inv b s (r :: sp) := by
  have hbare : ∀ p f, Visible p → walkFrom s.mem r p = some f →
      (p = [] ∧ f = r) ∨ (p = [0] ∧ f = q) := fun p f hv hw => walk_bare hroot hrest hq hv hw
  have hforest : Forest child (entry s.mem) (fun r' => r' = r ∨ r' ∈ sp) Visible := by
    refine forest_addRoot h.forest ?_ ?_
    · intro p f hv hw
      rcases hbare p f hv hw with ⟨-, rfl⟩ | ⟨-, rfl⟩
      · exact hr.apart
      · exact hf.apart
    intro p p' f hv hv' hw hw'
    rcases hbare p f hv hw with ⟨rfl, rfl⟩ | ⟨rfl, rfl⟩
    · rcases hbare p' f hv' hw' with ⟨rfl, -⟩ | ⟨-, heq⟩
      · rfl
      · exact absurd heq hne
    · rcases hbare p' f hv' hw' with ⟨-, heq⟩ | ⟨rfl, -⟩
      · exact absurd heq.symm hne
      · rfl
  have htree : ∀ f, Tree s (r :: sp) f → f = r ∨ f = q ∨ Tree s sp f := by
    rintro f ⟨r', p, hr', hv, hw⟩
    rcases mem_cons.mp hr' with rfl | hr'
    · rcases hbare p f hv hw with ⟨-, rfl⟩ | ⟨-, rfl⟩
      · exact .inl rfl
      · exact .inr (.inl rfl)
    · exact .inr (.inr ⟨r', p, hr', hv, hw⟩)
  refine ⟨⟨h.kernel, forest_mono hforest fun r' => mem_cons.mp, ?_, ?_, ?_⟩, h.free, ?_⟩
  · intro f hft
    rcases htree f hft with rfl | rfl | hft
    · exact hr.ram
    · exact hf.ram
    · exact h.ram f hft
  · intro r' hr'
    rcases mem_cons.mp hr' with rfl | hr'
    · exact ⟨q, hroot, hslot⟩
    · exact h.slot r' hr'
  · intro r' hr' i j k pd hv hw
    rcases mem_cons.mp hr' with rfl | hr'
    · rcases hbare _ pd hv hw with ⟨hnil, -⟩ | ⟨hone, -⟩
      · cases hnil
      · cases hone
    · exact h.huge r' hr' i j k pd hv hw
  · intro f hft
    rcases htree f hft with rfl | rfl | hft
    · exact hr.taken
    · exact hf.taken
    · exact h.taken f hft

end DyntKernel.Mem
