/-
  File:      DyntKernel/Exec/Confined.lean
  Subject:   WHAT LOADING A PROGRAM WRITES.

  * `Confined` -- every store of a call, and every byte it changed, lies in a frame the call
    obtained from `pmm_alloc_frame`, or in a page table the process had before;
  * `PutsInside` -- the stores that are reached stay inside pages the call has mapped;
  * `FileInside`, `ExecInside` -- the condition on a call: this, of the relocations and of the
    stack;
  * `Loading` -- the invariant of a call, kept by each of its steps;
  * `loader_confined` -- under the condition `process_load_elf` and `process_execve` are confined.
-/
import DyntKernel.Exec.Load
import DyntKernel.Mem.Device

namespace DyntKernel.Exec

open Library Library.Fallible Mem List

variable {n r f va : Nat} {a : Args} {name : List UInt8} {b : Boot} {s s' : Mm} {sp : List Nat}

/-! ## 1. Pages for the user -/

/-- The frame `f` is mapped for the user at the page of `va`. -/
structure PageAt (s : Mm) (r va f : Nat) : Prop where
  small : f < pmmMaxFrames
  visible : Visible (pathOf va)
  entry : ∃ pt, walkFrom s.mem r [pml4Idx va, pdptIdx va, pdIdx va] = some pt ∧
    entry s.mem pt (ptIdx va) = f * 4096 + 7

theorem visible_of_pathOf (h : Visible (pathOf va)) : Visible [pml4Idx va, pdptIdx va, pdIdx va] :=
  visible_of_append [pml4Idx va, pdptIdx va, pdIdx va] [ptIdx va] h

theorem PageAt.kept (h : PageAt s r va f) (hk : Kept sp s s') (hr : r ∈ sp) : PageAt s' r va f := by
  obtain ⟨pt, hw, he⟩ := h.entry
  have hv := visible_of_pathOf h.visible
  refine ⟨h.small, h.visible, pt, hk.walks r hr _ pt hv hw, ?_⟩
  rw [hk.entries r hr pt _ ⟨_, hv, by simp, hw⟩, he]
  rw [he]
  exact decide_eq_true (by omega)

theorem PageAt.walk (h : PageAt s r va f) : walkFrom s.mem r (pathOf va) = some f := by
  obtain ⟨pt, hw, he⟩ := h.entry
  have hsmall := h.small
  have hmax : pmmMaxFrames = 16777216 := rfl
  have hp : present (f * 4096 + 7) = true := decide_eq_true (by omega)
  rw [pathOf, walk_leaf hw (by rw [he, hp]), he, entryFrame]
  exact congrArg some (by omega)

theorem PageAt.translate (h : PageAt s r va f) :
    pagingTranslate s.mem r va = f * 4096 + va % 4096 := by
  obtain ⟨pt, hw, he⟩ := h.entry
  have hp : present (Mem.entry s.mem pt (ptIdx va)) = true := by
    rw [he]
    exact decide_eq_true (by omega)
  rw [translate_leaf hw hp, he, entryFrame]
  omega

/-- The addresses of one page have one path. -/
theorem PageAt.offset (h : PageAt s r (va / 4096 * 4096) f) : PageAt s r va f := by
  have hpath : ∀ k, 12 ≤ k → va / 4096 * 4096 / 2 ^ k = va / 2 ^ k := by
    intro k hk
    obtain ⟨j, rfl⟩ : ∃ j, k = 12 + j := ⟨k - 12, by omega⟩
    rw [Nat.pow_add, ← Nat.div_div_eq_div_mul, ← Nat.div_div_eq_div_mul]
    congr 1
    omega
  have h₁ : pml4Idx (va / 4096 * 4096) = pml4Idx va := by rw [pml4Idx, pml4Idx, hpath _ (by decide)]
  have h₂ : pdptIdx (va / 4096 * 4096) = pdptIdx va := by rw [pdptIdx, pdptIdx, hpath _ (by decide)]
  have h₃ : pdIdx (va / 4096 * 4096) = pdIdx va := by rw [pdIdx, pdIdx, hpath _ (by decide)]
  have h₄ : ptIdx (va / 4096 * 4096) = ptIdx va := by rw [ptIdx, ptIdx, hpath _ (by decide)]
  obtain ⟨hsmall, hv, he⟩ := h
  rw [pathOf, h₁, h₂, h₃, h₄] at hv
  rw [h₁, h₂, h₃, h₄] at he
  exact ⟨hsmall, hv, he⟩

/-- A page is no table. -/
theorem PageAt.not_table (h : PageAt s r va f) (hs : Shape b s sp) (hr : r ∈ sp) :
    ∀ r' ∈ sp, ¬ Table s r' f := by
  rintro r' hr' ⟨p, hv, hlen, hw⟩
  obtain ⟨-, rfl⟩ := hs.forest.inj r' r p (pathOf va) f hr' hr hv h.visible hw h.walk
  exact absurd hlen (by simp [pathOf])

/-! ## 2. The invariant of a call -/

/-- **Confined**: the call that began in `s` stored only into frames it obtained, and changed bytes
    of those frames and of `own` only; what it obtained was free before. -/
structure Confined (own : Nat → Prop) (s : Mm) (l : Load) : Prop where
  wrote : ∀ w ∈ l.wrote, ∀ x, w.1 ≤ x → x < w.1 + w.2 → l.got (x / 4096) = true
  bytes : Within (fun f => l.got f = true ∨ own f) s l.mm
  got : ∀ f, l.got f = true → s.pmm.free f = true

/-- What a call that loads the space `r` keeps: `s₀` is a state the address spaces are compared
    with, `mapped` the pages it has mapped. -/
structure Loading (b : Boot) (sp : List Nat) (r : Nat) (own : Nat → Prop) (s s₀ : Mm)
    (mapped : Nat → Prop) (l : Load) : Prop extends Confined own s l where
  inv : Inv b l.mm sp
  frees : ∀ f, l.mm.pmm.free f = true → s.pmm.free f = true
  tables : ∀ t, Table l.mm r t → l.got t = true ∨ own t
  kept : Kept sp s₀ l.mm
  page : ∀ va, mapped va → ∃ f, PageAt l.mm r va f ∧ l.got f = true

variable {own : Nat → Prop} {s₀ : Mm} {mapped : Nat → Prop} {l : Load}

theorem Loading.mono {mapped' : Nat → Prop} (h : Loading b sp r own s s₀ mapped l)
    (hsub : ∀ va, mapped' va → mapped va) : Loading b sp r own s s₀ mapped' l :=
  ⟨h.toConfined, h.inv, h.frees, h.tables, h.kept, fun va hva => h.page va (hsub va hva)⟩

theorem Load.got_gain {mm : Mm} : (l.gain mm).got f = true ↔ l.got f = true ∨
    Obtained l.mm mm f := by
  simp [Load.gain, Obtained]

section Steps

variable (hs : ∀ f, s.pmm.free f = true → b.Ram f) (hr : r ∈ sp)
include hr

/-- A mapping in the space `r`. -/
theorem Loading.gain (h : Loading b sp r own s s₀ mapped l) {mm : Mm} {leaf : Option Nat}
    (hg : Grown b sp leaf l.mm mm) (hsp : Spread r l.mm mm) :
    Loading b sp r own s s₀ mapped (l.gain mm) := by
  have hold : ∀ f, l.got f = true → (l.gain mm).got f = true := fun f hf =>
    Load.got_gain.mpr (.inl hf)
  have hnew : ∀ f, Obtained l.mm mm f ∨ Table l.mm r f → (l.gain mm).got f = true ∨ own f := by
    rintro f (hf | ht)
    · exact .inl (Load.got_gain.mpr (.inr hf))
    · exact (h.tables f ht).imp_left (hold f)
  refine ⟨⟨?_, ?_, ?_⟩, hg.inv, fun f hf => h.frees f (hsp.frees f hf), fun t ht => ?_,
    h.kept.trans hg.toKept, fun va hva => ?_⟩
  · exact fun w hw x hle hlt => hold _ (h.wrote w hw x hle hlt)
  · have hfirst : Within (fun f => (l.gain mm).got f = true ∨ own f) s l.mm := fun a hne =>
      (h.bytes a hne).imp_left (hold _)
    exact hfirst.trans fun a hne => hnew _ (hsp.bytes a hne)
  · intro f hf
    rcases Load.got_gain.mp hf with hf | hf
    · exact h.got f hf
    · exact h.frees f hf.1
  · exact hnew t (hsp.tables t ht)
  · obtain ⟨f, hpage, hf⟩ := h.page va hva
    exact ⟨f, hpage.kept hg.toKept hr, hold f hf⟩

include hs

omit hr in
/-- A store into one frame of the call that is no table leaves the address spaces as they are. -/
theorem Loading.write_rows (h : Loading b sp r own s s₀ mapped l) (hf : l.got f = true)
    (hnt : ∀ r' ∈ sp, ¬ Table l.mm r' f) {a : Nat} (data : Nat → UInt8) (ha : f * 4096 ≤ a)
    (hn : a + n ≤ f * 4096 + 4096) :
    Shape b (l.write a n data).mm sp ∧ Kept sp l.mm (l.write a n data).mm ∧
    ∀ r' ∈ sp, ∀ p, Visible p →
        walkFrom (l.write a n data).mm.mem r' p = walkFrom l.mm.mem r' p := by
  have hrow : ∀ t, t ≠ f → ∀ i, entry (l.write a n data).mm.mem t i = entry l.mm.mem t i :=
    fun t ht i => entry_blit_of_ne ht ha hn i
  have htab : ∀ r' ∈ sp, ∀ t i, Table l.mm r' t →
      entry (l.write a n data).mm.mem t i = entry l.mm.mem t i := by
    intro r' hr' t i ht
    exact hrow t (fun heq => hnt r' hr' (heq ▸ ht)) i
  have hlow := Boot.tables_lt_ram (hs f (h.got f hf))
  have hk : KernelTables b (l.write a n data).mm :=
    h.inv.kernel.congr rfl rfl fun t ht i => hrow t (by omega) i
  obtain ⟨hshape, hwalk⟩ := h.inv.tableRows hk htab
  exact ⟨hshape, ⟨rfl, fun r' hr' p g hv hw => (hwalk r' hr' p hv).trans hw,
    fun r' hr' t i ht _ => htab r' hr' t i ht⟩, hwalk⟩

/-- A store into one frame of the call that is no table. -/
theorem Loading.write (h : Loading b sp r own s s₀ mapped l) (hf : l.got f = true)
    (hnt : ∀ r' ∈ sp, ¬ Table l.mm r' f) {a : Nat} (data : Nat → UInt8) (ha : f * 4096 ≤ a)
    (hn : a + n ≤ f * 4096 + 4096) : Loading b sp r own s s₀ mapped (l.write a n data) := by
  obtain ⟨hshape, hkept, hwalk⟩ := h.write_rows hs hf hnt data ha hn
  refine ⟨⟨?_, ?_, h.got⟩, ⟨hshape, h.inv.free, ?_⟩, h.frees, ?_, h.kept.trans hkept, ?_⟩
  · intro w hw x hle hlt
    rcases mem_append.mp hw with hw | hw
    · exact h.wrote w hw x hle hlt
    · rw [mem_singleton.mp hw] at hle hlt
      have hx : x / 4096 = f := by
        omega
      rw [hx]
      exact hf
  · exact Within.trans h.bytes (Within.blit (.inl hf) ha hn)
  · rintro g ⟨r', p, hr', hv, hw⟩
    exact h.inv.taken g ⟨r', p, hr', hv, (hwalk r' hr' p hv).symm.trans hw⟩
  · rintro t ⟨p, hv, hlen, hw⟩
    exact h.tables t ⟨p, hv, hlen, (hwalk r hr p hv).symm.trans hw⟩
  · intro va hva
    obtain ⟨g, hpage, hg⟩ := h.page va hva
    exact ⟨g, hpage.kept hkept hr, hg⟩

omit hs in
theorem alloc_spec : Triple (Loading b sp r own s s₀ mapped) alloc
      (fun f l => Loading b sp r own s s₀ mapped l ∧ l.got f = true ∧ Fresh b l.mm sp f)
      (Loading b sp r own s s₀ fun _ => False) := by
  intro l h
  rcases Grown.alloc h.inv with ⟨hzero, hsame⟩ | ⟨hne, hgrow, hfresh, -⟩
  · have hgain := h.gain hr (Grown.refl h.inv) Spread.refl
    refine .inr ⟨_, by rw [alloc, if_pos hzero, hsame], hgain.mono fun _ hno => hno.elim⟩
  · have hspread : Spread r l.mm l.mm.alloc.2 :=
      ⟨alloc_frees l.mm, fun _ hchange => absurd rfl hchange, fun _ ht => .inr ht⟩
    refine .inl ⟨_, _, by rw [alloc, if_neg hne], h.gain hr hgrow hspread, ?_, hfresh⟩
    exact Load.got_gain.mpr (.inr (alloc_obtained hne))

theorem zeroPage_spec :
    Triple (fun l => Loading b sp r own s s₀ mapped l ∧ l.got f = true ∧ Fresh b l.mm sp f)
      (edit (·.zeroPage f))
      (fun _ l => Loading b sp r own s s₀ mapped l ∧ l.got f = true ∧ Fresh b l.mm sp f)
      (Loading b sp r own s s₀ fun _ => False) := by
  refine Triple.edit fun l hl => ?_
  obtain ⟨h, hgot, hfresh⟩ := hl
  have hpos : f ≠ 0 := by
    have hlow := Boot.tables_lt_ram hfresh.ram
    omega
  have hwrite : l.zeroPage f = l.write (f * 4096) 4096 fun _ => 0 := by
    rw [Load.zeroPage, Mm.zeroPage, if_neg hpos]
    rfl
  have hnt : ∀ r' ∈ sp, ¬ Table l.mm r' f := by
    intro r' hr' ht
    obtain ⟨p, hv, -, hw⟩ := ht
    exact hfresh.apart (tree_of_walk hr' hv hw)
  refine ⟨?_, hgot, (Grown.zeroPage h.inv hfresh).1.fresh f (by simp) hfresh⟩
  rw [hwrite]
  exact h.write hs hr hgot hnt _ (Nat.le_refl _) (Nat.le_refl _)

theorem mapOrFree_spec (va : Nat) :
    Triple (fun l => Loading b sp r own s s₀ mapped l ∧ l.got f = true ∧ Fresh b l.mm sp f)
      (mapOrFree r va f)
      (fun _ l => Loading b sp r own s s₀ (fun v => v = va ∨ mapped v) l ∧ PageAt l.mm r va f ∧
        l.got f = true) (Loading b sp r own s s₀ fun _ => False) := by
  rintro l ⟨h, hgot, hfresh⟩
  have hram := hs f (h.got f hgot)
  have hsmall := Boot.ram_lt hram
  have hold : ∀ mm, (l.gain mm).got f = true := fun mm => Load.got_gain.mpr (.inl hgot)
  rcases pagingMap_cases va h.inv hr hfresh (show FlagsOk flagUserWritable by decide) with
    ⟨mm, heq, hgrow⟩ | ⟨mm, heq, hgrow, hv, -, pt, hw, he⟩
  · -- the frame goes back
    have hload := h.gain hr hgrow.toGrown hgrow.toSpread
    have hloose := (hgrow.fresh f (by simp) hfresh).toLoose
    refine .inr ⟨{ l.gain mm with mm := mm.release f }, by simp [mapOrFree, heq], ?_⟩
    refine ⟨⟨hload.wrote, hload.bytes, hload.got⟩, hgrow.inv.release fun _ => hloose, ?_,
      hload.tables, ?_, fun _ hno => hno.elim⟩
    · intro g hg
      rcases (Pmm.freeFrame_free _ _ g).mp hg with hg | ⟨rfl, -⟩
      · exact hload.frees g hg
      · exact h.got g hgot
    · exact ⟨hload.kept.lapic, hload.kept.walks, hload.kept.entries⟩
  have hentry : entry mm.mem pt (ptIdx va) = f * 4096 + 7 := by
    have hleaf : leafEntry f flagUserWritable = tableEntry f := Nat.or_assoc ..
    rw [he, hleaf, tableEntry_mod hsmall, tableEntry_eq]
  have hpage : PageAt (l.gain mm).mm r va f := ⟨hsmall, hv, pt, hw, hentry⟩
  have hload := h.gain hr hgrow.toGrown hgrow.toSpread
  refine .inl ⟨(), l.gain mm, by simp [mapOrFree, heq], ?_, hpage, hold mm⟩
  refine ⟨hload.toConfined, hload.inv, hload.frees, hload.tables, hload.kept, ?_⟩
  rintro v (rfl | hv)
  · exact ⟨f, hpage, hold mm⟩
  · exact hload.page v hv

theorem mapFresh_spec (va : Nat) : Triple (Loading b sp r own s s₀ mapped) (mapFresh r va)
      (fun f l => Loading b sp r own s s₀ (fun v => v = va ∨ mapped v) l ∧ PageAt l.mm r va f ∧
        l.got f = true) (Loading b sp r own s s₀ fun _ => False) :=
  Triple.bind (alloc_spec hr) fun _ =>
    Triple.bind (zeroPage_spec hs hr) fun _ =>
      Triple.bind (mapOrFree_spec hs hr va) fun _ => Triple.pure fun _ h => h

omit hr hs in
/-- A store to a mapped page. -/
theorem PageAt.store_eq (h : PageAt l.mm r va f) (hf : f ≠ 0) (n : Nat) (data : Nat → UInt8) :
    Exec.store r va n data l = (some (), l.write (f * 4096 + va % 4096) n data) := by
  have hphys : f * 4096 + va % 4096 ≠ 0 := by omega
  rw [← h.translate] at hphys ⊢
  exact store_run hphys n data

/-- A store to a page the call has mapped, inside that page. -/
theorem Loading.store (h : Loading b sp r own s s₀ mapped l) (hva : mapped (va / 4096 * 4096))
    (hn : va % 4096 + n ≤ 4096) (data : Nat → UInt8) :
    ∃ l', Exec.store r va n data l = (some (), l') ∧ Loading b sp r own s s₀ mapped l' := by
  obtain ⟨f, hpage, hgot⟩ := h.page _ hva
  have hpage := hpage.offset
  have hlow := Boot.tables_lt_ram (hs f (h.got f hgot))
  refine ⟨_, hpage.store_eq (by omega) n data, ?_⟩
  exact h.write hs hr hgot (hpage.not_table h.inv.toShape hr) data (by omega) (by omega)

/-! ## 3. Segments, relocations and the stack -/

omit hs hr in
/-- A loop that maps one page a round. -/
theorem forM_pages_spec {body : Nat → Loader Unit} {vs : List Nat}
    (hbody : ∀ va (mapped : Nat → Prop), Triple (Loading b sp r own s s₀ mapped) (body va)
      (fun _ => Loading b sp r own s s₀ fun v => v = va ∨ mapped v)
      (Loading b sp r own s s₀ fun _ => False)) : Triple (Loading b sp r own s s₀ mapped)
        (vs.forM body)
      (fun _ => Loading b sp r own s s₀ fun v => v ∈ vs ∨ mapped v)
      (Loading b sp r own s s₀ fun _ => False) := by
  refine (Triple.forM (J := fun done => Loading b sp r own s s₀ fun v => v ∈ done ∨ mapped v)
    fun va _ done => ?_).conseq ?_ fun _ _ h => h
  · refine (hbody va _).conseq (fun _ h => h) fun _ l h => h.mono fun v hv => ?_
    simp only [mem_append, mem_singleton] at hv
    tauto
  · exact fun l h => h.mono fun v hv => by simpa using hv

theorem mapSegmentPage_spec (im : Image) (seg : Segment) (vaddr va : Nat) :
    Triple (Loading b sp r own s s₀ mapped) (mapSegmentPage r im seg vaddr va)
      (fun _ => Loading b sp r own s s₀ fun v => v = va ∨ mapped v)
      (Loading b sp r own s s₀ fun _ => False) := by
  refine Triple.bind (mapFresh_spec hs hr va) fun f => ?_
  dsimp only [fileRange]
  generalize hlo : max vaddr va = lo
  generalize hhi : min ((vaddr + seg.filesz) % 2 ^ 64) (va + 0x1000) = hi
  by_cases hrange : lo < hi
  · rw [if_pos hrange]
    refine Triple.edit fun l ⟨h, hpage, hgot⟩ => ?_
    exact h.write hs hr hgot (hpage.not_table h.inv.toShape hr) _ (by omega) (by omega)
  · rw [if_neg hrange]
    exact Triple.pure fun l ⟨h, _⟩ => h

theorem mapSegment_spec (im : Image) (seg : Segment) (base : Nat) :
    Triple (Loading b sp r own s s₀ mapped) (mapSegment r im seg base)
      (fun _ => Loading b sp r own s s₀ fun v => v ∈ segmentPages seg base ∨ mapped v)
      (Loading b sp r own s s₀ fun _ => False) :=
  forM_pages_spec fun va _ => mapSegmentPage_spec hs hr im seg _ va

theorem mapUserStack_spec : Triple (Loading b sp r own s s₀ mapped) (mapUserStack r)
      (fun _ => Loading b sp r own s s₀ fun v =>
        v ∈ pagesFrom stackBase processUserStackTop ∨ mapped v)
      (Loading b sp r own s s₀ fun _ => False) :=
  forM_pages_spec fun va _ =>
    Triple.bind (mapFresh_spec hs hr va) fun _ => Triple.pure fun _ h => h.1

end Steps

/-- The pages of the segments. -/
def SegmentPage (segs : List Segment) (base v : Nat) : Prop :=
  ∃ seg ∈ segs, v ∈ segmentPages seg base

instance (segs : List Segment) (base v : Nat) : Decidable (SegmentPage segs base v) :=
  inferInstanceAs (Decidable (∃ seg ∈ segs, v ∈ segmentPages seg base))

/-- **The stores that are reached stay inside pages of the call**: each lies in one page of `mine`.
    A store to an address that is not mapped is not made, and ends the call. -/
def PutsInside (cr3 : Nat) (mine : Nat → Prop) : List Put → Load → Prop
  | [], _ => True
  | .slot _ _ :: _, _ => False
  | .user va n data :: ps, l =>
    pagingTranslate l.mm.mem cr3 va ≠ 0 → (mine (va / 4096 * 4096) ∧ va % 4096 + n ≤ 4096) ∧
      PutsInside cr3 mine ps (l.write (pagingTranslate l.mm.mem cr3 va) n data)

/-- The store of the relocation `i`, if it makes one. -/
def relocPut (im : Image) (d : Dynamic) (base i : Nat) : Option Put :=
  (relocValue im d base (im.rela d i)).map fun v =>
    .user ((base + (im.rela d i).offset) % 2 ^ 64) 8 (word v)

/-- The stores of `apply_relocations`, in its order. -/
def relocPuts (im : Image) (base : Nat) : List Put :=
  (List.range im.relocCount).filterMap (relocPut im im.parseDynamic.2 base)

theorem applyRelocations_puts (im : Image) (base : Nat) :
    applyRelocations r im base = (relocPuts im base).forM (put r) := by
  rw [applyRelocations, relocPuts]
  induction List.range im.relocCount with
  | nil => rfl
  | cons i is ih =>
    rw [List.forM, ih, filterMap_cons, applyRelocation, relocPut]
    cases relocValue im im.parseDynamic.2 base (im.rela im.parseDynamic.2 i) with
    | none =>
      exact funext fun l => bind_some (show (pure () : Loader Unit) l = (some (), l) from rfl)
    | some v => rw [Option.map_some, List.forM, put]

/-- **The condition on an image**: the stores that its relocations reach, once its segments are in
    place, stay inside pages of the segments. -/
def RelocsInside (cr3 : Nat) (im : Image) (segs : List Segment) (base : Nat) (l : Load) : Prop :=
  ∀ l', (segs.forM fun seg => mapSegment cr3 im seg base) l = (some (), l') →
    PutsInside cr3 (SegmentPage segs base) (relocPuts im base) l'

section Image

variable (hs : ∀ f, s.pmm.free f = true → b.Ram f) (hr : r ∈ sp) {im : Image} {segs : List Segment}
  {base : Nat}
include hs hr

theorem segments_spec (im : Image) (segs : List Segment) (base : Nat) :
    Triple (Loading b sp r own s s₀ fun _ => False) (segs.forM fun seg => mapSegment r im seg base)
      (fun _ => Loading b sp r own s s₀ (SegmentPage segs base))
      (Loading b sp r own s s₀ fun _ => False) := by
  refine (Triple.forM (J := fun done => Loading b sp r own s s₀ (SegmentPage done base))
    fun seg _ done => ?_).conseq ?_ fun _ _ h => h
  · refine (mapSegment_spec hs hr im seg base).conseq (fun _ h => h) fun _ l h =>
      h.mono fun v hv => ?_
    obtain ⟨seg', hmem, hv⟩ := hv
    rcases mem_append.mp hmem with hmem | hmem
    · exact .inr ⟨seg', hmem, hv⟩
    · rw [mem_singleton.mp hmem] at hv
      exact .inl hv
  · exact fun l h => h.mono fun v ⟨_, hmem, _⟩ => absurd hmem not_mem_nil

/-- A list of stores that stay inside pages of the call. -/
theorem puts_spec {ps : List Put} :
    Triple (fun l => Loading b sp r own s s₀ mapped l ∧ PutsInside r mapped ps l) (ps.forM (put r))
      (fun _ => Loading b sp r own s s₀ mapped) (Loading b sp r own s s₀ fun _ => False) := by
  induction ps with
  | nil => exact Triple.pure fun _ h => h.1
  | cons p ps ih =>
    refine Triple.bind (R := fun _ l => Loading b sp r own s s₀ mapped l ∧ PutsInside r mapped ps l)
      (fun l ⟨h, hin⟩ => ?_) fun _ => ih
    cases p with
    | slot a v => exact hin.elim
    | user va n data =>
      rcases store_cases r va n data l with hstore | ⟨hne, hstore⟩
      · exact .inr ⟨l, hstore, h.mono fun _ hno => hno.elim⟩
      · obtain ⟨⟨hmine, hpage⟩, hrest⟩ := hin hne
        obtain ⟨l', heq, hl'⟩ := h.store hs hr hmine hpage data
        obtain rfl := congrArg Prod.snd (hstore.symm.trans heq)
        exact .inl ⟨(), _, hstore, hl', hrest⟩

/-- **The part both callers share.** -/
theorem loadImage_spec (hrel : RelocsInside r im segs base l)
    (h : Loading b sp r own s s₀ (fun _ => False) l) :
    (∃ l', loadImage r im segs base l = (some (), l') ∧ Loading b sp r own s s₀
      (fun v => v ∈ pagesFrom stackBase processUserStackTop ∨ SegmentPage segs base v) l') ∨
    ∃ l', loadImage r im segs base l = (none, l') ∧
      Loading b sp r own s s₀ (fun _ => False) l' := by
  rw [loadImage, applyRelocations_puts]
  rcases segments_spec hs hr im segs base l h with
    ⟨_, l₁, heq₁, h₁⟩ | ⟨l₁, heq₁, h₁⟩
  · rw [bind_some heq₁]
    rcases Triple.bind (puts_spec hs hr) (fun _ => mapUserStack_spec hs hr) l₁
      ⟨h₁, hrel l₁ heq₁⟩ with
      ⟨_, l₂, heq₂, h₂⟩ | hfail
    · exact .inl ⟨l₂, heq₂, h₂⟩
    · exact .inr hfail
  · exact .inr ⟨l₁, bind_none heq₁, h₁⟩

end Image

/-! ## 4. What is stored on the stack -/

theorem mem_stackPages (hlow : stackBase ≤ va) (htop : va < processUserStackTop) :
    va / 4096 * 4096 ∈ pagesFrom stackBase processUserStackTop := by
  have hbase : stackBase = 0x3FFFFC0000 := rfl
  rw [pagesFrom, mem_map]
  exact ⟨(va - stackBase) / 4096, mem_range.mpr (by omega), by omega⟩

/-- A store inside one page of the stack. -/
def OnStack (va n : Nat) : Prop :=
  stackBase ≤ va ∧ va < processUserStackTop ∧ va % 4096 + n ≤ 4096

theorem onStack_setup (hname : name.length < 32) :
    ∀ st ∈ setupStores name, OnStack st.1 st.2.1 := by
  have hbase : stackBase = 0x3FFFFC0000 := rfl
  have hend : processUserStackTop = 0x4000000000 := rfl
  intro st hst
  simp only [setupStores, mem_cons, not_mem_nil, or_false] at hst
  rw [OnStack, hbase, hend]
  rcases hst with rfl | rfl | rfl | rfl | rfl | rfl <;> dsimp only <;> omega

theorem sub64_add {c : Nat} (hn : n ≤ c) (hc : c < 2 ^ 64) : sub64 c n + n = c := by
  rw [sub64, Nat.mod_eq_of_lt (show n < 2 ^ 64 by omega)]
  omega

/-- The stores a list of strings makes on a stack with room for them. -/
theorem strings_room {c : Nat} (low : Nat) (strs : List (List UInt8)) (hal : c % 8 = 0)
    (hc : c < 2 ^ 64) (hroom : low + (strs.map stringRoom).sum ≤ c) :
    stringEnd c strs + (strs.map stringRoom).sum = c ∧
    ∀ x ∈ stringAddrs c strs, low ≤ x ∧ x < c := by
  induction strs generalizing c with
  | nil => exact ⟨rfl, fun x hx => absurd hx not_mem_nil⟩
  | cons str strs ih =>
    rw [map_cons, sum_cons] at hroom
    have hstr : stringRoom str = (str.length + 1 + 7) / 8 * 8 := rfl
    have hnext : nextString c str + stringRoom str = c := by
      have hsub := sub64_add (c := c) (n := str.length + 1) (by omega) hc
      rw [nextString]
      omega
    obtain ⟨hend, haddr⟩ := ih (c := nextString c str) (by omega) (by omega) (by omega)
    refine ⟨?_, fun x hx => ?_⟩
    · rw [stringEnd, foldl_cons, ← stringEnd, map_cons, sum_cons]
      omega
    · rcases mem_cons.mp hx with rfl | hx
      · omega
      · have hx := haddr x hx
        omega

/-- **The arguments fit**: at most 128 strings of each kind, all on the stack that was mapped, and
    no string and no pair of words across the end of a page. -/
structure ArgsFit (a : Args) : Prop where
  envc : a.envp.length ≤ 128
  argc : a.argv.length ≤ 128
  room : a.total + 8 ≤ processUserStackSize
  envStrings : ∀ x ∈ (stringAddrs a.start a.envp).zip a.envp, x.1 % 4096 + (x.2.length + 1) ≤ 4096
  argStrings : ∀ x ∈ (stringAddrs a.envEnd a.argv).zip a.argv, x.1 % 4096 + (x.2.length + 1) ≤ 4096
  aux : a.auxAt % 4096 + 16 ≤ 4096

/-- A store through `paging_translate`, with a property of its address and length. -/
def Put.At (P : Nat → Nat → Prop) : Put → Prop
  | .user va n _ => P va n
  | .slot _ _ => False

instance {P : Nat → Nat → Prop} [∀ va n, Decidable (P va n)] : (p : Put) → Decidable (p.At P)
  | .user va n _ => inferInstanceAs (Decidable (P va n))
  | .slot _ _ => inferInstanceAs (Decidable False)

section

variable {P : Nat → Nat → Prop}
  (hword : ∀ va, va % 8 = 0 → stackBase ≤ va → va < processUserStackTop → P va 8)

theorem stringPuts_at {slots cur : Nat} {strs : List (List UInt8)} (hcount : strs.length ≤ 128)
    (hlow : ∀ x ∈ stringAddrs cur strs, stackBase ≤ x ∧ x < processUserStackTop)
    (hstr : ∀ x ∈ (stringAddrs cur strs).zip strs, stackBase ≤ x.1 → x.1 < processUserStackTop →
      P x.1 (x.2.length + 1)) : ∀ p ∈ stringPuts slots cur strs, p.At P := by
  intro p hp
  obtain ⟨⟨⟨x, str⟩, i⟩, hmem, hp⟩ := mem_flatMap.mp hp
  have hzip : (x, str) ∈ (stringAddrs cur strs).zip strs := fst_mem_of_mem_zipIdx hmem
  have hi : i < 128 := by
    have hlt := snd_lt_of_mem_zipIdx hmem
    rw [length_zip] at hlt
    omega
  dsimp only at hp
  rw [if_neg (by omega)] at hp
  rw [mem_singleton.mp hp]
  have hx := hlow x (of_mem_zip hzip).1
  exact hstr _ hzip hx.1 hx.2

include hword in
theorem arrayPuts_at {sp : Nat} {vs : List Nat} (hal : sp % 8 = 0) (hlow : stackBase ≤ sp)
    (hend : sp + 8 * vs.length ≤ processUserStackTop) : ∀ p ∈ arrayPuts sp vs, p.At P := by
  have htop : processUserStackTop = 0x4000000000 := rfl
  intro p hp
  obtain ⟨⟨v, i⟩, hmem, rfl⟩ := mem_map.mp hp
  have hi := snd_lt_of_mem_zipIdx hmem
  exact hword _ (by omega) (by omega) (by omega)

end

theorem length_stringAddrs (cur : Nat) (strs : List (List UInt8)) :
    (stringAddrs cur strs).length = strs.length := by
  induction strs generalizing cur with
  | nil => rfl
  | cons str strs ih => rw [stringAddrs, length_cons, ih, length_cons]

theorem sum_stringRoom (strs : List (List UInt8)) : (strs.map stringRoom).sum % 8 = 0 := by
  induction strs with
  | nil => rfl
  | cons str strs ih =>
    have hstr : stringRoom str = (str.length + 1 + 7) / 8 * 8 := rfl
    rw [map_cons, sum_cons]
    omega

/-- The values of `sp`, each from the one above it. -/
theorem Args.words_add (hlow : 8 * (5 + a.argv.length + a.envp.length) ≤ a.argEnd)
    (hlt : a.argEnd < 2 ^ 64) :
    a.auxAt + 16 = a.argEnd ∧ a.envNullAt + 8 = a.auxAt ∧
    a.envArrayAt + 8 * a.envp.length = a.envNullAt ∧
    a.argNullAt + 8 = a.envArrayAt ∧ a.argArrayAt + 8 * a.argv.length = a.argNullAt ∧
    a.argcAt + 8 = a.argArrayAt := by
  have haux : a.auxAt + 16 = a.argEnd := sub64_add (by omega) (by omega)
  have hnull : a.envNullAt + 8 = a.auxAt := sub64_add (by omega) (by omega)
  have harray : a.envArrayAt + 8 * a.envp.length = a.envNullAt := sub64_add (by omega) (by omega)
  have hnull' : a.argNullAt + 8 = a.envArrayAt := sub64_add (by omega) (by omega)
  have harray' : a.argArrayAt + 8 * a.argv.length = a.argNullAt := sub64_add (by omega) (by omega)
  exact ⟨haux, hnull, harray, hnull', harray', sub64_add (by omega) (by omega)⟩

namespace ArgsFit

/-- Where `build_exec_stack` puts the strings of arguments that fit. -/
theorem strings (h : ArgsFit a) :
    (∀ x ∈ stringAddrs a.start a.envp, stackBase ≤ x ∧ x < processUserStackTop) ∧
    (∀ x ∈ stringAddrs a.envEnd a.argv, stackBase ≤ x ∧ x < processUserStackTop) ∧
    a.argEnd % 8 = 0 ∧ a.argEnd ≤ processUserStackTop ∧
    stackBase + 8 * (5 + a.argv.length + a.envp.length) ≤ a.argEnd := by
  have htop : processUserStackTop = 0x4000000000 := rfl
  have hbase : stackBase = 0x3FFFFC0000 := rfl
  have hroom := h.room
  have henv := sum_stringRoom a.envp
  have harg := sum_stringRoom a.argv
  have htotal : a.total = (a.envp.map stringRoom).sum + (a.argv.map stringRoom).sum +
    8 * (5 + a.argv.length + a.envp.length) := rfl
  have hstart : a.start % 8 = 0 ∧ a.start ≤ processUserStackTop ∧
      stackBase + a.total ≤ a.start := by
    rw [show processUserStackSize = 0x40000 from rfl] at hroom
    rw [Args.start]
    split_ifs at hroom ⊢ <;> omega
  obtain ⟨hend₁, haddr₁⟩ := strings_room stackBase a.envp hstart.1 (by omega) (by omega)
  rw [← Args.envEnd] at hend₁
  obtain ⟨hend₂, haddr₂⟩ := strings_room (c := a.envEnd) stackBase a.argv (by omega) (by omega)
    (by omega)
  rw [← Args.argEnd] at hend₂
  refine ⟨fun x hx => ?_, fun x hx => ?_, by omega, by omega, by omega⟩
  · have hx := haddr₁ x hx
    exact ⟨hx.1, by omega⟩
  · have hx := haddr₂ x hx
    exact ⟨hx.1, by omega⟩

/-- **Arguments that fit are stored on the stack.** -/
theorem puts_at (h : ArgsFit a) : ∀ p ∈ a.puts, p.At OnStack := by
  have hword : ∀ va, va % 8 = 0 → stackBase ≤ va → va < processUserStackTop → OnStack va 8 :=
    fun va hal hlow htop => ⟨hlow, htop, by omega⟩
  have htop : processUserStackTop = 0x4000000000 := rfl
  obtain ⟨haddr₁, haddr₂, hal, hle, hroom⟩ := h.strings
  have hwords := a.words_add (by omega) (by omega)
  have hlen₁ := length_stringAddrs a.start a.envp
  have hlen₂ := length_stringAddrs a.envEnd a.argv
  intro p hp
  simp only [Args.puts, mem_append, mem_singleton] at hp
  rcases hp with ((((((hp | hp) | rfl) | rfl) | hp) | rfl) | hp) | rfl
  · exact stringPuts_at h.envc haddr₁ (fun x hx hlow htop => ⟨hlow, htop, h.envStrings x hx⟩) p hp
  · exact stringPuts_at h.argc haddr₂ (fun x hx hlow htop => ⟨hlow, htop, h.argStrings x hx⟩) p hp
  · exact ⟨by omega, by omega, h.aux⟩
  · exact hword _ (by omega) (by omega) (by omega)
  · exact arrayPuts_at hword (by omega) (by omega) (by omega) p hp
  · exact hword _ (by omega) (by omega) (by omega)
  · exact arrayPuts_at hword (by omega) (by omega) (by omega) p hp
  · exact hword _ (by omega) (by omega) (by omega)

end ArgsFit

/-- Stores of which each stays inside pages of the call. -/
theorem PutsInside.of_at {mine : Nat → Prop} {ps : List Put}
    (h : ∀ p ∈ ps, p.At fun va n => mine (va / 4096 * 4096) ∧ va % 4096 + n ≤ 4096) :
    PutsInside r mine ps l := by
  induction ps generalizing l with
  | nil => trivial
  | cons p ps ih =>
    obtain ⟨hp, hps⟩ := forall_mem_cons.mp h
    cases p with
    | slot a v => exact hp
    | user va n data => exact fun _ => ⟨hp, ih hps⟩

theorem ArgsFit.inside {mine : Nat → Prop} (h : ArgsFit a) : PutsInside r (fun v =>
    v ∈ pagesFrom stackBase processUserStackTop ∨ mine v) a.puts l := by
  refine PutsInside.of_at fun p hp => ?_
  have hat := h.puts_at p hp
  cases p with
  | slot x v => exact hat
  | user va n data => exact ⟨.inl (mem_stackPages hat.1 hat.2.1), hat.2.2⟩

/-! ## 5. The two callers -/

section Callers

variable (hs : ∀ f, s.pmm.free f = true → b.Ram f) (hr : r ∈ sp)
include hs hr

theorem Loading.processSetup (hname : name.length < 32)
    (hstack : ∀ v, v ∈ pagesFrom stackBase processUserStackTop → mapped v)
    (h : Loading b sp r own s s₀ mapped l) :
    Loading b sp r own s s₀ mapped (processSetup r name l) := by
  refine foldl_inv (fun st hst l hl => ?_) h
  obtain ⟨hlow, htop, hpage⟩ := onStack_setup hname st hst
  obtain ⟨l', heq, hl'⟩ := hl.store hs hr (hstack _ (mem_stackPages hlow htop)) hpage st.2.2
  rw [Load.poke, heq]
  exact hl'

theorem buildExecStack_spec :
    Triple (fun l => Loading b sp r own s s₀ mapped l ∧ PutsInside r mapped a.puts l)
      (buildExecStack r a) (fun _ => Loading b sp r own s s₀ fun _ => False)
      (Loading b sp r own s s₀ fun _ => False) := by
  refine Triple.bind (puts_spec hs hr) fun _ => Triple.bind (Triple.ensure (Q := fun _ =>
    Loading b sp r own s s₀ fun _ => False) ?_ ?_) fun _ => Triple.pure fun _ h => h
  · exact fun _ _ h => h.mono fun _ hno => hno.elim
  · exact fun _ _ h => h.mono fun _ hno => hno.elim

end Callers

/-- The beginning of a call. -/
def Load.begin (s : Mm) : Load := ⟨s, fun _ => false, []⟩

/-- The condition on the file that `process_load_elf` loads into the space `cr3`. -/
def FileInside (cr3 pid : Nat) (file : Option Image) (l : Load) : Prop :=
  ∀ im segs, fileSegments file = some (im, segs) → RelocsInside cr3 im segs (loadBase pid im) l

/-- The condition on the arguments: the stores that `build_exec_stack` reaches, once the image is
    loaded, stay inside pages of the call. -/
def ArgsInside (cr3 pid : Nat) (a : Args) (file : Option Image) (l : Load) : Prop :=
  ∀ im segs l', fileSegments file = some (im, segs) →
    loadImage cr3 im segs (loadBase pid im) l = (some (), l') →
    PutsInside cr3 (fun v => v ∈ pagesFrom stackBase processUserStackTop ∨
      SegmentPage segs (loadBase pid im) v) a.puts l'

/-- **The condition on a call of `process_execve`**, if it gets as far as a new address space. -/
def ExecInside (pid : Nat) (a : Args) (file : Option Image) (s : Mm) : Prop :=
  ∀ r s', s.pagingNewAddressSpace = (r, s') → r ≠ 0 →
    FileInside r pid file ((Load.begin s).gain s') ∧
    ArgsInside r pid a file ((Load.begin s).gain s')

theorem Confined.begin (s : Mm) : Confined own s (Load.begin s) :=
  ⟨fun _ hw => absurd hw not_mem_nil, fun _ hne => absurd rfl hne, fun _ hf => by cases hf⟩

theorem Confined.gain_begin (h : Within (Obtained s s') s s') :
    Confined (fun _ => False) s ((Load.begin s).gain s') := by
  have hgot : ∀ f, ((Load.begin s).gain s').got f = true ↔ Obtained s s' f := fun f =>
    Load.got_gain.trans ⟨fun hf => hf.resolve_left (fun hno => by cases hno), .inr⟩
  refine ⟨fun _ hw => absurd hw not_mem_nil, fun a hne => .inl ?_, fun f hf => ?_⟩
  · exact (hgot _).mpr (h a hne)
  · exact ((hgot f).mp hf).1

/-- A new address space, before anything is mapped in it. -/
theorem Loading.gain_begin (h : NewSpace b sp r s s') :
    Loading b (r :: sp) r (fun _ => False) s s' (fun _ => False) ((Load.begin s).gain s') :=
  ⟨Confined.gain_begin h.bytes, h.inv, h.frees,
    fun t ht => .inl (Load.got_gain.mpr (.inr (h.tables t ht))), Kept.refl, fun _ hno => hno.elim⟩

theorem processLoadElf_confined (h : Inv b s sp) (hr : r ∈ sp) (pid : Nat)
    (hname : name.length < 32) {file : Option Image}
    (hfile : FileInside r pid file (Load.begin s)) :
    Confined (Table s r) s (processLoadElf r pid name file (Load.begin s)).2 := by
  have hstart : Loading b sp r (Table s r) s s (fun _ => False) (Load.begin s) :=
    ⟨Confined.begin s, h, fun _ hf => hf, fun _ ht => .inr ht, Kept.refl, fun _ hno => hno.elim⟩
  rw [processLoadElf]
  cases hsegs : fileSegments file with
  | none => exact hstart.toConfined
  | some p =>
    rcases loadImage_spec h.free hr (hfile p.1 p.2 hsegs) hstart with ⟨l, heq, hl⟩ | ⟨l, heq, hl⟩
    · simp only [heq]
      exact (hl.processSetup h.free hr hname fun _ => .inl).toConfined
    · simp only [heq]
      exact hl.toConfined

/-- Freeing an address space changes no byte. -/
theorem Confined.free (h : Confined own s l) (r : Nat) :
    Confined own s { l with mm := l.mm.pagingFreeAddressSpace r } := by
  refine ⟨h.wrote, fun a hne => h.bytes a ?_, h.got⟩
  rw [← (pagingFreeAddressSpace_mem l.mm r).1]
  exact hne

/-- A call that maps a page in a new space had three frames: the root, a page table and the page. -/
theorem Loading.three (hs : ∀ f, s.pmm.free f = true → b.Ram f) (hr : r ∈ sp)
    (h : Loading b sp r (fun _ => False) s s₀ mapped l) (hva : mapped va) : 3 ≤ freeCount s := by
  obtain ⟨f, hpage, hf⟩ := h.page va hva
  obtain ⟨pt, hw, -⟩ := hpage.entry
  have hv := visible_of_pathOf hpage.visible
  have htab : ∀ t, Table l.mm r t → l.got t = true := fun t ht => (h.tables t ht).resolve_right id
  have hne : ∀ p q g g', Visible p → Visible q → walkFrom l.mm.mem r p = some g →
      walkFrom l.mm.mem r q = some g' → p.length < q.length → g ≠ g' := by
    rintro p q g g' hp hq hwp hwq hlt rfl
    rw [(h.inv.forest.inj r r p q g hr hr hp hq hwp hwq).2] at hlt
    exact absurd hlt (Nat.lt_irrefl _)
  have hcard : ({r, pt, f} : Finset Nat).card = 3 := Finset.card_eq_three.mpr ⟨r, pt, f,
    hne [] _ r pt visible_nil hv rfl hw (by simp),
    hne [] _ r f visible_nil hpage.visible rfl hpage.walk
      (by simp [pathOf]), hne _ _ pt f hv hpage.visible hw hpage.walk (by simp [pathOf]), rfl⟩
  rw [← hcard]
  refine Finset.card_le_card fun g hg => ?_
  have hgot : l.got g = true := by
    simp only [Finset.mem_insert, Finset.mem_singleton] at hg
    rcases hg with rfl | rfl | rfl
    · exact htab g ⟨[], visible_nil, by decide, rfl⟩
    · exact htab g ⟨_, hv, by simp, hw⟩
    · exact hf
  exact mem_freeFrames.mpr ⟨Boot.ram_lt (hs g (h.got g hgot)), h.got g hgot⟩

/-- The image and the arguments, in a new address space. -/
theorem execImage_spec {im : Image} {segs : List Segment} {base : Nat}
    (hs : ∀ f, s.pmm.free f = true → b.Ram f) (hr : r ∈ sp) (hrel : RelocsInside r im segs base l)
    (hargs : ∀ l', loadImage r im segs base l = (some (), l') → PutsInside r (fun v =>
      v ∈ pagesFrom stackBase processUserStackTop ∨ SegmentPage segs base v) a.puts l')
    (h : Loading b sp r (fun _ => False) s s₀ (fun _ => False) l) :
    (∃ v l', (loadImage r im segs base >>= fun _ => buildExecStack r a) l = (some v, l') ∧
      3 ≤ freeCount s ∧ Loading b sp r (fun _ => False) s s₀ (fun _ => False) l') ∨
    ∃ l', (loadImage r im segs base >>= fun _ => buildExecStack r a) l = (none, l') ∧
      Loading b sp r (fun _ => False) s s₀ (fun _ => False) l' := by
  rcases loadImage_spec hs hr hrel h with ⟨l₁, heq₁, h₁⟩ | ⟨l₁, heq₁, h₁⟩
  · have hthree := h₁.three hs hr
      (.inl (by decide : stackBase ∈ pagesFrom stackBase processUserStackTop))
    rw [bind_some heq₁]
    rcases buildExecStack_spec hs hr l₁ ⟨h₁, hargs l₁ heq₁⟩ with ⟨v, l₂, heq₂, h₂⟩ | hfail
    · exact .inl ⟨v, l₂, heq₂, hthree, h₂⟩
    · exact .inr hfail
  · exact .inr ⟨l₁, bind_none heq₁, h₁⟩

/-- **What `process_execve` does**: it fails and leaves the address spaces as they were, or it
    puts a new one in the place of `cr3`. -/
theorem processExecve_cases {cr3 : Nat} (h : Inv b s sp) (hr : cr3 ∈ sp) (pid : Nat)
    {file : Option Image} (hexec : ExecInside pid a file s) :
    (∃ l, processExecve cr3 pid a file (Load.begin s) = (none, l) ∧
      Confined (fun _ => False) s l ∧ Inv b l.mm sp ∧ Kept sp s l.mm) ∨
    (∃ r s' l, processExecve cr3 pid a file (Load.begin s) = (some r, l) ∧
      Confined (fun _ => False) s l ∧ Inv b l.mm ((r :: sp).filter (· ≠ cr3)) ∧
      s.pagingNewAddressSpace = (r, s') ∧ 3 ≤ freeCount s ∧ NewSpace b sp r s s' ∧
      Kept (r :: sp) s' l.mm) := by
  rw [processExecve]
  cases hsegs : fileSegments file with
  | none => exact .inl ⟨_, rfl, Confined.begin s, h, Kept.refl⟩
  | some p =>
    have hbegin : (Load.begin s).mm = s := rfl
    dsimp only
    rw [hbegin]
    rcases pagingNewAddressSpace_cases h with
      ⟨s', heq, hinv, hmem, hlapic, -⟩ | ⟨r, s', heq, hne, hnew⟩
    · refine .inl ⟨_, by rw [heq, if_pos rfl], ?_, hinv, Kept.of_mem hmem hlapic⟩
      exact Confined.gain_begin fun a hne => absurd (congrFun hmem a) hne
    rw [heq]
    rw [if_neg hne]
    obtain ⟨hfile, hargs⟩ := hexec r s' heq hne
    rcases execImage_spec h.free mem_cons_self (hfile p.1 p.2 hsegs)
      (fun l => hargs p.1 p.2 l hsegs) (Loading.gain_begin hnew) with
      ⟨v, l, hl, hthree, hload'⟩ | ⟨l, hl, hload'⟩
    · refine .inr ⟨r, s', _, by simp only [hl], hload'.toConfined.free cr3, ?_, rfl, hthree, hnew,
        hload'.kept.trans (Kept.freeSpace l.mm cr3)⟩
      exact hload'.inv.pagingFreeAddressSpace (mem_cons_of_mem r hr)
    refine .inl ⟨_, by simp only [hl], hload'.toConfined.free r, ?_, ?_⟩
    · refine (hload'.inv.pagingFreeAddressSpace mem_cons_self).mono fun r' hr' => ?_
      refine mem_filter.mpr ⟨mem_cons_of_mem r hr', ?_⟩
      have hfree := (hnew.tables r ⟨[], visible_nil, by decide, rfl⟩).1
      have htaken := h.taken r' (tree_root hr')
      simp only [decide_eq_true_eq]
      rintro rfl
      rw [hfree] at htaken
      cases htaken
    · have hkept := hload'.kept.trans (Kept.freeSpace l.mm r)
      exact hnew.kept.trans (hkept.mono fun _ => mem_cons_of_mem r)

/-! ## 6. The result -/

/-- **Loading a program writes only into frames it obtained**, if the stores it reaches stay inside
    the pages it has mapped; these frames are RAM of no address space, and the identity map reaches
    them. -/
theorem loader_confined {cr3 : Nat} (h : Inv b s sp) (hlow : b.Low) (hr : cr3 ∈ sp) (pid : Nat)
    (name : List UInt8) (hname : name.length < 32) (file : Option Image) :
    (FileInside cr3 pid file (Load.begin s) →
      Confined (Table s cr3) s (processLoadElf cr3 pid name file (Load.begin s)).2) ∧
    (∀ a, ExecInside pid a file s →
      Confined (fun _ => False) s (processExecve cr3 pid a file (Load.begin s)).2) ∧
    ∀ f, s.pmm.free f = true → Loose b s sp f ∧ f * 4096 < pagingUserBase := by
  refine ⟨processLoadElf_confined h hr pid hname, fun a hexec => ?_, fun f hf => ?_⟩
  · rcases processExecve_cases h hr pid hexec with ⟨l, heq, hl, -⟩ | ⟨r, s', l, heq, hl, -⟩
    · rw [heq]
      exact hl
    · rw [heq]
      exact hl
  · refine ⟨⟨h.free f hf, fun ht => ?_⟩, hlow f (h.free f hf)⟩
    rw [h.taken f ht] at hf
    cases hf

/-- The fields of a position dependent image with one segment of 272 bytes at 1 GiB, a dynamic
    section at 176 and two relocations at 224. -/
def imageFields (target₁ target₂ : Nat) : List (Nat × Nat × Nat) :=
  [(0, 4, 0x464C457F), (4, 1, 2), (5, 1, 1), (16, 2, 2), (18, 2, 62), (32, 8, 64), (54, 2, 56),
    (56, 2, 2), (64, 4, 1), (80, 8, 0x40000000), (96, 8, 272), (104, 8, 272), (120, 4, 2),
    (128, 8, 176), (160, 8, 48), (176, 8, 7), (184, 8, 0x400000E0), (192, 8, 8), (200, 8, 48),
    (208, 8, 9), (216, 8, 24), (224, 8, target₁), (232, 8, 8), (248, 8, target₂), (256, 8, 8)]

def relocImage (target₁ target₂ : Nat) : Image where
  bytes := (imageFields target₁ target₂).foldl (fun m x => writeLE m x.1 x.2.1 x.2.2) fun _ => 0
  size := 272
  size_le := by decide

/-- `smallBoot` with one process. -/
def oneSpace : Mm := smallMm.pagingNewAddressSpace.2

theorem oneSpace_inv : Inv smallBoot oneSpace [4] := by
  have h := smallMm_inv.pagingNewAddressSpace (by decide +kernel)
  rwa [show smallMm.pagingNewAddressSpace.1 = 4 by decide +kernel] at h

theorem smallBoot_low : smallBoot.Low := by
  intro f hf
  rw [Boot.Ram, smallBoot_free] at hf
  have hbase : pagingUserBase = 0x40000000 := rfl
  have hrange := of_decide_eq_true hf
  omega

theorem loader_confined_relocImage : Confined (fun _ => False) oneSpace
      (processExecve 4 1 ⟨[[0x73, 0x68]], [[0x41, 0x3D, 0x42]], 0, 0⟩
        (some (relocImage 0x40000100 0x40000108)) (Load.begin oneSpace)).2 := by
  have hsegs : (relocImage 0x40000100 0x40000108).parseSegments =
      some [⟨0x40000000, 0, 272, 272⟩] := by decide +kernel
  have hread : fileSegments (some (relocImage 0x40000100 0x40000108)) =
      some (relocImage 0x40000100 0x40000108, [⟨0x40000000, 0, 272, 272⟩]) := by
    simp [fileSegments, hsegs, show (relocImage 0x40000100 0x40000108).size = 272 from rfl]
  refine (loader_confined oneSpace_inv smallBoot_low (by decide) 1 [] (by decide) _).2.1 _
    fun r s' _ _ => ⟨?_, ?_⟩
  · intro im segs hfile l _
    obtain ⟨rfl, rfl⟩ := Prod.mk.inj (Option.some.inj (hread.symm.trans hfile))
    refine PutsInside.of_at ?_
    decide +kernel
  · intro im segs l _ _
    refine ArgsFit.inside ⟨?_, ?_, ?_, ?_, ?_, ?_⟩ <;> decide +kernel

/-- **Without it they write into the kernel**: an image whose first relocation has the offset
    1 MiB. The second one is not mapped, so `process_execve` even fails. -/
theorem loader_writes_kernel : ¬ ∀ (b : Boot) (s : Mm) (sp : List Nat) (cr3 pid : Nat)
    (name : List UInt8) (file : Option Image) (a : Args), Inv b s sp → b.Low → cr3 ∈ sp →
    name.length < 32 →
      Confined (Table s cr3) s (processLoadElf cr3 pid name file (Load.begin s)).2 ∧
      Confined (fun _ => False) s (processExecve cr3 pid a file (Load.begin s)).2 := by
  intro hall
  have hconf := (hall smallBoot oneSpace [4] 4 1 [] (some (relocImage 0x100000 0x50000000))
    ⟨[], [], 0, 0⟩ oneSpace_inv smallBoot_low (by decide) (by decide)).2
  have hgot := hconf.wrote (0x100000, 8) (by decide +kernel) 0x100000 (by decide) (by decide)
  revert hgot
  decide +kernel

end DyntKernel.Exec
