/-
  File:      DyntKernel/Fat/FreeSlots.lean
  Subject:   ROOM FOR A NEW ENTRY (fs/fat32.c, dir_find_free_slots).

  The search looks for a run of free entries in one cluster of the directory after the other. If
  there is none the directory grows: a cluster is taken, linked behind the last one, and filled with
  zeros. Each of these steps can fail, and a cluster may have fewer entries than a long name needs.

  * `dirFindFreeSlotsHeap` -- the routine with the outcomes of its two allocations;
  * `FreeRun`, `findRun_none` -- a run of free entries, and when the search finds none;
  * `ends_growDirectory` -- what growing does, for every list of refused writes;
  * `free_slots_iff` -- the run that is returned lies in one cluster and is free, exactly when a
    cluster has enough entries or none can be added;
  * `grow_undone_iff` -- a failure leaves the table as it was, exactly when the link was not yet
    written and the new cluster could be given back, or nothing was written.
-/
import DyntKernel.Fat.Ends
import DyntKernel.Fat.SlotWrites

namespace DyntKernel.Fat

open Library Prog List Image

/-! ## 1. The routine with its allocations -/

/-- The end of `dir_find_free_slots`; `zbuf` says whether the buffer of zeros can be allocated. -/
def growDirectoryHeap (v : Volume) (zbuf : Bool) (last : Nat) : Io (Option (Nat × Nat)) := do
  let newcl ← allocCluster v
  if newcl = 0 then pure none
  else if ← fatWriteEntry v last newcl then
    if zbuf then
      if ← blockWrite .data (clusterToLba v newcl) v.sectorsPerCluster (fun _ => 0) then
        pure (some (newcl, 0))
      else
        freeChain v newcl
        pure none
    else pure none
  else
    freeChain v newcl
    pure none

/-- `dir_find_free_slots`; `heap` are the outcomes of its allocations, `buf` and `zbuf`. -/
def dirFindFreeSlotsHeap (v : Volume) (heap : Bool × Bool) (fuel dirCluster slots : Nat) :
    Io (Option (Nat × Nat)) := do
  if heap.1 then
    match ← findSlotsLoop v slots fuel dirCluster dirCluster with
    | .inl place => pure (some place)
    | .inr last => growDirectoryHeap v heap.2 last
  else pure none

variable {v : Volume} {d d' : Disk 512} {m m' : Image} {N c dir fuel i k last n off slots x : Nat}
  {cs : List Nat} {b buf : Nat → UInt8} {faults : List Bool} {zbuf : Bool}

/-- With both allocations it is the routine of the other modules. -/
theorem dirFindFreeSlotsHeap_true :
    dirFindFreeSlotsHeap v (true, true) fuel dir slots = dirFindFreeSlots v fuel dir slots := rfl

/-! ## 2. Runs of free entries -/

/-- The entry `k` is free or deleted. -/
def FreeSlot (buf : Nat → UInt8) (k : Nat) : Prop := buf (k * 32) = 0x00 ∨ buf (k * 32) = 0xE5

/-- **The `slots` entries from `i` on are free.** -/
def FreeRun (buf : Nat → UInt8) (i slots : Nat) : Prop :=
  ∀ k, i ≤ k → k < i + slots → FreeSlot buf k

/-- A cluster has a run of `slots` free entries. -/
def HasRun (v : Volume) (buf : Nat → UInt8) (slots : Nat) : Prop :=
  0 < slots ∧ ∃ i, i + slots ≤ v.slots ∧ FreeRun buf i slots

/-- The run that is found. -/
theorem findRun_some (hslots : 0 < slots) (h : findRun buf slots 0 n 0 = some off) :
    ∃ i, off = i * 32 ∧ i + slots ≤ n ∧ FreeRun buf i slots := by
  obtain ⟨i, hoff, hend, hfree⟩ :=
    findRun_spec hslots (Nat.zero_le 0) (fun k _ hk => absurd hk (Nat.not_lt_zero k)) h
  exact ⟨i, hoff, by omega, hfree⟩

/-- **When none is found there is none.** The entries counted so far are free, so a run that is not
    found would have to start behind an entry that is not. -/
theorem findRun_none {run j : Nat} (h : findRun buf slots i n run = none) (hrun : run < slots)
    (hj : i ≤ j + run) (hend : j + slots ≤ i + n) : ¬ FreeRun buf j slots := by
  induction n generalizing i run with
  | zero => omega
  | succ n ih =>
    intro hfree
    rw [findRun] at h
    split_ifs at h with hhere hlast
    · exact ih h (by omega) (by omega) (by omega) hfree
    · by_cases hji : j ≤ i
      · exact hhere (hfree i hji (by omega))
      · exact ih h (by omega) (by omega) (by omega) hfree

theorem findRun_zero {run : Nat} : findRun buf 0 i n run = none := by
  induction n generalizing i run with
  | zero => rfl
  | succ n ih =>
    rw [findRun]
    split_ifs with hhere hlast
    · omega
    · exact ih
    · exact ih

theorem findRun_eq_none : findRun buf slots 0 v.slots 0 = none ↔ ¬ HasRun v buf slots := by
  constructor
  · intro h hrun
    obtain ⟨hpos, j, hend, hfree⟩ := hrun
    exact findRun_none h hpos (Nat.zero_le _) (by omega) hfree
  intro h
  cases hfind : findRun buf slots 0 v.slots 0 with
  | none => rfl
  | some off =>
    rcases Nat.eq_zero_or_pos slots with rfl | hpos
    · rw [findRun_zero] at hfind
      cases hfind
    · obtain ⟨j, -, hend, hfree⟩ := findRun_some hpos hfind
      exact absurd ⟨hpos, j, hend, hfree⟩ h

/-- The search depends on the cluster only. -/
theorem findRun_congr {run : Nat} (h : ∀ j, j < (i + n) * 32 → b j = buf j) :
    findRun b slots i n run = findRun buf slots i n run := by
  induction n generalizing i run with
  | zero => rfl
  | succ n ih =>
    have hlater : ∀ j, j < (i + 1 + n) * 32 → b j = buf j := fun j hj => h j (by omega)
    rw [findRun, findRun, h (i * 32) (by omega), ih hlater, ih hlater]

/-! ## 3. The search -/

/-- What the search through a chain returns. -/
def Searched (v : Volume) (m : Image) (slots : Nat) (cs : List Nat) (last : Nat) :
    Sum (Nat × Nat) Nat → Prop
  | .inl (c, off) => c ∈ cs ∧ findRun (m.data c) slots 0 v.slots 0 = some off
  | .inr l => l = cs.getLastD last ∧ ∀ c ∈ cs, ¬ HasRun v (m.data c) slots

theorem ends_findSlotsLoop (hcs : InTable v cs) (hheld : ∀ x ∈ cs, v.Holds N x)
    (h : Linked m.table c cs)
    (hfuel : cs.length < fuel) : Ends v N faults (findSlotsLoop v slots fuel c last) m
      (fun r m' rest => Searched v m slots cs last r ∧ m' = m ∧ rest = faults) := by
  induction cs generalizing c last fuel with
  | nil =>
    obtain ⟨fuel, rfl⟩ : ∃ k, fuel = k + 1 := ⟨fuel - 1, by omega⟩
    rw [findSlotsLoop,
      if_neg (by rw [show clusterValid c = false from h]; exact Bool.false_ne_true)]
    exact Ends.pure ⟨⟨rfl, fun x hx => absurd hx not_mem_nil⟩, rfl, rfl⟩
  | cons y cs ih =>
    obtain ⟨rfl, hvalid, hrest⟩ := h
    obtain ⟨fuel, rfl⟩ : ∃ k, fuel = k + 1 := ⟨fuel - 1, by rw [length_cons] at hfuel; omega⟩
    have hc := hcs c mem_cons_self
    rw [findSlotsLoop, if_pos hvalid]
    refine Ends.readCluster hc.1 hc.2 (hheld c mem_cons_self) fun buf hbuf => ?_
    have hfind : findRun buf slots 0 v.slots 0 = findRun (m.data c) slots 0 v.slots 0 := by
      refine findRun_congr fun j hj => hbuf j ?_
      rw [Volume.slots, Volume.bytesPerCluster] at *
      omega
    dsimp only
    rw [hfind]
    cases hrun : findRun (m.data c) slots 0 v.slots 0 with
    | some off => exact Ends.pure ⟨⟨mem_cons_self, hrun⟩, rfl, rfl⟩
    | none =>
      refine Ends.fatReadEntry hc.2 ?_
      rw [length_cons] at hfuel
      refine (ih (fun z hz => hcs z (mem_cons_of_mem c hz)) (fun z hz =>
        hheld z (mem_cons_of_mem c hz)) hrest
        (by omega)).mono ?_
      intro r m' rest hpost
      refine ⟨?_, hpost.2⟩
      cases r with
      | inl place => exact ⟨mem_cons_of_mem c hpost.1.1, hpost.1.2⟩
      | inr l =>
        refine ⟨by rw [getLastD_cons]; exact hpost.1.1, fun z hz => ?_⟩
        rcases mem_cons.mp hz with rfl | hz
        · exact findRun_eq_none.mp hrun
        · exact hpost.1.2 z hz

/-! ## 4. A directory grows -/

/-- The image with the cluster `q` behind `last`, full of zeros. -/
def Image.grown (m : Image) (last q : Nat) : Image :=
  ((m.setLink q eoc).setLink last q).setData q fun _ => 0

/-- The new cluster is taken, linked and filled: nothing fails, and the cluster is one of the
    device. -/
def Grows (v : Volume) (N : Nat) (m : Image) (faults : List Bool) (zbuf : Bool) : Prop :=
  m.firstFree v ≠ 0 ∧ took faults = true ∧ took faults.tail = true ∧ zbuf = true ∧
    took faults.tail.tail = true ∧ v.Holds N (m.firstFree v)

/-- What is left of growing that fails is nothing: no cluster is taken, or its link is refused and
    it is given back. -/
def LeavesNothing (v : Volume) (m : Image) (faults : List Bool) : Prop :=
  m.firstFree v = 0 ∨ took faults = false ∨ took faults.tail = false ∧ took faults.tail.tail = true

/-- The table is the same. -/
def SameTable (v : Volume) (m m' : Image) : Prop := ∀ x, x < v.total → m'.table x = m.table x

/-- The result of growing a directory, in terms of what failed. -/
def GrowResult (v : Volume) (N : Nat) (m : Image) (last : Nat) (faults : List Bool) (zbuf : Bool)
    (r : Option (Nat × Nat)) (m' : Image) : Prop :=
  (Grows v N m faults zbuf → r = some (m.firstFree v, 0) ∧ m' = m.grown last (m.firstFree v)) ∧
  (¬ Grows v N m faults zbuf → r = none ∧ m'.data = m.data ∧
    (SameTable v m m' ↔ LeavesNothing v m faults) ∧
    -- a link that is written stays
    (m.firstFree v ≠ 0 → took faults = true → took faults.tail = true →
      m'.table last = m.firstFree v ∧
      ∀ x, x ≠ last → x ≠ m.firstFree v → m'.table x = m.table x))

theorem setLink_setLink {y : Nat} : (m.setLink c x).setLink c y = m.setLink c y := by
  rw [Image.setLink, Image.setLink, Image.setLink]
  simp only [Function.update_idem]

theorem setLink_same (h : m.table c = x) : m.setLink c x = m := by
  rw [Image.setLink, ← h, Function.update_eq_self]

/-- A cluster of the table has a number that is kept in an entry. -/
theorem mask_cluster (hbad : v.total ≤ bad) (hc : c < v.total) : c &&& 0x0FFFFFFF = c := by
  have hlt : bad < 2 ^ 28 := by decide
  exact mask_of_lt (by omega)

/-- The last cluster of the chain leads to the new one. -/
theorem not_sameTable_of_link (hlast : last < v.total) (hend : clusterValid (m.table last) = false)
    (hvalid : clusterValid x = true) (hlink : m'.table last = x) : ¬ SameTable v m m' := by
  intro hsame
  rw [hsame last hlast] at hlink
  rw [hlink, hvalid] at hend
  cases hend

/-- The link is refused: the new cluster is given back, if the device takes that write. -/
theorem ends_giveBack {q : Nat} (hv : v.Sized) (hq : q < v.total) (hvalid : clusterValid q = true)
    (hfree : m.table q = 0) :
    Ends v N faults (do freeChain v q; pure (none : Option (Nat × Nat)))
    (m.setLink q eoc) (fun r m' _ =>
      r = none ∧ m'.data = m.data ∧ (SameTable v m m' ↔ took faults = true)) := by
  have hmark : bad ≤ (m.setLink q eoc).table q := by
    rw [setLink_self]
    decide
  refine (ends_freeOne hv hvalid hq hmark).bind fun _ m' rest hpost => Ends.pure ⟨rfl, ?_⟩
  rw [hpost.1]
  cases took faults with
  | true =>
    simp only [if_true, setLink_setLink, setLink_same hfree]
    exact ⟨trivial, fun _ => trivial, fun _ _ _ => rfl⟩
  | false =>
    simp only [Bool.false_eq_true, if_false]
    refine ⟨rfl, fun hsame => ?_, fun h => h.elim⟩
    have heoc := hsame q hq
    rw [setLink_self, hfree] at heoc
    cases heoc

/-- The new cluster is filled with zeros; when that fails its link stays. -/
theorem ends_fillCluster {q : Nat} (hv : v.Sized) (hge : 2 ≤ q) (hq : q < v.total)
    (hvalid : clusterValid q = true) (hmark : bad ≤ m.table q) : Ends v N faults (do
      if zbuf then
        if ← blockWrite .data (clusterToLba v q) v.sectorsPerCluster (fun _ => 0) then
          pure (some (q, 0))
        else
          freeChain v q
          pure none
      else pure none) m (fun r m' _ =>
        (zbuf = true ∧ took faults = true ∧ v.Holds N q → r = some (q, 0) ∧
          m' = m.setData q fun _ => 0) ∧
        (¬ (zbuf = true ∧ took faults = true ∧ v.Holds N q) →
          r = none ∧ m'.data = m.data ∧ ∀ x, x ≠ q → m'.table x = m.table x)) := by
  -- the write fails: the cluster is given back, its link is not
  have hback :
      Ends v N faults.tail (do freeChain v q; pure (none : Option (Nat × Nat))) m (fun r m' _ =>
      r = none ∧ m'.data = m.data ∧ ∀ x, x ≠ q → m'.table x = m.table x) := by
    refine (ends_freeOne hv hvalid hq hmark).bind fun _ m' rest hpost => Ends.pure ⟨rfl, ?_⟩
    rw [hpost.1]
    split_ifs
    · exact ⟨rfl, fun x hx => setLink_of_ne hx⟩
    · exact ⟨rfl, fun _ _ => rfl⟩
  cases zbuf with
  | false =>
    simp only [Bool.false_eq_true, if_false]
    exact Ends.pure ⟨fun h => h.1.elim, fun _ => ⟨rfl, rfl, fun _ _ => rfl⟩⟩
  | true =>
    simp only [if_true, true_and]
    by_cases hh : v.Holds N q
    · refine Ends.writeCluster hv hge hq hh ?_
      cases took faults with
      | true =>
        simp only [if_true]
        exact Ends.pure ⟨fun _ => ⟨rfl, rfl⟩, fun h => absurd ⟨trivial, hh⟩ h⟩
      | false =>
        simp only [Bool.false_eq_true, if_false]
        exact hback.mono fun r m' _ hpost => ⟨fun h => h.1.elim, fun _ => hpost⟩
    · refine Ends.writeSlack hh ?_
      simp only [Bool.false_eq_true, if_false]
      exact hback.mono fun r m' _ hpost => ⟨fun h => absurd h.2 hh, fun _ => hpost⟩

/-- **Growing a directory**, for every list of refused writes and both outcomes of the
    allocation. -/
theorem ends_growDirectory (hv : v.Sized) (hbad : v.total ≤ bad) (hlast : last < v.total)
    (hused : last < 2 ∨ m.table last ≠ 0) (hend : clusterValid (m.table last) = false) :
    Ends v N faults (growDirectoryHeap v zbuf last) m
      (fun r m' _ => GrowResult v N m last faults zbuf r m') := by
  rw [growDirectoryHeap]
  refine Ends.allocCluster hv (fun hfull => ?_) (fun hfree hrefused => ?_) fun hfree htaken => ?_
  · rw [if_pos rfl]
    exact Ends.pure ⟨fun hgrows => absurd hfull hgrows.1, fun _ =>
      ⟨rfl, rfl, ⟨fun _ => .inl hfull, fun _ _ _ => rfl⟩,
      fun hfree => absurd hfull hfree⟩⟩
  · rw [if_pos rfl]
    refine Ends.pure ⟨fun hgrows => ?_, fun _ =>
      ⟨rfl, rfl, ⟨fun _ => .inr (.inl hrefused), fun _ _ _ => rfl⟩,
      fun _ htaken => ?_⟩⟩
    · rw [hgrows.2.1] at hrefused
      cases hrefused
    · rw [htaken] at hrefused
      cases hrefused
  obtain ⟨⟨hge, hlt⟩, hzero⟩ := firstFree_spec hfree
  unfold GrowResult Grows LeavesNothing
  rw [htaken]
  generalize m.firstFree v = q at hge hlt hzero hfree ⊢
  have hvalid : clusterValid q = true := clusterValid_of hge (by omega)
  have hne : last ≠ q := by
    rintro rfl
    rcases hused with hsmall | hused
    · omega
    · exact hused hzero
  rw [if_neg hfree]
  refine Ends.fatWriteEntry hv hlast ?_
  rw [mask_cluster hbad hlt]
  cases hlink : took faults.tail with
  | false =>
    simp only [Bool.false_eq_true, if_false]
    refine (ends_giveBack hv hlt hvalid hzero).mono fun r m' _ hpost =>
      ⟨fun hgrows => hgrows.2.2.1.elim,
      fun _ => ⟨hpost.1, hpost.2.1, ?_, fun _ _ h => by cases h⟩⟩
    simp [hpost.2.2, hfree]
  | true =>
    simp only [if_true]
    have hlinked : ((m.setLink q eoc).setLink last q).table last = q := setLink_self
    have hmark : bad ≤ ((m.setLink q eoc).setLink last q).table q := by
      rw [setLink_of_ne hne.symm, setLink_self]
      decide
    refine (ends_fillCluster hv hge hlt hvalid hmark).mono fun r m' _ hpost =>
      ⟨fun hgrows => hpost.1 hgrows.2.2.2, fun hfails => ?_⟩
    obtain ⟨hnone, hdata, hothers⟩ := hpost.2 fun h => hfails ⟨hfree, trivial, trivial, h⟩
    have hlink' : m'.table last = q := (hothers last hne).trans hlinked
    -- once the link is written nothing takes it back
    refine ⟨hnone, hdata,
      ⟨fun hsame => absurd hsame (not_sameTable_of_link hlast hend hvalid hlink'), ?_⟩,
      fun _ _ _ => ⟨hlink', fun x hlast' hx => ?_⟩⟩
    swap
    · rw [hothers x hx, setLink_of_ne hlast', setLink_of_ne hx]
    rintro (hfull | hrefused | ⟨hrefused, -⟩)
    · exact absurd hfull hfree
    · cases hrefused
    · cases hrefused

/-! ## 5. The whole routine -/

/-- Every cluster that has an entry is used. -/
def TableFull (v : Volume) (d : Disk 512) : Prop := ∀ c, 2 ≤ c → c < v.total → entryAt v d c ≠ 0

theorem Shows.tableFull (hd : Shows v N d m) : TableFull v d ↔ m.firstFree v = 0 := by
  constructor
  · intro h
    by_contra hfree
    obtain ⟨⟨hge, hlt⟩, hzero⟩ := firstFree_spec hfree
    exact h _ hge hlt ((hd.table _ hlt).trans hzero)
  · intro h c hge hc
    rw [hd.table c hc]
    exact firstFree_zero h hge hc

/-- The last cluster of a chain. -/
theorem Linked.getLastD_end {t : Nat → Nat} (h : Linked t c cs) (hne : cs ≠ []) :
    cs.getLastD x ∈ cs ∧ clusterValid (t (cs.getLastD x)) = false := by
  induction cs generalizing c x with
  | nil => exact absurd rfl hne
  | cons y cs ih =>
    rw [getLastD_cons]
    cases cs with
    | nil => exact ⟨mem_cons_self, h.2.2⟩
    | cons z cs =>
      obtain ⟨hmem, hend⟩ := ih h.2.2 (cons_ne_nil z cs) (x := y)
      exact ⟨mem_cons_of_mem y hmem, hend⟩

/-- What the routine returns for a directory with the clusters `cs`. -/
def SlotsResult (v : Volume) (N : Nat) (m : Image) (slots : Nat)
    (cs : List Nat) (heap : Bool × Bool)
    (faults : List Bool) (r : Option (Nat × Nat)) (m' : Image) : Prop :=
  heap.1 = false ∧ r = none ∧ m' = m ∨
  (∃ c off, r = some (c, off) ∧ c ∈ cs ∧ findRun (m.data c) slots 0 v.slots 0 = some off ∧ m' = m) ∨
  (heap.1 = true ∧ ∀ c ∈ cs, ¬ HasRun v (m.data c) slots) ∧
    GrowResult v N m (cs.getLastD 0) faults heap.2 r m'

/-- The clusters of a directory: a chain of used clusters, or none for the number 0 that stands for
    the root in `..` (then the entry 0 of the table is taken for the end of the chain). -/
structure DirChain (v : Volume) (N : Nat) (m : Image) (dir : Nat) (cs : List Nat) : Prop where
  linked : Linked m.table dir cs
  inTable : InTable v cs
  held : ∀ c ∈ cs, v.Holds N c
  used : ∀ c ∈ cs, m.table c ≠ 0
  empty : cs = [] → dir = 0 ∧ clusterValid (m.table 0) = false

/-- The end of the chain, to which a new cluster is linked. -/
theorem DirChain.getLast_end (h : DirChain v N m dir cs) (hv : v.Sized) :
    cs.getLastD dir = cs.getLastD 0 ∧
    cs.getLastD 0 < v.total ∧ (cs.getLastD 0 < 2 ∨ m.table (cs.getLastD 0) ≠ 0) ∧
      clusterValid (m.table (cs.getLastD 0)) = false := by
  cases cs with
  | nil =>
    obtain ⟨rfl, hend⟩ := h.empty rfl
    have htotal := hv.total_eq
    have hsize := v.size_pos
    exact ⟨rfl, by rw [getLastD_nil]; omega, .inl (by decide), hend⟩
  | cons y cs =>
    obtain ⟨hmem, hend⟩ := h.linked.getLastD_end (cons_ne_nil y cs) (x := 0)
    refine ⟨?_, (h.inTable _ hmem).2, .inr (h.used _ hmem), hend⟩
    rw [getLastD_cons, getLastD_cons]

theorem ends_dirFindFreeSlots (heap : Bool × Bool) (faults : List Bool) (slots : Nat) (hv : v.Sized)
    (hbad : v.total ≤ bad) (h : DirChain v N m dir cs) (hfuel : cs.length < fuel) :
    Ends v N faults (dirFindFreeSlotsHeap v heap fuel dir slots) m
      (fun r m' _ => SlotsResult v N m slots cs heap faults r m') := by
  rw [dirFindFreeSlotsHeap]
  cases hheap : heap.1 with
  | false =>
    simp only [Bool.false_eq_true, if_false]
    exact Ends.pure (.inl ⟨hheap, rfl, rfl⟩)
  | true =>
    simp only [if_true]
    refine (ends_findSlotsLoop h.inTable h.held h.linked hfuel).bind fun r m' rest hpost => ?_
    obtain ⟨hsearch, rfl, rfl⟩ := hpost
    cases r with
    | inl place => exact Ends.pure (.inr (.inl ⟨place.1, place.2, rfl, hsearch.1, hsearch.2, rfl⟩))
    | inr l =>
      obtain ⟨rfl, hnone⟩ := hsearch
      obtain ⟨hlast, hlt, hused, hend⟩ := h.getLast_end hv
      rw [hlast]
      exact (ends_growDirectory hv hbad hlt hused hend).mono fun _ _ _ hgrow =>
        .inr (.inr ⟨⟨hheap, hnone⟩, hgrow⟩)

theorem IsFile.dirChain (h : IsFile v d dir cs) (hne : cs ≠ []) (hheld : ∀ c ∈ cs, v.Holds N c)
    (hd : Shows v N d m) : DirChain v N m dir cs where
  linked := (linked_iff_chain hd h.inTable).mpr h.chain
  inTable := h.inTable
  held := hheld
  used := fun c hc => by
    rw [← hd.table c (h.inTable c hc).2]
    exact h.used c hc
  empty := fun hnil => absurd hnil hne

/-! ## 6. A failure is undone -/

/-- The entries of the table are the same on both disks. -/
def TableKept (v : Volume) (d d' : Disk 512) : Prop :=
  ∀ c, c < v.total → entryAt v d' c = entryAt v d c

/-- **No failure leaves a trace**: the first allocation fails, or there is room, or no cluster can
    be taken, or the link is refused and the cluster can be given back, or nothing fails and the new
    cluster is one of the device. -/
def Undone (v : Volume) (d : Disk 512) (slots : Nat) (cs : List Nat) (heap : Bool × Bool)
    (faults : List Bool) : Prop :=
  heap.1 = false ∨ (∃ c ∈ cs, HasRun v (clusterBytes v d c) slots) ∨ TableFull v d ∨
    took faults = false ∨ took faults.tail = false ∧ took faults.tail.tail = true ∨
    took faults.tail = true ∧ heap.2 = true ∧ took faults.tail.tail = true ∧
      v.Holds d.sectorCount (firstFree v d)

/-- **When `dir_find_free_slots` fails the table is as before, exactly when no failure leaves a
    trace.** -/
theorem grow_undone_iff {heap : Bool × Bool} (hv : v.Sized) (hbad : v.total ≤ bad)
    (htables : v.TablesOn d)
    (hdir : IsFile v d dir cs) (hne : cs ≠ []) (hheld : ∀ c ∈ cs, v.Holds d.sectorCount c)
    (hfuel : cs.length < fuel) :
    (∀ d' rest, runFaulty faults (dirFindFreeSlotsHeap v heap fuel dir slots) d =
      some ((none, d'), rest) →
      TableKept v d d') ↔ Undone v d slots cs heap faults := by
  have hd := shows_image htables
  obtain ⟨r, d', rest, m', hrun, hd', hpost⟩ :=
    ends_dirFindFreeSlots heap faults slots hv hbad (hdir.dirChain hne hheld hd) hfuel d hd
  have hkept : TableKept v d d' ↔ SameTable v (image v d) m' :=
    forall_congr' fun c => imp_congr_right fun hc => by rw [hd'.table c hc]; rfl
  have hresult : (∀ d' rest, runFaulty faults (dirFindFreeSlotsHeap v heap fuel dir slots) d =
      some ((none, d'), rest) → TableKept v d d') ↔ (r = none → SameTable v (image v d) m') := by
    constructor
    · intro h hr
      exact hkept.mp (h d' rest (by rw [hrun, hr]))
    · intro h d₁ rest₁ hrun₁
      rw [hrun] at hrun₁
      cases hrun₁
      exact hkept.mpr (h rfl)
  rw [hresult]
  rcases hpost with ⟨hheap, -, rfl⟩ | ⟨c, off, rfl, hc, hfind, -⟩ | ⟨⟨hheap, hnone⟩, hgrow⟩
  · exact ⟨fun _ => .inl hheap, fun _ _ _ _ => rfl⟩
  · refine ⟨fun _ => .inr (.inl ⟨c, hc, ?_⟩), fun _ h => nomatch h⟩
    by_contra hrun'
    have hnone : findRun ((image v d).data c) slots 0 v.slots 0 = none := findRun_eq_none.mpr hrun'
    rw [hnone] at hfind
    cases hfind
  have hnorun : ¬ ∃ c ∈ cs, HasRun v (clusterBytes v d c) slots := by
    rintro ⟨c, hc, hrun⟩
    exact hnone c hc hrun
  by_cases hgrows : Grows v d.sectorCount (image v d) faults heap.2
  · obtain ⟨rfl, -⟩ := hgrow.1 hgrows
    obtain ⟨-, -, hrest⟩ := hgrows
    rw [← hd.firstFree] at hrest
    exact ⟨fun _ => .inr (.inr (.inr (.inr (.inr hrest)))), fun _ h => nomatch h⟩
  obtain ⟨rfl, -, hsame, -⟩ := hgrow.2 hgrows
  rw [Undone, hd.tableFull, hd.firstFree, hheap]
  rw [Grows] at hgrows
  rw [LeavesNothing] at hsame
  simp only [true_implies, hsame, hnorun, false_or, Bool.true_eq_false]
  constructor
  · rintro (hfull | hrefused | hback)
    · exact .inl hfull
    · exact .inr (.inl hrefused)
    · exact .inr (.inr (.inl hback))
  rintro (hfull | hrefused | hback | hrest)
  · exact .inl hfull
  · exact .inr (.inl hrefused)
  · exact .inr (.inr hback)
  · by_cases hfull : (image v d).firstFree v = 0
    · exact .inl hfull
    · exact .inr (.inl (Bool.eq_false_iff.mpr fun htaken => hgrows ⟨hfull, htaken, hrest⟩))

/-- A volume with one cluster of root directory, all other clusters free; the directory is full. -/
def fullRootDisk : Disk 512 :=
  ⟨128, fun x => if 512 ≤ x ∧ x < 524 then 0xFF else if 1024 ≤ x ∧ x < 1536 then 0x41 else 0⟩

theorem fullRootDisk_isFile : IsFile smallVolume fullRootDisk 2 [2] where
  chain :=
    ⟨rfl, rfl, (by decide +kernel : clusterValid (entryAt smallVolume fullRootDisk 2) = false)⟩
  inTable := fun c hc => by rw [mem_singleton.mp hc]; decide
  used := by decide +kernel
  empty := nofun

theorem fullRootDisk_tables : smallVolume.TablesOn fullRootDisk :=
  (by decide : smallVolume.dataStart ≤ 128)

theorem fullRootDisk_held : ∀ c ∈ [2], smallVolume.Holds fullRootDisk.sectorCount c := by decide

/-- The buffer of zeros cannot be allocated: the new cluster stays behind the directory. -/
theorem grow_not_undone : ¬ ∀ d' rest,
    runFaulty [] (dirFindFreeSlotsHeap smallVolume (true, false) 2 2 1) fullRootDisk =
    some ((none, d'), rest) →
      TableKept smallVolume fullRootDisk d' := by
  intro h
  have hrun : ((runFaulty [] (dirFindFreeSlotsHeap smallVolume (true, false) 2 2 1)
      fullRootDisk).map fun r => (r.1.1, entryAt smallVolume r.1.2 2)) = some (none, 3) := by
    decide +kernel
  obtain ⟨⟨⟨r, d'⟩, rest⟩, hr, heq⟩ := Option.map_eq_some_iff.mp hrun
  obtain ⟨rfl, hlink⟩ := Prod.ext_iff.mp heq
  have hkept := h d' rest hr 2 (by decide)
  rw [show entryAt smallVolume d' 2 = 3 from hlink] at hkept
  exact absurd hkept (by decide +kernel)

/-- The link of the new cluster is refused, and the cluster is given back. -/
theorem grow_undone_refused : ∃ d',
    runFaulty [true, false] (dirFindFreeSlotsHeap smallVolume (true, true) 2 2 1) fullRootDisk =
      some ((none, d'), []) ∧ TableKept smallVolume fullRootDisk d' := by
  have hrun : (runFaulty [true, false] (dirFindFreeSlotsHeap smallVolume (true, true) 2 2 1)
      fullRootDisk).map (fun r => (r.1.1, r.2)) = some (none, []) := by
    decide +kernel
  obtain ⟨⟨⟨r, d'⟩, rest⟩, hr, hpair⟩ := Option.map_eq_some_iff.mp hrun
  cases hpair
  exact ⟨d', hr,
    (grow_undone_iff smallVolume_sized (by decide) fullRootDisk_tables fullRootDisk_isFile
    (by decide) fullRootDisk_held (by decide)).mpr (.inr (.inr (.inr (.inr (.inl ⟨rfl, rfl⟩))))) d'
      [] hr⟩

/-! ## 7. The run that is returned -/

/-- The buffer that `create_dir_entries` writes back. -/
def entryBuffer (name : List UInt8) (rest : Nat → UInt8) (offset first size : Nat) (isDir : Bool)
    (buf : Nat → UInt8) : Option (Nat → UInt8) :=
  if lfnPartsFor name = 0 then
    (encodeShortName name).map fun short =>
    stampEntry (putBytes buf offset short) offset first size isDir
  else
    let short := (encodeShortName name).getD []
    (lfnWriteParts (cstr name rest) name.length offset (lfnChecksum short) buf).map fun buf =>
      stampEntry (putBytes buf offset short) offset first size isDir

/-- A cluster is read, changed and written back. -/
def rewriteCluster (v : Volume) (c : Nat) (f : (Nat → UInt8) → Option (Nat → UInt8)) : Io Bool := do
  match ← blockRead (clusterToLba v c) v.sectorsPerCluster with
  | none => pure false
  | some buf =>
    match f buf with
    | none => pure false
    | some data => blockWrite .data (clusterToLba v c) v.sectorsPerCluster data

theorem writeDirEntryAt_eq {name : List UInt8} {first size : Nat} {isDir : Bool} :
    writeDirEntryAt v c off name first size isDir = rewriteCluster v c fun buf =>
      (encodeShortName name).map fun short =>
      stampEntry (putBytes buf off short) off first size isDir := by
  rw [writeDirEntryAt, rewriteCluster]
  refine bind_congr fun r => ?_
  cases r with
  | none => rfl
  | some buf =>
    cases encodeShortName name with
    | none => rfl
    | some short => rfl

theorem createDirEntries_eq {name : List UInt8} {rest : Nat → UInt8}
    {first size : Nat} {isDir : Bool} :
    createDirEntries v c off name rest first size isDir =
      rewriteCluster v c (entryBuffer name rest off first size isDir) := by
  rw [createDirEntries]
  split_ifs with hparts
  · rw [writeDirEntryAt_eq]
    congr 1
    funext buf
    rw [entryBuffer, if_pos hparts]
  rw [rewriteCluster]
  refine bind_congr fun r => ?_
  cases r with
  | none => rfl
  | some buf =>
    simp only [entryBuffer, if_neg hparts]
    cases lfnWriteParts (cstr name rest) name.length off
      (lfnChecksum ((encodeShortName name).getD [])) buf with
    | none => rfl
    | some buf' => rfl

/-- What happens to a cluster that is written back: nothing when there is nothing to write. -/
theorem ends_rewriteCluster {f : (Nat → UInt8) → Option (Nat → UInt8)} (hv : v.Sized) (hge : 2 ≤ c)
    (hc : c < v.total)
    (hh : v.Holds N c) : Ends v N faults (rewriteCluster v c f) m (fun ok m' rest =>
      ∃ buf, (∀ j, j < v.bytesPerCluster → buf j = m.data c j) ∧
        (f buf = none ∧ ok = false ∧ m' = m ∧ rest = faults ∨
          ∃ data, f buf = some data ∧ ok = took faults ∧
            m' = (if took faults then m.setData c data else m) ∧
            rest = faults.tail)) := by
  rw [rewriteCluster]
  refine Ends.readCluster hge hc hh fun buf hbuf => ?_
  dsimp only
  cases hf : f buf with
  | none => exact Ends.pure ⟨buf, hbuf, .inl ⟨hf, rfl, rfl, rfl⟩⟩
  | some data =>
    exact (ends_writeCluster hv hge hc hh).mono fun ok m' rest hpost =>
      ⟨buf, hbuf, .inr ⟨data, hf, hpost⟩⟩

/-- The parts a name needs, when it needs some. -/
theorem lfnPartsFor_cases (name : List UInt8) : lfnPartsFor name = 0 ∨
    lfnPartsFor name = lfnParts name.length ∧ ∃ short, encodeShortName name = some short := by
  rw [lfnPartsFor]
  cases hname : encodeShortName name with
  | none => exact .inl rfl
  | some short =>
    simp only [Option.isNone_some, Bool.false_eq_true, if_false]
    split_ifs
    · exact .inl rfl
    · exact .inr ⟨rfl, short, rfl⟩

/-- **`create_dir_entries` changes the entries of the run only.** -/
theorem entryBuffer_outside {name : List UInt8} {rest : Nat → UInt8}
    {first size : Nat} {isDir : Bool}
    (h : entryBuffer name rest (off + lfnPartsFor name * 32) first size isDir buf = some b)
    (hx : x < off ∨ off + (lfnPartsFor name + 1) * 32 ≤ x) : b x = buf x := by
  rw [entryBuffer] at h
  split_ifs at h with hparts
  · obtain ⟨short, hshort, rfl⟩ := Option.map_eq_some_iff.mp h
    have hlen := (encodeShortName_spec hshort).1
    rw [stampEntry_of_out (by omega), putBytes_of_out (by omega)]
  obtain ⟨hcount, short, hshort⟩ := (lfnPartsFor_cases name).resolve_left hparts
  have hlen := (encodeShortName_spec hshort).1
  rw [hshort] at h
  obtain ⟨buf', hwrite, rfl⟩ := Option.map_eq_some_iff.mp h
  rw [Option.getD_some, stampEntry_of_out (by omega), putBytes_of_out (by omega)]
  rw [hcount] at hwrite hx
  rcases hx with hx | hx
  · exact lfnWriteLoop_below hwrite (by omega)
  · obtain ⟨buf'', hwrite', -, habove⟩ : ∃ buf'', lfnWriteLoop (cstr name rest) name.length
        (lfnParts name.length) (off + lfnParts name.length * 32) (lfnChecksum short) buf 0
        (lfnParts name.length) = some buf'' ∧ _ := lfnWriteLoop_slots (by omega)
    obtain rfl : buf' = buf'' := Option.some.inj (hwrite.symm.trans hwrite')
    exact habove x (by omega)

theorem run_rewriteCluster {f : (Nat → UInt8) → Option (Nat → UInt8)}
    (hfits : d.Fits (clusterToLba v c) v.sectorsPerCluster) : run (rewriteCluster v c f) d =
      some ((f (clusterBytes v d c)).elim (false, d) fun data =>
        (true, setCluster v d c data)) := by
  simp only [rewriteCluster, run_bind, run_blockRead, Disk.read_of_fits hfits, Option.bind_some]
  rw [show d.sector (clusterToLba v c) = clusterBytes v d c from rfl]
  cases f (clusterBytes v d c) with
  | none => rfl
  | some data =>
    simp only [run_blockWrite, Disk.write_of_fits hfits]
    rfl

section LongName

variable {name : List UInt8} {rest : Nat → UInt8} {first size : Nat} {isDir : Bool}

/-- **The parts that `create_dir_entries` writes decode to the name**, when it writes any, and for
    none of them a character outside the name and its NUL is read. -/
structure LongNameKept (v : Volume) (d : Disk 512) (c off : Nat) (name : List UInt8)
    (rest : Nat → UInt8) (first size : Nat) (isDir : Bool) : Prop where
  decodes : ∃ ok d', run (createDirEntries v c off name rest first size isDir) d = some (ok, d') ∧
    (0 < lfnPartsFor name → ok = true ∧
      lfnAssemble (lfnReadParts (clusterBytes v d' c) (off - lfnPartsFor name * 32)
        (lfnPartsFor name)) 256 = name)
  inside : ∀ p, p < lfnPartsFor name → ∀ i, i < 13 →
    charIndex (charStart name.length p) i ≤ name.length

/-- The parts of a name of whole parts, on the disk. -/
theorem createDirEntries_decodes (hfits : d.Fits (clusterToLba v c) v.sectorsPerCluster)
    (hs : name.length = 13 * n) (hn : n ≤ 19) (hchars : ∀ x ∈ name, x ≠ 0)
    (hparts : lfnPartsFor name = n) (hpos : 0 < n) (hfit : n * 32 ≤ off)
    (hin : off + 32 ≤ v.bytesPerCluster) :
    ∃ d', run (createDirEntries v c off name rest first size isDir) d = some (true, d') ∧
      lfnAssemble (lfnReadParts (clusterBytes v d' c) (off - n * 32) n) 256 = name := by
  obtain ⟨buf', hwrite, hdecode⟩ : ∃ buf',
      lfnWriteParts (cstr name rest) name.length off
        (lfnChecksum ((encodeShortName name).getD [])) (clusterBytes v d c) = some buf' ∧ _ :=
    lfnWriteParts_decodes hs hn hchars hfit
  refine ⟨setCluster v d c
    (stampEntry (putBytes buf' off ((encodeShortName name).getD [])) off first size isDir),
    ?_, hdecode _ fun x hlo hhi => ?_⟩
  · rw [createDirEntries_eq, run_rewriteCluster hfits, entryBuffer, if_neg (by omega)]
    dsimp only
    rw [hwrite]
    rfl
  · rw [clusterBytes_setCluster (by omega), stampEntry_of_out (by omega),
      putBytes_of_out (by omega)]

end LongName

/-- **The run of `slots` entries from `off` on lies in the cluster `c` of the directory and is
    free**, and `create_dir_entries` for a name that needs it changes nothing outside. -/
structure RunFree (v : Volume) (d : Disk 512) (dir slots c off : Nat) : Prop where
  chain : ∃ cs, Chain v d dir cs ∧ c ∈ cs
  inside : off + slots * 32 ≤ v.bytesPerCluster
  free : ∃ i, off = i * 32 ∧ FreeRun (clusterBytes v d c) i slots
  only : ∀ name rest first size isDir buf b, lfnPartsFor name + 1 = slots →
    entryBuffer name rest (off + lfnPartsFor name * 32) first size isDir buf = some b →
    ∀ x, x < off ∨ off + slots * 32 ≤ x → b x = buf x

theorem Volume.slots_mul : v.slots * 32 = v.bytesPerCluster := by
  rw [Volume.slots, Volume.bytesPerCluster]
  omega

theorem entryBuffer_only {slots off : Nat} :
    ∀ name rest first size isDir buf b, lfnPartsFor name + 1 = slots →
    entryBuffer name rest (off + lfnPartsFor name * 32) first size isDir buf = some b →
    ∀ x, x < off ∨ off + slots * 32 ≤ x → b x = buf x := by
  intro name rest first size isDir buf b hslots hbuf x hx
  subst hslots
  exact entryBuffer_outside hbuf hx

/-- A chain whose last cluster is linked to a cluster that ends it. -/
theorem Linked.snoc {t t' : Nat → Nat} {q : Nat} (h : Linked t c cs) (hne : cs ≠ [])
    (hsame : ∀ x ∈ cs, x ≠ cs.getLastD 0 → t' x = t x) (hlast : t' (cs.getLastD 0) = q)
    (hq : clusterValid q = true)
    (hend : clusterValid (t' q) = false) : Linked t' c (cs ++ [q]) := by
  have hnodup := h.nodup
  induction cs generalizing c with
  | nil => exact absurd rfl hne
  | cons y cs ih =>
    obtain ⟨rfl, hvalid, hrest⟩ := h
    cases cs with
    | nil => exact ⟨rfl, hvalid, hlast, hq, hend⟩
    | cons z cs =>
      have htail : (c :: z :: cs).getLastD 0 = (z :: cs).getLastD 0 := by
        rw [getLastD_cons, getLastD_cons, getLastD_cons]
      rw [htail] at hsame hlast
      have hmem := (hrest.getLastD_end (cons_ne_nil z cs) (x := 0)).1
      have hcne : c ≠ (z :: cs).getLastD 0 := fun heq => (nodup_cons.mp hnodup).1 (heq ▸ hmem)
      refine ⟨rfl, hvalid, ?_⟩
      rw [hsame c mem_cons_self hcne]
      exact ih hrest (cons_ne_nil z cs) (fun x hx => hsame x (mem_cons_of_mem c hx)) hlast
        (nodup_cons.mp hnodup).2

section

variable (h : DirChain v N m dir cs)
include h

/-- The directory with a new cluster behind it. -/
theorem DirChain.grown {q : Nat} (hcs : cs ≠ []) (hq : 2 ≤ q ∧ q < v.total) (hheld : v.Holds N q)
    (hbad : v.total ≤ bad)
    (hfree : m.table q = 0) : DirChain v N (m.grown (cs.getLastD 0) q) dir (cs ++ [q]) := by
  have hqcs : q ∉ cs := fun hmem => h.used q hmem hfree
  have hmem := (h.linked.getLastD_end hcs (x := 0)).1
  have hne : cs.getLastD 0 ≠ q := fun heq => hqcs (heq ▸ hmem)
  have hvalid : clusterValid q = true := clusterValid_of hq.1 (by omega)
  have hlast : (m.grown (cs.getLastD 0) q).table (cs.getLastD 0) = q := setLink_self
  have hnew : (m.grown (cs.getLastD 0) q).table q = eoc :=
    (setLink_of_ne hne.symm).trans setLink_self
  have hold : ∀ x ∈ cs, x ≠ cs.getLastD 0 → (m.grown (cs.getLastD 0) q).table x = m.table x :=
    fun x hx hxl =>
    (setLink_of_ne hxl).trans (setLink_of_ne fun heq => hqcs (heq ▸ hx))
  refine ⟨h.linked.snoc hcs hold hlast hvalid (by rw [hnew]; decide),
    fun x hx => ?_, fun x hx => ?_,
    fun x hx => ?_, fun hnil => absurd hnil (append_ne_nil_of_right_ne_nil cs (cons_ne_nil q []))⟩
  · rcases mem_append.mp hx with hx | hx
    · exact h.inTable x hx
    · rw [mem_singleton.mp hx]
      exact hq
  · rcases mem_append.mp hx with hx | hx
    · exact h.held x hx
    · rw [mem_singleton.mp hx]
      exact hheld
  rcases mem_append.mp hx with hx | hx
  · by_cases hxl : x = cs.getLastD 0
    · rw [hxl, hlast]
      omega
    · rw [hold x hx hxl]
      exact h.used x hx
  · rw [mem_singleton.mp hx, hnew]
    decide

theorem DirChain.chain (hd : Shows v N d m) : Chain v d dir cs :=
  (linked_iff_chain hd h.inTable).mp h.linked

/-- A run that is found. -/
theorem runFree_found (hd : Shows v N d m) (hslots : 0 < slots) (hc : c ∈ cs)
    (hfind : findRun (m.data c) slots 0 v.slots 0 = some off) :
    slots ≤ v.slots ∧ RunFree v d dir slots c off := by
  obtain ⟨i, rfl, hend, hfree⟩ := findRun_some hslots hfind
  have hmul := Volume.slots_mul (v := v)
  refine ⟨by omega, ⟨cs, h.chain hd, hc⟩, by omega, ⟨i, rfl, fun k hge hlt => ?_⟩, entryBuffer_only⟩
  have hbyte :=
    hd.data c (k * 32 + 0) (h.inTable c hc).1 (h.inTable c hc).2
    (slot_inside (by omega) (by decide))
  rw [FreeSlot, show clusterBytes v d c (k * 32) = m.data c (k * 32) from hbyte]
  exact hfree k hge hlt

/-- The run in a new cluster starts at its first entry. -/
theorem runFree_grown {q : Nat} (hcs : cs ≠ []) (hbad : v.total ≤ bad)
    (hq : 2 ≤ q ∧ q < v.total) (hheld : v.Holds N q) (hfree : m.table q = 0)
    (hd : Shows v N d (m.grown (cs.getLastD 0) q)) : RunFree v d dir slots q 0 ↔
      slots ≤ v.slots := by
  have hmul := Volume.slots_mul (v := v)
  constructor
  · intro hrun
    have hinside := hrun.inside
    omega
  intro hslots
  refine ⟨⟨cs ++ [q], (h.grown hcs hq hheld hbad hfree).chain hd,
    mem_append_right cs (mem_singleton_self q)⟩,
    by omega, ⟨0, rfl, fun k _ hk => .inl ?_⟩, entryBuffer_only⟩
  have hbyte := hd.data q (k * 32 + 0) hq.1 hq.2 (slot_inside (by omega) (by decide))
  refine Eq.trans hbyte ?_
  exact congrFun (setData_self (m := (m.setLink q eoc).setLink (cs.getLastD 0) q)) (k * 32 + 0)

end

/-- **The run that `dir_find_free_slots` returns lies in one cluster of the directory and is free,
    exactly when a cluster has as many entries as are asked for**, or no cluster of the device can
    be added and the routine fails: the table is full, or the first free cluster is none of the
    device. -/
theorem free_slots_iff (hv : v.Sized) (hbad : v.total ≤ bad) (htables : v.TablesOn d)
    (hdir : IsFile v d dir cs) (hne : cs ≠ []) (hheld : ∀ c ∈ cs, v.Holds d.sectorCount c)
    (hfuel : cs.length < fuel) (hslots : 1 ≤ slots) :
    (∀ c off d', run (dirFindFreeSlots v fuel dir slots) d = some (some (c, off), d') →
      RunFree v d' dir slots c off) ↔
        slots ≤ v.slots ∨ TableFull v d ∨ ¬ v.Holds d.sectorCount (firstFree v d) := by
  have hd := shows_image htables
  have hchain := hdir.dirChain hne hheld hd
  obtain ⟨r, d', m', hrun, hd', hpost⟩ :=
    (ends_dirFindFreeSlots (true, true) [] slots hv hbad hchain hfuel).run hd
  rw [dirFindFreeSlotsHeap_true] at hrun
  rw [hd.tableFull, hd.firstFree, hrun]
  rcases hpost with ⟨hheap, -⟩ | ⟨c, off, rfl, hc, hfind, rfl⟩ | ⟨-, hgrow⟩
  · cases hheap
  · obtain ⟨hle, hfree⟩ := runFree_found hchain hd' hslots hc hfind
    refine ⟨fun _ => .inl hle, fun _ c' off' d₁ heq => ?_⟩
    cases heq
    exact hfree
  by_cases hgrows : Grows v d.sectorCount (image v d) [] true
  · obtain ⟨rfl, rfl⟩ := hgrow.1 hgrows
    obtain ⟨hq, hzero⟩ := firstFree_spec hgrows.1
    have hheld' := hgrows.2.2.2.2.2
    rw [or_iff_left fun h => h.elim hgrows.1 fun hnot => hnot hheld',
      ← runFree_grown hchain hne hbad hq hheld' hzero hd']
    refine ⟨fun h => h _ _ d' rfl, fun h c' off' d₁ heq => ?_⟩
    cases heq
    exact h
  · obtain ⟨rfl, -⟩ := hgrow.2 hgrows
    have hfull : (image v d).firstFree v = 0 ∨
        ¬ v.Holds d.sectorCount ((image v d).firstFree v) := by
      by_contra hfree
      rw [not_or, not_not] at hfree
      exact hgrows ⟨hfree.1, rfl, rfl, rfl, rfl, hfree.2⟩
    exact ⟨fun _ => .inr hfull, fun _ c' off' d₁ heq => by cases heq⟩

/-- A name of 16 parts in a directory with clusters of 16 entries: the run leaves the cluster. -/
theorem free_slots_overrun :
    ∃ d', run (dirFindFreeSlots smallVolume 2 2 17) fullRootDisk = some (some (3, 0), d') ∧
    ¬ RunFree smallVolume d' 2 17 3 0 := by
  have hrun : ((run (dirFindFreeSlots smallVolume 2 2 17) fullRootDisk).map Prod.fst) =
      some (some (3, 0)) := by
    decide +kernel
  obtain ⟨⟨r, d'⟩, hr, rfl⟩ := Option.map_eq_some_iff.mp hrun
  exact ⟨d', hr, fun h => absurd h.inside (by decide)⟩

theorem free_slots_single : ∃ d',
    run (dirFindFreeSlots smallVolume 2 2 16) fullRootDisk = some (some (3, 0), d') ∧
      RunFree smallVolume d' 2 16 3 0 := by
  have hrun : (run (dirFindFreeSlots smallVolume 2 2 16) fullRootDisk).map Prod.fst =
      some (some (3, 0)) := by
    decide +kernel
  obtain ⟨⟨r, d'⟩, hr, rfl⟩ := Option.map_eq_some_iff.mp hrun
  exact ⟨d', hr,
    (free_slots_iff smallVolume_sized (by decide) fullRootDisk_tables fullRootDisk_isFile
    (by decide) fullRootDisk_held (by decide) (by decide)).mpr (.inl (by decide)) 3 0 d' hr⟩

end DyntKernel.Fat
