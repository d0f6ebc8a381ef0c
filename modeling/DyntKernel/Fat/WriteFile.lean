/-
  File:      DyntKernel/Fat/WriteFile.lean
  Subject:   `fat32_write_file` (fs/fat32.c): where it writes, and what is left when it fails.

  The routine searches the path, stores the buffer in new clusters, gives back the old chain and
  writes the entry. Nothing of that is taken back when a later step fails, but for the chain under
  construction when a piece of it cannot be written.

  * `writeTarget`, `fat32WriteFile_target` -- the call as the search and the rest;
  * `ends_enterExisting`, `ends_enterNew` -- the entry, over an old one and in free slots;
  * `Harmless`, `Succeeds` -- calls that leave no trace when they fail, and calls that do not fail;
  * **`write_file_undone_iff`** -- when a failure leaves the table and the used clusters as they
    were.
-/
import DyntKernel.Fat.Store
import DyntKernel.Fat.WellFormed

namespace DyntKernel.Fat

open Library Prog List Image

variable {v : Volume} {g : Layout} {d d' : Disk 512} {m m₀ m' : Image}
  {L cs : List Nat} {loc : Slot}
  {name path : List UInt8} {rest src buf : Nat → UInt8} {N c first fuel off size x : Nat}
  {isDir : Bool}
  {faults : List Bool} {t : Option (Nat × Option Slot)}

/-! ## 1. The call -/

/-- What `fat32_write_file` does once the search has ended. -/
def writeTarget (v : Volume) (fuel : Nat) (name : List UInt8)
    (rest src : Nat → UInt8) (size : Nat) :
    Option (Nat × Option Slot) → Io Bool
  | none => pure false
  | some (dirCluster, existing) => do
    match ← storeLoop v src size (clusterCount v size) 0 0 0 with
    | none => pure false
    | some firstCluster => enterFile v fuel dirCluster name rest existing firstCluster size

theorem fat32WriteFile_target : fat32WriteFile v fuel path rest src size =
    target v fuel path >>= writeTarget v fuel (lastComponent path) rest src size := by
  rw [fat32WriteFile, target]
  cases hcomps : components path with
  | none => rfl
  | some parts =>
    obtain ⟨dirs, name⟩ := parts
    rw [components_last hcomps, bind_assoc]
    refine bind_congr fun r => ?_
    cases r with
    | error err => rfl
    | ok c =>
      rw [bind_assoc]
      rfl

/-- A name that is not there, found by evaluation. -/
theorem target_new
    (h : (run (target v fuel path) d).map (fun r => r.1.map fun p => (p.1, p.2.isNone)) =
      some (some (c, true))) : run (target v fuel path) d = some (some (c, none), d) := by
  obtain ⟨⟨c', e⟩, ht, hpair⟩ := readOnly_target.found h
  cases e with
  | some loc => cases hpair
  | none =>
    cases hpair
    exact ht

/-- The chain of the directory. -/
theorem WellFormed.dirChain (h : WellFormed v g d) (hc : AtDir g c) :
    ∃ cs, Chain v d c cs ∧ DirChain v d.sectorCount (image v d) c cs := by
  rcases hc with hdir | rfl
  · obtain ⟨o, hown⟩ := h.tidy.dir_own c hdir
    obtain ⟨cs, hfile, hne, howns⟩ := h.owned hown
    exact ⟨cs, hfile.chain, hfile.dirChain hne (fun x hx => h.tidy.held x o (howns x hx)) h.shows⟩
  · exact ⟨[], rfl, rfl, fun x hx => absurd hx not_mem_nil, fun x hx => absurd hx not_mem_nil,
      fun x hx => absurd hx not_mem_nil, fun _ => ⟨rfl, h.mark⟩⟩

/-- A chain has fewer clusters than the table has entries. -/
theorem DirChain.length_lt (h : DirChain v N m c cs) (hv : v.Sized) : cs.length < v.total := by
  have hsub : cs.toFinset ⊆ (Finset.range v.total).erase 0 := fun x hx => by
    obtain ⟨hge, hlt⟩ := h.inTable x (mem_toFinset.mp hx)
    exact Finset.mem_erase.mpr ⟨by omega, Finset.mem_range.mpr hlt⟩
  have htotal := hv.total_eq
  have hsize := v.size_pos
  have hcard := Finset.card_le_card hsub
  rw [toFinset_card_of_nodup h.linked.nodup,
    Finset.card_erase_of_mem (Finset.mem_range.mpr (by omega)), Finset.card_range] at hcard
  omega

/-- The chain of what an entry names: none exactly when its first cluster is no cluster. -/
theorem WellFormed.entryChain (h : WellFormed v g d) (hloc : Located v g (image v d) loc) :
    ∃ cs, IsFile v d loc.dirent.firstCluster cs ∧ (cs = [] ↔ loc.dirent.firstCluster < 2) := by
  obtain ⟨hdir, i, hslot⟩ := hloc
  obtain ⟨it, hit, hisDir, hfirst, -⟩ := hslot.item
  rw [← hfirst]
  rcases h.tidy.first_own hdir hslot.lt hit with hzero | ⟨o, hown⟩
  · rw [hzero]
    exact ⟨[],
      ⟨rfl, fun x hx => absurd hx not_mem_nil, fun x hx => absurd hx not_mem_nil, fun _ => rfl⟩,
      fun _ => by decide, fun _ => rfl⟩
  · obtain ⟨cs, hfile, hne, -⟩ := h.owned hown
    have hge := (h.tidy.range _ _ hown).1
    exact ⟨cs, hfile, fun hnil => absurd hnil hne, fun hlt => by omega⟩

/-! ## 2. The entry -/

/-- There is something to write exactly when the name has an 8.3 form. -/
theorem entryBuffer_none_iff :
    entryBuffer name rest (off + lfnPartsFor name * 32) first size isDir buf = none ↔
      encodeShortName name = none := by
  rw [entryBuffer]
  split_ifs with hparts
  · exact Option.map_eq_none_iff
  obtain ⟨hcount, short, hshort⟩ := (lfnPartsFor_cases name).resolve_left hparts
  obtain ⟨buf', hwrite, -⟩ : ∃ buf',
    lfnWriteLoop (cstr name rest) name.length (lfnParts name.length)
      (off + lfnPartsFor name * 32) (lfnChecksum ((encodeShortName name).getD [])) buf 0
      (lfnParts name.length) = some buf' ∧ _ := lfnWriteLoop_slots (by omega)
  have hsome : lfnWriteParts (cstr name rest) name.length (off + lfnPartsFor name * 32)
      (lfnChecksum ((encodeShortName name).getD [])) buf = some buf' := hwrite
  dsimp only
  rw [hsome, hshort]
  simp

/-- What becomes of an entry that exists, once the chain `cs` is given back with the first
    writes. -/
def RewriteResult (v : Volume) (m : Image) (cs : List Nat) (loc : Slot)
    (name : List UInt8) (first size : Nat)
    (faults : List Bool) (ok : Bool) (m' : Image) : Prop :=
  encodeShortName name = none ∧ ok = false ∧ m' = m.clear (freed cs) ∨
  ∃ short buf, encodeShortName name = some short ∧
    (∀ j, j < v.bytesPerCluster → buf j = m.data loc.cluster j) ∧
    ok = took (faults.drop (freed cs).length) ∧ m' = if ok then
        (m.clear (freed cs)).setData loc.cluster
          (stampEntry (putBytes buf loc.offset short) loc.offset first size false)
      else m.clear (freed cs)

/-- An entry that exists is rewritten, when the writes that give back the old chain are taken. -/
theorem ends_enterExisting (hv : v.Sized) (hcs : InTable v cs)
    (h : Linked m.table loc.dirent.firstCluster cs) (hloc : 2 ≤ loc.cluster ∧ loc.cluster < v.total)
    (hheld : v.Holds N loc.cluster)
    (htaken : ∀ k, k < (freed cs).length → took (faults.drop k) = true) :
    Ends v N faults (enterFile v fuel c name rest (some loc) first size) m (fun ok m' _ =>
      RewriteResult v m cs loc name first size faults ok m') := by
  have hlen : (freed cs).length = min 0x1000000 cs.length := length_take
  have hentry : Ends v N (faults.drop (freed cs).length)
      (writeDirEntryAt v loc.cluster loc.offset name first size false)
      (m.clear (freed cs)) (fun ok m' _ =>
        RewriteResult v m cs loc name first size faults ok m') := by
    rw [writeDirEntryAt_eq]
    refine (ends_rewriteCluster hv hloc.1 hloc.2 hheld).mono fun ok m' _ hpost => ?_
    obtain ⟨buf, hbuf, ⟨hnone, hok, hm', -⟩ | ⟨data, hdata, hok, hm', -⟩⟩ := hpost
    · exact .inl ⟨Option.map_eq_none_iff.mp hnone, hok, hm'⟩
    · obtain ⟨short, hshort, rfl⟩ := Option.map_eq_some_iff.mp hdata
      exact .inr ⟨short, buf, hshort, hbuf, hok, hok ▸ hm'⟩
  rw [enterFile]
  by_cases hfirst : 2 ≤ loc.dirent.firstCluster
  · rw [if_pos hfirst]
    refine (ends_freeChainLoop hv hcs h fun k hk hk' => htaken k (by omega)).bind
      fun _ m' rest' hpost => ?_
    rw [hpost.1, hpost.2, ← hlen]
    exact hentry
  -- the first cluster is 0 or 1: there is no chain
  obtain rfl := h.eq_nil hfirst
  have hnil : m.clear (freed []) = m := clear_nil
  rw [if_neg hfirst]
  rw [hnil] at hentry
  exact hentry

/-- The directory has a run of entries for the name. -/
def RoomIn (v : Volume) (m : Image) (cs : List Nat) (name : List UInt8) : Prop :=
  ∃ x ∈ cs, HasRun v (m.data x) (lfnPartsFor name + 1)

/-- What becomes of a new entry. -/
structure EnterResult (v : Volume) (N : Nat) (m : Image) (cs : List Nat)
    (name : List UInt8) (faults : List Bool)
    (ok : Bool) (m' : Image) : Prop where
  /-- Without a new cluster a failure changes nothing. -/
  same : RoomIn v m cs name ∨ m.firstFree v = 0 → ok = false → SameTable v m m' ∧ m'.data = m.data
  /-- When no write is refused. -/
  ok_iff : faults = [] → (ok = true ↔ encodeShortName name ≠ none ∧
    (RoomIn v m cs name ∨ m.firstFree v ≠ 0 ∧ v.Holds N (m.firstFree v)))
  linked : faults = [] → ¬ RoomIn v m cs name → m.firstFree v ≠ 0 → ok = false →
    m'.table (cs.getLastD 0) = m.firstFree v
  /-- The link of the new cluster is refused, and so is the write that gives it back. -/
  lost : took faults = true → took faults.tail = false → took faults.tail.tail = false →
    ¬ RoomIn v m cs name → m.firstFree v ≠ 0 → ok = false ∧ ¬ SameTable v m m'

/-- A new entry is written into slots that are found. -/
theorem ends_createFound (hv : v.Sized) (hge : 2 ≤ x) (hlt : x < v.total) (hh : v.Holds N x) :
    Ends v N faults
    (createDirEntries v x (off + lfnPartsFor name * 32) name rest first size isDir) m
      (fun ok m' _ => (ok = false → m' = m) ∧
        (faults = [] → (ok = true ↔ encodeShortName name ≠ none))) := by
  rw [createDirEntries_eq]
  refine (ends_rewriteCluster hv hge hlt hh).mono fun ok m' _ hpost => ?_
  obtain ⟨buf, -, ⟨hnone, rfl, hm', -⟩ | ⟨data, hdata, rfl, hm', -⟩⟩ := hpost
  · refine ⟨fun _ => hm', fun _ => ⟨fun h => absurd h Bool.false_ne_true, fun h => absurd ?_ h⟩⟩
    exact entryBuffer_none_iff.mp hnone
  refine ⟨fun hrefused => ?_, fun hnil => ⟨fun _ hnone => ?_, fun _ => ?_⟩⟩
  · rw [hm', hrefused]
    rfl
  · rw [entryBuffer_none_iff.mpr hnone] at hdata
    cases hdata
  · rw [hnil]
    rfl

/-- **A new entry.** -/
theorem ends_enterNew (hv : v.Sized) (hbad : v.total ≤ bad) (h : DirChain v N m c cs)
    (hfuel : cs.length < fuel) :
    Ends v N faults (enterFile v fuel c name rest none first size) m (fun ok m' _ =>
      EnterResult v N m cs name faults ok m') := by
  rw [enterFile, ← dirFindFreeSlotsHeap_true]
  refine (ends_dirFindFreeSlots (true, true) faults _ hv hbad h hfuel).rest.bind
    fun r m₁ left hpost => ?_
  obtain ⟨⟨hheap, -⟩ | ⟨x, off, rfl, hx, hfind, rfl⟩ | ⟨⟨-, hnone⟩, hgrow⟩, hleft⟩ := hpost
  · cases hheap
  · -- there is room, and nothing changes before the entry is written
    have hroom : RoomIn v m₁ cs name := by
      refine ⟨x, hx, ?_⟩
      by_contra hnot
      rw [findRun_eq_none.mpr hnot] at hfind
      cases hfind
    obtain ⟨hge, hlt⟩ := h.inTable x hx
    refine (ends_createFound hv hge hlt (h.held x hx)).mono fun ok m' _ hcreate => ?_
    refine ⟨fun _ hok => ?_, fun hnil => ?_, fun _ hno => absurd hroom hno, fun _ _ _ hno =>
      absurd hroom hno⟩
    · rw [hcreate.1 hok]
      exact ⟨fun _ _ => rfl, rfl⟩
    · rw [hcreate.2 (hleft hnil)]
      exact ⟨fun henc => ⟨henc, .inl hroom⟩, fun henc => henc.1⟩
  have hnoroom : ¬ RoomIn v m cs name := by
    rintro ⟨x, hx, hrun⟩
    exact hnone x hx hrun
  by_cases hgrows : Grows v N m faults true
  · obtain ⟨rfl, rfl⟩ := hgrow.1 hgrows
    obtain ⟨hfree, -, hlink, -, -, hheld⟩ := hgrows
    obtain ⟨⟨hge, hlt⟩, -⟩ := firstFree_spec hfree
    refine (ends_createFound hv hge hlt hheld).mono fun ok m' _ hcreate => ?_
    refine ⟨fun hor => ?_, fun hnil => ?_, fun _ _ _ hok => ?_, fun _ hrefused => ?_⟩
    · rcases hor with hroom | hfull
      · exact absurd hroom hnoroom
      · exact absurd hfull hfree
    · rw [hcreate.2 (hleft hnil)]
      exact ⟨fun henc => ⟨henc, .inr ⟨hfree, hheld⟩⟩, fun henc => henc.1⟩
    · rw [hcreate.1 hok]
      exact setLink_self
    · rw [hlink] at hrefused
      cases hrefused
  obtain ⟨rfl, hdata, hsame, hlinked⟩ := hgrow.2 hgrows
  refine Ends.pure ⟨fun hor _ => ⟨hsame.mpr ?_, hdata⟩, fun hnil => ?_, fun hnil _ hfree _ => ?_,
    fun htaken hlink hback _ hfree => ⟨rfl, fun heq => ?_⟩⟩
  · rcases hor with hroom | hfull
    · exact absurd hroom hnoroom
    · exact .inl hfull
  · refine ⟨fun h => absurd h Bool.false_ne_true, fun henc => ?_⟩
    rcases henc.2 with hroom | ⟨hfree, hheld⟩
    · exact absurd hroom hnoroom
    · subst hnil
      exact absurd ⟨hfree, rfl, rfl, rfl, rfl, hheld⟩ hgrows
  · subst hnil
    exact (hlinked hfree rfl rfl).1
  rcases hsame.mp heq with hfull | hrefused | ⟨-, hgiven⟩
  · exact hfree hfull
  · rw [htaken] at hrefused
    cases hrefused
  · rw [hback] at hgiven
    cases hgiven

/-! ## 3. What is left of a failure -/

/-- **The table and the contents of the used clusters are as before.** -/
structure Kept (v : Volume) (d d' : Disk 512) : Prop where
  table : TableKept v d d'
  data : ∀ c, 2 ≤ c → c < v.total → entryAt v d c ≠ 0 →
    ∀ j, j < v.bytesPerCluster → clusterBytes v d' c j = clusterBytes v d c j

/-- The same, of images. -/
structure KeptImage (v : Volume) (m m' : Image) : Prop where
  table : SameTable v m m'
  data : ∀ c, 2 ≤ c → c < v.total → m.table c ≠ 0 → ∀ j, j < v.bytesPerCluster →
    m'.data c j = m.data c j

theorem kept_iff (hd : Shows v N d m) (hd' : Shows v N d' m') : Kept v d d' ↔ KeptImage v m m' := by
  constructor
  · intro h
    refine ⟨fun x hx => ?_, fun x hge hx hused j hj => ?_⟩
    · rw [← hd'.table x hx, ← hd.table x hx]
      exact h.table x hx
    · rw [← hd'.data x j hge hx hj, ← hd.data x j hge hx hj]
      exact h.data x hge hx (by rw [hd.table x hx]; exact hused) j hj
  intro h
  refine ⟨fun x hx => ?_, fun x hge hx hused j hj => ?_⟩
  · rw [hd'.table x hx, hd.table x hx]
    exact h.table x hx
  · rw [hd'.data x j hge hx hj, hd.data x j hge hx hj]
    exact h.data x hge hx (by rw [← hd.table x hx]; exact hused) j hj

/-- A cluster that was free is used. -/
theorem not_kept_of_taken (hx : x < v.total) (hfree : m.table x = 0) (hused : m'.table x ≠ 0) :
    ¬ KeptImage v m m' := fun h => hused ((h.table x hx).trans hfree)

namespace Stored

variable (h : Stored v src size m₀ L m)

include h

/-- New clusters stay behind, unless there are none. -/
theorem kept_iff (hsame : SameTable v m m') (hdata : m'.data = m.data) :
    KeptImage v m₀ m' ↔ L = [] := by
  constructor
  · intro hkept
    cases L with
    | nil => rfl
    | cons x L =>
      have hx := h.range x mem_cons_self
      refine absurd hkept (not_kept_of_taken hx.2 (h.fresh x mem_cons_self) ?_)
      rw [hsame x hx.2]
      exact h.used x mem_cons_self
  · rintro rfl
    refine ⟨fun x hx => ?_, fun x _ _ _ j _ => ?_⟩
    · rw [hsame x hx, h.table x not_mem_nil]
    · rw [hdata, h.data x not_mem_nil]

/-- The old chain is given back, and new clusters stay behind. -/
theorem kept_clear_iff (hcs : ∀ x ∈ cs, x < v.total ∧ m₀.table x ≠ 0) :
    KeptImage v m₀ (m.clear (freed cs)) ↔ L = [] ∧ cs = [] := by
  constructor
  · intro hkept
    refine ⟨?_, ?_⟩
    · cases L with
      | nil => rfl
      | cons x L =>
        have hfresh := h.fresh x mem_cons_self
        have hnot : x ∉ freed cs := fun hx => (hcs x (mem_of_mem_take hx)).2 hfresh
        refine absurd hkept (not_kept_of_taken (h.range x mem_cons_self).2 hfresh ?_)
        rw [clear_of_not_mem hnot]
        exact h.used x mem_cons_self
    cases cs with
    | nil => rfl
    | cons y cs =>
      obtain ⟨hy, hused⟩ := hcs y mem_cons_self
      have hsame := hkept.table y hy
      have hmem : y ∈ freed (y :: cs) := by
        rw [freed, show (0x1000000 : Nat) = 0xFFFFFF + 1 by rfl, take_succ_cons]
        exact mem_cons_self
      rw [clear_of_mem hmem] at hsame
      exact absurd hsame.symm hused
  · rintro ⟨rfl, rfl⟩
    have hnil : m.clear (freed []) = m := clear_nil
    rw [hnil]
    exact (h.kept_iff (fun _ _ => rfl) rfl).mpr rfl

/-- The directory is as before. -/
theorem dirChain (hdir : DirChain v N m₀ c cs) : DirChain v N m c cs ∧
    ∀ x ∈ cs, m.data x = m₀.data x := by
  have hnot : ∀ x ∈ cs, x ∉ L := fun x hx hmem => hdir.used x hx (h.fresh x hmem)
  have hzero : 0 ∉ L := fun hmem => absurd (h.range 0 hmem).1 (by decide)
  refine ⟨⟨hdir.linked.congr fun x hx => h.table x (hnot x hx), hdir.inTable,
    hdir.held, fun x hx => ?_,
    fun hnil => ?_⟩, fun x hx => h.data x (hnot x hx)⟩
  · rw [h.table x (hnot x hx)]
    exact hdir.used x hx
  · rw [h.table 0 hzero]
    exact hdir.empty hnil

end Stored

theorem RoomIn.congr (h : ∀ x ∈ cs, m'.data x = m.data x) :
    RoomIn v m' cs name ↔ RoomIn v m cs name :=
  exists_congr fun x => and_congr_right fun hx => by rw [h x hx]

/-! ## 4. The call without refused writes -/

/-- The number of clusters that can be taken. -/
def Image.freeCount (v : Volume) (m : Image) : Nat := (freeClusters v m.table).card

/-- The number of those that lie on a device of `N` sectors. -/
def Image.heldCount (v : Volume) (N : Nat) (m : Image) : Nat := (heldClusters v N m.table).card

theorem freeCount_zero_iff : m.freeCount v = 0 ↔ m.firstFree v = 0 := by
  rw [Image.freeCount, Finset.card_eq_zero, firstFree_zero_iff]

theorem heldCount_le : m.heldCount v N ≤ m.freeCount v := Finset.card_filter_le ..

/-- The cluster that is taken next lies on the device exactly when a free one does. -/
theorem heldCount_pos_iff (hv : v.Sized) :
    0 < m.heldCount v N ↔ m.firstFree v ≠ 0 ∧ v.Holds N (m.firstFree v) := by
  constructor
  · intro hpos
    have hfree : m.firstFree v ≠ 0 := by
      rw [Ne, ← freeCount_zero_iff]
      have := heldCount_le (v := v) (N := N) (m := m)
      omega
    refine ⟨hfree, ?_⟩
    by_contra hoff
    rw [Image.heldCount, heldClusters_empty hv hfree hoff] at hpos
    exact absurd hpos (by decide)
  · rintro ⟨hfree, hheld⟩
    exact Finset.card_pos.mpr ⟨_,
      mem_heldClusters.mpr ⟨mem_freeClusters.mpr (firstFree_spec hfree), hheld⟩⟩

/-- The loop of the call. The guard of `fat32_free_chain` is above the number of clusters of any
    file. -/
theorem ends_store (hv : v.Sized) (hbad : v.total ≤ bad) :
    Ends v N [] (storeLoop v src size (clusterCount v size) 0 0 0) m (fun r m' rest =>
      rest = [] ∧ StoreResult v N src size m (clusterCount v size) r m') := by
  have hle : clusterCount v size ≤ 0x1000000 := by
    have hbytes : 512 ≤ v.bytesPerCluster := by
      have := v.spc_pos
      rw [Volume.bytesPerCluster]
      omega
    refine Nat.le_trans (Nat.div_le_div_left hbytes (by decide))
      (Nat.le_of_lt (Nat.div_lt_of_lt_mul ?_))
    exact Nat.lt_of_lt_of_le (Nat.mod_lt _ (by decide)) (by decide)
  have hstored : Stored v src size m [] m := stored_nil
  have hloop := ends_storeLoop (n := clusterCount v size) (N := N) hv hbad hstored
    (fun x hx => absurd hx not_mem_nil) (by rw [length_nil]; omega)
  rwa [length_nil, Nat.zero_add] at hloop

/-- The pieces do not fit on the device, and a cluster besides those of the device is free: what was
    taken is given back. -/
def GivenBack (v : Volume) (N : Nat) (m : Image) (size : Nat) : Prop :=
  m.heldCount v N < clusterCount v size ∧ m.heldCount v N < m.freeCount v

theorem TakenBack.kept (h : TakenBack v m m') : KeptImage v m m' :=
  ⟨h.table, fun x _ _ hused j _ => by rw [h.data x hused]⟩

/-- No cluster is left for a piece: what was taken stays taken. -/
theorem stored_full {p q : Prop} (h : Stored v src size m L m') (hheld : ∀ x ∈ L, v.Holds N x)
    (hcard : L.length = (freeClusters v m.table).card) (hlt : L.length < clusterCount v size) :
    ((false = true) ↔ clusterCount v size ≤ m.heldCount v N ∧ p) ∧
    (false = false → (KeptImage v m m' ↔
      (0 < clusterCount v size ∧ m.freeCount v = 0 ∨ clusterCount v size = 0 ∧ q) ∨
        GivenBack v N m size)) := by
  have hheldCard : m'.heldCount v N + L.length = m.heldCount v N := h.card_held hheld
  have hle := heldCount_le (v := v) (N := N) (m := m)
  rw [GivenBack]
  rw [Image.freeCount] at hle ⊢
  refine ⟨⟨fun h => absurd h Bool.false_ne_true, fun h => by omega⟩, fun _ => ?_⟩
  rw [h.kept_iff (fun _ _ => rfl) rfl, ← length_eq_zero_iff]
  omega

/-- What was taken is given back. -/
theorem stored_back {p q : Prop} (h : TakenBack v m m')
    (hlt : (heldClusters v N m.table).card < clusterCount v size)
    (hslack : (heldClusters v N m.table).card < (freeClusters v m.table).card) :
    ((false = true) ↔ clusterCount v size ≤ m.heldCount v N ∧ p) ∧
    (false = false → (KeptImage v m m' ↔
      (0 < clusterCount v size ∧ m.freeCount v = 0 ∨ clusterCount v size = 0 ∧ q) ∨
        GivenBack v N m size)) := by
  refine ⟨⟨fun h => absurd h Bool.false_ne_true, fun h => ?_⟩, fun _ =>
    ⟨fun _ => .inr ⟨hlt, hslack⟩, fun _ => h.kept⟩⟩
  rw [Image.heldCount] at h
  omega

/-- A file that exists is written again. -/
theorem ends_writeExisting (hv : v.Sized) (hbad : v.total ≤ bad) (hcs : InTable v cs)
    (h : Linked m.table loc.dirent.firstCluster cs) (hused : ∀ x ∈ cs, m.table x ≠ 0)
    (hloc : 2 ≤ loc.cluster ∧ loc.cluster < v.total) (hheld : v.Holds N loc.cluster) :
    Ends v N [] (writeTarget v fuel name rest src size (some (c, some loc))) m (fun ok m' _ =>
      (ok = true ↔ clusterCount v size ≤ m.heldCount v N ∧ encodeShortName name ≠ none) ∧
      (ok = false → (KeptImage v m m' ↔ (0 < clusterCount v size ∧ m.freeCount v = 0 ∨
        clusterCount v size = 0 ∧ cs = []) ∨ GivenBack v N m size))) := by
  rw [writeTarget]
  refine (ends_store hv hbad).bind fun r m₁ left hpost => ?_
  obtain ⟨rfl, hresult⟩ := hpost
  cases hresult with
  | all L _ hL hheld' hlen =>
    have hcard : m₁.heldCount v N + L.length = m.heldCount v N := hL.card_held hheld'
    have hnot : ∀ x ∈ cs, x ∉ L := fun x hx hmem => hused x hx (hL.fresh x hmem)
    have hlinked : Linked m₁.table loc.dirent.firstCluster cs :=
      h.congr fun x hx => hL.table x (hnot x hx)
    refine (ends_enterExisting hv hcs hlinked hloc hheld fun k _ => by rw [drop_nil]; rfl).mono
      fun ok m' _ hrew => ?_
    rcases hrew with ⟨hnone, rfl, rfl⟩ | ⟨short, buf, hshort, -, hok, -⟩
    · refine ⟨⟨fun h => absurd h Bool.false_ne_true, fun h => absurd hnone h.2⟩, fun _ => ?_⟩
      rw [hL.kept_clear_iff fun x hx => ⟨(hcs x hx).2, hused x hx⟩,
        ← length_eq_zero_iff, hlen, GivenBack]
      refine ⟨fun h => .inl (.inr h), ?_⟩
      rintro ((⟨hpos, hfull⟩ | h) | ⟨hlt, -⟩)
      · have := heldCount_le (v := v) (N := N) (m := m)
        omega
      · exact h
      · omega
    · rw [drop_nil] at hok
      obtain rfl : ok = true := hok
      exact ⟨⟨fun _ => ⟨by omega, by rw [hshort]; exact Option.some_ne_none short⟩, fun _ => rfl⟩,
        fun h => absurd h.symm Bool.false_ne_true⟩
  | full L _ hL hheld' hcard hlt => exact Ends.pure (stored_full hL hheld' hcard hlt)
  | back _ hback hlt hslack => exact Ends.pure (stored_back hback hlt hslack)

/-- A new file is written. -/
theorem ends_writeNew (hv : v.Sized) (hbad : v.total ≤ bad) (h : DirChain v N m c cs)
    (hfuel : cs.length < fuel) :
    Ends v N [] (writeTarget v fuel name rest src size (some (c, none))) m (fun ok m' _ =>
      (ok = true ↔ clusterCount v size ≤ m.heldCount v N ∧ encodeShortName name ≠ none ∧
        (RoomIn v m cs name ∨ clusterCount v size < m.heldCount v N)) ∧
      (ok = false → (KeptImage v m m' ↔ (0 < clusterCount v size ∧ m.freeCount v = 0 ∨
        clusterCount v size = 0 ∧ (m.freeCount v = 0 ∨ RoomIn v m cs name)) ∨
          GivenBack v N m size))) := by
  rw [writeTarget]
  refine (ends_store hv hbad).bind fun r m₁ left hpost => ?_
  obtain ⟨rfl, hresult⟩ := hpost
  cases hresult with
  | all L _ hL hheld' hlen =>
    have hcard : m₁.freeCount v + L.length = m.freeCount v := hL.card
    have hcard' : m₁.heldCount v N + L.length = m.heldCount v N := hL.card_held hheld'
    obtain ⟨hdir, hdata⟩ := hL.dirChain h
    have hroom : RoomIn v m₁ cs name ↔ RoomIn v m cs name := RoomIn.congr hdata
    have hfull : m₁.firstFree v = 0 ↔ m.freeCount v = clusterCount v size := by
      rw [← freeCount_zero_iff]
      omega
    refine (ends_enterNew hv hbad hdir hfuel).mono fun ok m' _ hnew => ⟨?_, fun hok => ?_⟩
    · rw [hnew.ok_iff rfl, hroom, ← heldCount_pos_iff hv]
      constructor
      · intro h
        exact ⟨by omega, h.1, h.2.imp_right fun hne => by omega⟩
      · intro h
        exact ⟨h.2.1, h.2.2.imp_right fun hlt => by omega⟩
    rw [or_iff_left (fun hback : GivenBack v N m size => by have := hback.1; omega)]
    by_cases hor : RoomIn v m₁ cs name ∨ m₁.firstFree v = 0
    · obtain ⟨hsame, hdata'⟩ := hnew.same hor hok
      rw [hL.kept_iff hsame hdata', ← length_eq_zero_iff, hlen]
      rw [hroom, hfull] at hor
      constructor
      · intro hzero
        exact .inr ⟨hzero, hor.symm.imp_left fun heq => by omega⟩
      · intro h
        omega
    -- a link to a new cluster stays
    rw [not_or] at hor
    have hlink := hnew.linked rfl hor.1 hor.2 hok
    obtain ⟨hq, -⟩ := firstFree_spec hor.2
    obtain ⟨-, hlast, -, hend⟩ := h.getLast_end hv
    refine ⟨fun hkept => ?_, fun h => ?_⟩
    · exact absurd hkept.table
        (not_sameTable_of_link hlast hend (clusterValid_of hq.1 (by omega)) hlink)
    · rw [hroom, hfull] at hor
      rcases h with h | ⟨hn, hfree | hroom'⟩
      · omega
      · omega
      · exact absurd hroom' hor.1
  | full L _ hL hheld' hcard hlt => exact Ends.pure (stored_full hL hheld' hcard hlt)
  | back _ hback hlt hslack => exact Ends.pure (stored_back hback hlt hslack)

/-! ## 5. When a failure leaves no trace -/

/-- The directory `dir` has a run of entries for the name. -/
def Room (v : Volume) (d : Disk 512) (dir : Nat) (name : List UInt8) : Prop :=
  ∃ cs, Chain v d dir cs ∧ RoomIn v (image v d) cs name

/-- An empty directory has room for a short name. -/
theorem room_first (hchain : Chain v d c [c]) (hname : lfnPartsFor name + 1 = 1)
    (hslots : 1 ≤ v.slots)
    (hend : clusterBytes v d c 0 = 0) : Room v d c name := by
  refine ⟨[c], hchain, c, mem_singleton_self c, ?_⟩
  rw [hname]
  refine ⟨by decide, 0, hslots, fun k _ hk => .inl ?_⟩
  obtain rfl : k = 0 := by omega
  exact hend

/-- **Calls that leave no trace when they fail**, whatever the device refuses: the search finds no
    directory, or no cluster is free for the first piece, or no cluster is needed and none is given
    back. -/
inductive Harmless (v : Volume) (d : Disk 512) (name : List UInt8) (size : Nat) :
    Option (Nat × Option Slot) → Prop
  | missing : Harmless v d name size none
  | full (c : Nat) (e : Option Slot) (hn : 0 < clusterCount v size)
      (hfree : (image v d).freeCount v = 0) :
      Harmless v d name size (some (c, e))
  | empty (c : Nat) (loc : Slot) (hn : clusterCount v size = 0)
      (hfirst : loc.dirent.firstCluster < 2) :
      Harmless v d name size (some (c, some loc))
  | slots (c : Nat) (hn : clusterCount v size = 0)
      (hslots : (image v d).freeCount v = 0 ∨ Room v d c name) :
      Harmless v d name size (some (c, none))

/-- The number of free clusters on the device. -/
def heldFree (v : Volume) (d : Disk 512) : Nat := (image v d).heldCount v d.sectorCount

/-- **Calls that succeed when no write is refused**: enough clusters of the device are free. -/
inductive Succeeds (v : Volume) (d : Disk 512) (name : List UInt8) (size : Nat) :
    Option (Nat × Option Slot) → Prop
  | rewritten (c : Nat) (loc : Slot) (hn : clusterCount v size ≤ heldFree v d)
      (hname : encodeShortName name ≠ none) : Succeeds v d name size (some (c, some loc))
  | entered (c : Nat) (hn : clusterCount v size ≤ heldFree v d)
      (hname : encodeShortName name ≠ none)
      (hslots : Room v d c name ∨ clusterCount v size < heldFree v d) :
      Succeeds v d name size (some (c, none))

theorem room_iff (h : Chain v d c cs) : Room v d c name ↔ RoomIn v (image v d) cs name := by
  refine ⟨fun hroom => ?_, fun hroom => ⟨cs, h, hroom⟩⟩
  obtain ⟨cs', h', hroom'⟩ := hroom
  rw [h.unique h']
  exact hroom'

theorem harmless_existing : Harmless v d name size (some (c, some loc)) ↔
    0 < clusterCount v size ∧ (image v d).freeCount v = 0 ∨
      clusterCount v size = 0 ∧ loc.dirent.firstCluster < 2 := by
  constructor
  · intro h
    cases h with
    | full _ _ hn hfree => exact .inl ⟨hn, hfree⟩
    | empty _ _ hn hfirst => exact .inr ⟨hn, hfirst⟩
  · rintro (⟨hn, hfree⟩ | ⟨hn, hfirst⟩)
    · exact .full c _ hn hfree
    · exact .empty c loc hn hfirst

theorem harmless_new : Harmless v d name size (some (c, none)) ↔
    0 < clusterCount v size ∧ (image v d).freeCount v = 0 ∨
      clusterCount v size = 0 ∧ ((image v d).freeCount v = 0 ∨ Room v d c name) := by
  constructor
  · intro h
    cases h with
    | full _ _ hn hfree => exact .inl ⟨hn, hfree⟩
    | slots _ hn hslots => exact .inr ⟨hn, hslots⟩
  · rintro (⟨hn, hfree⟩ | ⟨hn, hslots⟩)
    · exact .full c _ hn hfree
    · exact .slots c hn hslots

theorem succeeds_existing : Succeeds v d name size (some (c, some loc)) ↔
    clusterCount v size ≤ heldFree v d ∧ encodeShortName name ≠ none := by
  constructor
  · intro h
    cases h with
    | rewritten _ _ hn hname => exact ⟨hn, hname⟩
  · rintro ⟨hn, hname⟩
    exact .rewritten c loc hn hname

theorem succeeds_new : Succeeds v d name size (some (c, none)) ↔
    clusterCount v size ≤ heldFree v d ∧ encodeShortName name ≠ none ∧
      (Room v d c name ∨ clusterCount v size < heldFree v d) := by
  constructor
  · intro h
    cases h with
    | entered _ hn hname hslots => exact ⟨hn, hname, hslots⟩
  · rintro ⟨hn, hname, hslots⟩
    exact .entered c hn hname hslots

/-- What the search has found: a directory, and an entry of one. -/
def Searchable (v : Volume) (g : Layout) (d : Disk 512) (t : Option (Nat × Option Slot)) : Prop :=
  ∀ c e, t = some (c, e) → AtDir g c ∧ ∀ s, e = some s → Located v g (image v d) s

section Calls

variable (h : WellFormed v g d) (hfuel : v.total ≤ fuel)

include h

theorem WellFormed.loc_range (hloc : Located v g (image v d) loc) : 2 ≤ loc.cluster ∧
    loc.cluster < v.total :=
  h.dir_range hloc.1

include hfuel

/-- **The call on a device that takes every write.** -/
theorem ends_writeTarget (ht : Searchable v g d t) :
    Ends v d.sectorCount [] (writeTarget v fuel name rest src size t) (image v d) (fun ok m' _ =>
      (ok = true ↔ Succeeds v d name size t) ∧
      (ok = false → (KeptImage v (image v d) m' ↔
        Harmless v d name size t ∨ GivenBack v d.sectorCount (image v d) size))) := by
  cases t with
  | none =>
    refine Ends.pure ⟨⟨fun h => absurd h Bool.false_ne_true, fun h => by cases h⟩, fun _ =>
      ⟨fun _ => .inl .missing, ?_⟩⟩
    exact fun _ => ⟨fun _ _ => rfl, fun _ _ _ _ _ _ => rfl⟩
  | some found =>
    obtain ⟨c, e⟩ := found
    obtain ⟨hdir, hloc⟩ := ht c e rfl
    cases e with
    | some loc =>
      obtain ⟨cs, hfile, hnil⟩ := h.entryChain (hloc loc rfl)
      have hlinked := (linked_iff_chain h.shows hfile.inTable).mpr hfile.chain
      rw [succeeds_existing, harmless_existing, ← hnil]
      exact ends_writeExisting h.sized h.numbers hfile.inTable hlinked hfile.used
        (h.loc_range (hloc loc rfl))
        (h.dir_holds (hloc loc rfl).1)
    | none =>
      obtain ⟨cs, hchain, hdirs⟩ := h.dirChain hdir
      have hlen := hdirs.length_lt h.sized
      rw [succeeds_new, harmless_new, room_iff hchain]
      exact ends_writeNew h.sized h.numbers hdirs (by omega)

/-- **A harmless call on any device.** -/
theorem ends_harmless (ht : Searchable v g d t) (hharm : Harmless v d name size t) :
    Ends v d.sectorCount faults (writeTarget v fuel name rest src size t)
    (image v d) (fun ok m' _ =>
      ok = false → KeptImage v (image v d) m') := by
  have hsame : KeptImage v (image v d) (image v d) := ⟨fun _ _ => rfl, fun _ _ _ _ _ _ => rfl⟩
  cases hharm with
  | missing => exact Ends.pure fun _ => hsame
  | full c e hn hfree =>
    obtain ⟨n, hn⟩ : ∃ n, clusterCount v size = n + 1 := ⟨clusterCount v size - 1, by omega⟩
    have hfull := freeCount_zero_iff.mp hfree
    rw [writeTarget, hn, storeLoop, bind_assoc]
    refine Ends.allocCluster h.sized (fun _ => ?_) (fun hne => absurd hfull hne) fun hne =>
      absurd hfull hne
    exact Ends.pure fun _ => hsame
  | empty c loc hn hfirst =>
    rw [writeTarget, hn]
    show Ends v d.sectorCount faults (enterFile v fuel c name rest (some loc) 0 size) _ _
    rw [enterFile, if_neg (by omega), writeDirEntryAt_eq]
    obtain ⟨hge, hlt⟩ := h.loc_range ((ht c _ rfl).2 loc rfl)
    refine (ends_rewriteCluster h.sized hge hlt (h.dir_holds ((ht c _ rfl).2 loc rfl).1)).mono
      fun ok m' _ hpost hok => ?_
    obtain ⟨buf, -, ⟨-, -, rfl, -⟩ | ⟨data, -, htook, rfl, -⟩⟩ := hpost
    · exact hsame
    · rw [← htook, hok]
      exact hsame
  | slots c hn hslots =>
    obtain ⟨cs, hchain, hdirs⟩ := h.dirChain (ht c _ rfl).1
    have hlen := hdirs.length_lt h.sized
    rw [room_iff hchain, freeCount_zero_iff] at hslots
    rw [writeTarget, hn]
    show Ends v d.sectorCount faults (enterFile v fuel c name rest none 0 size) _ _
    refine (ends_enterNew h.sized h.numbers hdirs (by omega)).mono fun ok m' _ hnew hok => ?_
    obtain ⟨htable, hdata⟩ := hnew.same hslots.symm hok
    exact ⟨htable, fun _ _ _ _ j _ => by rw [hdata]⟩

omit hfuel in
/-- The chain of the old entry is given back, and the entry cannot be written. -/
theorem trace_existing (hn : clusterCount v size = 0) (hloc : Located v g (image v d) loc)
    (hfirst : ¬ loc.dirent.firstCluster < 2) : ∃ faults,
    Ends v d.sectorCount faults (writeTarget v fuel name rest src size (some (c, some loc)))
      (image v d) (fun ok m' _ => ok = false ∧ ¬ KeptImage v (image v d) m') := by
  obtain ⟨cs, hfile, hnil⟩ := h.entryChain hloc
  have hlinked := (linked_iff_chain h.shows hfile.inTable).mpr hfile.chain
  refine ⟨List.replicate (freed cs).length true ++ [false], ?_⟩
  rw [writeTarget, hn]
  show Ends v d.sectorCount _ (enterFile v fuel c name rest (some loc) 0 size) _ _
  refine (ends_enterExisting h.sized hfile.inTable hlinked (h.loc_range hloc)
    (h.dir_holds hloc.1) fun k hk => ?_).mono fun ok m' _ hrew => ?_
  · obtain ⟨n, hlen⟩ : ∃ n, (freed cs).length - k = n + 1 := ⟨(freed cs).length - k - 1, by omega⟩
    rw [drop_append_of_le_length (by rw [length_replicate]; omega), drop_replicate, hlen]
    rfl
  have hrest : (List.replicate (freed cs).length true ++ [false]).drop (freed cs).length =
      [false] := drop_left' (length_replicate ..)
  have hcleared : ok = false ∧ m' = (image v d).clear (freed cs) := by
    rcases hrew with ⟨-, hok, hm'⟩ | ⟨short, buf, -, -, hok, hm'⟩
    · exact ⟨hok, hm'⟩
    · rw [hrest] at hok
      obtain rfl : ok = false := hok
      exact ⟨rfl, hm'⟩
  refine ⟨hcleared.1, fun hkept => hfirst (hnil.mp ?_)⟩
  have hstored : Stored v src size (image v d) [] (image v d) := stored_nil
  rw [hcleared.2, hstored.kept_clear_iff fun x hx =>
    ⟨(hfile.inTable x hx).2, hfile.used x hx⟩] at hkept
  exact hkept.2

/-- The directory grows by a cluster that can neither be linked nor given back. -/
theorem trace_new (hn : clusterCount v size = 0) (hdir : AtDir g c)
    (hnot : ¬ Harmless v d name size (some (c, none))) : ∃ faults,
    Ends v d.sectorCount faults (writeTarget v fuel name rest src size (some (c, none)))
      (image v d) (fun ok m' _ => ok = false ∧ ¬ KeptImage v (image v d) m') := by
  obtain ⟨cs, hchain, hdirs⟩ := h.dirChain hdir
  have hlen := hdirs.length_lt h.sized
  rw [harmless_new, room_iff hchain, freeCount_zero_iff] at hnot
  refine ⟨[true, false, false], ?_⟩
  rw [writeTarget, hn]
  show Ends v d.sectorCount _ (enterFile v fuel c name rest none 0 size) _ _
  refine (ends_enterNew h.sized h.numbers hdirs (by omega)).mono fun ok m' _ hnew => ?_
  obtain ⟨hok, hlost⟩ := hnew.lost rfl rfl rfl (fun hroom => hnot (.inr ⟨hn, .inr hroom⟩))
    fun hfull => hnot (.inr ⟨hn, .inl hfull⟩)
  exact ⟨hok, fun hkept => hlost hkept.table⟩

omit hfuel in
/-- The first piece cannot be written, and its cluster cannot be given back. -/
theorem trace_piece {e : Option Slot} (hn : clusterCount v size ≠ 0)
    (hfree : (image v d).firstFree v ≠ 0) : ∃ faults,
    Ends v d.sectorCount faults (writeTarget v fuel name rest src size (some (c, e)))
      (image v d) (fun ok m' _ => ok = false ∧ ¬ KeptImage v (image v d) m') := by
  obtain ⟨n, hsucc⟩ : ∃ n, clusterCount v size = n + 1 := ⟨clusterCount v size - 1, by omega⟩
  refine ⟨[true, false, false], ?_⟩
  rw [writeTarget, hsucc, storeLoop, bind_assoc]
  refine Ends.allocCluster h.sized (fun hfull => absurd hfull hfree)
    (fun _ hrefused => by cases hrefused) fun _ _ => ?_
  obtain ⟨⟨hge, hlt⟩, hzero⟩ := firstFree_spec hfree
  generalize (image v d).firstFree v = q at hfree hge hlt hzero ⊢
  have hmark : bad ≤ ((image v d).setLink q eoc).table q := by
    rw [setLink_self]
    decide
  have hvalid : clusterValid q = true := clusterValid_of hge (Nat.lt_of_lt_of_le hlt h.numbers)
  rw [if_neg hfree, linkCluster, if_pos rfl, pure_bind, if_pos rfl, if_pos rfl, bind_assoc]
  have hback : Ends v d.sectorCount [false] (do freeChain v q; pure none >>= fun r => match r with
      | none => pure false
      | some firstCluster =>
        enterFile v fuel c name rest e firstCluster size) ((image v d).setLink q eoc)
      (fun ok m' _ => ok = false ∧ ¬ KeptImage v (image v d) m') := by
    refine (ends_freeOne h.sized hvalid hlt hmark).bind fun _ m' _ hpost => ?_
    refine Ends.pure ⟨rfl, not_kept_of_taken hlt hzero ?_⟩
    rw [hpost.1]
    show ((image v d).setLink q eoc).table q ≠ 0
    rw [setLink_self]
    decide
  -- the piece is refused, or its cluster is none of the device
  by_cases hh : v.Holds d.sectorCount q
  · refine Ends.writeCluster h.sized hge hlt hh ?_
    rw [show took [true, false, false].tail = false from rfl, if_neg Bool.false_ne_true,
      if_neg Bool.false_ne_true, bind_assoc]
    exact hback
  · refine Ends.writeSlack hh ?_
    rw [if_neg Bool.false_ne_true, bind_assoc]
    exact hback

/-- **For any other call there is a device on which a failure leaves a trace.** -/
theorem exists_trace (ht : Searchable v g d t) (hnot : ¬ Harmless v d name size t) : ∃ faults,
    Ends v d.sectorCount faults (writeTarget v fuel name rest src size t)
      (image v d) (fun ok m' _ => ok = false ∧ ¬ KeptImage v (image v d) m') := by
  cases t with
  | none => exact absurd .missing hnot
  | some found =>
    obtain ⟨c, e⟩ := found
    obtain ⟨hdir, hloc⟩ := ht c e rfl
    by_cases hn : clusterCount v size = 0
    · cases e with
      | some loc =>
        exact trace_existing h hn (hloc loc rfl) fun hfirst => hnot (.empty c loc hn hfirst)
      | none => exact trace_new h hfuel hn hdir hnot
    · exact trace_piece h hn fun hfull =>
        hnot (.full c e (Nat.pos_of_ne_zero hn) (freeCount_zero_iff.mpr hfull))

end Calls

/-- **When a call of `fat32_write_file` that fails leaves the table and the used clusters as they
    were**: on every device, exactly the harmless calls; on a device that takes every write, these,
    the calls that succeed, and those that meet a cluster which the device does not have. -/
theorem write_file_undone_iff (h : WellFormed v g d) (hfuel : v.total ≤ fuel)
    (htarget : run (target v fuel path) d = some (t, d)) :
    ((∀ faults d' left, runFaulty faults (fat32WriteFile v fuel path rest src size) d =
      some ((false, d'), left) →
        Kept v d d') ↔ Harmless v d (lastComponent path) size t) ∧
    ((∀ d', run (fat32WriteFile v fuel path rest src size) d = some (false, d') → Kept v d d') ↔
      (Harmless v d (lastComponent path) size t ∨ GivenBack v d.sectorCount (image v d) size) ∨
        Succeeds v d (lastComponent path) size t) := by
  obtain ⟨-, -, hfound, -⟩ := (does_target h.tidy).run h.shows htarget
  have ht : Searchable v g d t := fun c e hte => (hfound c e hte).imp_left AtHead.atDir
  have hfaulty (faults : List Bool) :
      runFaulty faults (fat32WriteFile v fuel path rest src size) d =
        runFaulty faults (writeTarget v fuel (lastComponent path) rest src size t) d := by
    rw [fat32WriteFile_target]
    exact readOnly_target.runFaulty_bind htarget
  have hrun : run (fat32WriteFile v fuel path rest src size) d =
      run (writeTarget v fuel (lastComponent path) rest src size t) d := by
    rw [fat32WriteFile_target]
    exact run_bind_of htarget
  refine ⟨⟨fun hall => ?_, fun hharm faults d' left hfail => ?_⟩, ?_⟩
  · by_contra hnot
    obtain ⟨faults, htrace⟩ : ∃ faults,
      Ends v d.sectorCount faults (writeTarget v fuel (lastComponent path) rest src size t)
        (image v d) (fun ok m' _ => ok = false ∧ ¬ KeptImage v (image v d) m') :=
      exists_trace h hfuel ht hnot
    obtain ⟨ok, d', left, m', hcall, hd', hok, hlost⟩ := htrace d h.shows
    subst hok
    exact hlost ((kept_iff h.shows hd').mp (hall faults d' left ((hfaulty faults).trans hcall)))
  · obtain ⟨m', hd', hkept⟩ :=
      (ends_harmless h hfuel ht hharm).result h.shows ((hfaulty faults).symm.trans hfail)
    exact (kept_iff h.shows hd').mpr (hkept rfl)
  obtain ⟨ok, d', m', hcall, hd', hsucc, hfail⟩ :
      ∃ ok d' m', run (writeTarget v fuel (lastComponent path) rest src size t) d = some (ok, d') ∧
        _ :=
    (ends_writeTarget h hfuel ht).run h.shows
  rw [hrun, hcall]
  cases ok with
  | true => exact ⟨fun _ => .inr (hsucc.mp rfl), fun _ d₁ heq => by cases heq⟩
  | false =>
    have hnot : ¬ Succeeds v d (lastComponent path) size t :=
      fun h => absurd (hsucc.mpr h) Bool.false_ne_true
    rw [or_iff_left hnot, ← hfail rfl, ← kept_iff h.shows hd']
    refine ⟨fun hall => hall d' rfl, fun hkept d₁ heq => ?_⟩
    cases heq
    exact hkept

/-- A volume with an empty root directory. -/
def rootDisk : Disk 512 := ⟨128, fun x => if 512 ≤ x ∧ x < 524 then 0xFF else 0⟩

theorem rootDisk_flat : Flat smallVolume (fun _ => none) rootDisk :=
  flat_small rfl (by decide +kernel) (by decide +kernel) (by decide +kernel)

/-- The name ~ has no 8.3 form: the cluster of its only byte stays allocated. -/
theorem write_file_leaks : WellFormed smallVolume (flatLayout smallVolume fun _ => none) rootDisk ∧
    ∃ d', run (fat32WriteFile smallVolume 128 [0x7E] (fun _ => 0) (fun _ => 7) 1) rootDisk =
      some (false, d') ∧
      ¬ Kept smallVolume rootDisk d' := by
  refine ⟨rootDisk_flat.wellFormed, ?_⟩
  have hrun : (run (fat32WriteFile smallVolume 128 [0x7E] (fun _ => 0) (fun _ => 7) 1) rootDisk).map
      (fun r => (r.1, entryAt smallVolume r.2 3)) = some (false, eoc) := by decide +kernel
  obtain ⟨⟨ok, d'⟩, hr, heq⟩ := Option.map_eq_some_iff.mp hrun
  obtain ⟨rfl, hused⟩ := Prod.ext_iff.mp heq
  refine ⟨d', hr, fun hkept => ?_⟩
  have hfree := hkept.table 3 (by decide)
  rw [show entryAt smallVolume d' 3 = eoc from hused] at hfree
  exact absurd hfree (by decide +kernel)

/-- An empty file whose entry the device refuses to write. -/
theorem write_file_undone_refused : ∃ d' left,
    runFaulty [false] (fat32WriteFile smallVolume 128 [0x41] (fun _ => 0) (fun _ => 0) 0) rootDisk =
      some ((false, d'), left) ∧ Kept smallVolume rootDisk d' := by
  have ht : run (target smallVolume 128 [0x41]) rootDisk = some (some (2, none), rootDisk) :=
    target_new (by decide +kernel)
  have hchain : Chain smallVolume rootDisk 2 [2] :=
    ⟨rfl, rfl, (by decide +kernel : clusterValid (entryAt smallVolume rootDisk 2) = false)⟩
  have hroom : Room smallVolume rootDisk 2 (lastComponent [0x41]) :=
    room_first hchain (by decide) (by decide) (by decide +kernel)
  have hrun : (runFaulty [false] (fat32WriteFile smallVolume 128 [0x41] (fun _ => 0) (fun _ => 0) 0)
      rootDisk).map (fun r => r.1.1) = some false := by decide +kernel
  obtain ⟨⟨⟨ok, d'⟩, left⟩, hr, hok⟩ := Option.map_eq_some_iff.mp hrun
  obtain rfl : ok = false := hok
  exact ⟨d', left, hr, (write_file_undone_iff rootDisk_flat.wellFormed (by decide) ht).1.mpr
    (.slots 2 (by decide) (.inr hroom)) [false] d' left hr⟩

end DyntKernel.Fat
