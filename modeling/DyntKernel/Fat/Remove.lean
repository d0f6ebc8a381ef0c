/-
  File:      DyntKernel/Fat/Remove.lean
  Subject:   `fat32_remove` ON A FILE (fs/fat32.c, with mark_entry_deleted and fat32_free_chain).

  The entry and the parts of long names directly above it get the mark 0xE5. A scan meets the other
  entries as before, with the names they had: the parts that are marked belonged to the entry that
  is gone, and a mark clears what the scan has collected.

  * `Marked`, `slots_marked` -- the cluster of the entry, and the entries a scan of it comes to;
  * `locate_run` -- a search in a directory with an end mark;
  * `Removed`, `does_remove` -- the disk afterwards;
  * **`remove_file`** -- the path leads nowhere, exactly the chain of the file is free, and every
    other path leads to the same file.
-/
import DyntKernel.Fat.NameSets
import DyntKernel.Fat.SameFile
import DyntKernel.Fat.WriteFile

namespace DyntKernel.Fat

open Library Prog List Function

variable {v : Volume} {g : Layout} {d d' : Disk 512} {loc s : Slot}
  {cs : List Nat} {acc acc' : LfnAcc}
  {name path : List UInt8} {buf buf' : Nat → UInt8} {N a c fuel i k n : Nat}

/-! ## 1. The marks -/

/-- **The entry `i` and the parts above it, from `a` on, are marked**, among the first `n`
    entries. -/
structure Marked (n : Nat) (buf buf' : Nat → UInt8) (a i : Nat) : Prop where
  le : a ≤ i
  same : ∀ k, k < n → k < a ∨ i < k → ∀ j, j < 32 → slotAt buf' k j = slotAt buf k j
  mark : ∀ k, a ≤ k → k ≤ i → slotAt buf' k 0 = 0xE5
  part : ∀ k, a ≤ k → k < i → slotAt buf k 11 = attrLfn

/-- The loop of `mark_entry_deleted`. -/
theorem markParts_marks (buf : Nat → UInt8) (hn : n ≤ i) : ∃ a, a ≤ i ∧
    (∀ k, k < a ∨ i ≤ k → ∀ j, j < 32 → slotAt (markParts buf n (i * 32)) k j = slotAt buf k j) ∧
    ∀ k, a ≤ k → k < i → slotAt (markParts buf n (i * 32)) k 0 = 0xE5 ∧
      slotAt buf k 11 = attrLfn := by
  induction n generalizing buf i with
  | zero => exact ⟨i, Nat.le_refl i, fun _ _ _ _ => rfl, fun k hge hlt => by omega⟩
  | succ n ih =>
    have hoff : i * 32 - 32 = (i - 1) * 32 := by omega
    rw [markParts, hoff]
    by_cases hlfn : buf ((i - 1) * 32 + 11) = attrLfn
    · rw [if_pos hlfn]
      obtain ⟨a, hle, hsame, hmark⟩ :=
        ih (Function.update buf ((i - 1) * 32) 0xE5) (i := i - 1) (by omega)
      refine ⟨a, by omega, fun k hk j hj => ?_, fun k hge hlt => ?_⟩
      · rw [hsame k (by omega) j hj]
        exact update_of_ne (by omega) ..
      rcases Nat.lt_or_ge k (i - 1) with hk | hk
      · obtain ⟨hm, hp⟩ := hmark k hge hk
        have hattr : slotAt (Function.update buf ((i - 1) * 32) 0xE5) k 11 = slotAt buf k 11 :=
          update_of_ne (by omega) ..
        exact ⟨hm, hattr ▸ hp⟩
      · obtain rfl : k = i - 1 := by omega
        refine ⟨?_, hlfn⟩
        rw [hsame _ (.inr (Nat.le_refl _)) 0 (by decide)]
        exact update_self ..
    · rw [if_neg hlfn]
      exact ⟨i, Nat.le_refl i, fun _ _ _ _ => rfl, fun k hge hlt => by omega⟩

/-- **What `mark_entry_deleted` writes.** -/
theorem marked_entry (hi : i < n)
    (hbuf : ∀ k, k < n → ∀ j, j < 32 → slotAt buf' k j = slotAt buf k j) :
    ∃ a, Marked n buf
      (markParts (Function.update buf' (i * 32) 0xE5) (i * 32 / 32) (i * 32)) a i := by
  obtain ⟨a, hle, hsame, hmark⟩ :=
    markParts_marks (Function.update buf' (i * 32) 0xE5) (by omega : i * 32 / 32 ≤ i)
  have hother : ∀ k, k ≠ i → ∀ j, j < 32 →
      slotAt (Function.update buf' (i * 32) 0xE5) k j = slotAt buf' k j :=
    fun k hk j hj => update_of_ne (by omega) ..
  refine ⟨a, hle, fun k hk hout j hj => ?_, fun k hge hk => ?_, fun k hge hk => ?_⟩
  · rw [hsame k (by omega) j hj, hother k (by omega) j hj]
    exact hbuf k hk j hj
  · rcases Nat.lt_or_eq_of_le hk with hlt | rfl
    · exact (hmark k hge hlt).1
    · rw [hsame k (.inr (Nat.le_refl k)) 0 (by decide)]
      exact update_self ..
  · have hattr := (hmark k hge hk).2
    rwa [hother k (by omega) 11 (by decide), hbuf k (by omega) 11 (by decide)] at hattr

/-! ## 2. The entries of the cluster -/

/-- The entries that a scan of the first `n` entries of a cluster comes to. -/
def listed (c n : Nat) (buf : Nat → UInt8) : List Slot := (clusterSlots c buf 0 n []).1

/-- One entry of a scan, by what it is. -/
theorem clusterSlots_succ : clusterSlots c buf k (n + 1) acc =
    if slotAt buf k 0 = 0x00 then ([], none)
    else if slotAt buf k 0 = 0xE5 then clusterSlots c buf (k + 1) n []
    else if slotAt buf k 11 &&& attrLfn = attrLfn then
      clusterSlots c buf (k + 1) n (lfnAddPart acc (slotAt buf k))
    else (⟨c, k * 32, slotAt buf k, slotName acc (slotAt buf k)⟩ ::
      (clusterSlots c buf (k + 1) n []).1,
      (clusterSlots c buf (k + 1) n []).2) := rfl

/-- **Behind the marks a scan comes to the entries it came to before, but the one that is marked**,
    with the same names. -/
theorem slots_marked {m : Nat} (h : Marked m buf buf' a i) (hreach : Reached buf i)
    (hlive : Live (slotAt buf i))
    (hm : k + n ≤ m) (hacc : k ≤ a ∨ i < k → acc = acc') :
    List.Forall₂ Slot.Alike ((clusterSlots c buf k n acc).1.filter fun s => s.offset ≠ i * 32)
      (clusterSlots c buf' k n acc').1 := by
  induction n generalizing k acc acc' with
  | zero => exact .nil
  | succ n ih =>
    have hle := h.le
    by_cases hin : a ≤ k ∧ k ≤ i
    · -- a marked entry: the scan of the new cluster collects nothing
      have hnew : clusterSlots c buf' k (n + 1) acc' = clusterSlots c buf' (k + 1) n [] := by
        rw [clusterSlots_succ, h.mark k hin.1 hin.2, if_neg (by decide), if_pos rfl]
      rw [hnew, clusterSlots_succ]
      rcases Nat.lt_or_eq_of_le hin.2 with hlt | rfl
      · have hused : slotAt buf k 0 ≠ 0x00 := hreach k hlt
        have hattr : slotAt buf k 11 &&& attrLfn = attrLfn := by
          rw [h.part k hin.1 hlt]
          decide
        rw [if_neg hused]
        split_ifs
        · exact ih (by omega) fun hor => by omega
        · exact ih (by omega) fun hor => by omega
      · rw [if_neg hlive.1, if_neg hlive.2.1, if_neg hlive.2.2, filter_cons_of_neg (by simp)]
        exact ih (by omega) fun _ => rfl
    have hout : k < a ∨ i < k := by omega
    have hsame := h.same k (by omega) hout
    obtain rfl := hacc (by omega)
    rw [clusterSlots_succ, clusterSlots_succ, hsame 0 (by decide), hsame 11 (by decide)]
    split_ifs with hend hdel hlfn
    · exact .nil
    · exact ih (by omega) fun _ => rfl
    · exact ih (by omega) fun _ => lfnAddPart_congr fun j hj => (hsame j hj).symm
    · have hne : k * 32 ≠ i * 32 := by omega
      rw [filter_cons_of_pos (by simpa using hne)]
      refine .cons ⟨rfl, rfl, ?_, fun j hj => (hsame j hj).symm⟩ (ih (by omega) fun _ => rfl)
      exact slotName_congr fun j hj => (hsame j hj).symm

theorem listed_marked (c : Nat) (h : Marked n buf buf' a i) (hreach : Reached buf i)
    (hlive : Live (slotAt buf i)) :
    List.Forall₂ Slot.Alike ((listed c n buf).filter fun s =>
      s.offset ≠ i * 32) (listed c n buf') :=
  slots_marked h hreach hlive (Nat.le_of_eq (Nat.zero_add n)) fun _ => rfl

/-! ## 3. Searches -/

theorem nameMatches_iff {as bs : List UInt8} : nameMatches as bs = true ↔
    as.map upper = bs.map upper := by
  induction as generalizing bs with
  | nil =>
    cases bs with
    | nil => exact ⟨fun _ => rfl, fun _ => rfl⟩
    | cons b bs => exact ⟨fun h => (by cases h), fun h => (by cases h)⟩
  | cons x as ih =>
    cases bs with
    | nil => exact ⟨fun h => (by cases h), fun h => (by cases h)⟩
    | cons b bs =>
      rw [nameMatches, map_cons, map_cons, List.cons.injEq]
      split_ifs with hx
      · rw [ih, and_iff_right hx]
      · exact ⟨fun h => (by cases h), fun h => absurd h.1 hx⟩

/-- The entry has the name. -/
def Slot.named (name : List UInt8) (s : Slot) : Bool := nameMatches s.name name

/-- **A search stops at the first entry with the name.** -/
theorem visitAll_search (l : List Slot) : visitAll (searchVisit name) l none =
    ((l.find? (Slot.named name)).isSome, l.find? (Slot.named name)) := by
  induction l with
  | nil => rfl
  | cons s l ih =>
    by_cases hs : Slot.named name s = true
    · have htrue : searchVisit name s none = (true, some s) := if_pos hs
      rw [List.find?_cons_of_pos hs, visitAll_cons_of_true (by rw [htrue]), htrue]
      rfl
    · have hfalse : searchVisit name s none = (false, none) := if_neg hs
      rw [List.find?_cons_of_neg hs, visitAll_cons_of_false (by rw [hfalse]), hfalse]
      exact ih

/-- A search in a directory whose first cluster has an end mark. -/
theorem locate_run (name : List UInt8) (hheld : v.Holds d.sectorCount c) (hfuel : 0 < fuel)
    (hvalid : clusterValid c = true)
    (hend : ∃ k, k < v.slots ∧ clusterBytes v d c (k * 32) = 0) :
    run (locateEntry v fuel c name) d =
      some ((listed c v.slots (clusterBytes v d c)).find? (Slot.named name), d) := by
  obtain ⟨fuel, rfl⟩ : ∃ n, fuel = n + 1 := ⟨fuel - 1, by omega⟩
  have hround : run (readDirectoryLoop v c (searchVisit name) (fuel + 1) [] none) d = _ :=
    run_round hvalid (fits_iff_holds.mpr hheld)
  rw [diskSlots_end.mpr hend, visitAll_search] at hround
  rw [ite_self] at hround
  rw [locateEntry, readDirectory, run_bind_of hround]
  rfl

/-- **What a search finds once entries of the list are gone**: with pairwise distinct names, no
    other entry takes their place. -/
theorem find_filter {l : List Slot} {f : Slot → Bool}
    (h : l.Pairwise fun s t => nameMatches s.name t.name = false) :
    (l.filter f).find? (Slot.named name) = (l.find? (Slot.named name)).filter f := by
  induction l with
  | nil => rfl
  | cons s l ih =>
    obtain ⟨hs, hl⟩ := pairwise_cons.mp h
    by_cases hname : Slot.named name s = true
    · rw [List.find?_cons_of_pos hname, Option.filter_some]
      by_cases hf : f s = true
      · rw [filter_cons_of_pos hf, List.find?_cons_of_pos hname, if_pos hf]
      rw [filter_cons_of_neg hf, if_neg hf, List.find?_eq_none]
      intro t ht hmatch
      have hboth : nameMatches s.name t.name = true :=
        nameMatches_iff.mpr ((nameMatches_iff.mp hname).trans (nameMatches_iff.mp hmatch).symm)
      rw [hs t (mem_of_mem_filter ht)] at hboth
      cases hboth
    · rw [List.find?_cons_of_neg hname, ← ih hl]
      by_cases hf : f s = true
      · rw [filter_cons_of_pos hf, List.find?_cons_of_neg hname]
      · rw [filter_cons_of_neg hf]

/-- Searches in lists of alike entries. -/
theorem find_alike {l l' : List Slot} (name : List UInt8) (h : List.Forall₂ Slot.Alike l l') :
    Option.Rel Slot.Alike (l.find? (Slot.named name)) (l'.find? (Slot.named name)) := by
  induction h with
  | nil => exact .none
  | @cons s t l l' hst _ ih =>
    have hsame : Slot.named name s = Slot.named name t := by rw [Slot.named, Slot.named, hst.name]
    by_cases hname : Slot.named name s = true
    · rw [List.find?_cons_of_pos hname, List.find?_cons_of_pos (hsame ▸ hname)]
      exact .some hst
    · rw [List.find?_cons_of_neg hname, List.find?_cons_of_neg (hsame ▸ hname)]
      exact ih

/-! ## 4. The disk afterwards -/

/-- **Directories of one cluster with an end mark.** -/
def ShortDirs (v : Volume) (g : Layout) (d : Disk 512) : Prop :=
  ∀ c, g.dir c → clusterValid (entryAt v d c) = false ∧ ∃ k, k < v.slots ∧
    clusterBytes v d c (k * 32) = 0

/-- **The names in a directory are pairwise distinct**, as the code compares names. -/
def DistinctNames (v : Volume) (g : Layout) (d : Disk 512) : Prop :=
  ∀ c, g.dir c → (listed c v.slots (clusterBytes v d c)).Pairwise fun s t =>
    nameMatches s.name t.name = false

/-- The chain of every file has the clusters its size needs, and no more. -/
def SizesExact (v : Volume) (g : Layout) (d : Disk 512) : Prop :=
  ∀ c i it cs, g.dir c → i < v.slots → (image v d).item c i = some it → it.isDir = false →
    Chain v d it.first cs →
      it.size ≤ cs.length * v.bytesPerCluster ∧
      cs.length * v.bytesPerCluster < it.size + v.bytesPerCluster

/-- **The entry `i` of the cluster `c` is marked and the clusters `cs` are free**; everything else
    is as before. -/
structure Removed (v : Volume) (d : Disk 512) (c i : Nat) (cs : List Nat)
    (d' : Disk 512) : Prop where
  sectors : d'.sectorCount = d.sectorCount
  table : ∀ k, k < v.total → entryAt v d' k = if k ∈ cs then 0 else entryAt v d k
  marked : ∃ a, Marked v.slots (clusterBytes v d c) (clusterBytes v d' c) a i
  others : ∀ k, 2 ≤ k → k < v.total → k ≠ c → ∀ j, j < v.bytesPerCluster →
    clusterBytes v d' k j = clusterBytes v d k j

/-- `mark_entry_deleted` on a live entry. -/
theorem ends_markEntryDeleted {m : Image} (hv : v.Sized) (hge : 2 ≤ c) (hc : c < v.total)
    (hh : v.Holds N c) (hs : SlotOf v m c i s) : Ends v N []
    (markEntryDeleted v c s.offset) m (fun _ m' _ =>
      ∃ b a, m' = m.setData c b ∧ Marked v.slots (m.data c) b a i) := by
  rw [markEntryDeleted, hs.offset]
  refine Ends.readCluster hge hc hh fun buf hbuf => ?_
  have h0 : buf (i * 32) = m.entry c i 0 := hbuf (i * 32 + 0) (slot_inside hs.lt (by decide))
  have hused : ¬ (buf (i * 32) = 0x00 ∨ buf (i * 32) = 0xE5) := by
    rw [h0]
    exact fun h => not_live_of_free h hs.live
  dsimp only
  rw [if_neg hused]
  refine (ends_writeCluster hv hge hc hh).mono fun ok m' _ hpost => ?_
  obtain ⟨a, ha⟩ : ∃ a,
    Marked v.slots (m.data c)
    (markParts (Function.update buf (i * 32) 0xE5) (i * 32 / 32) (i * 32)) a i :=
    marked_entry hs.lt fun k hk j hj => hbuf _ (slot_inside hk hj)
  exact ⟨_, a, hpost.2.1, ha⟩

/-- **A file is removed**, once it is found. -/
theorem ends_removeFile {m : Image} {inner : Nat → Io (Except Errno Unit)}
    (hv : v.Sized) (hcs : InTable v cs)
    (h : Linked m.table loc.dirent.firstCluster cs)
    (hrange : 2 ≤ loc.cluster ∧ loc.cluster < v.total)
    (hh : v.Holds N loc.cluster) (hs : SlotOf v m loc.cluster i loc)
    (hfile : loc.dirent.isDir = false) :
    Ends v N [] (removeItems v inner [loc]) m (fun _ m' _ =>
      ∃ b a, m' = (m.clear (freed cs)).setData loc.cluster b ∧
        Marked v.slots (m.data loc.cluster) b a i) := by
  have hmark :
      Ends v N [] (do let _ ← markEntryDeleted v loc.cluster loc.offset; removeItems v inner [])
      (m.clear (freed cs)) (fun _ m' _ =>
        ∃ b a, m' = (m.clear (freed cs)).setData loc.cluster b ∧
          Marked v.slots (m.data loc.cluster) b a i) := by
    have hs' : SlotOf v (m.clear (freed cs)) loc.cluster i loc :=
      ⟨hs.cluster, hs.lt, hs.offset, hs.entry, hs.live⟩
    refine (ends_markEntryDeleted hv hrange.1 hrange.2 hh hs').bind fun _ m' rest hpost => ?_
    exact Ends.pure hpost
  rw [removeItems, releaseEntry, hfile, if_neg Bool.false_ne_true]
  by_cases hfirst : 2 ≤ loc.dirent.firstCluster
  · rw [if_pos hfirst, bind_assoc]
    refine (ends_freeChain hv hcs h).bind fun _ m' rest hpost => ?_
    obtain ⟨rfl, rfl⟩ := hpost
    exact hmark
  · obtain rfl := h.eq_nil hfirst
    have hnil : m.clear (freed []) = m := Image.clear_nil
    rw [if_neg hfirst]
    rw [hnil] at hmark ⊢
    exact hmark

theorem Marked.congr {buf'' : Nat → UInt8} (h : Marked v.slots buf buf' a i) (hi : i < v.slots)
    (hsame : ∀ j, j < v.bytesPerCluster → buf'' j = buf' j) : Marked v.slots buf buf'' a i where
  le := h.le
  same := fun k hk hout j hj => (hsame _ (slot_inside hk hj)).trans (h.same k hk hout j hj)
  mark :=
    fun k hge hle =>
      (hsame _ (slot_inside (Nat.lt_of_le_of_lt hle hi) (by decide))).trans (h.mark k hge hle)
  part := h.part

/-- A chain that a size needs is given back as a whole. -/
theorem freed_of_sizes (hlen : cs.length * v.bytesPerCluster < n + v.bytesPerCluster)
    (hn : n < 2 ^ 32) :
    freed cs = cs := by
  refine take_of_length_le ?_
  have hbytes : 512 ≤ v.bytesPerCluster := by
    rw [Volume.bytesPerCluster]
    have hspc := v.spc_pos
    omega
  by_contra hlong
  have hmul : 0x1000001 * v.bytesPerCluster ≤ cs.length * v.bytesPerCluster :=
    Nat.mul_le_mul_right _ (by omega)
  omega

/-- **The disk after a file is removed.** -/
theorem removed_of_run (h : WellFormed v g d) (hsizes : SizesExact v g d)
    (hresolve : run (resolve v fuel path) d = some (some loc, d)) (hfile : loc.dirent.isDir = false)
    {r : Except Errno Unit} (hrun : run (fat32Remove v fuel path) d = some (r, d')) :
    ∃ i cs, SlotOf v (image v d) loc.cluster i loc ∧ IsFile v d loc.dirent.firstCluster cs ∧
      (∀ x ∈ cs, g.own x = some (.entry loc.cluster i)) ∧ Removed v d loc.cluster i cs d' := by
  obtain ⟨hdir, i, hslot⟩ := h.located hresolve
  obtain ⟨hge, hlt⟩ := h.dir_range hdir
  obtain ⟨it, hit, hisDir, hfirst, hsize⟩ := hslot.item
  have hnot := hisDir.trans hfile
  obtain ⟨cs, hchain, howns⟩ := h.file hdir hslot.lt hit hnot
  have hfreed : freed cs = cs := by
    refine freed_of_sizes (hsizes _ i it cs hdir hslot.lt hit hnot hchain.chain).2 ?_
    rw [hsize, Slot.dirent, makeDirent]
    dsimp only
    split_ifs
    · decide
    · exact readLE_lt
  rw [hfirst] at hchain
  have hlinked := (linked_iff_chain h.shows hchain.inTable).mpr hchain.chain
  rcases fat32Remove_run hresolve with ⟨err, hnone, -⟩ | ⟨loc', hsome, heq⟩
  · cases hnone
  obtain rfl := Option.some.inj hsome
  rw [heq] at hrun
  obtain ⟨m', hd', b, a, rfl, hmarked⟩ :=
    (ends_removeFile h.sized hchain.inTable hlinked ⟨hge,
      hlt⟩ (h.dir_holds hdir) hslot hfile).result_run h.shows hrun
  rw [hfreed] at hd'
  refine ⟨i, cs, hslot, hchain, howns, hd'.sectors, fun k hk => hd'.table k hk, ⟨a, ?_⟩,
    fun k hk2 hk hne j hj => ?_⟩
  · refine hmarked.congr hslot.lt fun j hj => ?_
    rw [hd'.data _ j hge hlt hj, Image.setData_self]
  · rw [hd'.data k j hk2 hk hj, Image.setData_of_ne hne]
    rfl

/-! ## 5. The walks -/

/-- The loop of `fat32_open`, with the place of the entry. -/
def openSlotLoop (v : Volume) (fuel : Nat) : Nat → List UInt8 → Nat → Io (Option Slot)
  | 0, _, _ => pure none
  | n + 1, path, dirCluster => do
    match splitComponent path with
    | none => pure none
    | some (component, path) =>
      match ← locateEntry v fuel dirCluster component with
      | none => pure none
      | some s =>
        if path = [] then pure (some s)
        else if s.dirent.isDir then openSlotLoop v fuel n path s.dirent.firstCluster
        else pure none

/-- **The place of the entry that `fat32_open` finds.** -/
def openSlot (v : Volume) (fuel : Nat) (path : List UInt8) : Io (Option Slot) :=
  openSlotLoop v fuel path.length path v.rootCluster

theorem openLoop_slot : openLoop v fuel n path c =
    openSlotLoop v fuel n path c >>= fun found => pure (found.map Slot.dirent) := by
  induction n generalizing path c with
  | zero => rfl
  | succ n ih =>
    rw [openLoop, openSlotLoop]
    cases splitComponent path with
    | none => rfl
    | some parts =>
      dsimp only
      rw [findEntry, bind_assoc, bind_assoc]
      refine bind_congr fun found => ?_
      rw [pure_bind]
      cases found with
      | none => rfl
      | some s =>
        dsimp only [Option.map_some]
        split_ifs
        · rfl
        · exact ih
        · rfl

/-- The entry is at another place than `loc`. -/
def elsewhere (loc s : Slot) : Bool := s.cluster ≠ loc.cluster ∨ s.offset ≠ loc.offset

theorem elsewhere_false : elsewhere loc s = false ↔ s.cluster = loc.cluster ∧
    s.offset = loc.offset := by
  rw [elsewhere, decide_eq_false_iff_not, not_or, not_not, not_not]

/-- Entries at the same place are alike. -/
theorem isDir_of_place {m : Image} (hs : SlotOf v m s.cluster k s)
    (hloc : SlotOf v m loc.cluster i loc)
    (hplace : elsewhere loc s = false) : s.dirent.isDir = loc.dirent.isDir := by
  obtain ⟨hcluster, hoffset⟩ := elsewhere_false.mp hplace
  obtain rfl : k = i := by
    have h1 := hs.offset
    have h2 := hloc.offset
    omega
  have hattr : s.entry 11 = loc.entry 11 := by
    rw [hs.entry 11 (by decide), hloc.entry 11 (by decide), hcluster]
  rw [Slot.dirent, Slot.dirent, makeDirent, makeDirent, hattr]

section Walks

variable (h : WellFormed v g d) (hdirs : ShortDirs v g d) (hnames : DistinctNames v g d)
  (hfuel : 0 < fuel)
  (hslot : SlotOf v (image v d) loc.cluster i loc)
  (hreach : Reached (clusterBytes v d loc.cluster) i) (hrem : Removed v d loc.cluster i cs d')

include h hdirs hfuel

/-- A search in a directory. -/
theorem locate_short (name : List UInt8) (hc : g.dir c) : run (locateEntry v fuel c name) d =
    some ((listed c v.slots (clusterBytes v d c)).find? (Slot.named name), d) := by
  obtain ⟨hge, hlt⟩ := h.dir_range hc
  exact locate_run name (h.dir_holds hc) hfuel
    (clusterValid_of hge (Nat.lt_of_lt_of_le hlt h.numbers))
    (hdirs c hc).2

include hnames hslot hreach hrem

/-- **A search on both disks.** -/
theorem locate_removed (name : List UInt8) (hc : AtDir g c) : ∃ r r',
    run (locateEntry v fuel c name) d = some (r, d) ∧
    run (locateEntry v fuel c name) d' = some (r', d') ∧
      Option.Rel Slot.Alike (r.filter (elsewhere loc)) r' ∧ ∀ s, r = some s →
      Located v g (image v d) s := by
  rcases hc with hcdir | rfl
  · have hrun := locate_short h hdirs hfuel name hcdir
    obtain ⟨hge, hlt⟩ := h.dir_range hcdir
    obtain ⟨-, -, hfound, -⟩ := (does_locate h.tidy (.inl hcdir)).run h.shows hrun
    have hcluster : ∀ s, (listed c v.slots (clusterBytes v d c)).find? (Slot.named name) = some s →
        s.cluster = c :=
      fun s hs => (mem_clusterSlots (List.mem_of_find?_eq_some hs)).1
    by_cases hne : c = loc.cluster
    · subst hne
      obtain ⟨a, hmarked⟩ := hrem.marked
      have hend : ∃ k, k < v.slots ∧ clusterBytes v d' loc.cluster (k * 32) = 0 := by
        obtain ⟨k, hk, hzero⟩ := (hdirs loc.cluster hcdir).2
        have hgt : i < k := by
          by_contra hle
          rcases Nat.lt_or_eq_of_le (Nat.not_lt.mp hle) with hlt' | rfl
          · exact hreach k hlt' hzero
          · exact hslot.live.1 hzero
        exact ⟨k, hk, (hmarked.same k hk (.inr hgt) 0 (by decide)).trans hzero⟩
      have hrun' := locate_run name (hrem.sectors ▸ h.dir_holds hcdir) hfuel
        (clusterValid_of hge (Nat.lt_of_lt_of_le hlt h.numbers)) hend
      refine ⟨_, _, hrun, hrun', ?_, hfound⟩
      have halike := find_alike name (listed_marked loc.cluster hmarked hreach hslot.live)
      rw [find_filter (hnames _ hcdir)] at halike
      generalize (listed loc.cluster v.slots (clusterBytes v d loc.cluster)).find?
        (Slot.named name) = r
        at halike hcluster
      have hfilter : r.filter (elsewhere loc) = r.filter fun s => s.offset ≠ i * 32 := by
        cases r with
        | none => rfl
        | some s =>
          simp only [Option.filter_some, elsewhere, hslot.offset, hcluster s rfl,
            ne_eq, not_true, false_or]
      rwa [hfilter]
    have hbytes : ∀ j, j < v.bytesPerCluster → clusterBytes v d c j = clusterBytes v d' c j :=
      fun j hj => (hrem.others c hge hlt hne j hj).symm
    obtain ⟨-, r', hrun', hrel⟩ := locate_alike (fits_iff_holds.mpr (h.dir_holds hcdir))
      (fits_iff_holds.mpr (hrem.sectors ▸ h.dir_holds hcdir)) hbytes hrun
    refine ⟨_, r', hrun, hrun', ?_, hfound⟩
    generalize (listed c v.slots (clusterBytes v d c)).find? (Slot.named name) = r at hrel hcluster
    have hfilter : r.filter (elsewhere loc) = r := by
      cases r with
      | none => rfl
      | some s =>
        have hother : elsewhere loc s = true :=
          decide_eq_true (.inl fun heq => hne (hcluster s rfl ▸ heq))
        rw [Option.filter_some, if_pos hother]
    rwa [hfilter]
  · obtain ⟨fuel, rfl⟩ : ∃ n, fuel = n + 1 := ⟨fuel - 1, by omega⟩
    exact ⟨none, none, rfl, rfl, .none, fun _ hs => (by cases hs)⟩

/-- **The walk of `fat32_open` on both disks**: it leads to what it led to, unless that is the entry
    that is gone. -/
theorem openLoop_removed (hfile : loc.dirent.isDir = false) (hc : AtDir g c) : ∃ r,
    run (openSlotLoop v fuel n path c) d = some (r, d) ∧
      run (openLoop v fuel n path c) d' = some ((r.filter (elsewhere loc)).map Slot.dirent, d') ∧
      ∀ s, r = some s → Located v g (image v d) s := by
  induction n generalizing path c with
  | zero => exact ⟨none, rfl, rfl, fun _ hs => (by cases hs)⟩
  | succ n ih =>
    rw [openSlotLoop, openLoop]
    cases splitComponent path with
    | none => exact ⟨none, rfl, rfl, fun _ hs => (by cases hs)⟩
    | some parts =>
      obtain ⟨component, rest⟩ := parts
      obtain ⟨r, r', hrun, hrun', hrel, hfound⟩ :=
        locate_removed h hdirs hnames hfuel hslot hreach hrem component hc
      dsimp only
      rw [run_bind_of hrun, findEntry, bind_assoc, run_bind_of hrun', pure_bind]
      cases r with
      | none =>
        cases hrel
        exact ⟨none, rfl, rfl, fun _ hs => (by cases hs)⟩
      | some s =>
        have hloc := hfound s rfl
        obtain ⟨hsdir, k, hs⟩ := hloc
        rw [Option.filter_some] at hrel
        cases hplace : elsewhere loc s with
        | true =>
          rw [if_pos hplace] at hrel
          obtain ⟨t, rfl, halike⟩ : ∃ t, r' = some t ∧ s.Alike t := by
            cases hrel with
            | some halike => exact ⟨_, rfl, halike⟩
          dsimp only [Option.map_some]
          rw [← halike.dirent]
          by_cases hrest : rest = []
          · rw [if_pos hrest, if_pos hrest]
            refine ⟨some s, rfl, ?_, hfound⟩
            rw [Option.filter_some, if_pos hplace]
            rfl
          rw [if_neg hrest, if_neg hrest]
          by_cases hisDir : s.dirent.isDir = true
          · rw [if_pos hisDir, if_pos hisDir]
            exact ih (h.tidy.atDir hsdir hs hisDir)
          · rw [if_neg hisDir, if_neg hisDir]
            exact ⟨none, rfl, rfl, fun _ hs => (by cases hs)⟩
        | false =>
          rw [hplace, if_neg Bool.false_ne_true] at hrel
          cases hrel
          dsimp only
          by_cases hrest : rest = []
          · rw [if_pos hrest]
            refine ⟨some s, rfl, ?_, hfound⟩
            rw [Option.filter_some, hplace]
            rfl
          · have hisDir : ¬ s.dirent.isDir = true := by
              rw [isDir_of_place hs hslot hplace, hfile]
              exact Bool.false_ne_true
            rw [if_neg hrest, if_neg hisDir]
            exact ⟨none, rfl, rfl, fun _ hs => (by cases hs)⟩

/-- The walk over the components but the last, on both disks. -/
theorem descend_removed {names : List (List UInt8)} {c' : Nat} (hfile : loc.dirent.isDir = false)
    (hc : AtDir g c)
    (hrun : run (descend v fuel names c) d = some (.ok c', d)) :
    run (descend v fuel names c) d' = some (.ok c', d') ∧ AtDir g c' := by
  induction names generalizing c with
  | nil =>
    obtain rfl : c = c' := by
      cases hrun
      rfl
    exact ⟨rfl, hc⟩
  | cons name names ih =>
    obtain ⟨r, r', hlocate, hlocate', hrel, hfound⟩ :=
      locate_removed h hdirs hnames hfuel hslot hreach hrem name hc
    rw [descend, findEntry, bind_assoc, run_bind_of hlocate, pure_bind] at hrun
    rw [descend, findEntry, bind_assoc, run_bind_of hlocate', pure_bind]
    cases r with
    | none => cases hrun
    | some s =>
      obtain ⟨hsdir, k, hs⟩ := hfound s rfl
      dsimp only [Option.map_some] at hrun
      by_cases hisDir : s.dirent.isDir = true
      · rw [if_pos hisDir] at hrun
        have hplace : elsewhere loc s = true := by
          by_contra hnot
          rw [isDir_of_place hs hslot (Bool.eq_false_iff.mpr hnot), hfile] at hisDir
          cases hisDir
        rw [Option.filter_some, if_pos hplace] at hrel
        obtain ⟨t, rfl, halike⟩ : ∃ t, r' = some t ∧ s.Alike t := by
          cases hrel with
          | some halike => exact ⟨_, rfl, halike⟩
        dsimp only [Option.map_some]
        rw [← halike.dirent, if_pos hisDir]
        exact ih (h.tidy.atDir hsdir hs hisDir) hrun
      · rw [if_neg hisDir] at hrun
        cases hrun

omit hnames hreach hrem in
/-- The entry that a path leads to is one that a scan of its cluster comes to. -/
theorem resolve_reached (hresolve : run (resolve v fuel path) d = some (some loc, d)) :
    Reached (clusterBytes v d loc.cluster) i := by
  rw [resolve] at hresolve
  cases hcomps : components path with
  | none =>
    rw [hcomps] at hresolve
    cases hresolve
  | some parts =>
    obtain ⟨dirs, name⟩ := parts
    rw [hcomps] at hresolve
    obtain ⟨q, hdescend, hlocate⟩ := readOnly_descend.run_bind hresolve
    obtain ⟨-, -, hat, -⟩ := (does_descend h.tidy h.tidy.root_atHead).run h.shows hdescend
    cases q with
    | error err => cases hlocate
    | ok c =>
      rcases (hat c rfl).atDir with hc | rfl
      · rw [locate_short h hdirs hfuel name hc] at hlocate
        have hmem := List.mem_of_find?_eq_some (Prod.ext_iff.mp (Option.some.inj hlocate)).1
        have hshown : loc ∈ (clusterSlots c (clusterBytes v d c) 0 v.slots
            (collect (partsAt [] (clusterBytes v d c) 0))).1 := hmem
        rw [mem_clusterSlots_iff fun k hk => absurd hk (Nat.not_lt_zero k)] at hshown
        obtain ⟨k, -, -, hreach, -, hloc⟩ := hshown
        have hcluster : loc.cluster = c := (mem_clusterSlots hmem).1
        have hoffset : loc.offset = k * 32 := by rw [hloc]; rfl
        obtain rfl : k = i := by
          have := hslot.offset
          omega
        rwa [hcluster]
      · obtain ⟨fuel, rfl⟩ : ∃ n, fuel = n + 1 := ⟨fuel - 1, by omega⟩
        cases hlocate

/-- **The walk over the components leads nowhere.** -/
theorem resolve_removed (hfile : loc.dirent.isDir = false)
    (hresolve : run (resolve v fuel path) d = some (some loc, d)) :
    run (resolve v fuel path) d' = some (none, d') := by
  rw [resolve] at hresolve ⊢
  cases hcomps : components path with
  | none => rfl
  | some parts =>
    obtain ⟨dirs, name⟩ := parts
    rw [hcomps] at hresolve
    obtain ⟨q, hdescend, hlocate⟩ := readOnly_descend.run_bind hresolve
    cases q with
    | error err => cases hlocate
    | ok c =>
      obtain ⟨hdescend', hc⟩ :=
        descend_removed h hdirs hnames hfuel hslot hreach hrem hfile (.inl h.tidy.root_dir) hdescend
      obtain ⟨r, r', hrun, hrun', hrel, -⟩ :=
        locate_removed h hdirs hnames hfuel hslot hreach hrem name hc
      rw [hrun] at hlocate
      obtain rfl : r = some loc := (Prod.ext_iff.mp (Option.some.inj hlocate)).1
      rw [Option.filter_some, elsewhere_false.mpr ⟨rfl, rfl⟩, if_neg Bool.false_ne_true] at hrel
      cases hrel
      rw [run_bind_of hdescend']
      exact hrun'

end Walks

/-! ## 6. The files that are left -/

/-- The path leads to the entry `loc`. -/
def LeadsTo (v : Volume) (fuel : Nat) (d : Disk 512) (path : List UInt8) (loc : Slot) : Prop :=
  ∃ s, run (openSlot v fuel path) d = some (some s, d) ∧ elsewhere loc s = false

/-- A file at another place is the same. -/
theorem sameFile_removed (h : WellFormed v g d) (hsizes : SizesExact v g d)
    (hdir : g.dir loc.cluster)
    (howns : ∀ x ∈ cs, g.own x = some (.entry loc.cluster i))
    (hrem : Removed v d loc.cluster i cs d')
    (hlocoff : loc.offset = i * 32) (hs : Located v g (image v d) s)
    (hplace : elsewhere loc s = true)
    (hopen : run (fat32Open v fuel path) d = some (some s.dirent, d))
    (hopen' : run (fat32Open v fuel path) d' = some (some s.dirent, d'))
    (hfile : s.dirent.isDir = false) :
    SameFile v fuel path d d' := by
  obtain ⟨hsdir, k, hslot⟩ := hs
  obtain ⟨it, hit, hisDir, hfirst, hsize⟩ := hslot.item
  have hnot := hisDir.trans hfile
  obtain ⟨L, hchain, hL⟩ := h.file hsdir hslot.lt hit hnot
  have hroom := (hsizes _ k it L hsdir hslot.lt hit hnot hchain.chain).1
  have hlocL : loc.cluster ∉ L := h.dir_not_file hit hnot hL hdir
  rw [hsize] at hroom
  rw [hfirst] at hchain
  -- the chains of two entries have no cluster in common
  have hdisjoint : ∀ x ∈ L, x ∉ cs := by
    intro x hx hmem
    have heq := Option.some.inj ((hL x hx).symm.trans (howns x hmem))
    obtain ⟨hcluster, hk⟩ : s.cluster = loc.cluster ∧ k = i := by
      injection heq with h1 h2
      exact ⟨h1, h2⟩
    have hoffset : s.offset = loc.offset := by rw [hslot.offset, hlocoff, hk]
    rw [elsewhere_false.mpr ⟨hcluster, hoffset⟩] at hplace
    cases hplace
  have hchain' : Chain v d' s.dirent.firstCluster L := by
    rw [chain_iff_linked]
    refine (chain_iff_linked.mp hchain.chain).congr fun x hx => ?_
    rw [hrem.table x (hchain.inTable x hx).2, if_neg (hdisjoint x hx)]
  rw [sameFile_iff (fun x hx => h.tidy.held x _ (hL x hx)) hrem.sectors hopen hopen'
    hfile hroom hchain.chain
    fun _ => ⟨[], by rwa [append_nil]⟩]
  intro x hx
  have hidx : x / v.bytesPerCluster < L.length :=
    (Nat.div_lt_iff_lt_mul Volume.bytesPerCluster_pos).mpr (by omega)
  have hmem : L.getD (x / v.bytesPerCluster) 0 ∈ L := by
    rw [getD_eq_getElem _ _ hidx]
    exact getElem_mem hidx
  obtain ⟨hge, hlt⟩ := hchain.inTable _ hmem
  exact hrem.others _ hge hlt (fun heq => hlocL (heq ▸ hmem)) _
    (Nat.mod_lt _ Volume.bytesPerCluster_pos)

/-- **A file is removed**: its path leads nowhere, exactly the clusters of its chain are free, and
    every path that leads elsewhere leads to the same entry, with the same bytes. -/
theorem remove_file (h : WellFormed v g d) (hsizes : SizesExact v g d) (hdirs : ShortDirs v g d)
    (hnames : DistinctNames v g d) (hfuel : 0 < fuel)
    (hresolve : run (resolve v fuel path) d = some (some loc, d)) (hfile : loc.dirent.isDir = false)
    (hrun : run (fat32Remove v fuel path) d = some (.ok (), d')) :
    run (fat32Open v fuel path) d' = some (none, d') ∧
    (∃ cs, Chain v d loc.dirent.firstCluster cs ∧ ∀ k, k < v.total →
      (k ∈ cs → entryAt v d k ≠ 0 ∧ entryAt v d' k = 0) ∧
      (k ∉ cs → entryAt v d' k = entryAt v d k)) ∧
    (∀ q, ¬ LeadsTo v fuel d q loc → SameFile v fuel q d d') ∧
    ∀ q, LeadsTo v fuel d q loc → run (fat32Open v fuel q) d' = some (none, d') := by
  obtain ⟨i, cs, hslot, hchain, howns, hrem⟩ := removed_of_run h hsizes hresolve hfile hrun
  have hdir := (h.located hresolve).1
  have hreach := resolve_reached h hdirs hfuel hslot hresolve
  have hwalk : ∀ q, ∃ r, run (openSlot v fuel q) d = some (r, d) ∧
      run (fat32Open v fuel q) d' = some ((r.filter (elsewhere loc)).map Slot.dirent, d') ∧
      ∀ s, r = some s → Located v g (image v d) s :=
    fun q => openLoop_removed h hdirs hnames hfuel hslot hreach hrem hfile (.inl h.tidy.root_dir)
  refine ⟨?_, ⟨cs, hchain.chain, fun k hk => ⟨fun hmem => ?_, fun hnot => ?_⟩⟩, fun q hq => ?_,
    fun q hq => ?_⟩
  · obtain ⟨r, -, hopen, -⟩ := hwalk path
    rw [hopen]
    cases hr : (r.filter (elsewhere loc)).map Slot.dirent with
    | none => rfl
    | some e =>
      -- the walk over the components would find it, too
      rw [hr] at hopen
      have hfew : ¬ 8 < (splitPath path.length path).length := by
        have hfinds : Finds (resolveDirent v fuel path) d loc.dirent :=
          ⟨d, by rw [resolveDirent, run_bind_of hresolve]; rfl⟩
        exact (finds_resolve.mp hfinds).1
      obtain ⟨d₁, hfinds⟩ := finds_resolve.mpr ⟨hfew, (finds_open.mp ⟨d', hopen⟩).2⟩
      rw [resolveDirent, run_bind_of
        (resolve_removed h hdirs hnames hfuel hslot hreach hrem hfile hresolve)] at hfinds
      cases hfinds
  · rw [hrem.table k hk, if_pos hmem]
    exact ⟨hchain.used k hmem, rfl⟩
  · rw [hrem.table k hk, if_neg hnot]
  obtain ⟨r, hslotrun, hopen', hfound⟩ := hwalk q
  have hfilter : r.filter (elsewhere loc) = r := by
    cases r with
    | none => rfl
    | some s =>
      rw [Option.filter_some]
      cases hplace : elsewhere loc s with
      | true => rw [if_pos rfl]
      | false => exact absurd ⟨s, hslotrun, hplace⟩ hq
  rw [hfilter] at hopen'
  have hopen : run (fat32Open v fuel q) d = some (r.map Slot.dirent, d) := by
    rw [fat32Open, openLoop_slot]
    exact run_bind_of hslotrun
  cases r with
  | none => exact sameFile_nothing hopen hopen' fun _ he => (by cases he)
  | some s =>
    cases hisDir : s.dirent.isDir with
    | true =>
      refine sameFile_nothing hopen hopen' fun e he => ?_
      obtain rfl : s.dirent = e := Option.some.inj he
      exact hisDir
    | false =>
      have hplace : elsewhere loc s = true := by
        by_contra hnot
        exact hq ⟨s, hslotrun, Bool.eq_false_iff.mpr hnot⟩
      exact sameFile_removed h hsizes hdir howns hrem hslot.offset
        (hfound s rfl) hplace hopen hopen' hisDir
  · obtain ⟨r, hslotrun, hopen', -⟩ := hwalk q
    obtain ⟨s, hs, hplace⟩ := hq
    rw [hs] at hslotrun
    obtain rfl : some s = r := (Prod.ext_iff.mp (Option.some.inj hslotrun)).1
    rwa [Option.filter_some, hplace, if_neg Bool.false_ne_true] at hopen'

/-- A root directory with a file A of one byte and a file B of two. -/
def pairDisk : Disk 512 :=
  ⟨128, fun x =>
    if 512 ≤ x ∧ x < 532 then 0xFF
    else if x = 1024 then 0x41 else if x = 1050 then 3 else if x = 1052 then 1
    else if x = 1056 then 0x42 else if x = 1082 then 4 else if x = 1084 then 2
    else if 1024 < x ∧ x ≤ 1035 ∨ 1056 < x ∧ x ≤ 1067 then 0x20 else 0⟩

/-- The entries that own its clusters. -/
def pairOwner (c : Nat) : Option Nat := if c = 3 then some 0 else if c = 4 then some 1 else none

theorem pairDisk_flat : Flat smallVolume pairOwner pairDisk where
  sized := smallVolume_sized
  numbers := by decide
  tables := (by decide : smallVolume.dataStart ≤ 128)
  mark := by decide +kernel
  root := by decide +kernel
  root_held := by decide
  files := fun c s hs => by
    rw [pairOwner] at hs
    split_ifs at hs with h3 h4
    · subst h3
      decide +kernel
    · subst h4
      decide +kernel
  items := by decide +kernel

theorem pairDisk_sizes : SizesExact smallVolume (flatLayout smallVolume pairOwner) pairDisk := by
  have hitems : ∀ i, i < smallVolume.slots → ((image smallVolume pairDisk).item 2 i).all (fun it =>
      (it.first = 3 ∨ it.first = 4) ∧ (it.size = 1 ∨ it.size = 2)) = true := by decide +kernel
  have hchain {f : Nat} (hf : f = 3 ∨ f = 4) : Chain smallVolume pairDisk f [f] := by
    rcases hf with rfl | rfl
    · exact ⟨rfl, rfl, (by decide +kernel : clusterValid (entryAt smallVolume pairDisk 3) = false)⟩
    · exact ⟨rfl, rfl, (by decide +kernel : clusterValid (entryAt smallVolume pairDisk 4) = false)⟩
  intro c i it cs hc hi hit _ hcs
  obtain rfl : c = 2 := hc
  have hitem := hitems i hi
  rw [hit] at hitem
  obtain ⟨hfirst, hsize⟩ := of_decide_eq_true hitem
  obtain rfl := (hchain hfirst).unique hcs
  have hbytes : smallVolume.bytesPerCluster = 512 := rfl
  rw [length_singleton, hbytes]
  omega

theorem pairDisk_dirs : ShortDirs smallVolume (flatLayout smallVolume pairOwner) pairDisk := by
  intro c hc
  obtain rfl : c = 2 := hc
  exact ⟨by decide +kernel, 2, by decide, by decide +kernel⟩

theorem pairDisk_names : DistinctNames smallVolume (flatLayout smallVolume pairOwner) pairDisk := by
  intro c hc
  obtain rfl : c = 2 := hc
  exact
    (by decide +kernel : (listed 2 smallVolume.slots (clusterBytes smallVolume pairDisk 2)).Pairwise
    fun s t => nameMatches s.name t.name = false)

/-- The file A is removed: its path leads nowhere, and B is as it was. -/
theorem remove_file_pair :
    ∃ d', run (fat32Remove smallVolume 1 [0x41]) pairDisk = some (.ok (), d') ∧
    run (fat32Open smallVolume 1 [0x41]) d' = some (none, d') ∧
    SameFile smallVolume 1 [0x42] pairDisk d' := by
  have hfind : (run (resolve smallVolume 1 [0x41]) pairDisk).map (fun r => r.1.map fun s =>
      (s.dirent.isDir, s.offset)) = some (some (false, 0)) := by decide +kernel
  have hother :
      (run (openSlot smallVolume 1 [0x42]) pairDisk).map (fun r => r.1.map fun s => s.offset) =
        some (some 32) := by decide +kernel
  have hremove : (run (fat32Remove smallVolume 1 [0x41]) pairDisk).map (fun r => r.1.isOk) =
      some true := by
    decide +kernel
  obtain ⟨loc, hresolve, hloc⟩ := readOnly_resolve.found hfind
  obtain ⟨hfile, hoffset⟩ := Prod.ext_iff.mp hloc
  obtain ⟨⟨r, d'⟩, hrun, hok⟩ := Option.map_eq_some_iff.mp hremove
  cases r with
  | error err => cases hok
  | ok u =>
    obtain ⟨hgone, -, hsame, -⟩ :=
      remove_file pairDisk_flat.wellFormed pairDisk_sizes pairDisk_dirs pairDisk_names
      Nat.one_pos hresolve hfile hrun
    refine ⟨d', hrun, hgone, hsame [0x42] fun hleads => ?_⟩
    obtain ⟨s, hs, hplace⟩ := hleads
    rw [hs] at hother
    have hs32 : s.offset = 32 := Option.some.inj (Option.some.inj hother)
    have hsame := (elsewhere_false.mp hplace).2
    rw [hs32, show loc.offset = 0 from hoffset] at hsame
    cases hsame

end DyntKernel.Fat
