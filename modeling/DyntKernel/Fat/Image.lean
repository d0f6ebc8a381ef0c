/-
  File:      DyntKernel/Fat/Image.lean
  Subject:   THE VOLUME AS A TABLE AND CLUSTERS: what the routines do on a device that holds all of
             it.

  An image is the table and the contents of the clusters, each by its number. A disk shows an image
  when its entries and its clusters are those of the image. No request fails on such a disk, so what
  a routine does is said on images, with one change of the image for each write.

  * `Image`, `Shows` -- an image, and a disk that shows it;
  * `Does` -- what holds of every result of a program and of the image after it, with `Does.bind`
    and one rule for each request;
  * `does_freeChain`, `does_readDirectoryLoop` -- the routines;
  * `locate_alike` -- a search finds the same entry in two directories with the same bytes.
-/
import DyntKernel.Fat.WriteAt
import Mathlib.Data.Option.Basic

namespace DyntKernel.Fat

open Library Prog Function

/-! ## 1. Images -/

/-- **The table and the clusters of a volume.** -/
structure Image where
  table : Nat → Nat
  data : Nat → Nat → UInt8

namespace Image

variable {m : Image} {c k i x : Nat} {b : Nat → UInt8}

def setLink (m : Image) (c x : Nat) : Image := { m with table := Function.update m.table c x }

def setData (m : Image) (c : Nat) (b : Nat → UInt8) : Image :=
  { m with data := Function.update m.data c b }

/-- The entry `i` of a cluster of a directory. -/
def entry (m : Image) (c i : Nat) : Nat → UInt8 := fun j => m.data c (i * 32 + j)

@[simp] theorem setLink_data : (m.setLink c x).data = m.data := rfl

@[simp] theorem setData_table : (m.setData c b).table = m.table := rfl

@[simp] theorem setLink_self : (m.setLink c x).table c = x := update_self ..

@[simp] theorem setData_self : (m.setData c b).data c = b := update_self ..

theorem setLink_of_ne (h : k ≠ c) : (m.setLink c x).table k = m.table k := update_of_ne h ..

theorem setData_of_ne (h : k ≠ c) : (m.setData c b).data k = m.data k := update_of_ne h ..

end Image

variable {v : Volume} {d d' : Disk 512} {m m' : Image} {N c n x value fuel : Nat}

/-- The tables lie on the device. -/
def Volume.TablesOn (v : Volume) (d : Disk 512) : Prop := v.dataStart ≤ d.sectorCount

/-- **The cluster `c` lies on a device of `N` sectors.** `fat32_mount` takes the number of clusters
    from the size of a table, and a table may have entries of clusters that the device does not
    have. -/
def Volume.Holds (v : Volume) (N c : Nat) : Prop := clusterToLba v c + v.sectorsPerCluster ≤ N

instance : Decidable (v.Holds N c) := inferInstanceAs (Decidable (_ ≤ _))

theorem Volume.TablesOn.entry_fits (h : v.TablesOn d) (hv : v.Sized) (hc : c < v.total) :
    d.Fits (entryLba v c) 1 := by
  have hlt := hv.entryLba_lt hc
  have hle := hv.fat_le_data
  rw [Volume.TablesOn] at h
  exact ⟨Nat.one_ne_zero, by omega, by omega⟩

theorem fits_iff_holds : d.Fits (clusterToLba v c) v.sectorsPerCluster ↔
    v.Holds d.sectorCount c := by
  have hspc := v.spc_pos
  rw [Disk.Fits, Volume.Holds]
  omega

/-- The clusters on the device are the first ones of the data area. -/
theorem Volume.Holds.anti (h : v.Holds N c) (hv : v.Sized) (hge : 2 ≤ x) (hxc : x ≤ c)
    (hc : c < v.total) : v.Holds N x := by
  have hmul : (x - 2) * v.sectorsPerCluster ≤ (c - 2) * v.sectorsPerCluster :=
    Nat.mul_le_mul_right _ (by omega)
  rw [Volume.Holds, hv.clusterToLba_eq (by omega) (by omega)] at h ⊢
  omega

/-- **The disk `d` of `N` sectors shows the image `m`.** -/
structure Shows (v : Volume) (N : Nat) (d : Disk 512) (m : Image) : Prop where
  sectors : d.sectorCount = N
  tables : v.TablesOn d
  table : ∀ c, c < v.total → entryAt v d c = m.table c
  data : ∀ c j, 2 ≤ c → c < v.total → j < v.bytesPerCluster → clusterBytes v d c j = m.data c j

/-- The image of a disk. -/
def image (v : Volume) (d : Disk 512) : Image := ⟨entryAt v d, clusterBytes v d⟩

theorem shows_image (h : v.TablesOn d) : Shows v d.sectorCount d (image v d) :=
  ⟨rfl, h, fun _ _ => rfl, fun _ _ _ _ _ => rfl⟩

theorem Shows.fits_iff (h : Shows v N d m) :
    d.Fits (clusterToLba v c) v.sectorsPerCluster ↔ v.Holds N c := h.sectors ▸ fits_iff_holds

theorem mask_of_lt (h : value < 2 ^ 28) : value &&& 0x0FFFFFFF = value := by
  rw [show (0x0FFFFFFF : Nat) = 2 ^ 28 - 1 by decide, Nat.and_two_pow_sub_one_eq_mod]
  exact Nat.mod_eq_of_lt h

theorem Shows.setEntry (h : Shows v N d m) (hv : v.Sized) (hc : c < v.total) :
    Shows v N (setEntry v d c value) (m.setLink c (value &&& 0x0FFFFFFF)) := by
  have hbound : v.total < 2 ^ 30 := Volume.total_lt
  refine ⟨h.sectors, h.tables, fun k hk => ?_, fun k j hge hk hj => ?_⟩
  · by_cases hkc : k = c
    · subst hkc
      rw [entryAt_setEntry (h.tables.entry_fits hv hc), Image.setLink_self]
    · rw [entryAt_setEntry_of_ne (by omega) (by omega) hkc, Image.setLink_of_ne hkc]
      exact h.table k hk
  · rw [clusterBytes_setEntry hv hge hk hc, Image.setLink_data]
    exact h.data k j hge hk hj

theorem setCluster_sectorCount {data : Nat → UInt8} :
    (setCluster v d c data).sectorCount = d.sectorCount := by
  rw [setCluster, Disk.put_sectorCount]

theorem Shows.setCluster {data : Nat → UInt8} (h : Shows v N d m) (hv : v.Sized) (hge : 2 ≤ c)
    (hc : c < v.total) : Shows v N (setCluster v d c data) (m.setData c data) := by
  refine ⟨setCluster_sectorCount.trans h.sectors, ?_, fun k hk => ?_, fun k j hge' hk hj => ?_⟩
  · rw [Volume.TablesOn, setCluster_sectorCount]
    exact h.tables
  · rw [entryAt_setCluster hv hge hc hk, Image.setData_table]
    exact h.table k hk
  · by_cases hkc : k = c
    · subst hkc
      rw [clusterBytes_setCluster hj, Image.setData_self]
    · rw [clusterBytes_setCluster_of_ne hv hge hc hge' hk hkc hj, Image.setData_of_ne hkc]
      exact h.data k j hge' hk hj

/-! ## 2. What a program does -/

section Does

variable {α β : Type} {p : Io α} {f : α → Io β} {Q Q' : α → Image → Prop} {R : β → Image → Prop}

/-- **On every disk of `N` sectors that shows `m`, a result of `p` and an image the disk then shows
    meet `Q`.** -/
def Does (v : Volume) (N : Nat) (p : Io α) (m : Image) (Q : α → Image → Prop) : Prop :=
  ∀ d, Shows v N d m → Safe Anywhere p (fun r d' => ∃ m', Shows v N d' m' ∧ Q r m') d

theorem Does.pure {a : α} (h : Q a m) : Does v N (Pure.pure a) m Q := fun _ hd => ⟨m, hd, h⟩

theorem does_hang : Does v N (.hang : Io α) m Q := fun _ _ => trivial

theorem Does.mono (h : Does v N p m Q) (hQ : ∀ a m', Q a m' → Q' a m') : Does v N p m Q' :=
  fun d hd => (h d hd).mono fun a _ ⟨m', hd', hq⟩ => ⟨m', hd', hQ a m' hq⟩

theorem Does.bind (hp : Does v N p m Q) (hf : ∀ a m', Q a m' → Does v N (f a) m' R) :
    Does v N (p >>= f) m R :=
  fun d hd => (hp d hd).bind fun a d' ⟨m', hd', hq⟩ => hf a m' hq d' hd'

theorem Does.bind_same {P : α → Prop} (hp : Does v N p m fun a m' => P a ∧ m' = m)
    (hf : ∀ a, P a → Does v N (f a) m R) : Does v N (p >>= f) m R :=
  hp.bind fun a _ h => h.2 ▸ hf a h.1

theorem Does.run {a : α} (h : Does v N p m Q) (hd : Shows v N d m) (hrun : p.run d = some (a, d')) :
    ∃ m', Shows v N d' m' ∧ Q a m' := (h d hd).run hrun

end Does

section Requests

theorem does_fatReadEntry (hc : c < v.total) :
    Does v N (fatReadEntry v c) m (fun r m' => r = m.table c ∧ m' = m) :=
  fun _ hd => Safe.of_run anywhere run_fatReadEntry ⟨m, hd, hd.table c hc, rfl⟩

/-- A cluster is read, and the rest of the program depends on it. -/
theorem Does.readCluster {α : Type} {f : Option (Nat → UInt8) → Io α} {Q : α → Image → Prop}
    (hge : 2 ≤ c) (hc : c < v.total) (hh : v.Holds N c)
    (h : ∀ buf, (∀ j, j < v.bytesPerCluster → buf j = m.data c j) → Does v N (f (some buf)) m Q) :
    Does v N (blockRead (clusterToLba v c) v.sectorsPerCluster >>= f) m Q := by
  intro d hd
  refine Safe.bind_read ?_
  rw [Disk.read_of_fits (hd.fits_iff.mpr hh)]
  exact h _ (fun j hj => hd.data c j hge hc hj) d hd

variable (hv : v.Sized)

include hv

theorem does_writeCluster {data : Nat → UInt8} (hge : 2 ≤ c) (hc : c < v.total) (hh : v.Holds N c) :
    Does v N (blockWrite .data (clusterToLba v c) v.sectorsPerCluster data) m
      (fun ok m' => ok = true ∧ m' = m.setData c data) := by
  intro d hd
  refine Safe.write (fun _ => trivial) ?_
  rw [Disk.write_of_fits (hd.fits_iff.mpr hh)]
  exact ⟨_, hd.setCluster hv hge hc, rfl, rfl⟩

theorem does_fatWriteEntry (hc : c < v.total) : Does v N (fatWriteEntry v c value) m
    (fun ok m' => ok = true ∧ m' = m.setLink c (value &&& 0x0FFFFFFF)) := by
  intro d hd
  exact Safe.of_run anywhere (run_fatWriteEntry.trans (if_pos (hd.tables.entry_fits hv hc)))
    ⟨_, hd.setEntry hv hc, rfl, rfl⟩

/-! ## 3. The table's routines -/

/-- **Giving back a chain** frees clusters of it only. -/
theorem does_freeChainLoop {U : Nat → Prop} (hrange : ∀ x, U x → x < v.total)
    (hlink : ∀ x, U x → clusterValid (m.table x) = true → U (m.table x))
    (hc : clusterValid c = true → U c) : Does v N (freeChainLoop v n c) m
      (fun _ m' => m'.data = m.data ∧ ∀ x, m'.table x = m.table x ∨ U x ∧ m'.table x = 0) := by
  induction n generalizing c m with
  | zero => exact Does.pure ⟨rfl, fun _ => .inl rfl⟩
  | succ n ih =>
    rw [freeChainLoop]
    by_cases hvalid : clusterValid c = true
    · have hU := hc hvalid
      have hfree : ∀ x, (m.setLink c (0 &&& 0x0FFFFFFF)).table x = m.table x ∨
          U x ∧ (m.setLink c (0 &&& 0x0FFFFFFF)).table x = 0 := by
        intro x
        by_cases hxc : x = c
        · subst hxc
          exact .inr ⟨hU, Image.setLink_self⟩
        · exact .inl (Image.setLink_of_ne hxc)
      rw [if_pos hvalid]
      refine (does_fatReadEntry (hrange c hU)).bind ?_
      intro next m₁ hpost
      obtain ⟨rfl, rfl⟩ := hpost
      refine (does_fatWriteEntry hv (hrange c hU)).bind ?_
      intro ok m₂ hpost
      obtain ⟨rfl, rfl⟩ := hpost
      rw [if_pos rfl]
      split_ifs
      · exact Does.pure ⟨rfl, hfree⟩
      refine (ih (fun x hx hvalid' => ?_) (hlink c hU)).mono fun _ m' hpost =>
        ⟨hpost.1, fun x => ?_⟩
      · by_cases hxc : x = c
        · subst hxc
          rw [Image.setLink_self] at hvalid'
          cases hvalid'
        · rw [Image.setLink_of_ne hxc] at hvalid' ⊢
          exact hlink x hx hvalid'
      · rcases hpost.2 x with hsame | hzero
        · rw [hsame]
          exact hfree x
        · exact .inr hzero
    · rw [if_neg hvalid]
      exact Does.pure ⟨rfl, fun _ => .inl rfl⟩

theorem does_freeChain {U : Nat → Prop} (hrange : ∀ x, U x → x < v.total)
    (hlink : ∀ x, U x → clusterValid (m.table x) = true → U (m.table x))
    (hc : clusterValid c = true → U c) : Does v N (freeChain v c) m
      (fun _ m' => m'.data = m.data ∧ ∀ x, m'.table x = m.table x ∨ U x ∧ m'.table x = 0) :=
  does_freeChainLoop hv hrange hlink hc

end Requests

/-! ## 4. Searches -/

section Searches

variable {σ : Type} {s t : Slot} {e e' buf buf' : Nat → UInt8} {name : List UInt8} {acc : LfnAcc}
  {i : Nat}

/-- **The entry `s` that a scan hands out is the live entry `i` of the cluster `c`.** -/
structure SlotOf (v : Volume) (m : Image) (c i : Nat) (s : Slot) : Prop where
  cluster : s.cluster = c
  lt : i < v.slots
  offset : s.offset = i * 32
  entry : ∀ j, j < 32 → s.entry j = m.entry c i j
  live : Live (m.entry c i)

theorem slot_inside (hi : i < v.slots) {j : Nat} (hj : j < 32) :
    i * 32 + j < v.bytesPerCluster := by
  rw [Volume.slots, Volume.bytesPerCluster] at *
  omega

theorem Live.congr (h : ∀ j, j < 32 → e j = e' j) : Live e ↔ Live e' := by
  rw [Live, Live, h 0 (by decide), h 11 (by decide)]

theorem slotOf_of_mem (hbuf : ∀ j, j < v.bytesPerCluster → buf j = m.data c j)
    (h : s ∈ (clusterSlots c buf 0 v.slots acc).1) : ∃ i, SlotOf v m c i s := by
  obtain ⟨hcluster, i, -, hlt, hoffset, hentry, hlive⟩ := mem_clusterSlots h
  rw [Nat.zero_add] at hlt
  have hsame : ∀ j, j < 32 → s.entry j = m.entry c i j := by
    intro j hj
    rw [hentry]
    exact hbuf _ (slot_inside hlt hj)
  exact ⟨i, hcluster, hlt, hoffset, hsame, (Live.congr hsame).mp hlive⟩

/-- **A scan calls the callback on live entries of the cluster**: what every such call keeps holds
    at the end. -/
theorem does_readDirectoryLoop {visit : Slot → σ → Bool × σ} {J : σ → Prop} {u : σ}
    (hc : clusterValid c = true → c < v.total ∧ v.Holds N c)
    (hvisit : ∀ s i, SlotOf v m c i s → ∀ u, J u → J (visit s u).2) (hu : J u) :
    Does v N (readDirectoryLoop v c visit fuel acc u) m (fun r m' => J r.2 ∧ m' = m) := by
  induction fuel generalizing acc u with
  | zero => exact does_hang
  | succ fuel ih =>
    rw [readDirectoryLoop]
    by_cases hvalid : clusterValid c = true
    · rw [if_pos hvalid]
      refine Does.readCluster (clusterValid_ge hvalid) (hc hvalid).1 (hc hvalid).2 fun buf hbuf =>
        ?_
      obtain ⟨-, hend, -⟩ := scanEntries_eq visit c buf 0 v.slots acc u
      have hJ : J (scanEntries visit c buf 0 v.slots acc u).2.2 := by
        rw [hend]
        refine visitAll_inv (fun s hs => ?_) hu
        obtain ⟨i, hi⟩ := slotOf_of_mem hbuf hs
        exact hvisit s i hi
      dsimp only
      generalize scanEntries visit c buf 0 v.slots acc u = r at hJ ⊢
      obtain ⟨out, acc', u'⟩ := r
      cases out with
      | more => exact ih hJ
      | last => exact Does.pure ⟨hJ, rfl⟩
      | found => exact Does.pure ⟨hJ, rfl⟩
    · rw [if_neg hvalid]
      exact Does.pure ⟨hu, rfl⟩

/-- **What `locate_entry` finds is a live entry of the directory.** -/
theorem does_locateEntry (hc : clusterValid c = true → c < v.total ∧ v.Holds N c) :
    Does v N (locateEntry v fuel c name) m
      (fun r m' => (∀ s, r = some s → ∃ i, SlotOf v m c i s) ∧ m' = m) := by
  have hvisit : ∀ s i, SlotOf v m c i s → ∀ found : Option Slot,
      (∀ x, found = some x → ∃ i, SlotOf v m c i x) →
      ∀ x, (searchVisit name s found).2 = some x → ∃ i, SlotOf v m c i x := by
    intro s i hs found hfound x hx
    cases found with
    | some y => exact hfound x hx
    | none =>
      rw [searchVisit] at hx
      split_ifs at hx
      cases hx
      exact ⟨i, hs⟩
  have hnone : ∀ x, (none : Option Slot) = some x → ∃ i, SlotOf v m c i x := fun x hx => by cases hx
  refine (does_readDirectoryLoop
    (J := fun found : Option Slot => ∀ x, found = some x → ∃ i, SlotOf v m c i x)
    hc hvisit hnone).bind ?_
  intro r m' hpost
  exact Does.pure hpost

/-- Two entries that a scan hands out, alike in all that is read of them. -/
structure Slot.Alike (s t : Slot) : Prop where
  cluster : s.cluster = t.cluster
  offset : s.offset = t.offset
  name : s.name = t.name
  entry : ∀ j, j < 32 → s.entry j = t.entry j

theorem Slot.Alike.dirent (h : s.Alike t) : s.dirent = t.dirent := by
  have hread (a w : Nat) (hw : a + w ≤ 32) : readLE s.entry a w = readLE t.entry a w :=
    readLE_congr fun j hj => h.entry (a + j) (by omega)
  simp only [Slot.dirent, makeDirent, h.name, h.entry 11 (by decide), hread 28 4 (by decide),
    hread 20 2 (by decide), hread 26 2 (by decide)]

theorem lfnAddPart_congr (h : ∀ j, j < 32 → e j = e' j) : lfnAddPart acc e = lfnAddPart acc e' := by
  have hlt : ∀ i ∈ List.range 13, partOffset i + 1 < 32 := by decide
  have hchars : ∀ is, (∀ i ∈ is, partOffset i + 1 < 32) →
      lfnParseChars e is = lfnParseChars e' is := by
    intro is his
    induction is with
    | nil => rfl
    | cons i is ih =>
      have hi := his i List.mem_cons_self
      rw [lfnParseChars, lfnParseChars, h _ hi, h (partOffset i) (by omega),
        ih fun j hj => his j (List.mem_cons_of_mem i hj)]
  rw [lfnAddPart, lfnAddPart, lfnParsePart, lfnParsePart, h 0 (by decide), hchars _ hlt]

theorem slotName_congr (h : ∀ j, j < 32 → e j = e' j) : slotName acc e = slotName acc e' := by
  have hfield : ∀ start n, start + n ≤ 32 → shortField e start n = shortField e' start n := by
    intro start n hle
    have hmap : (List.range' start n).map e = (List.range' start n).map e' :=
      List.map_congr_left fun j hj => h j (by rw [List.mem_range'_1] at hj; omega)
    rw [shortField, shortField, hmap]
  rw [slotName, slotName, buildShortName, buildShortName,
    hfield 0 8 (by decide), hfield 8 3 (by decide),
    h 8 (by decide)]

/-- **A search in two clusters with the same bytes.** -/
theorem scanEntries_alike (c : Nat) (name : List UInt8) (acc : LfnAcc) {u u' : Option Slot}
    (h : ∀ j, j < (i + n) * 32 → buf j = buf' j) (hu : Option.Rel Slot.Alike u u') :
    (scanEntries (searchVisit name) c buf i n acc u).1 =
      (scanEntries (searchVisit name) c buf' i n acc u').1 ∧
    (scanEntries (searchVisit name) c buf i n acc u).2.1 =
      (scanEntries (searchVisit name) c buf' i n acc u').2.1 ∧
    Option.Rel Slot.Alike (scanEntries (searchVisit name) c buf i n acc u).2.2
      (scanEntries (searchVisit name) c buf' i n acc u').2.2 := by
  induction n generalizing i acc u u' with
  | zero => exact ⟨rfl, rfl, hu⟩
  | succ n ih =>
    have hlater : ∀ j, j < (i + 1 + n) * 32 → buf j = buf' j := fun j hj => h j (by omega)
    have hentry : ∀ j, j < 32 → buf (i * 32 + j) = buf' (i * 32 + j) := fun j hj => h _ (by omega)
    have h0 : buf (i * 32 + 0) = buf' (i * 32 + 0) := hentry 0 (by decide)
    rw [scanEntries, scanEntries]
    simp only [h0, hentry 11 (by decide)]
    split_ifs with hlast hdel hlfn
    · exact ⟨rfl, rfl, hu⟩
    · exact ih _ hlater hu
    · rw [lfnAddPart_congr hentry]
      exact ih _ hlater hu
    rw [slotName_congr hentry]
    cases hu with
    | some halike => exact ⟨rfl, rfl, .some halike⟩
    | none =>
      simp only [searchVisit]
      split_ifs
      · exact ⟨rfl, rfl, .some ⟨rfl, rfl, rfl, hentry⟩⟩
      · exact ih _ hlater .none

/-- **A search on two disks whose directories have the same bytes.** -/
theorem locate_alike (hfits : d.Fits (clusterToLba v c) v.sectorsPerCluster)
    (hfits' : d'.Fits (clusterToLba v c) v.sectorsPerCluster)
    (hbytes : ∀ j, j < v.bytesPerCluster → clusterBytes v d c j = clusterBytes v d' c j)
    {r : Option Slot}
    {d₁ : Disk 512} (hrun : run (locateEntry v fuel c name) d = some (r, d₁)) :
    d₁ = d ∧ ∃ r', run (locateEntry v fuel c name) d' = some (r', d') ∧
    Option.Rel Slot.Alike r r' := by
  have hslots : ∀ j, j < (0 + v.slots) * 32 →
      d.sector (clusterToLba v c) j = d'.sector (clusterToLba v c) j := by
    intro j hj
    refine hbytes j ?_
    rw [Volume.slots, Volume.bytesPerCluster] at *
    omega
  suffices hloop : ∀ acc (u u' : Option Slot) w d₁, Option.Rel Slot.Alike u u' →
      run (readDirectoryLoop v c (searchVisit name) fuel acc u) d = some (w, d₁) → d₁ = d ∧
      ∃ w', run (readDirectoryLoop v c (searchVisit name) fuel acc u') d' = some (w', d') ∧
        Option.Rel Slot.Alike w.2 w'.2 by
    rw [locateEntry, run_bind] at hrun
    obtain ⟨⟨w, d₂⟩, hw, hret⟩ := Option.bind_eq_some_iff.mp hrun
    obtain ⟨rfl, w', hw', hrel⟩ := hloop [] none none w d₂ .none hw
    cases hret
    refine ⟨rfl, w'.2, ?_, hrel⟩
    rw [locateEntry, readDirectory, run_bind_of hw']
    rfl
  clear hrun
  induction fuel with
  | zero =>
    intro _ _ _ _ _ _ hrun
    cases hrun
  | succ fuel ih =>
    intro acc u u' w d₁ hu hrun
    rw [readDirectoryLoop] at hrun ⊢
    by_cases hvalid : clusterValid c = true
    · rw [if_pos hvalid, run_bind_of run_blockRead] at hrun ⊢
      rw [Disk.read_of_fits hfits] at hrun
      rw [Disk.read_of_fits hfits']
      obtain ⟨hout, hacc, hrel⟩ := scanEntries_alike c name acc hslots hu
      dsimp only at hrun ⊢
      generalize scanEntries (searchVisit name) c (d.sector (clusterToLba v c)) 0 v.slots acc u = q
        at hrun hout hacc hrel
      generalize scanEntries (searchVisit name) c (d'.sector (clusterToLba v c)) 0 v.slots acc u' =
        q'
        at hout hacc hrel ⊢
      obtain ⟨out, acc₁, u₁⟩ := q
      obtain ⟨out', acc₁', u₁'⟩ := q'
      obtain rfl : out = out' := hout
      obtain rfl : acc₁ = acc₁' := hacc
      cases out with
      | more => exact ih acc₁ u₁ u₁' w d₁ hrel hrun
      | last =>
        cases hrun
        exact ⟨rfl, _, rfl, hrel⟩
      | found =>
        cases hrun
        exact ⟨rfl, _, rfl, hrel⟩
    · rw [if_neg hvalid] at hrun ⊢
      cases hrun
      exact ⟨rfl, _, rfl, hu⟩

end Searches

end DyntKernel.Fat
