/-
  File:      DyntKernel/Fat/Store.lean
  Subject:   THE CLUSTERS OF A NEW FILE (fs/fat32.c, the loop of fat32_write_file).

  The loop takes one cluster after the other, links it behind the last one and writes its piece of
  the buffer. It ends with a chain of clusters that were free, or when no cluster is free any more,
  or at a cluster that the device does not have, and then gives back what it took.

  * `freeClusters`, `heldClusters` -- the free clusters of a table, and those of them on the device;
  * `Stored` -- the chain so far, its contents, and everything else as before;
  * `ends_storeLoop` -- the loop: all clusters, or as many as were free, or none.
-/
import DyntKernel.Fat.FreeSlots
import Mathlib.Data.Finset.Card

namespace DyntKernel.Fat

open Library Prog List Image

variable {v : Volume} {d : Disk 512} {m m₀ : Image} {L : List Nat} {t : Nat → Nat}
  {src data : Nat → UInt8}
  {N cl n size x : Nat}

/-! ## 1. Free clusters -/

/-- **The free clusters of a table.** -/
def freeClusters (v : Volume) (t : Nat → Nat) : Finset Nat :=
  (Finset.range v.total).filter fun x => 2 ≤ x ∧ t x = 0

theorem mem_freeClusters : x ∈ freeClusters v t ↔ (2 ≤ x ∧ x < v.total) ∧ t x = 0 := by
  rw [freeClusters, Finset.mem_filter, Finset.mem_range]
  exact ⟨fun h => ⟨⟨h.2.1, h.1⟩, h.2.2⟩, fun h => ⟨h.1.2, h.1.1, h.2⟩⟩

theorem firstFree_zero_iff : m.firstFree v = 0 ↔ freeClusters v m.table = ∅ := by
  rw [Finset.eq_empty_iff_forall_notMem]
  constructor
  · intro h x hx
    obtain ⟨⟨hge, hlt⟩, hfree⟩ := mem_freeClusters.mp hx
    exact firstFree_zero h hge hlt hfree
  · intro h
    by_contra hne
    exact h _ (mem_freeClusters.mpr (firstFree_spec hne))

/-- The free clusters that lie on a device of `N` sectors. -/
def heldClusters (v : Volume) (N : Nat) (t : Nat → Nat) : Finset Nat :=
  (freeClusters v t).filter (v.Holds N)

theorem mem_heldClusters : x ∈ heldClusters v N t ↔ x ∈ freeClusters v t ∧ v.Holds N x := by
  rw [heldClusters, Finset.mem_filter]

/-- The first free cluster is none of the device: no free cluster is. -/
theorem heldClusters_empty (hv : v.Sized) (hfree : m.firstFree v ≠ 0)
    (hoff : ¬ v.Holds N (m.firstFree v)) :
    heldClusters v N m.table = ∅ := by
  obtain ⟨⟨hge, -⟩, -⟩ := firstFree_spec hfree
  obtain ⟨-, -, -, hbefore⟩ := find_zero (r := m.firstFree v) rfl hfree
  rw [Finset.eq_empty_iff_forall_notMem]
  intro x hx
  obtain ⟨hfree', hheld⟩ := mem_heldClusters.mp hx
  obtain ⟨⟨hx, hlt⟩, hzero⟩ := mem_freeClusters.mp hfree'
  have hle : m.firstFree v ≤ x := by
    by_contra hnot
    exact hbefore x hx (by omega) hzero
  exact hoff (hheld.anti hv hge hle hlt)

/-! ## 2. The chain so far -/

/-- The piece of the buffer in the cluster `i` of the file. -/
def storeChunk (v : Volume) (src : Nat → UInt8) (size i : Nat) : Nat → UInt8 :=
  blit (fun _ => 0) 0 (min v.bytesPerCluster (size - i * v.bytesPerCluster))
    fun j => src (i * v.bytesPerCluster + j)

/-- **The clusters `L` hold the first pieces of the buffer**, and everything else is as in `m₀`. -/
structure Stored (v : Volume) (src : Nat → UInt8) (size : Nat) (m₀ : Image) (L : List Nat)
    (m : Image) : Prop where
  linked : Linked m.table (L.headD 0) L
  range : InTable v L
  fresh : ∀ x ∈ L, m₀.table x = 0
  used : ∀ x ∈ L, m.table x ≠ 0
  table : ∀ x, x ∉ L → m.table x = m₀.table x
  data : ∀ x, x ∉ L → m.data x = m₀.data x
  chunks : ∀ j x, L[j]? = some x → m.data x = storeChunk v src size j

theorem stored_nil : Stored v src size m [] m where
  linked := (rfl : clusterValid 0 = false)
  range := fun _ hx => absurd hx not_mem_nil
  fresh := fun _ hx => absurd hx not_mem_nil
  used := fun _ hx => absurd hx not_mem_nil
  table := fun _ _ => rfl
  data := fun _ _ => rfl
  chunks := fun _ _ hx => by cases hx

/-- The cluster `cl` is taken, linked behind `L` and written. -/
def Image.append (m : Image) (L : List Nat) (cl : Nat) (data : Nat → UInt8) : Image :=
  (if L = [] then m.setLink cl eoc
    else (m.setLink cl eoc).setLink (L.getLastD 0) cl).setData cl data

namespace Stored

variable (h : Stored v src size m₀ L m)

include h

/-- The free clusters are those of before without the ones taken. -/
theorem freeClusters : freeClusters v m.table = freeClusters v m₀.table \ L.toFinset := by
  ext x
  rw [Finset.mem_sdiff, mem_toFinset, mem_freeClusters, mem_freeClusters]
  by_cases hx : x ∈ L
  · exact ⟨fun hfree => absurd hfree.2 (h.used x hx), fun hfree => absurd hx hfree.2⟩
  · rw [h.table x hx]
    exact ⟨fun hfree => ⟨hfree, hx⟩, fun hfree => hfree.1⟩

theorem card :
    (Fat.freeClusters v m.table).card + L.length = (Fat.freeClusters v m₀.table).card := by
  have hsub : L.toFinset ⊆ Fat.freeClusters v m₀.table := fun x hx =>
    mem_freeClusters.mpr ⟨h.range x (mem_toFinset.mp hx), h.fresh x (mem_toFinset.mp hx)⟩
  have hcard := Finset.card_le_card hsub
  rw [toFinset_card_of_nodup h.linked.nodup] at hcard
  rw [h.freeClusters, Finset.card_sdiff_of_subset hsub, toFinset_card_of_nodup h.linked.nodup]
  omega

theorem card_held (hheld : ∀ x ∈ L, v.Holds N x) :
    (heldClusters v N m.table).card + L.length = (heldClusters v N m₀.table).card := by
  have hsub : L.toFinset ⊆ heldClusters v N m₀.table := fun x hx => mem_heldClusters.mpr
    ⟨mem_freeClusters.mpr ⟨h.range x (mem_toFinset.mp hx), h.fresh x (mem_toFinset.mp hx)⟩,
      hheld x (mem_toFinset.mp hx)⟩
  have hcard := Finset.card_le_card hsub
  rw [toFinset_card_of_nodup h.linked.nodup] at hcard
  have heq : heldClusters v N m.table = heldClusters v N m₀.table \ L.toFinset := by
    ext x
    simp only [Finset.mem_sdiff, mem_heldClusters, h.freeClusters]
    tauto
  rw [heq, Finset.card_sdiff_of_subset hsub, toFinset_card_of_nodup h.linked.nodup]
  omega

/-- A cluster that is free now was free before, and is none of the chain. -/
theorem free_fresh (hfree : m.table cl = 0) : cl ∉ L ∧ m₀.table cl = 0 := by
  have hnot : cl ∉ L := fun hmem => h.used cl hmem hfree
  exact ⟨hnot, (h.table cl hnot).symm.trans hfree⟩

theorem headD_ne (hne : L ≠ []) : L.headD 0 ≠ 0 := by
  cases L with
  | nil => exact absurd rfl hne
  | cons x L =>
    have hx := (h.range x mem_cons_self).1
    rw [headD_cons]
    omega

/-- **One more cluster.** -/
theorem append (hbad : v.total ≤ bad) (hcl : 2 ≤ cl ∧ cl < v.total) (hfree : m.table cl = 0) :
    Stored v src size m₀ (L ++ [cl]) (m.append L cl (storeChunk v src size L.length)) := by
  obtain ⟨hnot, hzero⟩ := h.free_fresh hfree
  have hvalid : clusterValid cl = true := clusterValid_of hcl.1 (by omega)
  have hmem {x : Nat} : x ∈ L ++ [cl] ↔ x ∈ L ∨ x = cl := by rw [mem_append, mem_singleton]
  have hlastL : L ≠ [] → L.getLastD 0 ∈ L := fun hne => (h.linked.getLastD_end hne).1
  have htable {x : Nat} (hx : x ≠ cl) (hlast : L ≠ [] → x ≠ L.getLastD 0) :
      (m.append L cl (storeChunk v src size L.length)).table x = m.table x := by
    rw [Image.append, setData_table]
    split_ifs with hnil
    · exact setLink_of_ne hx
    · rw [setLink_of_ne (hlast hnil), setLink_of_ne hx]
  have hnew : (m.append L cl (storeChunk v src size L.length)).table cl = eoc := by
    rw [Image.append, setData_table]
    split_ifs with hnil
    · exact setLink_self
    · rw [setLink_of_ne fun heq : cl = L.getLastD 0 => hnot (heq ▸ hlastL hnil), setLink_self]
  have hlink (hne : L ≠ []) : (m.append L cl (storeChunk v src size L.length)).table
      (L.getLastD 0) = cl := by
    rw [Image.append, if_neg hne, setData_table, setLink_self]
  have hdata {x : Nat} (hx : x ≠ cl) : (m.append L cl (storeChunk v src size L.length)).data x =
      m.data x := by
    rw [Image.append, setData_of_ne hx]
    split_ifs <;> rfl
  refine ⟨?_, fun x hx => ?_, fun x hx => ?_, fun x hx => ?_, fun x hx =>
    ?_, fun x hx => ?_, fun j x hx => ?_⟩
  · have hend :
        clusterValid ((m.append L cl (storeChunk v src size L.length)).table cl) = false := by
      rw [hnew]
      decide
    cases L with
    | nil => exact ⟨rfl, hvalid, hend⟩
    | cons y L =>
      have hne := cons_ne_nil y L
      refine h.linked.snoc hne (fun x hx hxl => htable (fun heq => hnot (heq ▸ hx)) fun _ =>
        hxl) (hlink hne)
        hvalid hend
  · rcases hmem.mp hx with hx | rfl
    · exact h.range x hx
    · exact hcl
  · rcases hmem.mp hx with hx | rfl
    · exact h.fresh x hx
    · exact hzero
  · rcases hmem.mp hx with hx | rfl
    · by_cases hlast : x = L.getLastD 0
      · rw [hlast, hlink (ne_nil_of_mem hx)]
        omega
      · rw [htable (fun heq => hnot (heq ▸ hx)) fun _ => hlast]
        exact h.used x hx
    · rw [hnew]
      decide
  · rw [hmem, not_or] at hx
    rw [htable hx.2 fun hne heq => hx.1 (heq ▸ hlastL hne)]
    exact h.table x hx.1
  · rw [hmem, not_or] at hx
    rw [hdata hx.2]
    exact h.data x hx.1
  by_cases hj : j < L.length
  · rw [List.getElem?_append_left hj] at hx
    rw [hdata fun heq => hnot (heq ▸ List.mem_of_getElem? hx)]
    exact h.chunks j x hx
  · obtain ⟨hlt, hget⟩ := List.getElem?_eq_some_iff.mp hx
    rw [length_append, length_singleton] at hlt
    obtain rfl : j = L.length := by omega
    rw [getElem_concat_length rfl] at hget
    rw [← hget, Image.append, setData_self]

end Stored

/-! ## 3. The loop -/

/-- The table is as in `m₀`, and so are the clusters that are used in it. -/
structure TakenBack (v : Volume) (m₀ m : Image) : Prop where
  table : SameTable v m₀ m
  data : ∀ x, m₀.table x ≠ 0 → m.data x = m₀.data x

/-- A chain is given back. -/
theorem Stored.takenBack (h : Stored v src size m₀ L m) (hlen : L.length ≤ 0x1000000) {m' : Image}
    (htable : m'.table = m.table) (hdata : ∀ x, x ∉ L → m'.data x = m.data x) :
    TakenBack v m₀ (m'.clear (freed L)) := by
  have hfreed : freed L = L := take_of_length_le hlen
  rw [hfreed]
  constructor
  · intro x _
    by_cases hx : x ∈ L
    · rw [clear_of_mem hx, h.fresh x hx]
    · rw [clear_of_not_mem hx, htable, h.table x hx]
  · intro x hused
    have hx : x ∉ L := fun hmem => hused (h.fresh x hmem)
    exact (hdata x hx).trans (h.data x hx)

/-- What the loop returns: all the pieces are stored, or no cluster is left, or the next one is none
    of the device and everything is taken back. -/
inductive StoreResult (v : Volume) (N : Nat) (src : Nat → UInt8) (size : Nat)
    (m₀ : Image) (n : Nat) :
    Option Nat → Image → Prop
  | all (L : List Nat) (m : Image) (h : Stored v src size m₀ L m) (hheld : ∀ x ∈ L, v.Holds N x)
      (hlen : L.length = n) : StoreResult v N src size m₀ n (some (L.headD 0)) m
  | full (L : List Nat) (m : Image) (h : Stored v src size m₀ L m) (hheld : ∀ x ∈ L, v.Holds N x)
      (hcard : L.length = (freeClusters v m₀.table).card) (hlt : L.length < n) :
      StoreResult v N src size m₀ n none m
  | back (m : Image) (h : TakenBack v m₀ m) (hlt : (heldClusters v N m₀.table).card < n)
      (hslack : (heldClusters v N m₀.table).card < (freeClusters v m₀.table).card) :
      StoreResult v N src size m₀ n none m

/-- The cluster `cl` is none of the device: its piece is not written, and the chain is given
    back. -/
theorem ends_storeOff (hv : v.Sized) (hbad : v.total ≤ bad) (h : Stored v src size m₀ L m)
    (hheld : ∀ x ∈ L, v.Holds N x) (hfree : m.firstFree v ≠ 0) (hoff : ¬ v.Holds N (m.firstFree v))
    (hn : L.length < n) (hguard : n ≤ 0x1000000) {m' : Image}
    (htable : m'.table = (m.append L (m.firstFree v) (storeChunk v src size L.length)).table)
    (hdata : m'.data = m.data) :
    Ends v N [] (do freeChain v ((L ++ [m.firstFree v]).headD 0); pure none) m' (fun r m'' rest =>
      rest = [] ∧ StoreResult v N src size m₀ n r m'') := by
  obtain ⟨hcl, hzero⟩ := firstFree_spec hfree
  have hnext := h.append hbad hcl hzero
  refine (ends_freeChain hv hnext.range (htable ▸ hnext.linked)).bind fun _ m'' rest hpost => ?_
  obtain ⟨rfl, rfl⟩ := hpost
  have hcard := h.card_held hheld
  rw [heldClusters_empty hv hfree hoff, Finset.card_empty, Nat.zero_add] at hcard
  have hsmall := Finset.card_pos.mpr ⟨_, mem_freeClusters.mpr ⟨hcl, hzero⟩⟩
  have hall := h.card
  refine Ends.pure ⟨rfl, .back _ (hnext.takenBack ?_ htable fun x hx => ?_) (by omega) (by omega)⟩
  · rw [length_append, length_singleton]
    omega
  · rw [mem_append, mem_singleton, not_or] at hx
    rw [hdata, Image.append, setData_of_ne hx.2]
    split_ifs <;> rfl

/-- **The loop of `fat32_write_file`**, on a device that takes every write. -/
theorem ends_storeLoop (hv : v.Sized) (hbad : v.total ≤ bad) (h : Stored v src size m₀ L m)
    (hheld : ∀ x ∈ L, v.Holds N x) (hguard : L.length + n ≤ 0x1000000) :
    Ends v N [] (storeLoop v src size n L.length (L.headD 0) (L.getLastD 0)) m (fun r m' rest =>
      rest = [] ∧ StoreResult v N src size m₀ (L.length + n) r m') := by
  induction n generalizing L m with
  | zero => exact Ends.pure ⟨rfl, .all L m h hheld rfl⟩
  | succ n ih =>
    rw [storeLoop]
    refine Ends.allocCluster hv (fun hfull => ?_)
      (fun _ hrefused => by cases hrefused) fun hfree _ => ?_
    · have hcard := h.card
      rw [firstFree_zero_iff.mp hfull, Finset.card_empty, Nat.zero_add] at hcard
      exact Ends.pure ⟨rfl, .full L m h hheld hcard (by omega)⟩
    have hoff := ends_storeOff (n := L.length + (n + 1)) hv hbad h hheld hfree
    obtain ⟨hcl, hzero⟩ := firstFree_spec hfree
    generalize m.firstFree v = cl at hfree hcl hzero hoff ⊢
    have hnext (hh : v.Holds N cl) := ih (h.append hbad hcl hzero) (fun x hx => by
      rcases mem_append.mp hx with hx | hx
      · exact hheld x hx
      · rw [mem_singleton.mp hx]
        exact hh) (by rw [length_append, length_singleton]; omega)
    rw [length_append, length_singleton, Nat.add_assoc, Nat.add_comm 1 n, getLastD_concat] at hnext
    rw [if_neg hfree, linkCluster]
    rw [Image.append] at hnext hoff
    by_cases hnil : L = []
    · subst hnil
      rw [headD_nil, if_pos rfl, pure_bind, if_pos rfl]
      simp only [if_true]
      by_cases hh : v.Holds N cl
      · exact Ends.writeCluster hv hcl.1 hcl.2 hh (hnext hh)
      · exact Ends.writeSlack hh (hoff hh (by omega) hguard rfl rfl)
    rw [if_neg (h.headD_ne hnil)]
    have hlast := (h.linked.getLastD_end (x := 0) hnil).1
    have hhead : (L ++ [cl]).headD 0 = L.headD 0 := by
      cases L with
      | nil => exact absurd rfl hnil
      | cons y L => rfl
    rw [hhead, if_neg hnil] at hnext hoff
    refine Ends.fatWriteEntry hv (h.range _ hlast).2 ?_
    rw [mask_cluster hbad hcl.2]
    rw [tail_nil, show took [] = true from rfl, if_pos rfl, if_pos rfl, if_neg (h.headD_ne hnil)]
    by_cases hh : v.Holds N cl
    · exact Ends.writeCluster hv hcl.1 hcl.2 hh (hnext hh)
    · exact Ends.writeSlack hh (hoff hh (by omega) hguard rfl rfl)

end DyntKernel.Fat
