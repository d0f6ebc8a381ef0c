/-
  File:      DyntKernel/Fat/Geometry.lean
  Subject:   THE AREAS OF A VOLUME: what a write to the table or to a cluster leaves as it is.

  * `Volume.Sized` -- a geometry that is computed without overflow in 32 bits;
  * `clusterToLba_eq`, `clusters_apart`, `entry_before_cluster` -- the table and the clusters lie
    apart from each other;
  * `clusterBytes`, `setCluster` -- the contents of a cluster on a disk, and the disk with one
    cluster written; `entryAt_setCluster`, `clusterBytes_setEntry` -- each leaves the other area
    alone.
-/
import DyntKernel.Fat.Table

namespace DyntKernel.Fat

open Library Prog

variable {v : Volume} {d : Disk 512} {c k x : Nat} {data : Nat → UInt8}

/-! ## 1. The geometry -/

/-- **A geometry that is computed without overflow.** -/
structure Volume.Sized (v : Volume) : Prop where
  tables : v.reservedSectors + v.fatCount * v.fatSize < 2 ^ 32
  entries : v.fatSize * 512 < 2 ^ 32
  data : v.dataStart + (v.total - 2) * v.sectorsPerCluster ≤ 2 ^ 32

namespace Volume.Sized

section

variable (h : v.Sized)
include h

theorem total_eq : v.total = v.fatSize * 128 := by
  have := h.entries
  rw [Volume.total]
  omega

theorem dataStart_eq : v.dataStart = v.reservedSectors + v.fatCount * v.fatSize := by
  have := h.tables
  rw [Volume.dataStart]
  omega

theorem fat_le_data : v.fatStart + v.fatSize ≤ v.dataStart := by
  have hcount : 0 < v.fatCount := Nat.pos_of_ne_zero v.count_pos
  rw [h.dataStart_eq, Volume.fatStart]
  exact Nat.add_le_add_left (Nat.le_mul_of_pos_left v.fatSize hcount) _

/-- The sector of a cluster that has an entry in the table. -/
theorem clusterToLba_eq (hge : 2 ≤ c) (hc : c < v.total) :
    clusterToLba v c = v.dataStart + (c - 2) * v.sectorsPerCluster := by
  have hspc : 0 < v.sectorsPerCluster := Nat.pos_of_ne_zero v.spc_pos
  have hlt : (c - 2) * v.sectorsPerCluster < (v.total - 2) * v.sectorsPerCluster :=
    Nat.mul_lt_mul_of_pos_right (by omega) hspc
  have hbound := h.data
  have htotal : v.total < 2 ^ 30 := Volume.total_lt
  have hsub : (c + 2 ^ 32 - 2) % 2 ^ 32 = c - 2 := by omega
  rw [clusterToLba, hsub, Nat.mod_eq_of_lt (by omega : (c - 2) * v.sectorsPerCluster < 2 ^ 32),
    Nat.mod_eq_of_lt (by omega)]

theorem entryLba_lt (hc : c < v.total) : entryLba v c < v.fatStart + v.fatSize := by
  have htotal := h.total_eq
  rw [entryLba_eq]
  omega

/-- The clusters do not overlap. -/
theorem clusters_apart {c' : Nat} (hge : 2 ≤ c) (hc : c < v.total) (hge' : 2 ≤ c')
    (hc' : c' < v.total)
    (hne : c' ≠ c) : clusterToLba v c' + v.sectorsPerCluster ≤ clusterToLba v c ∨
      clusterToLba v c + v.sectorsPerCluster ≤ clusterToLba v c' := by
  rw [h.clusterToLba_eq hge hc, h.clusterToLba_eq hge' hc']
  have hstep : ∀ a b, 2 ≤ a → a < b →
      v.dataStart + (a - 2) * v.sectorsPerCluster + v.sectorsPerCluster ≤
        v.dataStart + (b - 2) * v.sectorsPerCluster := by
    intro a b ha hlt
    calc v.dataStart + (a - 2) * v.sectorsPerCluster + v.sectorsPerCluster
        = v.dataStart + (a - 2 + 1) * v.sectorsPerCluster := by ring
      _ ≤ v.dataStart + (b - 2) * v.sectorsPerCluster :=
          Nat.add_le_add_left (Nat.mul_le_mul_right _ (by omega)) _
  rcases Nat.lt_or_gt_of_ne hne with hlt | hgt
  · exact .inl (hstep c' c hge' hlt)
  · exact .inr (hstep c c' hge hgt)

/-- The table lies in front of the clusters. -/
theorem entry_before_cluster {k : Nat} (hge : 2 ≤ c) (hc : c < v.total)
    (hk : k < v.total) : entryLba v k < clusterToLba v c := by
  have hlt := h.entryLba_lt hk
  have hdata := h.fat_le_data
  rw [h.clusterToLba_eq hge hc]
  omega

end

end Volume.Sized

theorem smallVolume_sized : smallVolume.Sized := ⟨by decide, by decide, by decide⟩

/-- An empty volume: the cluster 2 is the root directory, all others are free. -/
def emptyDisk : Disk 512 := ⟨64, fun x => if 512 ≤ x ∧ x < 524 then 0xFF else 0⟩

/-! ## 2. Writes -/

/-- The contents of a cluster, its first `v.bytesPerCluster` bytes. -/
def clusterBytes (v : Volume) (d : Disk 512) (c : Nat) : Nat → UInt8 := d.sector (clusterToLba v c)

/-- The disk with the cluster `c` written. -/
def setCluster (v : Volume) (d : Disk 512) (c : Nat) (data : Nat → UInt8) : Disk 512 :=
  d.put (clusterToLba v c) v.sectorsPerCluster data

@[simp] theorem setCluster_fits {l m : Nat} :
    (setCluster v d c data).Fits l m ↔ d.Fits l m := Disk.put_fits

theorem Volume.bytesPerCluster_eq : v.bytesPerCluster = v.sectorsPerCluster * 512 := Nat.mul_comm ..

theorem Volume.bytesPerCluster_pos : 0 < v.bytesPerCluster :=
  Nat.mul_pos (by decide) (Nat.pos_of_ne_zero v.spc_pos)

theorem clusterBytes_setCluster (hx : x < v.bytesPerCluster) :
    clusterBytes v (setCluster v d c data) c x = data x :=
  Disk.put_sector (Volume.bytesPerCluster_eq ▸ hx)

theorem clusterBytes_setCluster_of_ne (h : v.Sized) (hge : 2 ≤ c) (hc : c < v.total) (hge' : 2 ≤ k)
    (hk : k < v.total) (hne : k ≠ c) (hx : x < v.bytesPerCluster) :
    clusterBytes v (setCluster v d c data) k x = clusterBytes v d k x :=
  Disk.put_sector_of_apart (h.clusters_apart hge hc hge' hk hne) (Volume.bytesPerCluster_eq ▸ hx)

theorem entryAt_setCluster (h : v.Sized) (hge : 2 ≤ c) (hc : c < v.total) (hk : k < v.total) :
    entryAt v (setCluster v d c data) k = entryAt v d k := by
  have hbefore := h.entry_before_cluster hge hc hk
  have hread : readLE (setCluster v d c data).bytes (entryAddr v k) 4 =
      readLE d.bytes (entryAddr v k) 4 := by
    refine readLE_congr fun j hj => blit_of_out (.inl ?_)
    have haddr := entryAddr_eq (v := v) (c := k)
    have hoff := entryOff_lt (c := k)
    omega
  simp only [entryAt, hread, setCluster_fits]

theorem clusterBytes_setEntry (h : v.Sized) {value : Nat} (hge : 2 ≤ c) (hc : c < v.total)
    (hk : k < v.total) : clusterBytes v (setEntry v d k value) c x = clusterBytes v d c x := by
  have hbefore := h.entry_before_cluster hge hc hk
  have haddr := entryAddr_eq (v := v) (c := k)
  have hoff := entryOff_lt (c := k)
  simp only [clusterBytes, Disk.sector, setEntry, writeLE]
  exact blit_of_out (.inr (by omega))

end DyntKernel.Fat
