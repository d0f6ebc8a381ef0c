/-
  File:      DyntKernel/Fat/Walks.lean
  Subject:   WALKS OVER ANY TABLE (fs/fat32.c, fat32_read, fat32_read_at, fat32_free_chain).

  Nothing is assumed of the table: the links may run in a circle or out of the volume. What bounds a
  walk is the number of bytes asked for, or the guard of `fat32_free_chain`.

  * `clusterWalk` -- the clusters that a walk comes to, as many as a read asks for;
  * `readAt_eq_drop` -- `fat32_read_at` returns what `fat32_read` returns, without the first bytes;
  * `Visits` -- the clusters of a walk up to the first number that is invalid or was met before;
  * `freeChain_exact` -- `fat32_free_chain` releases exactly those.
-/
import DyntKernel.Fat.Contents
import DyntKernel.Fat.Files
import Mathlib.Data.List.Perm.Subperm

namespace DyntKernel.Fat

open Library Prog List Volume

variable {guard c m n k x size total inCluster : Nat} {seen L : List Nat}
  {e d : Disk 512} {v : Volume}
  {dst : Nat → UInt8}

/-! ## 1. The clusters of a read -/

/-- **The clusters that a walk from `c` comes to**, `n` at most. -/
def clusterWalk (v : Volume) (d : Disk 512) : Nat → Nat → List Nat
  | 0, _ => []
  | n + 1, c => if clusterValid c then c :: clusterWalk v d n (entryAt v d c) else []

theorem clusterWalk_of_valid (h : clusterValid c = true) :
    clusterWalk v d (n + 1) c = c :: clusterWalk v d n (entryAt v d c) :=
  if_pos h

theorem clusterWalk_of_invalid (h : clusterValid c = false) : clusterWalk v d n c = [] := by
  cases n with
  | zero => rfl
  | succ n => rw [clusterWalk, h, if_neg Bool.false_ne_true]

theorem content_cons_of_lt (hx : x < v.bytesPerCluster) :
    content v d (c :: L) x = clusterBytes v d c x := by
  rw [content, Nat.div_eq_of_lt hx, Nat.mod_eq_of_lt hx]
  rfl

theorem content_cons_add : content v d (c :: L) (v.bytesPerCluster + x) = content v d L x := by
  rw [content, content, Nat.add_div_left _ bytesPerCluster_pos, Nat.add_mod_left]
  rfl

theorem content_drop : content v d (L.drop k) x = content v d L (k * v.bytesPerCluster + x) := by
  rw [content, content, Nat.add_comm, Nat.add_mul_div_right _ _ bytesPerCluster_pos,
    Nat.add_mul_mod_self_right,
    List.getD_eq_getElem?_getD, List.getD_eq_getElem?_getD, List.getElem?_drop, Nat.add_comm]

/-- What a loop that had `total` bytes leaves in the buffer when it ends with `t`: behind them the
    bytes of the clusters `L` from the position `start` on. -/
structure Filled (v : Volume) (d : Disk 512) (L : List Nat) (start total t : Nat)
    (dst buf : Nat → UInt8) :
    Prop where
  kept : ∀ x, x < total → buf x = dst x
  bytes : ∀ x, total + x < t → buf (total + x) = content v d L (start + x)

namespace Filled

variable {start t chunk : Nat} {buf data : Nat → UInt8}

theorem stop : Filled v d L start total total dst dst where
  kept := fun _ _ => rfl
  bytes := fun x hx => absurd hx (by omega)

/-- A loop that goes on behind a chunk at the position `start` of the cluster `c`: the rest of the
    bytes stand at `next` in the clusters `L'`. -/
theorem round {next : Nat} {L' : List Nat} (hin : start + chunk ≤ v.bytesPerCluster)
    (hdata : ∀ j, j < chunk → data j = clusterBytes v d c (start + j))
    (hnext : ∀ x, total + chunk + x < t → content v d L' (next + x) = content v d (c :: L)
      (start + (chunk + x)))
    (h : Filled v d L' next (total + chunk) t (blit dst total chunk data) buf) :
    Filled v d (c :: L) start total t dst buf where
  kept := fun x hx => by rw [h.kept x (by omega), blit_of_out (.inl hx)]
  bytes := fun x hx => by
    by_cases hlt : x < chunk
    · rw [h.kept _ (by omega), blit_of_in hlt, hdata x hlt, content_cons_of_lt (by omega)]
    · obtain ⟨y, rfl⟩ := Nat.exists_eq_add_of_le (Nat.le_of_not_lt hlt)
      rw [← Nat.add_assoc, h.bytes y (by omega), hnext y (by omega)]

end Filled

/-- The clusters that a walk comes to can be read. -/
def Fitting (v : Volume) (d : Disk 512) (L : List Nat) : Prop :=
  ∀ c ∈ L, d.Fits (clusterToLba v c) v.sectorsPerCluster

theorem chunkSectors_le {chunk : Nat} (h : chunk ≤ v.bytesPerCluster) :
    chunkSectors v chunk ≤ v.sectorsPerCluster := by
  unfold chunkSectors
  rw [Volume.bytesPerCluster] at h
  split_ifs <;> omega

theorem chunkSectors_pos {chunk : Nat} : 0 < chunkSectors v chunk := by
  have hspc := Nat.pos_of_ne_zero v.spc_pos
  unfold chunkSectors
  split_ifs <;> omega

/-- **The loop of `fat32_read`**, over `m` clusters at most. -/
theorem wholeLoop_run (dst : Nat → UInt8) (hn : size - total ≤ n) (htotal : total ≤ size)
    (hm : size - total ≤ m * v.bytesPerCluster)
    (hm' : m * v.bytesPerCluster < size - total + v.bytesPerCluster)
    (hfits : Fitting v d (clusterWalk v d m c)) :
    ∃ buf, run (wholeLoop v size n c total dst) d =
        some ((min size (total + (clusterWalk v d m c).length * v.bytesPerCluster), buf), d) ∧
      Filled v d (clusterWalk v d m c) 0 total
      (min size (total + (clusterWalk v d m c).length * v.bytesPerCluster)) dst buf := by
  induction n generalizing c total m dst with
  | zero =>
    have hend : min size (total + (clusterWalk v d m c).length * v.bytesPerCluster) = total := by
      omega
    rw [hend]
    exact ⟨dst, rfl, Filled.stop⟩
  | succ n ih =>
    rw [wholeLoop]
    by_cases hgo : clusterValid c = true ∧ total < size
    · obtain ⟨hvalid, hlt⟩ := hgo
      obtain ⟨m, rfl⟩ := Nat.exists_eq_add_one_of_ne_zero (n := m) (by rintro rfl; omega)
      rw [Nat.add_mul] at hm hm'
      rw [clusterWalk_of_valid hvalid] at hfits ⊢
      have hfit := hfits c mem_cons_self
      generalize hchunk : min v.bytesPerCluster (size - total) = chunk
      have hread : d.Fits (clusterToLba v c) (chunkSectors v chunk) := by
        have hle : chunkSectors v chunk ≤ v.sectorsPerCluster := chunkSectors_le (by omega)
        have hone : 0 < chunkSectors v chunk := chunkSectors_pos
        obtain ⟨-, hin, hroom⟩ := hfit
        exact ⟨by omega, hin, by omega⟩
      obtain ⟨buf, hrun, hfilled⟩ := @ih (entryAt v d c) m (total + chunk)
        (blit dst total chunk (d.sector (clusterToLba v c))) (by omega)
        (by omega) (by omega) (by omega)
        fun c' hc' => hfits c' (mem_cons_of_mem c hc')
      rw [if_pos ⟨hvalid, hlt⟩, run_bind_of run_blockRead, Disk.read_of_fits hread]
      rw [run_bind_of run_fatReadEntry, hrun]
      -- a chunk that is no whole cluster is the last one
      have hend : min size
            (total + chunk + (clusterWalk v d m (entryAt v d c)).length * v.bytesPerCluster) =
          min size
            (total + (c :: clusterWalk v d m (entryAt v d c)).length * v.bytesPerCluster) := by
        rw [length_cons, Nat.add_mul]
        omega
      rw [← hend]
      refine ⟨buf, rfl,
        hfilled.round (by omega) (fun j _ => by rw [Nat.zero_add]; rfl) fun x hx => ?_⟩
      have hwhole : chunk = v.bytesPerCluster := by omega
      rw [hwhole, Nat.zero_add, Nat.zero_add, content_cons_add]
    rw [if_neg hgo]
    have hend : min size (total + (clusterWalk v d m c).length * v.bytesPerCluster) = total := by
      by_cases hvalid : clusterValid c = true
      · have : ¬ total < size := fun hlt => hgo ⟨hvalid, hlt⟩
        omega
      · rw [clusterWalk_of_invalid (Bool.eq_false_iff.mpr hvalid), length_nil]
        omega
    rw [hend]
    exact ⟨dst, rfl, Filled.stop⟩

/-- What the loop of `fat32_read_at` leaves: bytes of the clusters `L`, and all that were asked for
    if the clusters can be read. -/
structure ReadOut (v : Volume) (d : Disk 512) (L : List Nat) (start total size : Nat)
    (dst : Nat → UInt8) (t : Nat)
    (buf : Nat → UInt8) : Prop extends Filled v d L start total t dst buf where
  le : t ≤ min size (total + (L.length * v.bytesPerCluster - start))
  all : Fitting v d L → t = min size (total + (L.length * v.bytesPerCluster - start))

/-- **The loop of `fat32_read_at`**, over `m` clusters at most. -/
theorem readLoop_walk (dst : Nat → UInt8) (hvalid : clusterValid c = true)
    (hin : inCluster < v.bytesPerCluster)
    (hn : size - total ≤ n) (htotal : total ≤ size)
    (hm : inCluster + (size - total) ≤ m * v.bytesPerCluster) :
    ∃ t buf, run (readLoop v size n c inCluster total dst) d = some ((t, buf), d) ∧
      ReadOut v d (clusterWalk v d m c) inCluster total size dst t buf := by
  have hpos : 0 < v.bytesPerCluster := bytesPerCluster_pos
  induction n generalizing c inCluster total m dst with
  | zero => exact ⟨total, dst, rfl, Filled.stop, by omega, fun _ => by omega⟩
  | succ n ih =>
    rw [readLoop]
    by_cases hlt : total < size
    · obtain ⟨m, rfl⟩ := Nat.exists_eq_add_one_of_ne_zero (n := m) (by rintro rfl; omega)
      rw [if_pos hlt, run_bind_of run_blockRead]
      by_cases hfit : d.Fits (clusterToLba v c) v.sectorsPerCluster
      · rw [Disk.read_of_fits hfit]
        dsimp only
        generalize hchunk : min (size - total) (v.bytesPerCluster - inCluster) = chunk
        by_cases hfull : inCluster + chunk = v.bytesPerCluster
        · rw [if_pos hfull, run_bind_of run_fatReadEntry, clusterWalk_of_valid hvalid]
          rw [Nat.add_mul] at hm
          by_cases hnext : clusterValid (entryAt v d c) = true
          · rw [if_pos hnext]
            obtain ⟨t, buf, hrun, hout⟩ := @ih (entryAt v d c) m (total + chunk) 0
              (blit dst total chunk fun j => d.sector (clusterToLba v c) (inCluster + j))
              hnext hpos (by omega) (by omega) (by omega)
            have hend : min size (total + chunk +
                  ((clusterWalk v d m (entryAt v d c)).length * v.bytesPerCluster - 0)) =
                min size (total + ((c :: clusterWalk v d m (entryAt v d c)).length *
                  v.bytesPerCluster - inCluster)) := by
              rw [length_cons, Nat.add_mul]
              omega
            refine ⟨t, buf, hrun,
              hout.round (by omega) (fun j _ => rfl) fun x _ => ?_, hend ▸ hout.le,
              fun hfits => hend ▸ hout.all fun c' hc' => hfits c' (mem_cons_of_mem c hc')⟩
            rw [Nat.zero_add, ← Nat.add_assoc, hfull, content_cons_add]
          rw [if_neg hnext, clusterWalk_of_invalid (Bool.eq_false_iff.mpr hnext)]
          have hend : min size (total + ([c].length * v.bytesPerCluster - inCluster)) =
              total + chunk := by
            rw [length_singleton]
            omega
          have hstop :
              Filled v d [] 0 (total + chunk) (total + chunk) (blit dst total chunk fun j =>
              d.sector (clusterToLba v c) (inCluster + j)) _ := Filled.stop
          exact ⟨_, _, rfl, hstop.round (by omega) (fun j _ => rfl) fun x hx =>
            absurd hx (by omega),
            Nat.le_of_eq hend.symm, fun _ => hend.symm⟩
        -- the rest of the cluster is not asked for
        rw [if_neg hfull]
        obtain ⟨t, buf, hrun, hout⟩ := @ih c (m + 1) (total + chunk) (inCluster + chunk)
          (blit dst total chunk fun j => d.sector (clusterToLba v c) (inCluster + j))
          hvalid (by omega) (by omega) (by omega) (by omega)
        rw [clusterWalk_of_valid hvalid] at hout ⊢
        generalize clusterWalk v d m (entryAt v d c) = L at hout ⊢
        have hend :
            min size (total + chunk + ((c :: L).length * v.bytesPerCluster - (inCluster + chunk))) =
              min size (total + ((c :: L).length * v.bytesPerCluster - inCluster)) := by
          rw [length_cons, Nat.add_mul]
          omega
        refine ⟨t, buf, hrun, hout.round (by omega) (fun j _ => rfl) fun x _ => ?_, hend ▸ hout.le,
          fun hfits => hend ▸ hout.all hfits⟩
        rw [Nat.add_assoc]
      · rw [Disk.read_of_not_fits hfit]
        refine ⟨total, dst, rfl, Filled.stop, by omega, fun hfits => absurd (hfits c ?_) hfit⟩
        rw [clusterWalk_of_valid hvalid]
        exact mem_cons_self
    · rw [if_neg hlt]
      exact ⟨total, dst, rfl, Filled.stop, by omega, fun _ => by omega⟩

/-- The walk to the cluster of an offset. -/
theorem skipClusters_walk {prev : Nat} :
    ∃ prev' c', run (skipClusters v k prev c) d = some ((prev', c'), d) ∧
    clusterWalk v d m c' = (clusterWalk v d (k + m) c).drop k := by
  induction k generalizing prev c with
  | zero => exact ⟨prev, c, rfl, by rw [Nat.zero_add, drop_zero]⟩
  | succ k ih =>
    rw [skipClusters]
    by_cases hvalid : clusterValid c = true
    · rw [if_pos hvalid, run_bind_of run_fatReadEntry, Nat.add_right_comm,
        clusterWalk_of_valid hvalid, drop_succ_cons]
      exact ih
    · have hnil :=
        fun n => clusterWalk_of_invalid (v := v) (d := d) (n := n) (Bool.eq_false_iff.mpr hvalid)
      rw [if_neg hvalid, hnil, drop_nil]
      exact ⟨prev, c, rfl, hnil m⟩

/-! ## 2. A read at an offset -/

/-- The bytes that a read of `t` bytes left in the buffer. -/
def received (t : Nat) (buf : Nat → UInt8) : List UInt8 := (List.range t).map buf

theorem received_drop {t t' : Nat} {buf buf' : Nat → UInt8} (ht : t' = t - k)
    (h : ∀ x, x < t' → buf' x = buf (k + x)) :
    received t' buf' = (received t buf).drop k := by
  refine ext_getElem (by simp [received, ht]) fun x hx _ => ?_
  have hlt : x < t' := by simpa [received] using hx
  simp [received, h x hlt]

/-- The clusters that the first `n` bytes take. -/
def clustersFor (v : Volume) (n : Nat) : Nat := (n + v.bytesPerCluster - 1) / v.bytesPerCluster

theorem clustersFor_bounds : n ≤ clustersFor v n * v.bytesPerCluster ∧
    clustersFor v n * v.bytesPerCluster < n + v.bytesPerCluster := by
  have hpos : 0 < v.bytesPerCluster := bytesPerCluster_pos
  have hdiv := Nat.div_add_mod (n + v.bytesPerCluster - 1) v.bytesPerCluster
  have hmod := Nat.mod_lt (n + v.bytesPerCluster - 1) hpos
  rw [Nat.mul_comm] at hdiv
  rw [clustersFor]
  omega

/-- **`fat32_read`**: the bytes of the clusters it comes to. -/
theorem fat32Read_run (dst : Nat → UInt8)
    (hfits : Fitting v d (clusterWalk v d (clustersFor v size) c)) :
    ∃ buf, run (fat32Read v c dst size) d =
        some ((min size ((clusterWalk v d (clustersFor v size) c).length * v.bytesPerCluster), buf),
          d) ∧
      ∀ x, x < min size ((clusterWalk v d (clustersFor v size) c).length * v.bytesPerCluster) →
        buf x = content v d (clusterWalk v d (clustersFor v size) c) x := by
  obtain ⟨hm, hm'⟩ := clustersFor_bounds (v := v) (n := size)
  have hloop := wholeLoop_run dst (Nat.le_refl (size - 0)) (Nat.zero_le size) hm hm' hfits
  rw [Nat.zero_add] at hloop
  obtain ⟨buf, hrun, hfilled⟩ := hloop
  refine ⟨buf, hrun, fun x hx => ?_⟩
  have hbyte := hfilled.bytes x (by rwa [Nat.zero_add])
  rwa [Nat.zero_add] at hbyte

/-- **`fat32_read_at`**: bytes of the clusters it comes to, and all of them if those behind the
    offset can be read. -/
theorem fat32ReadAt_walk (start offset : Nat) (dst : Nat → UInt8) (hn : 0 < n)
    (hL : clusterWalk v d (clustersFor v (offset + n)) start = L) :
    ∃ t buf, run (fat32ReadAt v start offset dst n) d = some ((t, buf), d) ∧
      (∀ x, x < t → buf x = content v d L (offset + x)) ∧
      t ≤ min n (L.length * v.bytesPerCluster - offset) ∧
      (Fitting v d (L.drop (offset / v.bytesPerCluster)) →
        t = min n (L.length * v.bytesPerCluster - offset)) := by
  have hm := (clustersFor_bounds (v := v) (n := offset + n)).1
  have hsplit := Nat.div_add_mod offset v.bytesPerCluster
  have hin := Nat.mod_lt offset (bytesPerCluster_pos : 0 < v.bytesPerCluster)
  rw [Nat.mul_comm] at hsplit
  obtain ⟨m, hM⟩ := Nat.exists_eq_add_of_le (Nat.le_of_lt
    (Nat.lt_of_mul_lt_mul_right (by omega : offset / v.bytesPerCluster * v.bytesPerCluster <
      clustersFor v (offset + n) * v.bytesPerCluster)))
  obtain ⟨prev, c, hskip, hdrop⟩ :=
    skipClusters_walk (v := v) (d := d) (k := offset / v.bytesPerCluster) (m := m)
    (c := start)
  rw [fat32ReadAt, if_neg (Nat.ne_of_gt hn), run_bind_of hskip]
  rw [← hM, hL] at hdrop
  rw [hM, Nat.add_mul] at hm
  have hlen : (clusterWalk v d m c).length * v.bytesPerCluster =
      L.length * v.bytesPerCluster - offset / v.bytesPerCluster * v.bytesPerCluster := by
    rw [hdrop, length_drop, Nat.sub_mul]
  dsimp only
  by_cases hvalid : clusterValid c = true
  · obtain ⟨t, buf, hrun, hout⟩ := readLoop_walk (d := d) dst hvalid hin (Nat.le_refl (n - 0))
      (Nat.zero_le n) (by omega : _ ≤ m * v.bytesPerCluster)
    have hle := hout.le
    rw [Nat.sub_zero] at hrun
    rw [if_pos hvalid, ← hdrop]
    refine ⟨t, buf, hrun, fun x hx => ?_, by omega, fun hfits => by rw [hout.all hfits]; omega⟩
    have hbyte := hout.bytes x (by omega)
    rw [Nat.zero_add] at hbyte
    rw [hbyte, hdrop, content_drop, ← Nat.add_assoc, hsplit]
  · rw [clusterWalk_of_invalid (Bool.eq_false_iff.mpr hvalid), length_nil] at hlen
    rw [if_neg hvalid]
    exact ⟨0, dst, rfl, fun x hx => absurd hx (Nat.not_lt_zero x), Nat.zero_le _, fun _ => by omega⟩

/-- **A read at an offset is a read from the start without its first bytes**, on any table. -/
theorem readAt_eq_drop (v : Volume) (d : Disk 512) (start offset n : Nat) (dst dst' : Nat → UInt8)
    (hsize : offset + n < 2 ^ 32)
    (hfits : Fitting v d (clusterWalk v d (clustersFor v (offset + n)) start)) :
    ∃ t buf t' buf', run (fat32Read v start dst ((offset + n) % 2 ^ 32)) d = some ((t, buf), d) ∧
      run (fat32ReadAt v start offset dst' n) d = some ((t', buf'), d) ∧
      received t' buf' = (received t buf).drop offset := by
  obtain ⟨buf, hrun, hbytes⟩ := fat32Read_run dst hfits
  rw [Nat.mod_eq_of_lt hsize, hrun]
  generalize hL : clusterWalk v d (clustersFor v (offset + n)) start = L at hfits hbytes
  rcases Nat.eq_zero_or_pos n with rfl | hn
  · refine ⟨_, buf, 0, dst', rfl, by rw [fat32ReadAt, if_pos rfl]; rfl, ?_⟩
    exact received_drop (by omega) fun x hx => absurd hx (Nat.not_lt_zero x)
  · obtain ⟨t', buf', hrun', hbytes', -, hall⟩ := fat32ReadAt_walk start offset dst' hn hL
    have ht := hall fun c hc => hfits c (mem_of_mem_drop hc)
    refine ⟨_, buf, t', buf', rfl, hrun', received_drop (by omega) fun x hx => ?_⟩
    rw [hbytes' x hx, hbytes (offset + x) (by omega)]

/-- A disk whose clusters 2 and 3 are linked in a circle. -/
def ringDisk : Disk 512 :=
  ⟨129, fun x => if x = 520 then 3 else if x = 524 then 2 else if 520 < x ∧ x < 528 then 0 else 7⟩

/-- **The second kilobyte of the circle**, once around. -/
theorem readAt_eq_drop_ring : Fitting smallVolume ringDisk (clusterWalk smallVolume ringDisk 5 2) ∧
    ∃ t buf t' buf', run (fat32Read smallVolume 2 (fun _ => 0) ((1000 + 1100) % 2 ^ 32)) ringDisk =
        some ((t, buf), ringDisk) ∧
      run (fat32ReadAt smallVolume 2 1000 (fun _ => 0) 1100) ringDisk =
        some ((t', buf'), ringDisk) ∧
      received t' buf' = (received t buf).drop 1000 := by
  have hfits : Fitting smallVolume ringDisk (clusterWalk smallVolume ringDisk 5 2) := by
    unfold Fitting
    decide
  exact ⟨hfits,
    readAt_eq_drop smallVolume ringDisk 2 1000 1100 (fun _ => 0) (fun _ => 0) (by decide) hfits⟩

/-! ## 3. A chain that is released -/

/-- The word of an entry in the table. -/
def entryWord (v : Volume) (d : Disk 512) (c : Nat) : Nat := readLE d.bytes (entryAddr v c) 4

/-- **The clusters of a walk from `c` up to the first number that is invalid or was met before**;
    those in `seen` were. -/
def Visits (v : Volume) (d : Disk 512) : List Nat → Nat → List Nat → Prop
  | seen, c, [] => clusterValid c = false ∨ c ∈ seen
  | seen, c, x :: L =>
    c = x ∧ clusterValid x = true ∧ x ∉ seen ∧ Visits v d (x :: seen) (entryAt v d x) L

/-- A walk meets every number below `FAT32_BAD` once at most. -/
theorem exists_visits (hseen : seen.Nodup) (hvalid : ∀ x ∈ seen, x < bad)
    (hroom : bad < seen.length + n) : ∃ L, Visits v d seen c L := by
  induction n generalizing seen c with
  | zero =>
    have hsub : seen ⊆ List.range bad := fun x hx => mem_range.mpr (hvalid x hx)
    have hlen := (hseen.subperm hsub).length_le
    rw [length_range] at hlen
    omega
  | succ n ih =>
    by_cases hc : clusterValid c = false ∨ c ∈ seen
    · exact ⟨[], hc⟩
    obtain ⟨hc', hnew⟩ := not_or.mp hc
    rw [Bool.not_eq_false] at hc'
    have hlt := (of_decide_eq_true hc').2
    obtain ⟨L, hL⟩ := ih (c := entryAt v d c) (nodup_cons.mpr ⟨hnew, hseen⟩)
      (forall_mem_cons.mpr ⟨hlt, hvalid⟩) (by rw [length_cons]; omega)
    exact ⟨c :: L, rfl, hc', hnew, hL⟩

theorem Visits.nil_of (h : Visits v d seen c L) (hstop : c ∈ seen ∨ bad ≤ c) : L = [] := by
  cases L with
  | nil => rfl
  | cons x L =>
    obtain ⟨rfl, hvalid, hnew, -⟩ := h
    have hlt := (of_decide_eq_true hvalid).2
    rcases hstop with hseen | hge
    · exact absurd hseen hnew
    · exact absurd hlt (Nat.not_lt.mpr hge)

/-- The disk `e` is the disk `d` with the entries of `seen` set to 0: their upper four bits stay. -/
structure Zeroed (v : Volume) (d : Disk 512) (seen : List Nat) (e : Disk 512) : Prop where
  sectors : e.sectorCount = d.sectorCount
  words : ∀ k, k < 2 ^ 30 → entryWord v e k =
    if k ∈ seen then entryWord v d k &&& 0xF0000000 else entryWord v d k

namespace Zeroed

variable {e : Disk 512} {seen : List Nat}

theorem refl : Zeroed v d [] d where
  sectors := rfl
  words := fun _ _ => (if_neg not_mem_nil).symm

section

variable (h : Zeroed v d seen e)
include h

theorem fits {l m : Nat} : e.Fits l m ↔ d.Fits l m := by
  rw [Disk.Fits, Disk.Fits, h.sectors]

theorem entryAt_new (hc : c < 2 ^ 30) (hnew : c ∉ seen) : entryAt v e c = entryAt v d c := by
  have hword := h.words c hc
  rw [if_neg hnew, entryWord, entryWord] at hword
  simp only [entryAt, h.fits, hword]

theorem entryAt_seen (hc : c < 2 ^ 30) (hseen : c ∈ seen) (hfits : d.Fits (entryLba v c) 1) :
    entryAt v e c = 0 := by
  have hdisj : (0xF0000000 &&& 0x0FFFFFFF : Nat) = 0 := by decide
  have hword := h.words c hc
  rw [if_pos hseen, entryWord] at hword
  rw [entryAt, if_pos (h.fits.mpr hfits), hword, Nat.and_assoc, hdisj, Nat.and_zero]

/-- One entry more. -/
theorem set (hc : c < 2 ^ 30) : Zeroed v d (c :: seen) (setEntry v e c 0) where
  sectors := h.sectors
  words := by
    intro k hk
    by_cases heq : k = c
    · subst heq
      have hold := h.words k hk
      rw [if_pos mem_cons_self, entryWord, setEntry, readLE_writeLE,
        Nat.mod_eq_of_lt newEntry_lt, newEntry,
        Nat.zero_and, Nat.or_zero]
      rw [entryWord] at hold
      rw [hold]
      split_ifs
      · rw [Nat.and_assoc, Nat.and_self]
      · rfl
    have hkeep : entryWord v (setEntry v e c 0) k = entryWord v e k := by
      have hapart : entryAddr v k + 4 ≤ entryAddr v c ∨ entryAddr v c + 4 ≤ entryAddr v k := by
        rw [entryAddr, entryAddr]
        omega
      rw [entryWord, entryWord, setEntry]
      exact readLE_blit_of_disjoint hapart
    rw [hkeep, h.words k hk]
    simp only [mem_cons, heq, false_or]

theorem congr {seen' : List Nat} (hmem : ∀ k, k ∈ seen ↔ k ∈ seen') : Zeroed v d seen' e where
  sectors := h.sectors
  words := fun k hk => by simp only [h.words k hk, hmem]

end

end Zeroed

/-- One round of the loop, at an entry whose sector exists. -/
theorem freeChainLoop_step (hvalid : clusterValid c = true)
    (hfits : e.Fits (entryLba v c) 1) : run (freeChainLoop v (guard + 1) c) e =
      if entryAt v e c = c ∨ bad ≤ entryAt v e c then some ((), setEntry v e c 0)
      else run (freeChainLoop v guard (entryAt v e c)) (setEntry v e c 0) := by
  have hwrite : run (fatWriteEntry v c 0) e = some (true, setEntry v e c 0) := by
    rw [run_fatWriteEntry, if_pos hfits]
  rw [freeChainLoop, if_pos hvalid, run_bind_of run_fatReadEntry, run_bind_of hwrite, if_pos rfl]
  split_ifs <;> rfl

theorem freeChainLoop_invalid (hinvalid : clusterValid c = false) :
    run (freeChainLoop v guard c) e = some ((), e) := by
  cases guard with
  | zero => rfl
  | succ guard => rw [freeChainLoop, hinvalid, if_neg Bool.false_ne_true, run_pure]

/-- **The loop of `fat32_free_chain`**: the entries of the walk are set to 0. -/
theorem freeChainLoop_run (hvisits : Visits v d seen c L)
    (hguard : L.length ≤ guard) (he : Zeroed v d seen e)
    (hfits : ∀ x ∈ seen ++ L, d.Fits (entryLba v x) 1) :
    ∃ d', run (freeChainLoop v guard c) e = some ((), d') ∧ Zeroed v d (seen ++ L) d' := by
  induction L generalizing guard seen c e with
  | nil =>
    rw [append_nil] at hfits ⊢
    by_cases hvalid : clusterValid c = true
    · -- a number that was met: its entry is 0 already, and so is the next number
      have hseen : c ∈ seen := hvisits.resolve_left (Bool.not_eq_false _ ▸ hvalid)
      have hc : c < 2 ^ 30 := Nat.lt_trans (of_decide_eq_true hvalid).2 (by decide)
      cases guard with
      | zero => exact ⟨e, rfl, he⟩
      | succ guard =>
        refine ⟨setEntry v e c 0, ?_, (he.set hc).congr fun k => ?_⟩
        · have hne : ¬ (0 = c ∨ bad ≤ 0) := by
            have := clusterValid_ge hvalid
            have : ¬ bad ≤ 0 := by decide
            omega
          rw [freeChainLoop_step hvalid (he.fits.mpr (hfits c hseen)),
            he.entryAt_seen hc hseen (hfits c hseen),
            if_neg hne]
          exact freeChainLoop_invalid rfl
        · rw [mem_cons, or_iff_right_iff_imp]
          intro heq
          rwa [heq]
    · exact ⟨e, freeChainLoop_invalid (Bool.eq_false_iff.mpr hvalid), he⟩
  | cons x L ih =>
    obtain ⟨rfl, hvalid, hnew, hrest⟩ := hvisits
    have hc : c < 2 ^ 30 := Nat.lt_trans (of_decide_eq_true hvalid).2 (by decide)
    have hfit := hfits c (mem_append_right seen mem_cons_self)
    have hmem : ∀ k, k ∈ c :: seen ++ L ↔ k ∈ seen ++ c :: L := by simp [or_left_comm]
    obtain ⟨guard, rfl⟩ :=
      Nat.exists_eq_add_one_of_ne_zero (n := guard) (by rintro rfl; cases hguard)
    rw [freeChainLoop_step hvalid (he.fits.mpr hfit), he.entryAt_new hc hnew]
    by_cases hstop : entryAt v d c = c ∨ bad ≤ entryAt v d c
    · -- nothing is left of the walk
      have hmet : entryAt v d c ∈ c :: seen ∨ bad ≤ entryAt v d c := by
        rcases hstop with heq | hge
        · rw [heq]
          exact .inl mem_cons_self
        · exact .inr hge
      have hnil : L = [] := hrest.nil_of hmet
      rw [if_pos hstop, hnil]
      exact ⟨setEntry v e c 0, rfl, (he.set hc).congr fun k => by simp [or_comm]⟩
    · rw [if_neg hstop]
      obtain ⟨d', hrun, hd'⟩ := ih hrest (Nat.le_of_succ_le_succ hguard) (he.set hc)
        fun y hy => hfits y ((hmem y).mp hy)
      exact ⟨d', hrun, hd'.congr hmem⟩

theorem freeChainLoop_ends : ∃ d', run (freeChainLoop v guard c) d = some ((), d') := by
  induction guard generalizing c d with
  | zero => exact ⟨d, rfl⟩
  | succ guard ih =>
    by_cases hvalid : clusterValid c = true
    · by_cases hfits : d.Fits (entryLba v c) 1
      · rw [freeChainLoop_step hvalid hfits]
        split_ifs
        · exact ⟨_, rfl⟩
        · exact ih
      · have hwrite : run (fatWriteEntry v c 0) d = some (false, d) := by
          rw [run_fatWriteEntry, if_neg hfits]
        refine ⟨d, ?_⟩
        rw [freeChainLoop, if_pos hvalid, run_bind_of run_fatReadEntry, run_bind_of hwrite,
          if_neg Bool.false_ne_true, run_pure]
    · exact ⟨d, freeChainLoop_invalid (Bool.eq_false_iff.mpr hvalid)⟩

/-- **`fat32_free_chain` on any table**: it returns, and if the walk from `start` is not longer than
    its guard it sets the entries of that walk to 0, and nothing else of the table. -/
theorem freeChain_exact (v : Volume) (d : Disk 512) (start : Nat) :
    (∃ d', run (freeChain v start) d = some ((), d')) ∧ (∃ L, Visits v d [] start L) ∧
    ∀ L, Visits v d [] start L → L.length ≤ 0x1000000 → (∀ c ∈ L, d.Fits (entryLba v c) 1) →
      ∃ d', run (freeChain v start) d = some ((), d') ∧ ∀ k, k < v.total → entryWord v d' k =
          if k ∈ L then entryWord v d k &&& 0xF0000000 else entryWord v d k := by
  refine ⟨freeChainLoop_ends, ?_, fun L hvisits hlen hfits => ?_⟩
  · have hroom : bad < ([] : List Nat).length + (bad + 1) := by
      rw [length_nil]
      omega
    exact exists_visits nodup_nil (fun x hx => absurd hx not_mem_nil) hroom
  · obtain ⟨d', hrun, hd'⟩ := freeChainLoop_run hvisits hlen Zeroed.refl hfits
    exact ⟨d', hrun, fun k hk => hd'.words k (Nat.lt_trans hk total_lt)⟩

/-- **The circle is released**: both entries, once. -/
theorem freeChain_ring : Visits smallVolume ringDisk [] 2 [2, 3] ∧
    ∃ d', run (freeChain smallVolume 2) ringDisk = some ((), d') ∧
      ∀ k, k < smallVolume.total → entryWord smallVolume d' k =
        if k ∈ [2, 3] then entryWord smallVolume ringDisk k &&& 0xF0000000
        else entryWord smallVolume ringDisk k := by
  have hvisits : Visits smallVolume ringDisk [] 2 [2, 3] := by
    refine ⟨rfl, rfl, not_mem_nil, by decide, rfl, by decide, ?_⟩
    exact .inr (by decide)
  exact ⟨hvisits, (freeChain_exact smallVolume ringDisk 2).2.2 _ hvisits (by decide) (by decide)⟩

end DyntKernel.Fat
