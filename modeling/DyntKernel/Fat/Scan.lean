/-
  File:      DyntKernel/Fat/Scan.lean
  Subject:   WHICH ENTRIES THE SCAN OF A DIRECTORY VISITS (fs/fat32.c, read_directory).

  The outer loop is written for a chain of clusters, but nothing in it goes to the next one.

  * `VisitsChain` -- the scan comes to an end and has visited the entries of the whole chain;
  * `EndsInFirst` -- the first cluster has an end mark, or the callback accepts one of its entries;
  * `read_directory_iff` -- these are the same; `full_cluster_hangs` -- a directory that fills its
    only cluster is scanned for ever.
-/
import DyntKernel.Fat.Directory

namespace DyntKernel.Fat

open Library Prog List

variable {σ : Type} {v : Volume} {d : Disk 512} {c fuel : Nat} {acc : LfnAcc}
  {visit : Slot → σ → Bool × σ} {u : σ} {l : List Slot} {cs : List Nat}

/-! ## 1. The calls of the callback -/

/-- The callback with a record of its calls. -/
def recorded (visit : Slot → σ → Bool × σ) (s : Slot) (u : σ × List Slot) : Bool × σ × List Slot :=
  ((visit s u.1).1, (visit s u.1).2, u.2 ++ [s])

/-- **The scan comes to an end and has called the callback on the entries of the directory, in their
    order, up to the first one it accepts.** -/
def VisitsChain (v : Volume) (d : Disk 512) (dirCluster : Nat) (cs : List Nat)
    (visit : Slot → σ → Bool × σ) (u : σ) : Prop :=
  ∃ fuel, run (readDirectory v fuel dirCluster (recorded visit) (u, [])) d =
    some (visitAll (recorded visit) (chainSlots v d cs []) (u, []), d)

/-- The scan ends in the first cluster: it has an end mark, or the callback accepts one of its
    entries. -/
def EndsInFirst (v : Volume) (d : Disk 512) (cluster : Nat) (visit : Slot → σ → Bool × σ) (u : σ) :
    Prop :=
  (∃ k, k < v.slots ∧ d.sector (clusterToLba v cluster) (k * 32) = 0) ∨
    (visitAll visit (diskSlots v d cluster []).1 u).1 = true

theorem visitAll_recorded_fst {tr : List Slot} :
    (visitAll (recorded visit) l (u, tr)).1 = (visitAll visit l u).1 := by
  induction l generalizing u tr with
  | nil => rfl
  | cons s l ih =>
    cases hs : (visit s u).1 with
    | true =>
      rw [visitAll_cons_of_true hs,
        visitAll_cons_of_true (show (recorded visit s (u, tr)).1 = true from hs)]
    | false =>
      rw [visitAll_cons_of_false hs,
        visitAll_cons_of_false (show (recorded visit s (u, tr)).1 = false from hs)]
      exact ih

/-- The calls are entries of the list, and there is one if the callback accepts. -/
theorem visitAll_record (visit : Slot → σ → Bool × σ) (l : List Slot) (u : σ) (tr : List Slot) :
    ∃ t, (visitAll (recorded visit) l (u, tr)).2.2 = tr ++ t ∧
    (∀ s ∈ t, s ∈ l) ∧ ((visitAll (recorded visit) l (u, tr)).1 = true → t ≠ []) := by
  induction l generalizing u tr with
  | nil => exact ⟨[], (append_nil tr).symm, fun s hs => hs, nofun⟩
  | cons s l ih =>
    cases hs : (recorded visit s (u, tr)).1 with
    | true =>
      rw [visitAll_cons_of_true hs]
      exact ⟨[s], rfl, fun x hx => mem_singleton.mp hx ▸ mem_cons_self,
        fun _ => cons_ne_nil s []⟩
    | false =>
      rw [visitAll_cons_of_false hs]
      obtain ⟨t, htr, hmem, -⟩ := ih (visit s u).2 (tr ++ [s])
      refine ⟨s :: t, ?_, fun x hx => ?_, fun _ => cons_ne_nil s t⟩
      · rw [append_assoc] at htr
        exact htr
      · rcases mem_cons.mp hx with rfl | hx
        · exact mem_cons_self
        · exact mem_cons_of_mem s (hmem x hx)

/-! ## 2. The scan -/

/-- In a cluster without an end mark the scan stays: if it is left at all, then by a call on one of
    its entries. -/
theorem loop_stays (hvalid : clusterValid c = true)
    (hfits : d.Fits (clusterToLba v c) v.sectorsPerCluster)
    (hend : ¬ ∃ k, k < v.slots ∧ d.sector (clusterToLba v c) (k * 32) = 0) {tr : List Slot}
    {r : (Bool × σ × List Slot) × Disk 512}
    (h : run (readDirectoryLoop v c (recorded visit) fuel acc (u, tr)) d = some r) :
    ∃ t, r.1.2.2 = tr ++ t ∧ t ≠ [] ∧ ∀ s ∈ t, s.cluster = c := by
  induction fuel generalizing acc u tr with
  | zero => cases h
  | succ fuel ih =>
    obtain ⟨t, htr, hmem, hne⟩ := visitAll_record visit (diskSlots v d c acc).1 u tr
    have hcluster : ∀ s ∈ t, s.cluster = c := fun s hs => (mem_clusterSlots (hmem s hs)).1
    rw [run_round hvalid hfits] at h
    cases hfound : (visitAll (recorded visit) (diskSlots v d c acc).1 (u, tr)).1 with
    | true =>
      rw [if_pos hfound] at h
      cases h
      exact ⟨t, htr, hne hfound, hcluster⟩
    | false =>
      rw [if_neg (by rw [hfound]; exact Bool.false_ne_true)] at h
      cases hrest : (diskSlots v d c acc).2 with
      | none => exact absurd (diskSlots_end.mp hrest) hend
      | some acc' =>
        rw [hrest] at h
        obtain ⟨t', htr', hne', hcluster'⟩ := ih h
        rw [htr, append_assoc] at htr'
        refine ⟨t ++ t', htr', fun hnil => hne' (append_eq_nil_iff.mp hnil).2, fun s hs => ?_⟩
        rcases mem_append.mp hs with hs | hs
        · exact hcluster s hs
        · exact hcluster' s hs

/-- A scan that ends in the first cluster visits the entries of the directory. -/
theorem visits_of_ends {rest : List Nat} (hvalid : clusterValid c = true)
    (hfits : d.Fits (clusterToLba v c) v.sectorsPerCluster) (h : EndsInFirst v d c visit u) :
    VisitsChain v d c (c :: rest) visit u := by
  refine ⟨1, ?_⟩
  rw [readDirectory, run_round hvalid hfits, chainSlots]
  cases hfound : (visitAll (recorded visit) (diskSlots v d c []).1 (u, [])).1 with
  | true => rw [if_pos rfl, visitAll_append_of_true hfound]
  | false =>
    rw [if_neg Bool.false_ne_true]
    rw [visitAll_recorded_fst] at hfound
    rcases h with hend | haccept
    · rw [diskSlots_end.mpr hend, append_nil]
    · rw [hfound] at haccept
      cases haccept

/-- A scan that does not end in the first cluster never visits the entries of the directory. -/
theorem not_visits_of_stays {rest : List Nat} (hchain : Chain v d c (c :: rest))
    (hfits : d.Fits (clusterToLba v c) v.sectorsPerCluster) (h : ¬ EndsInFirst v d c visit u) :
    ¬ VisitsChain v d c (c :: rest) visit u := by
  intro ⟨fuel, hrun⟩
  have hvalid : clusterValid c = true := hchain.2.1
  have hend := fun hend => h (.inl hend)
  have hfound : (visitAll (recorded visit) (diskSlots v d c []).1 (u, [])).1 = false := by
    rw [visitAll_recorded_fst]
    exact Bool.eq_false_iff.mpr fun haccept => h (.inr haccept)
  cases fuel with
  | zero => cases hrun
  | succ fuel =>
    cases hrest : (diskSlots v d c []).2 with
    | none => exact hend (diskSlots_end.mp hrest)
    | some acc =>
      rw [readDirectory, run_round hvalid hfits, if_neg (by rw [hfound]; exact Bool.false_ne_true),
        hrest] at hrun
      obtain ⟨t, htr, hne, hcluster⟩ := loop_stays hvalid hfits hend hrun
      rw [chainSlots, visitAll_append_of_false hfound, hrest] at htr
      obtain ⟨t', htr', hmem', -⟩ := visitAll_record visit (chainSlots v d rest acc)
        (visitAll (recorded visit) (diskSlots v d c []).1 (u, [])).2.1
        (visitAll (recorded visit) (diskSlots v d c []).1 (u, [])).2.2
      obtain rfl : t' = t := append_cancel_left (htr'.symm.trans htr)
      obtain ⟨s, hs⟩ := exists_mem_of_ne_nil t' hne
      have hin : c ∈ rest := hcluster s hs ▸ mem_chainSlots (hmem' s hs)
      exact (nodup_cons.mp hchain.nodup).1 hin

/-- **The scan visits the entries of the directory, up to the first one the callback accepts,
    exactly when it ends in the first cluster.** -/
theorem read_directory_iff (hchain : Chain v d c cs)
    (hfits : ∀ x ∈ cs, d.Fits (clusterToLba v x) v.sectorsPerCluster) :
    VisitsChain v d c cs visit u ↔ clusterValid c = false ∨ EndsInFirst v d c visit u := by
  cases cs with
  | nil =>
    have hinvalid : clusterValid c = false := hchain
    refine ⟨fun _ => .inl hinvalid, fun _ => ⟨1, ?_⟩⟩
    rw [readDirectory, readDirectoryLoop, hinvalid]
    rfl
  | cons x rest =>
    obtain rfl : c = x := hchain.1
    have hvalid : clusterValid c = true := hchain.2.1
    have hfirst := hfits c mem_cons_self
    refine ⟨fun hvisits => .inr ?_, fun hor => ?_⟩
    · by_contra hstays
      exact not_visits_of_stays hchain hfirst hstays hvisits
    · rcases hor with hinvalid | hends
      · rw [hvalid] at hinvalid
        cases hinvalid
      · exact visits_of_ends hvalid hfirst hends

/-- A volume whose table is full of end marks, with a directory of `n` live entries. -/
def filledDisk (n : Nat) : Disk 512 :=
  ⟨16, fun x => if x < 1024 then 0xFF else if x < 1024 + n * 32 then 0x41 else 0⟩

theorem filled_chain {n : Nat} (hn : n ∈ [1, 16]) : Chain smallVolume (filledDisk n) 2 [2] := by
  have hend : ∀ n ∈ [1, 16], clusterValid (entryAt smallVolume (filledDisk n) 2) = false := by
    decide +kernel
  exact ⟨rfl, rfl, hend n hn⟩

theorem filled_fits (n : Nat) : ∀ x ∈ [2], (filledDisk n).Fits (clusterToLba smallVolume x)
    smallVolume.sectorsPerCluster := by
  intro x hx
  rw [mem_singleton.mp hx]
  exact ⟨by decide, (by decide : clusterToLba smallVolume 2 < 16),
    (by decide : 1 ≤ 16 - clusterToLba smallVolume 2)⟩

theorem visitAll_const : visitAll (fun _ u => (false, u)) l u = (false, u) := by
  induction l with
  | nil => rfl
  | cons s l ih => exact ih

/-- **A directory that fills its cluster**: a callback that accepts nothing is called for ever. -/
theorem full_cluster_hangs : Chain smallVolume (filledDisk 16) 2 [2] ∧
    ¬ VisitsChain smallVolume (filledDisk 16) 2 [2] (fun _ u => (false, u)) () := by
  refine ⟨filled_chain (by decide), not_visits_of_stays (filled_chain (by decide))
    (filled_fits 16 2 (by decide)) fun hends => ?_⟩
  rcases hends with ⟨k, hk, hzero⟩ | haccept
  · have hlba : clusterToLba smallVolume 2 = 2 := by decide
    have hslots : smallVolume.slots = 16 := by decide
    have hfill : (filledDisk 16).bytes (2 * 512 + k * 32) = 0x41 :=
      (if_neg (by omega)).trans (if_pos (by omega))
    rw [Disk.sector, hlba, hfill] at hzero
    exact absurd hzero (by decide)
  · rw [visitAll_const] at haccept
    cases haccept

theorem read_directory_entry : (chainSlots smallVolume (filledDisk 1) [2] []).length = 1 ∧
    VisitsChain smallVolume (filledDisk 1) 2 [2] (fun _ u => (false, u + 1)) 0 := by
  refine ⟨by decide +kernel, (read_directory_iff (filled_chain (by decide)) (filled_fits 1)).mpr ?_⟩
  exact .inr (.inl ⟨1, by decide, by decide⟩)

end DyntKernel.Fat
