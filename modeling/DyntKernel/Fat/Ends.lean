/-
  File:      DyntKernel/Fat/Ends.lean
  Subject:   WHAT A ROUTINE DOES WHEN WRITES MAY FAIL: results and images, write for write.

  On a disk that shows an image every read succeeds, and a write succeeds unless the device refuses
  it. What a routine returns and the image it leaves are then determined by the image before and by
  the list of refusals.

  * `Ends` -- a program returns, and its result, the image and the rest of the list meet a
    predicate; one rule for each request;
  * `Image.firstFree`, `Ends.allocCluster` -- the cluster an allocation takes;
  * `Linked` -- the clusters of a chain of the table; `ends_freeChain`, `ends_freeOne` -- giving it
    back.
-/
import DyntKernel.Fat.Image

namespace DyntKernel.Fat

open Library Prog List Image

variable {cs : List Nat} {v : Volume} {d d' : Disk 512} {m m' : Image} {N c n x value : Nat}
  {faults : List Bool}

/-! ## 1. Programs that return -/

section Ends

variable {α β : Type} {p : Io α} {f : α → Io β} {Q Q' : α → Image → List Bool → Prop}
  {R : β → Image → List Bool → Prop}

/-- **On every disk of `N` sectors that shows `m`, `p` returns**, and the result, an image the disk
    then shows and the refusals that are left meet `Q`. -/
def Ends (v : Volume) (N : Nat) (faults : List Bool) (p : Io α) (m : Image)
    (Q : α → Image → List Bool → Prop) : Prop :=
  ∀ d, Shows v N d m →
    ∃ a d' rest m', runFaulty faults p d = some ((a, d'), rest) ∧ Shows v N d' m' ∧ Q a m' rest

theorem Ends.pure {a : α} (h : Q a m faults) : Ends v N faults (Pure.pure a) m Q :=
  fun d hd => ⟨a, d, faults, m, rfl, hd, h⟩

theorem Ends.mono (h : Ends v N faults p m Q) (hQ : ∀ a m' rest, Q a m' rest → Q' a m' rest) :
    Ends v N faults p m Q' := by
  intro d hd
  obtain ⟨a, d', rest, m', hrun, hd', hq⟩ := h d hd
  exact ⟨a, d', rest, m', hrun, hd', hQ a m' rest hq⟩

theorem Ends.bind (hp : Ends v N faults p m Q)
    (hf : ∀ a m' rest, Q a m' rest → Ends v N rest (f a) m' R) : Ends v N faults (p >>= f) m R := by
  intro d hd
  obtain ⟨a, d', rest, m', hrun, hd', hq⟩ := hp d hd
  obtain ⟨b, d'', rest', m'', hrun', hd'', hr⟩ := hf a m' rest hq d' hd'
  exact ⟨b, d'', rest', m'', (runFaulty_bind_of hrun).trans hrun', hd'', hr⟩

/-- On a device that takes everything no refusal is left. -/
theorem Ends.rest (h : Ends v N faults p m Q) :
    Ends v N faults p m (fun a m' rest => Q a m' rest ∧ (faults = [] → rest = [])) := by
  intro d hd
  obtain ⟨a, d', rest, m', hrun, hd', hq⟩ := h d hd
  refine ⟨a, d', rest, m', hrun, hd', hq, ?_⟩
  rintro rfl
  exact (runFaulty_nil.mp hrun).2

/-- What is known about a result that is given. -/
theorem Ends.result {a : α} {rest : List Bool} (h : Ends v N faults p m Q) (hd : Shows v N d m)
    (hrun : runFaulty faults p d = some ((a, d'), rest)) : ∃ m', Shows v N d' m' ∧ Q a m' rest := by
  obtain ⟨a', d'', rest', m', hrun', hd', hq⟩ := h d hd
  rw [hrun] at hrun'
  cases hrun'
  exact ⟨m', hd', hq⟩

/-- A device that takes everything. -/
theorem Ends.result_run {a : α} (h : Ends v N [] p m Q) (hd : Shows v N d m)
    (hrun : run p d = some (a, d')) : ∃ m', Shows v N d' m' ∧ Q a m' [] :=
  h.result hd (runFaulty_nil.mpr ⟨hrun, rfl⟩)

theorem Ends.run (h : Ends v N [] p m Q) (hd : Shows v N d m) :
    ∃ a d' m', run p d = some (a, d') ∧ Shows v N d' m' ∧ Q a m' [] := by
  obtain ⟨a, d', rest, m', hrun, hd', hq⟩ := h d hd
  obtain ⟨hr, rfl⟩ := runFaulty_nil.mp hrun
  exact ⟨a, d', m', hr, hd', hq⟩

end Ends

/-! ## 2. Requests -/

section Requests

variable {α : Type} {Q : α → Image → List Bool → Prop}

theorem readOnly_fatReadEntry : (fatReadEntry v c).ReadOnly := by
  refine ReadOnly.blockRead.bind fun r => ?_
  cases r with
  | none => exact ReadOnly.pure
  | some buf => exact ReadOnly.pure

theorem readOnly_findFree : (findFree v).ReadOnly := by
  have hloop : ∀ n c, (findFreeFrom v c n).ReadOnly := by
    intro n
    induction n with
    | zero => exact fun _ => ReadOnly.pure
    | succ n ih =>
      intro c
      rw [findFreeFrom]
      refine readOnly_fatReadEntry.bind fun r => ?_
      split_ifs
      · exact ReadOnly.pure
      · exact ih (c + 1)
  exact hloop (v.total - 2) 2

theorem Ends.fatReadEntry {f : Nat → Io α} (hc : c < v.total)
    (h : Ends v N faults (f (m.table c)) m Q) :
    Ends v N faults (fatReadEntry v c >>= f) m Q := by
  intro d hd
  have hread : runFaulty faults (Fat.fatReadEntry v c) d = some ((m.table c, d), faults) := by
    rw [← hd.table c hc, Fat.fatReadEntry, runFaulty_blockRead, entryAt, Disk.read]
    split_ifs
    · rw [runFaulty_pure, readLE_sector]
    · rfl
  obtain ⟨a, d', rest, m', hrun, hpost⟩ := h d hd
  exact ⟨a, d', rest, m', (runFaulty_bind_of hread).trans hrun, hpost⟩

theorem runFaulty_fatWriteEntry (hfits : d.Fits (entryLba v c) 1) :
    runFaulty faults (fatWriteEntry v c value) d =
      some ((took faults, if took faults then Fat.setEntry v d c value else d), faults.tail) := by
  rw [Fat.fatWriteEntry, runFaulty_blockRead, Disk.read_of_fits hfits]
  refine (runFaulty_blockWrite hfits).trans ?_
  rw [put_entry, readLE_sector]
  rfl

/-- What an allocation does when no cluster is free. -/
theorem runFaulty_alloc_full (hfull : firstFree v d = 0) :
    runFaulty faults (allocCluster v) d = some ((0, d), faults) := by
  rw [Fat.allocCluster, readOnly_findFree.runFaulty_bind run_findFree, hfull]
  rfl

theorem runFaulty_alloc (hfree : firstFree v d ≠ 0) (htaken : took faults = true) :
    runFaulty faults (allocCluster v) d =
      some ((firstFree v d, Fat.setEntry v d (firstFree v d) eoc), faults.tail) := by
  have hfits : d.Fits (entryLba v (firstFree v d)) 1 :=
    fits_of_entry_zero (firstFree_found hfree).2.2
  rw [Fat.allocCluster, readOnly_findFree.runFaulty_bind run_findFree, takeCluster, if_neg hfree,
    runFaulty_bind_of (runFaulty_fatWriteEntry hfits), htaken]
  rfl

/-- A cluster is read, and the rest of the program depends on it. -/
theorem Ends.readCluster {f : Option (Nat → UInt8) → Io α} (hge : 2 ≤ c) (hc : c < v.total)
    (hh : v.Holds N c) (h : ∀ buf, (∀ j, j < v.bytesPerCluster → buf j = m.data c j) →
      Ends v N faults (f (some buf)) m Q) :
    Ends v N faults (blockRead (clusterToLba v c) v.sectorsPerCluster >>= f) m Q := by
  intro d hd
  obtain ⟨a, d', rest, m', hrun, hpost⟩ := h _ (fun j hj => hd.data c j hge hc hj) d hd
  refine ⟨a, d', rest, m', Eq.trans ?_ hrun, hpost⟩
  show runFaulty faults (f (d.read (clusterToLba v c) v.sectorsPerCluster)) d = _
  rw [Disk.read_of_fits (hd.fits_iff.mpr hh)]
  rfl

/-- A cluster that the device does not have is not written. -/
theorem Ends.writeSlack {f : Bool → Io α} {data : Nat → UInt8} (hh : ¬ v.Holds N c)
    (h : Ends v N faults.tail (f false) m Q) :
    Ends v N faults (blockWrite .data (clusterToLba v c) v.sectorsPerCluster data >>= f) m Q := by
  intro d hd
  obtain ⟨a, d', rest, m', hrun, hpost⟩ := h d hd
  refine ⟨a, d', rest, m', (runFaulty_bind_of (runFaulty_blockWrite_off ?_)).trans hrun, hpost⟩
  exact fun hfits => hh (hd.fits_iff.mp hfits)

variable (hv : v.Sized)

include hv

/-- A cluster is written, unless the device refuses it. -/
theorem Ends.writeCluster {f : Bool → Io α} {data : Nat → UInt8} (hge : 2 ≤ c) (hc : c < v.total)
    (hh : v.Holds N c)
    (h : Ends v N faults.tail (f (took faults)) (if took faults then m.setData c data else m) Q) :
    Ends v N faults (blockWrite .data (clusterToLba v c) v.sectorsPerCluster data >>= f) m Q := by
  intro d hd
  have hshows : Shows v N (if took faults then setCluster v d c data else d)
      (if took faults then m.setData c data else m) := by
    split_ifs
    · exact hd.setCluster hv hge hc
    · exact hd
  obtain ⟨a, d', rest, m', hrun, hpost⟩ := h _ hshows
  exact ⟨a, d', rest, m',
    (runFaulty_bind_of (runFaulty_blockWrite (hd.fits_iff.mpr hh))).trans hrun, hpost⟩

/-- An entry of the table is written, unless the device refuses it. -/
theorem Ends.fatWriteEntry {f : Bool → Io α} (hc : c < v.total)
    (h : Ends v N faults.tail (f (took faults))
      (if took faults then m.setLink c (value &&& 0x0FFFFFFF) else m) Q) :
    Ends v N faults (fatWriteEntry v c value >>= f) m Q := by
  intro d hd
  have hshows : Shows v N (if took faults then Fat.setEntry v d c value else d)
      (if took faults then m.setLink c (value &&& 0x0FFFFFFF) else m) := by
    split_ifs
    · exact hd.setEntry hv hc
    · exact hd
  obtain ⟨a, d', rest, m', hrun, hpost⟩ := h _ hshows
  exact ⟨a, d', rest, m',
    (runFaulty_bind_of (runFaulty_fatWriteEntry (hd.tables.entry_fits hv hc))).trans hrun,
    hpost⟩

theorem ends_writeCluster {data : Nat → UInt8} (hge : 2 ≤ c) (hc : c < v.total) (hh : v.Holds N c) :
    Ends v N faults (blockWrite .data (clusterToLba v c) v.sectorsPerCluster data) m
    (fun ok m' rest =>
      ok = took faults ∧ m' = (if took faults then m.setData c data else m) ∧
      rest = faults.tail) := by
  rw [← bind_pure (blockWrite Area.data (clusterToLba v c) v.sectorsPerCluster data)]
  exact Ends.writeCluster hv hge hc hh (Ends.pure ⟨rfl, rfl, rfl⟩)

end Requests

/-! ## 3. Free clusters -/

/-- The first free cluster of a table, among the `n` from `c` on; 0 when there is none. -/
def Image.freeFrom (m : Image) (c n : Nat) : Nat :=
  ((List.range' c n).find? fun x => m.table x = 0).getD 0

/-- **The cluster that `fat32_find_free` finds.** -/
def Image.firstFree (v : Volume) (m : Image) : Nat := m.freeFrom 2 (v.total - 2)

theorem Image.freeFrom_succ : m.freeFrom c (n + 1) = if m.table c = 0 then c
    else m.freeFrom (c + 1) n :=
  find_zero_succ

theorem Image.firstFree_spec (h : m.firstFree v ≠ 0) :
    (2 ≤ m.firstFree v ∧ m.firstFree v < v.total) ∧ m.table (m.firstFree v) = 0 := by
  obtain ⟨hge, hlt, hzero, -⟩ := find_zero (r := m.firstFree v) rfl h
  exact ⟨⟨hge, by omega⟩, hzero⟩

/-- The table is full. -/
theorem Image.firstFree_zero (h : m.firstFree v = 0) (hge : 2 ≤ c) (hc : c < v.total) :
    m.table c ≠ 0 := by
  rcases Option.getD_eq_iff.mp h with hfind | ⟨hnone, -⟩
  · exact absurd (mem_range'_1.mp (mem_of_find?_eq_some hfind)).1 (by decide)
  · simpa using find?_range'_eq_none.mp hnone c hge (by omega)

theorem Shows.firstFree (h : Shows v N d m) : firstFree v d = m.firstFree v := by
  have hloop : ∀ n c, c + n ≤ v.total ∨ n = 0 → freeFrom v d c n = m.freeFrom c n := by
    intro n
    induction n with
    | zero => exact fun _ _ => rfl
    | succ n ih =>
      intro c hc
      rw [Fat.freeFrom_succ, Image.freeFrom_succ, h.table c (by omega), ih (c + 1) (by omega)]
  exact hloop (v.total - 2) 2 (by omega)

theorem Ends.findFree {α : Type} {f : Nat → Io α} {Q : α → Image → List Bool → Prop}
    (h : Ends v N faults (f (m.firstFree v)) m Q) : Ends v N faults (findFree v >>= f) m Q := by
  have hloop : ∀ n c, c + n ≤ v.total ∨ n = 0 → Ends v N faults (f (m.freeFrom c n)) m Q →
      Ends v N faults (findFreeFrom v c n >>= f) m Q := by
    intro n
    induction n with
    | zero => exact fun c _ h => h
    | succ n ih =>
      intro c hc h
      rw [findFreeFrom, bind_assoc]
      refine Ends.fatReadEntry (by omega) ?_
      rw [Image.freeFrom_succ] at h
      split_ifs at h ⊢
      · exact h
      · exact ih (c + 1) (by omega) h
  exact hloop (v.total - 2) 2 (by omega) h

/-- **An allocation**: the first free cluster is marked as the end of a chain, unless there is none
    or the device refuses. -/
theorem Ends.allocCluster {α : Type} {f : Nat → Io α} {Q : α → Image → List Bool → Prop}
    (hv : v.Sized)
    (hfull : m.firstFree v = 0 → Ends v N faults (f 0) m Q)
    (hrefused : m.firstFree v ≠ 0 → took faults = false → Ends v N faults.tail (f 0) m Q)
    (htaken : m.firstFree v ≠ 0 → took faults = true →
      Ends v N faults.tail (f (m.firstFree v)) (m.setLink (m.firstFree v) eoc) Q) :
    Ends v N faults (allocCluster v >>= f) m Q := by
  rw [Fat.allocCluster, bind_assoc]
  refine Ends.findFree ?_
  by_cases hfree : m.firstFree v = 0
  · rw [takeCluster, if_pos hfree]
    exact hfull hfree
  rw [takeCluster, if_neg hfree, bind_assoc]
  refine Ends.fatWriteEntry hv (firstFree_spec hfree).1.2 ?_
  cases hok : took faults with
  | false => exact hrefused hfree hok
  | true =>
    simp only [if_true, show eoc &&& 0x0FFFFFFF = eoc by decide]
    exact htaken hfree hok

/-! ## 4. Chains -/

theorem linked_iff_chain (hd : Shows v N d m) (hcs : InTable v cs) :
    Linked m.table c cs ↔ Chain v d c cs := by
  rw [chain_iff_linked]
  have hsame : ∀ x ∈ cs, entryAt v d x = m.table x := fun x hx => hd.table x (hcs x hx).2
  exact ⟨fun h => h.congr hsame, fun h => h.congr fun x hx => (hsame x hx).symm⟩

/-- The clusters `cs` are free. -/
def Image.clear (m : Image) (cs : List Nat) : Image :=
  { m with table := fun x => if x ∈ cs then 0 else m.table x }

theorem Image.clear_nil : m.clear [] = m := by
  simp only [Image.clear, not_mem_nil, if_false]

theorem Image.clear_of_mem (h : x ∈ cs) : (m.clear cs).table x = 0 := if_pos h

theorem Image.clear_of_not_mem (h : x ∉ cs) : (m.clear cs).table x = m.table x := if_neg h

theorem Image.clear_cons : (m.setLink c 0).clear cs = m.clear (c :: cs) := by
  simp only [Image.clear, Image.setLink, mem_cons]
  congr 1
  funext x
  by_cases hcs : x ∈ cs
  · rw [if_pos hcs, if_pos (.inr hcs)]
  · rw [if_neg hcs]
    by_cases hxc : x = c
    · rw [if_pos (.inl hxc), hxc, Function.update_self]
    · rw [if_neg (by tauto), Function.update_of_ne hxc]

variable (hv : v.Sized)

include hv

/-- One round of `fat32_free_chain`. -/
theorem ends_freeStep {guard : Nat} {Q : Unit → Image → List Bool → Prop}
    (hvalid : clusterValid c = true)
    (hc : c < v.total) (hrefused : took faults = false → Q () m faults.tail)
    (hlast : took faults = true → (m.table c = c ∨ bad ≤ m.table c) → Q ()
      (m.setLink c 0) faults.tail)
    (hmore : took faults = true → ¬ (m.table c = c ∨ bad ≤ m.table c) →
      Ends v N faults.tail (freeChainLoop v guard (m.table c)) (m.setLink c 0) Q) :
    Ends v N faults (freeChainLoop v (guard + 1) c) m Q := by
  rw [freeChainLoop, if_pos hvalid]
  refine Ends.fatReadEntry hc (Ends.fatWriteEntry hv hc ?_)
  cases hok : took faults with
  | false =>
    rw [if_neg Bool.false_ne_true]
    exact Ends.pure (hrefused hok)
  | true =>
    simp only [if_true, Nat.zero_and]
    split_ifs with hend
    · exact Ends.pure (hlast hok hend)
    · exact hmore hok hend

/-- **A chain is given back**, cluster for cluster up to the guard, when the device takes the
    writes. -/
theorem ends_freeChainLoop (hcs : InTable v cs) (h : Linked m.table c cs)
    (htaken : ∀ k, k < n → k < cs.length → took (faults.drop k) = true) :
    Ends v N faults (freeChainLoop v n c) m (fun _ m' rest =>
      m' = m.clear (cs.take n) ∧ rest = faults.drop (min n cs.length)) := by
  induction cs generalizing c m n faults with
  | nil =>
    have hend : Ends v N faults (pure ()) m (fun _ m' rest => m' = m.clear (List.take n []) ∧
        rest = faults.drop (min n 0)) := by
      refine Ends.pure ⟨?_, by rw [Nat.min_zero, drop_zero]⟩
      rw [take_nil, clear_nil]
    cases n with
    | zero => exact hend
    | succ n =>
      rw [freeChainLoop,
        if_neg (by rw [show clusterValid c = false from h]; exact Bool.false_ne_true)]
      exact hend
  | cons x cs ih =>
    have hnodup := h.nodup
    obtain ⟨rfl, hvalid, hrest⟩ := h
    cases n with
    | zero =>
      refine Ends.pure ⟨?_, by rw [Nat.zero_min, drop_zero]⟩
      rw [take_zero, clear_nil]
    | succ n =>
      have htail (k : Nat) : faults.tail.drop k = faults.drop (k + 1) := by rw [drop_tail]
      have hnow : took faults = true := htaken 0 (Nat.succ_pos _) (Nat.succ_pos _)
      refine ends_freeStep hv hvalid (hcs c mem_cons_self).2 (fun hrefused => ?_) (fun _ hend => ?_)
        fun _ _ => ?_
      · rw [hnow] at hrefused
        cases hrefused
      · -- the last cluster: what follows it is no cluster, or the chain would come back to it
        obtain rfl : cs = [] := by
          cases cs with
          | nil => rfl
          | cons y cs =>
            exfalso
            obtain ⟨hy, hvalid', -⟩ := hrest
            rcases hend with hself | hbad
            · rw [hself] at hy
              exact (nodup_cons.mp hnodup).1 (hy ▸ mem_cons_self)
            · rw [← hy] at hvalid'
              have := (of_decide_eq_true hvalid').2
              omega
        refine ⟨?_, ?_⟩
        · rw [take_succ_cons, take_nil, ← clear_cons, clear_nil]
        · rw [length_singleton, Nat.min_eq_right (Nat.succ_pos n), drop_one]
      have hlater : Linked (m.setLink c 0).table (m.table c) cs :=
        hrest.congr fun y hy => setLink_of_ne fun heq => (nodup_cons.mp hnodup).1 (heq ▸ hy)
      rw [take_succ_cons, ← clear_cons, length_cons, Nat.succ_min_succ, ← htail]
      refine ih (fun y hy => hcs y (mem_cons_of_mem c hy)) hlater fun k hn hk => ?_
      rw [htail]
      exact htaken (k + 1) (Nat.succ_lt_succ hn) (Nat.succ_lt_succ hk)

/-- The clusters of a chain that `fat32_free_chain` gives back: a guard ends its loop. -/
def freed (cs : List Nat) : List Nat := cs.take 0x1000000

theorem ends_freeChain (hcs : InTable v cs) (h : Linked m.table c cs) :
    Ends v N [] (freeChain v c) m (fun _ m' rest => m' = m.clear (freed cs) ∧ rest = []) := by
  refine (ends_freeChainLoop hv hcs h fun k _ _ => ?_).mono fun _ m' rest hpost => ⟨hpost.1, ?_⟩
  · rw [drop_nil]
    rfl
  · rw [hpost.2, drop_nil]

/-- **A single cluster is given back**, unless the device refuses. -/
theorem ends_freeOne (hvalid : clusterValid c = true) (hc : c < v.total) (hend : bad ≤ m.table c) :
    Ends v N faults (freeChain v c) m (fun _ m' rest =>
      m' = (if took faults then m.setLink c 0 else m) ∧ rest = faults.tail) := by
  refine ends_freeStep hv hvalid hc (fun hrefused => ?_) (fun htaken _ => ?_) fun _ hnot => ?_
  · exact ⟨by rw [hrefused]; rfl, rfl⟩
  · exact ⟨by rw [htaken]; rfl, rfl⟩
  · exact absurd (.inr hend) hnot

end DyntKernel.Fat
