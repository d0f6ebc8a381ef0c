/-
  File:      DyntKernel/Fat/WriteAt.lean
  Subject:   A WRITE AT AN OFFSET OF A FILE (fs/fat32.c, fat32_write and fat32_read_at).

  The write goes to the cluster of the offset, link by link, and writes from there on; where the
  chain ends it takes new clusters. A chain that ends before the offset is not filled up: the bytes
  go to the first new cluster.

  * `Progress` -- the invariant of the loop: the bytes written so far stand in the chain from the
    position `base` on;
  * `write_iff` -- what is written is read back at its offset, and nothing else changes, exactly
    when the offset is not beyond the cluster behind the chain.
-/
import DyntKernel.Fat.Walks

namespace DyntKernel.Fat

open Library Prog List Volume

variable {offset inCluster idx c n size base first : Nat} {v : Volume}
  {d d₀ : Disk 512} {cs new L : List Nat}
  {src data : Nat → UInt8} {faults : List Bool}

/-! ## 1. The loop -/

/-- The variables of the loop of `fat32_write`, with the place of `cluster` in the chain and the
    clusters that were taken. -/
structure Position where
  first : Nat
  prev : Nat
  cluster : Nat
  inCluster : Nat
  done : Nat
  idx : Nat
  new : List Nat

/-- The number `cluster` is that of the place `idx` of the chain `L`, and `prev` the one before. -/
structure Cursor (L : List Nat) (prev cluster idx : Nat) : Prop where
  idx_le : idx ≤ L.length
  here : ∀ c, L[idx]? = some c → cluster = c
  atEnd : idx = L.length → clusterValid cluster = false
  before : 0 < idx → L[idx - 1]? = some prev

/-- **The bytes done so far stand in the chain from `base` on, and the others are as they were.** -/
structure Progress (v : Volume) (d₀ : Disk 512) (cs : List Nat) (src : Nat → UInt8) (base : Nat)
    (d : Disk 512) (p : Position) : Prop extends Cursor (cs ++ p.new) p.prev p.cluster p.idx where
  file : FileAt v d₀ cs d p.first p.new
  empty : cs ++ p.new = [] → p.first = 0
  inside : p.inCluster < v.bytesPerCluster
  pos : p.idx * v.bytesPerCluster + p.inCluster = base + p.done
  written : ∀ x, x < p.done → base + x < (cs ++ p.new).length * v.bytesPerCluster ∧
    content v d (cs ++ p.new) (base + x) = src x ∧
    d.Fits (clusterToLba v ((cs ++ p.new).getD ((base + x) / v.bytesPerCluster) 0))
    v.sectorsPerCluster
  kept : ∀ x, x < cs.length * v.bytesPerCluster → x < base ∨ base + p.done ≤ x →
    content v d (cs ++ p.new) x = content v d₀ cs x

theorem chain_zero (h : Chain v d 0 L) : L = [] := by
  cases L with
  | nil => rfl
  | cons y L =>
    obtain ⟨rfl, hvalid, -⟩ := h
    cases hvalid

/-- The entry of a cluster of a chain is the next one. -/
theorem Chain.next {i : Nat} (h : Chain v d first L) (hi : L[i]? = some c) :
    (∀ c', L[i + 1]? = some c' → entryAt v d c = c') ∧
      (i + 1 = L.length → clusterValid (entryAt v d c) = false) := by
  induction L generalizing first i with
  | nil => cases hi
  | cons y L ih =>
    obtain ⟨rfl, -, hrest⟩ := h
    cases i with
    | zero =>
      obtain rfl : first = c := Option.some.inj hi
      cases L with
      | nil => exact ⟨nofun, fun _ => hrest⟩
      | cons z L =>
        exact ⟨fun c' hc' => hrest.1.trans (Option.some.inj hc'), fun hlen => by simp at hlen⟩
    | succ i =>
      obtain ⟨hnext, hend⟩ := ih hrest hi
      exact ⟨hnext, fun hlen => hend (by simpa using hlen)⟩

variable {p : Position}

namespace Progress

/-- The cluster is one of the chain exactly when its number is valid. -/
theorem valid_iff (h : Progress v d₀ cs src base d p) :
    clusterValid p.cluster = true ↔ p.idx < (cs ++ p.new).length := by
  constructor
  · intro hvalid
    refine Nat.lt_of_le_of_ne h.idx_le fun heq => ?_
    rw [h.atEnd heq] at hvalid
    cases hvalid
  · intro hlt
    have hget := List.getElem?_eq_getElem hlt
    rw [h.here _ hget]
    exact h.file.chain.valid (getElem_mem hlt)

theorem get (h : Progress v d₀ cs src base d p) (hvalid : clusterValid p.cluster = true) :
    (cs ++ p.new)[p.idx]? = some p.cluster := by
  have hget := List.getElem?_eq_getElem (h.valid_iff.mp hvalid)
  rw [h.here _ hget, hget]

theorem idx_eq (h : Progress v d₀ cs src base d p) (hvalid : ¬ clusterValid p.cluster = true) :
    p.idx = (cs ++ p.new).length :=
  Nat.le_antisymm h.idx_le (Nat.not_lt.mp (h.valid_iff.not.mp hvalid))

end Progress

/-- No bound on the writes. -/
def Anywhere (_ : Area × Nat × Nat) : Prop := True

theorem anywhere : ∀ w, Anywhere w := fun _ => trivial

theorem alloc_spec : Safe Anywhere (allocCluster v) (fun r d' =>
    r = 0 ∨ (2 ≤ r ∧ r < v.total) ∧ entryAt v d r = 0 ∧ d' = setEntry v d r eoc) d := by
  by_cases hfree : firstFree v d = 0
  · exact Safe.of_run anywhere (run_alloc_full hfree) (.inl rfl)
  · obtain ⟨hge, hlt, hzero⟩ := firstFree_found hfree
    exact Safe.of_run anywhere (run_allocCluster hfree) (.inr ⟨⟨hge, hlt⟩, hzero, rfl⟩)

theorem fatWriteEntry_spec {p value : Nat} : Safe Anywhere (fatWriteEntry v p value) (fun ok d' =>
    ok = true → d.Fits (entryLba v p) 1 ∧ d' = setEntry v d p value) d := by
  by_cases hfits : d.Fits (entryLba v p) 1
  · exact Safe.of_run anywhere (run_fatWriteEntry.trans (if_pos hfits)) fun _ => ⟨hfits, rfl⟩
  · exact Safe.of_run anywhere (run_fatWriteEntry.trans (if_neg hfits)) nofun

namespace Progress

/-- The chain got a cluster behind its end. -/
theorem grown {c' first' : Nat} {d' : Disk 512} (h : Progress v d₀ cs src base d p)
    (hend : p.idx = (cs ++ p.new).length) (hfile : FileAt v d₀ cs d' first' (p.new ++ [c']))
    (hcontent : ∀ x, x < (cs ++ p.new).length * v.bytesPerCluster →
      content v d' (cs ++ p.new) x = content v d (cs ++ p.new) x)
    (hfits : ∀ l m, d'.Fits l m ↔ d.Fits l m) : Progress v d₀ cs src base d'
      { p with first := first', cluster := c', new := p.new ++ [c'] } ∧
      (cs ++ (p.new ++ [c']))[p.idx]? = some c' := by
  have happend : cs ++ (p.new ++ [c']) = cs ++ p.new ++ [c'] := (append_assoc ..).symm
  have hget : (cs ++ (p.new ++ [c']))[p.idx]? = some c' := by
    rw [happend, hend]
    exact List.getElem?_concat_length
  have hold : ∀ x, x < (cs ++ p.new).length * v.bytesPerCluster →
      content v d' (cs ++ (p.new ++ [c'])) x = content v d (cs ++ p.new) x := by
    intro x hx
    rw [happend, content_append hx]
    exact hcontent x hx
  have hlen : (cs ++ (p.new ++ [c'])).length = (cs ++ p.new).length + 1 := by
    rw [happend, length_append, length_singleton]
  refine ⟨⟨⟨?_, ?_, ?_, ?_⟩, hfile, ?_, h.inside, h.pos, ?_, ?_⟩, hget⟩
  · show p.idx ≤ (cs ++ (p.new ++ [c'])).length
    omega
  · intro c hc
    exact Option.some.inj (hget.symm.trans hc)
  · intro heq
    have : p.idx = (cs ++ (p.new ++ [c'])).length := heq
    omega
  · intro hpos
    have hlt : p.idx - 1 < (cs ++ p.new).length := by
      have : 0 < p.idx := hpos
      omega
    show (cs ++ (p.new ++ [c']))[p.idx - 1]? = some p.prev
    rw [happend, List.getElem?_append_left hlt]
    exact h.before hpos
  · intro hnil
    exact absurd (congrArg List.length hnil) (by rw [hlen]; exact Nat.succ_ne_zero _)
  · intro x hx
    obtain ⟨hlt, hbyte, hfit⟩ := h.written x hx
    have hidx : (base + x) / v.bytesPerCluster < (cs ++ p.new).length :=
      (Nat.div_lt_iff_lt_mul bytesPerCluster_pos).mpr hlt
    refine ⟨?_, ?_, ?_⟩
    · show base + x < (cs ++ (p.new ++ [c'])).length * v.bytesPerCluster
      rw [hlen, Nat.add_mul]
      omega
    · exact (hold _ hlt).trans hbyte
    · show d'.Fits (clusterToLba v ((cs ++ (p.new ++ [c'])).getD _ 0)) _
      rw [happend, getD_append _ _ _ _ hidx, hfits]
      exact hfit
  · intro x hx hout
    have hlt : x < (cs ++ p.new).length * v.bytesPerCluster := by
      rw [length_append, Nat.add_mul]
      omega
    exact (hold x hlt).trans (h.kept x hx hout)

section Grows

variable {q : Nat} (h : Progress v d₀ cs src base d p) (hv : v.Sized) (hbad : v.total ≤ bad)
  (hend : p.idx = (cs ++ p.new).length) (hge : 2 ≤ q) (hlt : q < v.total)
  (hfree : entryAt v d q = 0)

include h hv hbad hend hge hlt hfree

/-- The first cluster of a file without clusters. -/
theorem started (hfirst : p.first = 0) : Progress v d₀ cs src base (setEntry v d q eoc)
      { p with first := q, cluster := q, new := p.new ++ [q] } ∧
      (cs ++ (p.new ++ [q]))[p.idx]? = some q := by
  have htaken : entryAt v (setEntry v d q eoc) q = eoc :=
    (entryAt_setEntry (fits_of_entry_zero hfree)).trans (by decide)
  have hnil : cs ++ p.new = [] := chain_zero (hfirst ▸ h.file.chain)
  exact h.grown hend ((h.file.take hv hge hlt hfree).start hnil hge hlt hbad
    (h.file.fresh_of_free hge hlt hfree).2 htaken)
    (fun x hx => content_setEntry hv h.file.inTable hlt hx) fun l m => setEntry_fits

/-- A cluster behind the last one. -/
theorem linked (hfirst : p.first ≠ 0) (hfits : (setEntry v d q eoc).Fits (entryLba v p.prev) 1) :
    Progress v d₀ cs src base (setEntry v (setEntry v d q eoc) p.prev q)
      { p with cluster := q, new := p.new ++ [q] } ∧ (cs ++ (p.new ++ [q]))[p.idx]? = some q := by
  have htaken : entryAt v (setEntry v d q eoc) q = eoc :=
    (entryAt_setEntry (fits_of_entry_zero hfree)).trans (by decide)
  obtain ⟨hnot, hfree₀⟩ := h.file.fresh_of_free hge hlt hfree
  have hne : cs ++ p.new ≠ [] := fun hnil => hfirst (h.empty hnil)
  have hlast : (cs ++ p.new).getLast? = some p.prev := by
    rw [List.getLast?_eq_getElem?, ← hend]
    exact h.before (hend ▸ length_pos_iff.mpr hne)
  have hprev := (h.file.inTable p.prev (List.mem_of_getLast? hlast)).2
  exact h.grown hend
    ((h.file.take hv hge hlt hfree).append hv hlast hge hlt hbad hfree₀ htaken hnot hfits)
    (fun x hx =>
      (content_setEntry hv h.file.inTable hprev hx).trans
      (content_setEntry hv h.file.inTable hlt hx))
    fun l m => setEntry_fits.trans setEntry_fits

end Grows

/-- **The cluster that is written next is one of the chain.** -/
theorem next (h : Progress v d₀ cs src base d p) (hv : v.Sized) (hbad : v.total ≤ bad) :
    Safe Anywhere (nextCluster v p.first p.prev p.cluster) (fun r d' =>
      ∀ first' c, r = some (first', c) →
      ∃ new', Progress v d₀ cs src base d' { p with first := first', cluster := c, new := new' } ∧
        (cs ++ new')[p.idx]? = some c ∧ (new' = p.new ∨ p.idx + 1 = (cs ++ new').length)) d := by
  rw [nextCluster]
  by_cases hvalid : clusterValid p.cluster = true
  · rw [if_pos hvalid]
    intro first' c hr
    cases hr
    exact ⟨p.new, h, h.get hvalid, .inl rfl⟩
  rw [if_neg hvalid]
  have hend := h.idx_eq hvalid
  refine alloc_spec.bind ?_
  intro newcl d₁ hpost
  by_cases hzero : newcl = 0
  · rw [if_pos hzero]
    exact nofun
  rw [if_neg hzero]
  rcases hpost with hz | ⟨⟨hge, hlt⟩, hfree, rfl⟩
  · exact absurd hz hzero
  by_cases hfirst : p.first = 0
  · rw [if_pos hfirst]
    intro first' c hr
    cases hr
    obtain ⟨hp, hget⟩ := h.started hv hbad hend hge hlt hfree hfirst
    exact ⟨p.new ++ [newcl], hp, hget, .inr (by simp [hend]; omega)⟩
  rw [if_neg hfirst]
  refine fatWriteEntry_spec.bind ?_
  intro ok d₂ hok
  split_ifs with hlinked
  · obtain ⟨hfits, rfl⟩ := hok hlinked
    intro first' c hr
    cases hr
    obtain ⟨hp, hget⟩ := h.linked hv hbad hend hge hlt hfree hfirst hfits
    exact ⟨p.new ++ [newcl], hp, hget, .inr (by simp [hend]; omega)⟩
  · exact (Safe.of_true anywhere).bind fun _ _ _ => nofun

end Progress

/-! ## 2. One round -/

theorem runFaulty_writeCluster {data : Nat → UInt8}
    (hfits : d.Fits (clusterToLba v c) v.sectorsPerCluster) :
    runFaulty faults (blockWrite Area.data (clusterToLba v c) v.sectorsPerCluster data) d =
      some ((took faults, if took faults then setCluster v d c data else d), faults.tail) :=
  runFaulty_blockWrite hfits

theorem runFaulty_writeChunk (src : Nat → UInt8) {chunk : Nat}
    (hfits : d.Fits (clusterToLba v c) v.sectorsPerCluster) :
    ∃ data,
      (∀ j, j < v.bytesPerCluster → data j = blit (clusterBytes v d c) inCluster chunk src j) ∧
      ∀ faults, runFaulty faults (writeChunk v c inCluster chunk src) d =
        some ((took faults, if took faults then setCluster v d c data else d), faults.tail) := by
  rw [writeChunk]
  split_ifs with hwhole
  · refine ⟨src, fun j hj => ?_, fun _ => runFaulty_writeCluster hfits⟩
    obtain ⟨rfl, rfl⟩ := hwhole
    have hin : blit (clusterBytes v d c) 0 v.bytesPerCluster src (0 + j) = src j := blit_of_in hj
    rw [Nat.zero_add] at hin
    exact hin.symm
  · refine ⟨blit (clusterBytes v d c) inCluster chunk src, fun _ _ => rfl, fun faults => ?_⟩
    rw [runFaulty_blockRead, Disk.read_of_fits hfits]
    exact runFaulty_writeCluster hfits

theorem writeChunk_spec {chunk : Nat} :
    Safe Anywhere (writeChunk v c inCluster chunk src) (fun ok d' => ok = true →
      d.Fits (clusterToLba v c) v.sectorsPerCluster ∧ ∃ data, d' = setCluster v d c data ∧
        ∀ j, j < v.bytesPerCluster →
          data j = blit (clusterBytes v d c) inCluster chunk src j) d := by
  by_cases hfits : d.Fits (clusterToLba v c) v.sectorsPerCluster
  · obtain ⟨data, hdata, hrun⟩ := runFaulty_writeChunk src hfits
    exact Safe.of_run anywhere (runFaulty_nil.mp (hrun [])).1 fun _ => ⟨hfits, data, rfl, hdata⟩
  rw [writeChunk]
  split_ifs
  · refine Safe.write (fun _ => trivial) ?_
    rw [Disk.write_of_not_fits hfits]
    exact nofun
  · refine Safe.bind_read ?_
    rw [Disk.read_of_not_fits hfits]
    exact nofun

namespace Progress

variable {chunk : Nat}

section

variable (h : Progress v d₀ cs src base d p) (hv : v.Sized) (hget : (cs ++ p.new)[p.idx]? = some c)
  (hfits : d.Fits (clusterToLba v c) v.sectorsPerCluster)
  (hdata : ∀ j, j < v.bytesPerCluster → data j =
    blit (clusterBytes v d c) p.inCluster chunk (fun j => src (p.done + j)) j)
include h hv hget hdata

/-- The bytes of the chain after a piece of a cluster is written. -/
theorem content_chunk (hle : p.inCluster + chunk ≤ v.bytesPerCluster) {x : Nat}
    (hx : x < (cs ++ p.new).length * v.bytesPerCluster) : content v (setCluster v d c data)
    (cs ++ p.new) x =
      if base + p.done ≤ x ∧ x < base + p.done + chunk then src (x - base)
        else content v d (cs ++ p.new) x := by
  have hpos : 0 < v.bytesPerCluster := bytesPerCluster_pos
  have hmod : x % v.bytesPerCluster < v.bytesPerCluster := Nat.mod_lt _ hpos
  have hsplit : v.bytesPerCluster * (x / v.bytesPerCluster) + x % v.bytesPerCluster = x :=
    Nat.div_add_mod ..
  have hat := h.pos
  obtain ⟨hidx, hc⟩ := List.getElem?_eq_some_iff.mp hget
  rw [content_setCluster hv h.file.inTable h.file.nodup hget hx]
  by_cases heq : x / v.bytesPerCluster = p.idx
  · rw [if_pos heq, hdata _ hmod]
    rw [heq, Nat.mul_comm] at hsplit
    have hbyte : content v d (cs ++ p.new) x = clusterBytes v d c (x % v.bytesPerCluster) := by
      rw [content, heq, getD_eq_getElem _ _ hidx, hc]
    rw [hbyte, blit]
    split_ifs with h1 h2 h2
    · rw [show p.done + (x % v.bytesPerCluster - p.inCluster) = x - base by omega]
    · omega
    · omega
    · rfl
  have hout : ¬ (base + p.done ≤ x ∧ x < base + p.done + chunk) := by
    intro hin
    refine heq (Nat.div_eq_of_lt_le (by omega) ?_)
    rw [Nat.add_mul]
    omega
  rw [if_neg heq, if_neg hout]

include hfits

/-- What is written and what is kept after a piece of a cluster is written. -/
theorem after_chunk (hle : p.inCluster + chunk ≤ v.bytesPerCluster) :
    (∀ x, x < p.done + chunk → base + x < (cs ++ p.new).length * v.bytesPerCluster ∧
      content v (setCluster v d c data) (cs ++ p.new) (base + x) = src x ∧
      (setCluster v d c data).Fits (clusterToLba v
        ((cs ++ p.new).getD ((base + x) / v.bytesPerCluster) 0)) v.sectorsPerCluster) ∧
    ∀ x, x < cs.length * v.bytesPerCluster → x < base ∨ base + (p.done + chunk) ≤ x →
      content v (setCluster v d c data) (cs ++ p.new) x = content v d₀ cs x := by
  have hat := h.pos
  obtain ⟨hidx, hc⟩ := List.getElem?_eq_some_iff.mp hget
  have hroom : (p.idx + 1) * v.bytesPerCluster ≤ (cs ++ p.new).length * v.bytesPerCluster :=
    Nat.mul_le_mul_right _ hidx
  rw [Nat.add_mul] at hroom
  constructor
  · intro x hx
    have hlt : base + x < (cs ++ p.new).length * v.bytesPerCluster := by omega
    rw [h.content_chunk hv hget hdata hle hlt]
    by_cases hnew : p.done ≤ x
    · rw [if_pos (by omega), Nat.add_sub_cancel_left]
      have hcluster : (base + x) / v.bytesPerCluster = p.idx := by
        refine Nat.div_eq_of_lt_le (by omega) ?_
        rw [Nat.add_mul]
        omega
      refine ⟨hlt, rfl, ?_⟩
      rw [hcluster, getD_eq_getElem _ _ hidx, hc]
      exact setCluster_fits.mpr hfits
    · rw [if_neg (by omega)]
      obtain ⟨-, hbyte, hfit⟩ := h.written x (by omega)
      exact ⟨hlt, hbyte, setCluster_fits.mpr hfit⟩
  intro x hx hout
  have hlt : x < (cs ++ p.new).length * v.bytesPerCluster := by
    rw [length_append, Nat.add_mul]
    omega
  rw [h.content_chunk hv hget hdata hle hlt, if_neg (by omega)]
  exact h.kept x hx (by omega)

/-- **A piece of a cluster is written**, and more of the cluster is left. -/
theorem advance (hlt : p.inCluster + chunk < v.bytesPerCluster) :
    Progress v d₀ cs src base (setCluster v d c data)
      { p with cluster := c, inCluster := p.inCluster + chunk, done := p.done + chunk } := by
  have hmem : c ∈ cs ++ p.new := List.mem_of_getElem? hget
  obtain ⟨hwritten, hkept⟩ := h.after_chunk hv hget hfits hdata (Nat.le_of_lt hlt)
  have hat := h.pos
  obtain ⟨hidx, -⟩ := List.getElem?_eq_some_iff.mp hget
  exact ⟨⟨h.idx_le, fun c' hc' => Option.some.inj (hget.symm.trans hc'),
    fun heq => absurd heq (Nat.ne_of_lt hidx), h.before⟩, h.file.write hv hmem, h.empty, hlt,
    (by omega : p.idx * v.bytesPerCluster + (p.inCluster + chunk) = base + (p.done + chunk)),
    hwritten, hkept⟩

/-- **The rest of a cluster is written**, and the next one is due. -/
theorem advance_next (heq : p.inCluster + chunk = v.bytesPerCluster) :
    Progress v d₀ cs src base (setCluster v d c data)
      { p with prev := c, cluster := entryAt v (setCluster v d c data) c, inCluster := 0,
               done := p.done + chunk, idx := p.idx + 1 } := by
  have hmem : c ∈ cs ++ p.new := List.mem_of_getElem? hget
  obtain ⟨hwritten, hkept⟩ := h.after_chunk hv hget hfits hdata (Nat.le_of_eq heq)
  have hat := h.pos
  have hfile : FileAt v d₀ cs (setCluster v d c data) p.first p.new := h.file.write hv hmem
  obtain ⟨hnext, hend⟩ := hfile.chain.next hget
  obtain ⟨hidx, -⟩ := List.getElem?_eq_some_iff.mp hget
  refine ⟨⟨hidx, hnext, hend, fun _ => hget⟩, hfile, h.empty,
    bytesPerCluster_pos, ?_, hwritten, hkept⟩
  show (p.idx + 1) * v.bytesPerCluster + 0 = base + (p.done + chunk)
  rw [Nat.add_mul]
  omega

end

end Progress

/-! ## 3. The loops -/

/-- The chain has no more new clusters than the bytes need. -/
def Position.Least (v : Volume) (cs : List Nat) (base : Nat) (p : Position) : Prop :=
  p.new ≠ [] → ((cs ++ p.new).length - 1) * v.bytesPerCluster < base + p.done

/-- **The loop that writes.** -/
theorem writeLoop_spec (hv : v.Sized) (hbad : v.total ≤ bad) (h : Progress v d₀ cs src base d p)
    (hleast : p.Least v cs base) (hdone : p.done ≤ size) :
    Safe Anywhere (writeLoop v src size n p.first p.prev p.cluster p.inCluster p.done) (fun r d' =>
      r.1 = size → ∃ p', Progress v d₀ cs src base d' p' ∧ p'.done = size ∧ p'.first = r.2 ∧
        p'.Least v cs base) d := by
  induction n generalizing p d with
  | zero => exact fun heq => ⟨p, h, heq, rfl, hleast⟩
  | succ n ih =>
    rw [writeLoop]
    by_cases hlt : p.done < size
    · rw [if_pos hlt]
      refine (h.next hv hbad).bind ?_
      intro r d₁ hr
      cases r with
      | none => exact fun heq => absurd heq (Nat.ne_of_lt hlt)
      | some q =>
        obtain ⟨first', c⟩ := q
        obtain ⟨new', h₁, hget, hnew⟩ := hr first' c rfl
        have hroom := h.inside
        have hat := h.pos
        have hleast' : ∀ chunk, 0 < chunk → new' ≠ [] →
            ((cs ++ new').length - 1) * v.bytesPerCluster < base + (p.done + chunk) := by
          intro chunk hchunk hne
          rcases hnew with rfl | hend
          · have := hleast hne
            omega
          · rw [← hend, Nat.add_sub_cancel]
            omega
        have hsize : p.done + min (size - p.done) (v.bytesPerCluster - p.inCluster) ≤ size := by
          omega
        have hchunk : 0 < min (size - p.done) (v.bytesPerCluster - p.inCluster) := by omega
        refine writeChunk_spec.bind ?_
        intro ok d₂ hok
        by_cases hwritten : ok = true
        · obtain ⟨hfits, data, rfl, hdata⟩ := hok hwritten
          rw [if_pos hwritten]
          by_cases hfull : p.inCluster + min (size - p.done) (v.bytesPerCluster - p.inCluster) =
              v.bytesPerCluster
          · rw [if_pos hfull]
            refine (Safe.of_run anywhere run_fatReadEntry ⟨rfl, rfl⟩ :
              Safe Anywhere (fatReadEntry v c)
              (fun r d' => r = entryAt v (setCluster v d₁ c data) c ∧
                d' = setCluster v d₁ c data) _).bind ?_
            intro next d₃ hpost
            obtain ⟨rfl, rfl⟩ := hpost
            exact ih (h₁.advance_next hv hget hfits hdata hfull) (hleast' _ hchunk) hsize
          · have hpart : p.inCluster + min (size - p.done) (v.bytesPerCluster - p.inCluster) <
                v.bytesPerCluster := by omega
            rw [if_neg hfull]
            exact ih (h₁.advance hv hget hfits hdata hpart) (hleast' _ hchunk) hsize
        · rw [if_neg hwritten]
          exact fun heq => absurd heq (Nat.ne_of_lt hlt)
    · rw [if_neg hlt]
      exact fun heq => ⟨p, h, heq, rfl, hleast⟩

/-- A chain is read from its first cluster. -/
theorem cursor_of_chain (h : Chain v d first L) : Cursor L first first 0 where
  idx_le := Nat.zero_le _
  here := by
    intro c hc
    cases L with
    | nil => cases hc
    | cons y L =>
      obtain ⟨rfl, -⟩ := h
      exact Option.some.inj hc
  atEnd := by
    intro hlen
    rw [length_eq_zero_iff.mp hlen.symm] at h
    exact h
  before := fun h => absurd h (Nat.lt_irrefl 0)

/-- **The loop that goes to a cluster** stops at the end of the chain. -/
theorem skip_run {prev i : Nat} (hchain : Chain v d first L) (h : Cursor L prev c i) :
    ∃ r, run (skipClusters v n prev c) d = some (r, d) ∧
      Cursor L r.1 r.2 (min (i + n) L.length) := by
  induction n generalizing prev c i with
  | zero =>
    rw [Nat.add_zero, Nat.min_eq_left h.idx_le]
    exact ⟨(prev, c), rfl, h⟩
  | succ n ih =>
    rw [skipClusters]
    by_cases hlt : i < L.length
    · have hget := List.getElem?_eq_getElem hlt
      have hc := h.here _ hget
      have hvalid : clusterValid c = true := hc ▸ hchain.valid (getElem_mem hlt)
      rw [← hc] at hget
      obtain ⟨hnext, hend⟩ := hchain.next hget
      rw [if_pos hvalid, run_bind_of run_fatReadEntry, show i + (n + 1) = i + 1 + n by omega]
      exact ih ⟨hlt, hnext, hend, fun _ => hget⟩
    · have heq : i = L.length := Nat.le_antisymm h.idx_le (Nat.le_of_not_lt hlt)
      rw [h.atEnd heq, if_neg Bool.false_ne_true, Nat.min_eq_right (by omega), ← heq]
      exact ⟨(prev, c), rfl, h⟩

/-- The place where a write at `offset` starts: not beyond the end of the chain. -/
def writeBase (v : Volume) (cs : List Nat) (offset : Nat) : Nat :=
  min (offset / v.bytesPerCluster) cs.length * v.bytesPerCluster + offset % v.bytesPerCluster

/-- The clusters of a file as the table has them: a chain of used clusters, or 0. -/
structure IsFile (v : Volume) (d : Disk 512) (first : Nat) (cs : List Nat) : Prop where
  chain : Chain v d first cs
  inTable : InTable v cs
  used : ∀ c ∈ cs, entryAt v d c ≠ 0
  empty : cs = [] → first = 0

/-- Where the loop of `fat32_write` starts. -/
theorem IsFile.start (h : IsFile v d first cs) (src : Nat → UInt8) (offset : Nat) :
    ∃ r, run (skipClusters v (offset / v.bytesPerCluster) first first) d = some (r, d) ∧
      Progress v d cs src (writeBase v cs offset) d
        ⟨first, r.1, r.2, offset % v.bytesPerCluster, 0,
          min (offset / v.bytesPerCluster) cs.length, []⟩ := by
  obtain ⟨r, hrun, hcursor⟩ := skip_run (n := offset / v.bytesPerCluster) h.chain
    (cursor_of_chain h.chain)
  rw [Nat.zero_add] at hcursor
  refine ⟨r, hrun, by rwa [append_nil], FileAt.refl h.chain h.inTable h.used,
    fun hnil => h.empty ?_,
    Nat.mod_lt _ bytesPerCluster_pos, rfl, fun x hx => absurd hx (Nat.not_lt_zero x),
    fun x _ _ => by rw [append_nil]⟩
  rwa [append_nil] at hnil

/-- **`fat32_write`, when it writes everything.** -/
theorem fat32Write_spec (hv : v.Sized) (hbad : v.total ≤ bad)
    (h : IsFile v d first cs) (hsize : 0 < size) :
    Safe Anywhere (fat32Write v first offset src size) (fun r d' => r.1 = size →
      ∃ p, Progress v d cs src (writeBase v cs offset) d' p ∧ p.done = size ∧ p.first = r.2 ∧
        p.Least v cs (writeBase v cs offset)) d := by
  rw [fat32Write, if_neg (Nat.ne_of_gt hsize)]
  obtain ⟨r, hrun, hstart⟩ := h.start src offset
  refine (Safe.of_run anywhere hrun ⟨rfl, rfl⟩ :
    Safe Anywhere _ (fun r' d' => r' = r ∧ d' = d) d).bind ?_
  intro r' d' hpost
  obtain ⟨rfl, rfl⟩ := hpost
  exact writeLoop_spec hv hbad hstart (fun hne => absurd rfl hne) (Nat.zero_le size)

/-! ## 4. Reading -/

/-- The bytes `[offset, offset + size)` are those of clusters of the chain, and these can be
    read. -/
def Readable (v : Volume) (d : Disk 512) (L : List Nat) (offset size : Nat) : Prop :=
  ∀ x, x < size → offset + x < L.length * v.bytesPerCluster ∧
    d.Fits (clusterToLba v (L.getD ((offset + x) / v.bytesPerCluster) 0)) v.sectorsPerCluster

/-- A walk over a chain comes to its clusters. -/
theorem Chain.walk (h : Chain v d c L) : clusterWalk v d n c = L.take n := by
  induction n generalizing c L with
  | zero => rfl
  | succ n ih =>
    cases L with
    | nil => exact clusterWalk_of_invalid h
    | cons y L =>
      obtain ⟨rfl, hvalid, hrest⟩ := h
      rw [clusterWalk_of_valid hvalid, ih hrest, take_succ_cons]

/-- The clusters behind the offset can be read, up to the last one that is asked for. -/
theorem Readable.fitting (h : Readable v d L offset size) (hsize : 0 < size)
    (hn : n * v.bytesPerCluster < offset + size + v.bytesPerCluster) :
    Fitting v d ((L.take n).drop (offset / v.bytesPerCluster)) := by
  intro c hc
  have hpos : 0 < v.bytesPerCluster := bytesPerCluster_pos
  generalize hk : offset / v.bytesPerCluster = k at hc
  obtain ⟨i, hi, rfl⟩ := mem_iff_getElem.mp hc
  have hlen := hi
  rw [length_drop, length_take] at hlen
  have hle : (k + i + 1) * v.bytesPerCluster ≤ n * v.bytesPerCluster :=
    Nat.mul_le_mul_right _ (by omega)
  have hfirst : offset < (k + i + 1) * v.bytesPerCluster :=
    (Nat.div_lt_iff_lt_mul hpos).mp (by omega)
  rw [Nat.add_one_mul] at hle hfirst
  -- a byte of the cluster that is asked for
  have hdiv : (offset + (max offset ((k + i) * v.bytesPerCluster) - offset)) /
      v.bytesPerCluster = k + i :=
    Nat.div_eq_of_lt_le (by omega) (by rw [Nat.add_one_mul]; omega)
  have hfits := (h (max offset ((k + i) * v.bytesPerCluster) - offset) (by omega)).2
  rw [hdiv, getD_eq_getElem _ _ (by omega)] at hfits
  simpa using hfits

/-- **`fat32_read_at`.** -/
theorem fat32ReadAt_run (offset : Nat) (dst : Nat → UInt8)
    (hchain : Chain v d first L) (hsize : 0 < size) :
    ∃ t buf, run (fat32ReadAt v first offset dst size) d = some ((t, buf), d) ∧
      (∀ x, x < t → buf x = content v d L (offset + x)) ∧
      (t ≠ 0 → offset + t ≤ L.length * v.bytesPerCluster) ∧
      (Readable v d L offset size → t = size) := by
  obtain ⟨hm, hm'⟩ := clustersFor_bounds (v := v) (n := offset + size)
  obtain ⟨t, buf, hrun, hbytes, hle, hall⟩ := fat32ReadAt_walk first offset dst hsize hchain.walk
  rw [length_take, ← Nat.mul_min_mul_right] at hle hall
  refine ⟨t, buf, hrun, fun x hx => ?_, fun _ => by omega, fun hread => ?_⟩
  · have hin :
        offset + x < (L.take (clustersFor v (offset + size))).length * v.bytesPerCluster := by
      rw [length_take, ← Nat.mul_min_mul_right]
      omega
    rw [hbytes x hx, ← content_append hin, take_append_drop]
  · have hlast := (hread (size - 1) (by omega)).1
    rw [hall (hread.fitting hsize hm')]
    omega

/-! ## 5. What is written is read back -/

/-- **What a write of `size` bytes at `offset` owes the file with the clusters `cs`.** -/
structure WriteCorrect (v : Volume) (d : Disk 512) (cs : List Nat)
    (offset : Nat) (src : Nat → UInt8)
    (size first' : Nat) (d' : Disk 512) : Prop where
  readBack : ∀ dst, ∃ buf, run (fat32ReadAt v first' offset dst size) d' = some ((size, buf), d') ∧
    ∀ x, x < size → buf x = src x
  kept : ∀ x, x < cs.length * v.bytesPerCluster → x < offset ∨ offset + size ≤ x →
    content v d' cs x = content v d cs x
  extended : ∃ new, Chain v d' first' (cs ++ new) ∧ ∀ c ∈ new, c < v.total ∧ entryAt v d c = 0
  others : ∀ k, 2 ≤ k → k < v.total → entryAt v d k ≠ 0 → k ∉ cs → entryAt v d' k = entryAt v d k ∧
    ∀ j, j < v.bytesPerCluster → clusterBytes v d' k j = clusterBytes v d k j

theorem writeBase_eq (h : offset / v.bytesPerCluster ≤ cs.length) :
    writeBase v cs offset = offset := by
  rw [writeBase, Nat.min_eq_left h, Nat.mul_comm]
  exact Nat.div_add_mod ..

/-- The chain after a write beyond the cluster behind its end is too short to be read at the
    offset. -/
theorem short_of_beyond (hbeyond : cs.length < offset / v.bytesPerCluster)
    (hsize : 0 < size) (hdone : p.done = size) (hleast : p.Least v cs (writeBase v cs offset)) :
    (cs ++ p.new).length * v.bytesPerCluster < offset + size := by
  have hsplit : v.bytesPerCluster * (offset / v.bytesPerCluster) +
      offset % v.bytesPerCluster = offset :=
    Nat.div_add_mod ..
  have hfar : v.bytesPerCluster * (cs.length + 1) ≤
      v.bytesPerCluster * (offset / v.bytesPerCluster) :=
    Nat.mul_le_mul_left _ hbeyond
  rw [Nat.mul_add, Nat.mul_one, Nat.mul_comm] at hfar
  by_cases hnew : p.new = []
  · rw [hnew, append_nil]
    omega
  · have hlast := hleast hnew
    rw [writeBase, Nat.min_eq_right (Nat.le_of_lt hbeyond), hdone,
      Nat.sub_mul, Nat.one_mul] at hlast
    omega

/-- What is written beyond the cluster behind the chain is not read back. -/
theorem not_writeCorrect {d' : Disk 512} (hsize : 0 < size)
    (hp : Progress v d cs src (writeBase v cs offset) d' p) (hdone : p.done = size)
    (hleast : p.Least v cs (writeBase v cs offset))
    (hbeyond : cs.length < offset / v.bytesPerCluster) :
    ¬ WriteCorrect v d cs offset src size p.first d' := by
  intro hcorrect
  have hshort := short_of_beyond hbeyond hsize hdone hleast
  obtain ⟨buf, hread, -⟩ := hcorrect.readBack fun _ => 0
  obtain ⟨t, buf', hread', -, hlen, -⟩ := fat32ReadAt_run offset (fun _ => 0) hp.file.chain hsize
  rw [hread] at hread'
  cases hread'
  omega

/-- **A write that is done is read back at its offset and changes nothing else, exactly when the
    offset is not beyond the cluster behind the chain.** -/
theorem write_iff {offset first' : Nat} {d' : Disk 512} (hv : v.Sized) (hbad : v.total ≤ bad)
    (h : IsFile v d first cs) (hsize : 0 < size)
    (hrun : run (fat32Write v first offset src size) d = some ((size, first'), d')) :
    WriteCorrect v d cs offset src size first' d' ↔ offset / v.bytesPerCluster ≤ cs.length := by
  obtain ⟨p, hp, hdone, rfl, hleast⟩ := (fat32Write_spec hv hbad h hsize).run hrun rfl
  constructor
  · intro hcorrect
    by_contra hbeyond
    exact not_writeCorrect hsize hp hdone hleast (Nat.lt_of_not_le hbeyond) hcorrect
  intro hwithin
  have hbase := writeBase_eq hwithin
  rw [hbase] at hp
  refine ⟨fun dst => ?_, fun x hx hout =>
    ?_, ⟨p.new, hp.file.chain, fun c hc => ⟨?_, hp.file.fresh c hc⟩⟩,
    hp.file.others⟩
  · obtain ⟨t, buf, hread, hbytes, -, hall⟩ := fat32ReadAt_run offset dst hp.file.chain hsize
    have hreadable : Readable v d' (cs ++ p.new) offset size := fun x hx =>
      have hw := hp.written x (hdone ▸ hx)
      ⟨hw.1, hw.2.2⟩
    obtain rfl := hall hreadable
    exact ⟨buf, hread, fun x hx => (hbytes x hx).trans (hp.written x (hdone ▸ hx)).2.1⟩
  · rw [← content_append hx]
    exact hp.kept x hx (hdone ▸ hout)
  · exact (hp.file.inTable c (mem_append_right cs hc)).2

/-- A file without clusters. -/
theorem emptyDisk_isFile : IsFile smallVolume emptyDisk 0 [] :=
  ⟨rfl, fun _ hc => absurd hc not_mem_nil, fun _ hc => absurd hc not_mem_nil, fun _ => rfl⟩

/-- The cluster 2 as a file. -/
theorem emptyDisk_isFile_two : IsFile smallVolume emptyDisk 2 [2] := by
  have hentry : entryAt smallVolume emptyDisk 2 = 0x0FFFFFFF := by decide +kernel
  have htotal : 2 < smallVolume.total := by decide
  refine ⟨⟨rfl, rfl, ?_⟩, fun c hc => ?_, fun c hc => ?_, fun hnil =>
    absurd hnil (cons_ne_nil 2 [])⟩
  · rw [hentry]
    rfl
  · obtain rfl := mem_singleton.mp hc
    exact ⟨Nat.le_refl 2, htotal⟩
  · obtain rfl := mem_singleton.mp hc
    rw [hentry]
    decide

theorem exists_of_done {first offset size : Nat} {src : Nat → UInt8} {d : Disk 512}
    (h : (run (fat32Write v first offset src size) d).map (·.1.1) = some size) : ∃ first' d',
    run (fat32Write v first offset src size) d = some ((size, first'), d') := by
  obtain ⟨r, hr, hdone⟩ := Option.map_eq_some_iff.mp h
  exact ⟨r.1.2, r.2, hr.trans (by rw [← hdone])⟩

/-- **A byte at the offset 512 of an empty file** goes to its first cluster. -/
theorem write_beyond_end : ∃ first' d',
    run (fat32Write smallVolume 0 512 (fun _ => 7) 1) emptyDisk = some ((1, first'), d') ∧
      ¬ WriteCorrect smallVolume emptyDisk [] 512 (fun _ => 7) 1 first' d' := by
  obtain ⟨first', d', hrun⟩ : ∃ first' d',
      run (fat32Write smallVolume 0 512 (fun _ => 7) 1) emptyDisk = some ((1, first'), d') :=
    exists_of_done (by decide +kernel)
  obtain ⟨p, hp, hdone, rfl, hleast⟩ :=
    (fat32Write_spec smallVolume_sized (by decide) emptyDisk_isFile Nat.one_pos).run hrun rfl
  exact ⟨p.first, d', hrun, not_writeCorrect Nat.one_pos hp hdone hleast (by decide)⟩

theorem write_iff_across : ∃ first' d',
    run (fat32Write smallVolume 2 511 (fun _ => 7) 2) emptyDisk = some ((2, first'), d') ∧
      WriteCorrect smallVolume emptyDisk [2] 511 (fun _ => 7) 2 first' d' := by
  obtain ⟨first', d', hrun⟩ : ∃ first' d',
      run (fat32Write smallVolume 2 511 (fun _ => 7) 2) emptyDisk = some ((2, first'), d') :=
    exists_of_done (by decide +kernel)
  exact ⟨first', d', hrun,
    (write_iff smallVolume_sized (by decide) emptyDisk_isFile_two Nat.two_pos hrun).mpr (by decide)⟩

end DyntKernel.Fat
