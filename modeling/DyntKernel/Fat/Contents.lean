/-
  File:      DyntKernel/Fat/Contents.lean
  Subject:   THE CONTENTS OF A CHAIN: how a chain grows and what is read from it.

  A file is the bytes of its clusters, one after the other. `FileAt` says how a disk on which a file
  was written to stands to the disk before: the chain is the old one and new clusters behind it, and
  what belongs to other files is as it was.

  * `content` -- the byte of a chain at a position;
  * `FileAt`, `FileAt.append`, `FileAt.start`, `FileAt.write` -- what each kind of write keeps;
  * `content_setCluster`, `content_setEntry` -- the bytes of the chain after each of them.
-/
import DyntKernel.Fat.Directory
import DyntKernel.Fat.Geometry
import Mathlib.Data.List.Nodup

namespace DyntKernel.Fat

open Library Prog List Volume

variable {v : Volume} {d d₀ : Disk 512} {c k x n first idx value : Nat} {L cs new : List Nat}
  {data : Nat → UInt8}

/-! ## 1. Chains -/

/-- A chain is read from its own entries. -/
theorem Chain.congr {d' : Disk 512} (h : Chain v d c L)
    (hsame : ∀ x ∈ L, entryAt v d' x = entryAt v d x) : Chain v d' c L :=
  chain_iff_linked.mpr ((chain_iff_linked.mp h).congr hsame)

/-- A chain whose last cluster `p` is linked to a cluster `q` that ends it. -/
theorem Chain.snoc {d' : Disk 512} {p q : Nat} (h : Chain v d c (L ++ [p]))
    (hsame : ∀ x ∈ L, entryAt v d' x = entryAt v d x) (hp : entryAt v d' p = q)
    (hq : clusterValid q = true) (hend : clusterValid (entryAt v d' q) = false) :
    Chain v d' c (L ++ [p] ++ [q]) := by
  induction L generalizing c with
  | nil =>
    obtain ⟨rfl, hvalid, -⟩ := h
    exact ⟨rfl, hvalid, hp, hq, hend⟩
  | cons y L ih =>
    obtain ⟨rfl, hvalid, hrest⟩ := h
    refine ⟨rfl, hvalid, ?_⟩
    rw [hsame c mem_cons_self]
    exact ih hrest fun x hx => hsame x (mem_cons_of_mem c hx)

/-! ## 2. Contents -/

/-- **The byte at the position `x` of a chain.** -/
def content (v : Volume) (d : Disk 512) (L : List Nat) (x : Nat) : UInt8 :=
  clusterBytes v d (L.getD (x / v.bytesPerCluster) 0) (x % v.bytesPerCluster)

theorem content_append (hx : x < cs.length * v.bytesPerCluster) :
    content v d (cs ++ new) x = content v d cs x := by
  have hidx : x / v.bytesPerCluster < cs.length :=
    (Nat.div_lt_iff_lt_mul bytesPerCluster_pos).mpr hx
  rw [content, content, getD_append _ _ _ _ hidx]

/-- The clusters of a chain have entries in the table. -/
def InTable (v : Volume) (L : List Nat) : Prop := ∀ c ∈ L, 2 ≤ c ∧ c < v.total

theorem content_setEntry (hv : v.Sized) (hL : InTable v L) (hk : k < v.total)
    (hx : x < L.length * v.bytesPerCluster) :
    content v (setEntry v d k value) L x = content v d L x := by
  have hidx : x / v.bytesPerCluster < L.length :=
    (Nat.div_lt_iff_lt_mul bytesPerCluster_pos).mpr hx
  have hmem : L.getD (x / v.bytesPerCluster) 0 ∈ L := by
    rw [getD_eq_getElem _ _ hidx]
    exact getElem_mem hidx
  exact clusterBytes_setEntry hv (hL _ hmem).1 (hL _ hmem).2 hk

/-- **The bytes of a chain after one of its clusters is written.** -/
theorem content_setCluster (hv : v.Sized) (hL : InTable v L) (hnodup : L.Nodup)
    (hidx : L[idx]? = some c) (hx : x < L.length * v.bytesPerCluster) :
    content v (setCluster v d c data) L x =
      if x / v.bytesPerCluster = idx then data (x % v.bytesPerCluster) else content v d L x := by
  have hpos : 0 < v.bytesPerCluster := bytesPerCluster_pos
  have hlt : x / v.bytesPerCluster < L.length := (Nat.div_lt_iff_lt_mul hpos).mpr hx
  obtain ⟨hidxlt, hc⟩ := List.getElem?_eq_some_iff.mp hidx
  have hmod : x % v.bytesPerCluster < v.bytesPerCluster := Nat.mod_lt _ hpos
  have hmemc : c ∈ L := hc ▸ getElem_mem hidxlt
  rw [content, content, getD_eq_getElem _ _ hlt]
  split_ifs with heq
  · have hsame : L[x / v.bytesPerCluster] = c := by
      simp only [heq]
      exact hc
    rw [hsame]
    exact clusterBytes_setCluster hmod
  have hmem : L[x / v.bytesPerCluster] ∈ L := getElem_mem hlt
  have hne : L[x / v.bytesPerCluster] ≠ c := by
    rw [← hc]
    exact fun h => heq ((List.Nodup.getElem_inj_iff hnodup).mp h)
  exact clusterBytes_setCluster_of_ne hv (hL c hmemc).1 (hL c hmemc).2 (hL _ hmem).1 (hL _ hmem).2
    hne hmod

/-! ## 3. A file that is written to -/

/-- **The disk `d` on which the file with the clusters `cs` of the disk `d₀` was written to**: its
    chain from `first` has the clusters `new` behind the old ones. -/
structure FileAt (v : Volume) (d₀ : Disk 512) (cs : List Nat) (d : Disk 512) (first : Nat)
    (new : List Nat) : Prop where
  chain : Chain v d first (cs ++ new)
  inTable : InTable v (cs ++ new)
  used : ∀ c ∈ cs ++ new, entryAt v d c ≠ 0
  fresh : ∀ c ∈ new, entryAt v d₀ c = 0
  others : ∀ k, 2 ≤ k → k < v.total → entryAt v d₀ k ≠ 0 → k ∉ cs → entryAt v d k = entryAt v d₀ k ∧
    ∀ j, j < v.bytesPerCluster → clusterBytes v d k j = clusterBytes v d₀ k j

namespace FileAt

/-- The disk before. -/
theorem refl (hchain : Chain v d first cs) (htable : InTable v cs)
    (hused : ∀ c ∈ cs, entryAt v d c ≠ 0) : FileAt v d cs d first [] where
  chain := by rwa [append_nil]
  inTable := by rwa [append_nil]
  used := by rwa [append_nil]
  fresh := fun c hc => absurd hc not_mem_nil
  others := fun _ _ _ _ _ => ⟨rfl, fun _ _ => rfl⟩

section

variable (h : FileAt v d₀ cs d first new)
include h

theorem nodup : (cs ++ new).Nodup := h.chain.nodup

/-- A free cluster is none of the file's, and it was free before. -/
theorem fresh_of_free (hge : 2 ≤ c) (hc : c < v.total)
    (hfree : entryAt v d c = 0) : c ∉ cs ++ new ∧ entryAt v d₀ c = 0 := by
  have hnot : c ∉ cs ++ new := fun hmem => h.used c hmem hfree
  refine ⟨hnot, ?_⟩
  by_contra hused
  have hsame := (h.others c hge hc hused fun hcs => hnot (mem_append_left new hcs)).1
  exact hused (hsame ▸ hfree)

/-- A cluster of the file is not one of another file. -/
theorem ne_other (hmem : c ∈ cs ++ new) (hused : entryAt v d₀ k ≠ 0) (hk : k ∉ cs) : k ≠ c := by
  intro heq
  subst heq
  rcases mem_append.mp hmem with hcs | hnew
  · exact hk hcs
  · exact hused (h.fresh k hnew)

/-- **A cluster of the file is written.** -/
theorem write (hv : v.Sized) (hmem : c ∈ cs ++ new) :
    FileAt v d₀ cs (setCluster v d c data) first new := by
  obtain ⟨hge, hlt⟩ := h.inTable c hmem
  have hentry : ∀ k, k < v.total → entryAt v (setCluster v d c data) k = entryAt v d k :=
    fun k hk => entryAt_setCluster hv hge hlt hk
  refine ⟨h.chain.congr fun x hx => hentry x (h.inTable x hx).2, h.inTable, fun x hx => ?_, h.fresh,
    fun k hk hklt hused hcs => ?_⟩
  · rw [hentry x (h.inTable x hx).2]
    exact h.used x hx
  · obtain ⟨hsame, hbytes⟩ := h.others k hk hklt hused hcs
    refine ⟨(hentry k hklt).trans hsame, fun j hj => ?_⟩
    rw [clusterBytes_setCluster_of_ne hv hge hlt hk hklt (h.ne_other hmem hused hcs) hj]
    exact hbytes j hj

/-- An entry that is none of another file's is changed. -/
theorem others_setEntry (hv : v.Sized) (hc : c < v.total)
    (hne : ∀ k, 2 ≤ k → k < v.total → entryAt v d₀ k ≠ 0 → k ∉ cs → k ≠ c) :
    ∀ k, 2 ≤ k → k < v.total → entryAt v d₀ k ≠ 0 → k ∉ cs →
      entryAt v (setEntry v d c value) k = entryAt v d₀ k ∧
      ∀ j, j < v.bytesPerCluster →
        clusterBytes v (setEntry v d c value) k j = clusterBytes v d₀ k j := by
  have hbound : v.total < 2 ^ 30 := total_lt
  intro k hk hklt hused hcs
  obtain ⟨hsame, hbytes⟩ := h.others k hk hklt hused hcs
  refine ⟨?_, fun j hj => ?_⟩
  · rw [entryAt_setEntry_of_ne (by omega) (by omega) (hne k hk hklt hused hcs)]
    exact hsame
  · rw [clusterBytes_setEntry hv hk hklt hc]
    exact hbytes j hj

/-- **A free cluster is taken**; it does not belong to the file yet. -/
theorem take (hv : v.Sized) (hge : 2 ≤ c) (hc : c < v.total)
    (hfree : entryAt v d c = 0) : FileAt v d₀ cs (setEntry v d c eoc) first new := by
  have hbound : v.total < 2 ^ 30 := total_lt
  obtain ⟨hnot, hfree₀⟩ := h.fresh_of_free hge hc hfree
  have hentry : ∀ x ∈ cs ++ new, entryAt v (setEntry v d c eoc) x = entryAt v d x := by
    intro x hx
    have hlt := (h.inTable x hx).2
    exact entryAt_setEntry_of_ne (by omega) (by omega) fun heq => hnot (heq ▸ hx)
  refine ⟨h.chain.congr hentry, h.inTable, fun x hx => ?_, h.fresh,
    h.others_setEntry hv hc fun k _ _ hused _ heq => hused (heq ▸ hfree₀)⟩
  rw [hentry x hx]
  exact h.used x hx

end

theorem eoc_end : clusterValid eoc = false := by decide

/-- **The first cluster of an empty file.** -/
theorem start (h : FileAt v d₀ cs d first new) (hempty : cs ++ new = []) (hge : 2 ≤ c)
    (hc : c < v.total) (hbad : v.total ≤ bad) (hfree₀ : entryAt v d₀ c = 0)
    (htaken : entryAt v d c = eoc) : FileAt v d₀ cs d c (new ++ [c]) := by
  obtain ⟨rfl, rfl⟩ := append_eq_nil_iff.mp hempty
  refine ⟨⟨rfl, clusterValid_of hge (by omega), ?_⟩, ?_, ?_, ?_, h.others⟩
  · rw [htaken]
    exact eoc_end
  · intro x hx
    rw [mem_singleton.mp hx]
    exact ⟨hge, hc⟩
  · intro x hx
    rw [mem_singleton.mp hx, htaken]
    decide
  · intro x hx
    rw [mem_singleton.mp hx]
    exact hfree₀

/-- **A cluster behind the last one.** -/
theorem append {p : Nat} (h : FileAt v d₀ cs d first new) (hv : v.Sized)
    (hlast : (cs ++ new).getLast? = some p) (hge : 2 ≤ c) (hc : c < v.total) (hbad : v.total ≤ bad)
    (hfree₀ : entryAt v d₀ c = 0) (htaken : entryAt v d c = eoc) (hnot : c ∉ cs ++ new)
    (hfits : d.Fits (entryLba v p) 1) : FileAt v d₀ cs (setEntry v d p c) first (new ++ [c]) := by
  have hbound : v.total < 2 ^ 30 := total_lt
  obtain ⟨L, hL⟩ : ∃ L, cs ++ new = L ++ [p] := List.getLast?_eq_some_iff.mp hlast
  have hmemp : p ∈ cs ++ new := hL ▸ mem_append_right L (mem_singleton_self p)
  have hp := h.inTable p hmemp
  have hpL : p ∉ L := by
    have hnodup := h.nodup
    rw [hL, nodup_append] at hnodup
    exact fun hp => hnodup.2.2 p hp p (mem_singleton_self p) rfl
  have hentry : ∀ x, x < v.total → x ≠ p → entryAt v (setEntry v d p c) x = entryAt v d x :=
    fun x hx hne => entryAt_setEntry_of_ne (by omega) (by omega) hne
  have hlink : entryAt v (setEntry v d p c) p = c := by
    rw [entryAt_setEntry hfits, show (0x0FFFFFFF : Nat) = 2 ^ 28 - 1 by decide,
      Nat.and_two_pow_sub_one_eq_mod]
    have : bad < 2 ^ 28 := by decide
    omega
  have hmark : entryAt v (setEntry v d p c) c = eoc := by
    rw [hentry c hc fun heq => hnot (heq ▸ hmemp)]
    exact htaken
  have happend : cs ++ (new ++ [c]) = L ++ [p] ++ [c] := by rw [← append_assoc, hL]
  refine ⟨?_, ?_, ?_, ?_, ?_⟩
  · rw [happend]
    refine Chain.snoc (hL ▸ h.chain) (fun x hx => ?_) hlink (clusterValid_of hge (by omega)) ?_
    · have hxmem : x ∈ cs ++ new := hL ▸ mem_append_left [p] hx
      exact hentry x (h.inTable x hxmem).2 fun heq => hpL (heq ▸ hx)
    · rw [hmark]
      exact eoc_end
  · intro x hx
    rw [← append_assoc] at hx
    rcases mem_append.mp hx with hx | hx
    · exact h.inTable x hx
    · rw [mem_singleton.mp hx]
      exact ⟨hge, hc⟩
  · intro x hx
    rw [← append_assoc] at hx
    rcases mem_append.mp hx with hx | hx
    · by_cases hxp : x = p
      · rw [hxp, hlink]
        omega
      · rw [hentry x (h.inTable x hx).2 hxp]
        exact h.used x hx
    · rw [mem_singleton.mp hx, hmark]
      decide
  · intro x hx
    rcases mem_append.mp hx with hx | hx
    · exact h.fresh x hx
    · rw [mem_singleton.mp hx]
      exact hfree₀
  · exact h.others_setEntry hv hp.2 fun k _ _ hused hcs => h.ne_other hmemp hused hcs

end FileAt

end DyntKernel.Fat
