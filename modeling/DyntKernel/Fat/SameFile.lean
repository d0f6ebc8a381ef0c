/-
  File:      DyntKernel/Fat/SameFile.lean
  Subject:   WHAT A READER OF A FILE SEES (fs/fat32.c, fat32_open and fat32_vfs_read_at).

  * `SameFile` -- a path leads to the same entry on two disks, and every read of it returns the
    same;
  * `vfsRead_run` -- what a read returns, as long as the chain has room for the size;
  * **`sameFile_iff`** -- the file is the same when the bytes below its size are;
  * `OpenFile` -- the file of a path on a well-formed volume.
-/
import DyntKernel.Fat.WellFormed
import DyntKernel.Fat.WriteAt

namespace DyntKernel.Fat

open Library Prog

variable {v : Volume} {g : Layout} {d d' : Disk 512} {cs : List Nat}
  {path : List UInt8} {fuel : Nat}

/-! ## 1. Reading -/

/-- **The path leads to the same entry, and every read returns the same bytes.** -/
structure SameFile (v : Volume) (fuel : Nat) (path : List UInt8) (d d' : Disk 512) : Prop where
  entry : (run (fat32Open v fuel path) d').map Prod.fst =
    (run (fat32Open v fuel path) d).map Prod.fst
  bytes : ∀ off dst n t buf d₁, run (fat32VfsReadAt v fuel path off dst n) d =
    some (some (t, buf), d₁) →
    ∃ buf' d₁', run (fat32VfsReadAt v fuel path off dst n) d' = some (some (t, buf'), d₁') ∧
      ∀ x, x < t → buf' x = buf x

/-- What a read of a file returns. -/
theorem vfsRead_run {e : Dirent} (off : Nat) (dst : Nat → UInt8) (n : Nat)
    (hheld : ∀ c ∈ cs, v.Holds d.sectorCount c)
    (hopen : run (fat32Open v fuel path) d = some (some e, d)) (hfile : e.isDir = false)
    (hsize : e.size ≤ cs.length * v.bytesPerCluster)
    (hchain : e.size ≠ 0 → ∃ L, Chain v d e.firstCluster (cs ++ L)) :
    ∃ buf, run (fat32VfsReadAt v fuel path off dst n) d =
      some (some (min n (e.size - off), buf), d) ∧
      ∀ x, x < min n (e.size - off) → buf x = content v d cs (off + x) := by
  rw [fat32VfsReadAt, run_bind_of hopen]
  dsimp only
  rw [hfile, if_neg Bool.false_ne_true]
  by_cases hoff : e.size ≤ off
  · have hzero : min n (e.size - off) = 0 := by omega
    rw [if_pos hoff, hzero]
    exact ⟨dst, rfl, fun x hx => absurd hx (Nat.not_lt_zero x)⟩
  rw [if_neg hoff]
  rcases Nat.eq_zero_or_pos (min n (e.size - off)) with hzero | hpos
  · rw [hzero]
    exact ⟨dst, rfl, fun x hx => absurd hx (Nat.not_lt_zero x)⟩
  obtain ⟨L, hL⟩ := hchain (by omega)
  obtain ⟨t, buf, hrun, hbytes, -, hall⟩ := fat32ReadAt_run off dst hL hpos
  have hreadable : Readable v d (cs ++ L) off (min n (e.size - off)) := by
    intro x hx
    have hlt : off + x < cs.length * v.bytesPerCluster := by omega
    have hidx : (off + x) / v.bytesPerCluster < cs.length :=
      (Nat.div_lt_iff_lt_mul Volume.bytesPerCluster_pos).mpr hlt
    refine ⟨?_, ?_⟩
    · rw [List.length_append, Nat.add_mul]
      omega
    · rw [List.getD_append _ _ _ _ hidx, List.getD_eq_getElem _ _ hidx]
      exact fits_iff_holds.mpr (hheld _ (List.getElem_mem hidx))
  obtain rfl := hall hreadable
  refine ⟨buf, ?_, fun x hx => ?_⟩
  · rw [run_bind_of hrun]
    rfl
  · rw [hbytes x hx, content_append (by omega)]

/-- **The file is the same when its bytes are.** -/
theorem sameFile_iff {e : Dirent} (hheld : ∀ c ∈ cs, v.Holds d.sectorCount c)
    (hsectors : d'.sectorCount = d.sectorCount)
    (hopen : run (fat32Open v fuel path) d = some (some e, d))
    (hopen' : run (fat32Open v fuel path) d' = some (some e, d')) (hfile : e.isDir = false)
    (hsize : e.size ≤ cs.length * v.bytesPerCluster)
    (hchain : Chain v d e.firstCluster cs)
    (hchain' : e.size ≠ 0 → ∃ L, Chain v d' e.firstCluster (cs ++ L)) :
    SameFile v fuel path d d' ↔ ∀ x, x < e.size → content v d' cs x = content v d cs x := by
  have hold : e.size ≠ 0 → ∃ L, Chain v d e.firstCluster (cs ++ L) :=
    fun _ => ⟨[], by rwa [List.append_nil]⟩
  have hheld' : ∀ c ∈ cs, v.Holds d'.sectorCount c := by rwa [hsectors]
  constructor
  · intro hsame x hx
    obtain ⟨buf, hread, hbuf⟩ := vfsRead_run x (fun _ => 0) 1 hheld hopen hfile hsize hold
    obtain ⟨buf', hread', hbuf'⟩ := vfsRead_run x (fun _ => 0) 1 hheld' hopen' hfile hsize hchain'
    have hone : min 1 (e.size - x) = 1 := by omega
    rw [hone] at hread hbuf hread' hbuf'
    obtain ⟨buf'', d₁', hagain, heq⟩ := hsame.bytes x _ 1 1 buf d hread
    rw [hread'] at hagain
    cases hagain
    have h0 := hbuf 0 Nat.one_pos
    have h0' := hbuf' 0 Nat.one_pos
    rw [Nat.add_zero] at h0 h0'
    rw [← h0, ← h0']
    exact heq 0 Nat.one_pos
  intro hsame
  refine ⟨by rw [hopen, hopen']; rfl, fun off dst n t buf d₁ hread => ?_⟩
  obtain ⟨buf₀, hread₀, hbuf₀⟩ := vfsRead_run off dst n hheld hopen hfile hsize hold
  obtain ⟨buf', hread', hbuf'⟩ := vfsRead_run off dst n hheld' hopen' hfile hsize hchain'
  rw [hread₀] at hread
  cases hread
  refine ⟨buf', d', hread', fun x hx => ?_⟩
  rw [hbuf₀ x hx, hbuf' x hx]
  exact hsame _ (by omega)

/-- A path that leads to no file. -/
theorem sameFile_nothing {r : Option Dirent} (hopen : run (fat32Open v fuel path) d = some (r, d))
    (hopen' : run (fat32Open v fuel path) d' = some (r, d'))
    (hnone : ∀ e, r = some e → e.isDir = true) :
    SameFile v fuel path d d' := by
  refine ⟨by rw [hopen, hopen']; rfl, fun off dst n t buf d₁ hread => ?_⟩
  rw [fat32VfsReadAt, run_bind_of hopen] at hread
  cases r with
  | none => cases hread
  | some e =>
    dsimp only at hread
    rw [if_pos (hnone e rfl)] at hread
    cases hread

/-! ## 2. The file of a path -/

/-- No entry says more bytes than its chain has room for. -/
def SizesFit (v : Volume) (g : Layout) (d : Disk 512) : Prop :=
  ∀ c i it cs, g.dir c → i < v.slots → (image v d).item c i = some it → it.isDir = false →
    Chain v d it.first cs → it.size ≤ cs.length * v.bytesPerCluster

/-- **The file of a path**: its entry, in a directory, and its chain, outside of the directories. -/
structure OpenFile (v : Volume) (g : Layout) (fuel : Nat) (path : List UInt8)
    (d : Disk 512) (e : Dirent)
    (cs : List Nat) : Prop where
  found : run (fat32Open v fuel path) d = some (some e, d)
  notDir : e.isDir = false
  file : IsFile v d e.firstCluster cs
  size_le : e.size ≤ cs.length * v.bytesPerCluster
  held : ∀ c ∈ cs, v.Holds d.sectorCount c
  outside : ∀ c, g.dir c → c ∉ cs
  entry : ∃ c i it, g.dir c ∧ i < v.slots ∧ (image v d).item c i = some it ∧
    it.first = e.firstCluster

theorem WellFormed.openFile {e : Dirent} (h : WellFormed v g d) (hfit : SizesFit v g d)
    (hopen : run (fat32Open v fuel path) d = some (some e, d)) (hfile : e.isDir = false) :
    ∃ cs, OpenFile v g fuel path d e cs := by
  obtain ⟨s, ⟨hdir, i, hslot⟩, rfl⟩ := h.located_open hopen
  obtain ⟨it, hit, hisDir, hfirst, hsize⟩ := hslot.item
  have hnot := hisDir.trans hfile
  obtain ⟨cs, hchain, howns⟩ := h.file hdir hslot.lt hit hnot
  refine ⟨cs, hopen, hfile, hfirst ▸ hchain, ?_,
    fun c hc => h.tidy.held c _ (howns c hc), fun c hc => h.dir_not_file hit hnot howns hc,
    ⟨_, i, it, hdir, hslot.lt, hit, hfirst⟩⟩
  rw [← hsize]
  exact hfit _ i it cs hdir hslot.lt hit hnot hchain.chain

end DyntKernel.Fat
