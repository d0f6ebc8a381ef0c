/-
  File:      DyntKernel/Fat/Copies.lean
  Subject:   THE COPIES OF THE TABLE (fs/fat32.c, fat_write_entry).

  A volume has `fat_count` copies of its table, one behind the other. An entry is written to the
  first of them only, so a call that takes or gives back a cluster leaves the others behind.

  * `CopiesAgree` -- all copies are the same;
  * `Spares` -- a program that writes clusters only, with one rule for each way to build a program;
  * `Call`, `CallRun` -- the calls, one after the other;
  * `QuietCall` -- the calls that take no cluster and give none back;
  * **`copies_agree_of_quiet`** -- the copies stay the same in every run of quiet calls;
  * `copies_differ` -- a file of one byte makes them differ.
-/
import DyntKernel.Fat.FailedWrites
import DyntKernel.Fat.Mkdir

namespace DyntKernel.Fat

open Library Prog

variable {v : Volume} {g : Layout} {d d' : Disk 512} {path : List UInt8} {src data : Nat → UInt8}
  {c fuel off size : Nat}

/-! ## 1. Copies -/

/-- **Every copy of the table holds the same bytes as the first one.** -/
def CopiesAgree (v : Volume) (d : Disk 512) : Prop :=
  ∀ k, k < v.fatCount → ∀ x, x < v.fatSize * 512 →
    d.bytes ((v.fatStart + k * v.fatSize) * 512 + x) = d.bytes (v.fatStart * 512 + x)

theorem copiesAgree_one (h : v.fatCount = 1) : CopiesAgree v d := by
  intro k hk x _
  obtain rfl : k = 0 := by omega
  rw [Nat.zero_mul, Nat.add_zero]

theorem TablesKept.copies (hv : v.Sized) (h : TablesKept v d d') (hd : CopiesAgree v d) :
    CopiesAgree v d' := by
  intro k hk x hx
  have hle : (k + 1) * v.fatSize ≤ v.fatCount * v.fatSize := Nat.mul_le_mul_right _ hk
  have hstart : v.dataStart = v.fatStart + v.fatCount * v.fatSize := hv.dataStart_eq
  rw [Nat.add_mul, Nat.one_mul] at hle
  generalize hcopy : k * v.fatSize = a at hle
  rw [h.bytes _ (by omega), h.bytes _ (by omega), ← hcopy]
  exact hd k hk x hx

/-! ## 2. Programs that write clusters only -/

section Spares

variable {α β : Type} {p : Io α} {f : α → Io β} {a : α}

/-- **The program writes clusters only**: what is in front of them is the same when it ends. -/
def Spares (v : Volume) (p : Io α) (d : Disk 512) : Prop :=
  ∀ a d', run p d = some (a, d') → TablesKept v d d'

theorem Spares.of_run (h : run p d = some (a, d')) (hkept : TablesKept v d d') : Spares v p d := by
  intro a' d'' hrun
  rw [h] at hrun
  cases hrun
  exact hkept

theorem Spares.pure : Spares v (Pure.pure a) d := .of_run run_pure .refl

theorem Spares.readOnly (h : p.ReadOnly) : Spares v p d := fun _ _ hrun => h.disk hrun ▸ .refl

theorem Spares.bind (hp : Spares v p d) (hf : ∀ a d', run p d = some (a, d') → Spares v (f a) d') :
    Spares v (p >>= f) d := by
  intro b d'' hrun
  rw [run_bind] at hrun
  obtain ⟨⟨a, d'⟩, hfirst, hrest⟩ := Option.bind_eq_some_iff.mp hrun
  exact (hp a d' hfirst).trans (hf a d' hfirst b d'' hrest)

/-- What follows a result that is known. -/
theorem Spares.bind_of (h : run p d = some (a, d)) (hf : Spares v (f a) d) :
    Spares v (p >>= f) d := by
  refine Spares.bind (.of_run h .refl) fun a' d' hrun => ?_
  rw [h] at hrun
  cases hrun
  exact hf

end Spares

section Clusters

variable (hv : v.Sized) (hge : 2 ≤ c) (hc : c < v.total)

include hv hge hc

theorem spares_writeCluster :
    Spares v (blockWrite .data (clusterToLba v c) v.sectorsPerCluster data) d := by
  intro ok d' hrun
  rw [run_blockWrite, Disk.write] at hrun
  split_ifs at hrun
  · cases hrun
    exact .setCluster hv hge hc
  · cases hrun
    exact .refl

theorem spares_rewriteCluster {f : (Nat → UInt8) → Option (Nat → UInt8)} :
    Spares v (rewriteCluster v c f) d := by
  refine (Spares.readOnly ReadOnly.blockRead).bind fun r d' _ => ?_
  cases r with
  | none => exact .pure
  | some buf =>
    dsimp only
    cases f buf with
    | none => exact .pure
    | some data => exact spares_writeCluster hv hge hc

theorem spares_markEntryDeleted : Spares v (markEntryDeleted v c off) d := by
  refine (Spares.readOnly ReadOnly.blockRead).bind fun r d' _ => ?_
  cases r with
  | none => exact .pure
  | some buf =>
    dsimp only
    split_ifs
    · exact .pure
    · exact spares_writeCluster hv hge hc

end Clusters

/-! ## 3. Calls -/

/-- The calls that write. -/
inductive Call
  | writeFile (path : List UInt8) (rest src : Nat → UInt8) (size : Nat)
  | writeAt (path : List UInt8) (offset : Nat) (src : Nat → UInt8) (size : Nat)
  | mkdir (path : List UInt8) (rest : Nat → UInt8)
  | remove (path : List UInt8)

def Call.prog (v : Volume) (fuel : Nat) : Call → Io Unit
  | .writeFile path rest src size => do let _ ← fat32WriteFile v fuel path rest src size
  | .writeAt path offset src size => do let _ ← fat32VfsWriteAt v fuel path offset src size
  | .mkdir path rest => do let _ ← fat32Mkdir v fuel path rest
  | .remove path => do let _ ← fat32Remove v fuel path

/-- **A sequence of calls**, each of which meets the condition `P` on the disk it finds. -/
inductive CallRun (v : Volume) (fuel : Nat) (P : Disk 512 → Call → Prop)
    (d : Disk 512) : Disk 512 → Prop
  | start : CallRun v fuel P d d
  | step (d₁ d₂ : Disk 512) (call : Call) (h : CallRun v fuel P d d₁) (hP : P d₁ call)
      (hrun : run (call.prog v fuel) d₁ = some ((), d₂)) : CallRun v fuel P d d₂

/-- **The calls that take no cluster and give none back**, by what the search of the path finds on
    the disk. -/
inductive QuietCall (v : Volume) (fuel : Nat) (d : Disk 512) : Call → Prop
  | writeFile (path : List UInt8) (rest src : Nat → UInt8) (size : Nat)
      (t : Option (Nat × Option Slot))
      (ht : run (target v fuel path) d = some (t, d))
      (h : Harmless v d (lastComponent path) size t) :
      QuietCall v fuel d (.writeFile path rest src size)
  | writeAt (path : List UInt8) (offset : Nat) (src : Nat → UInt8) (size : Nat) (r : Option Dirent)
      (hr : run (fat32Open v fuel path) d = some (r, d))
      (h : ∀ e, r = some e → e.isDir = false → ∃ cs, Chain v d e.firstCluster cs ∧
        (size = 0 ∨ NoNew v d (writeBase v cs offset) size cs)) :
      QuietCall v fuel d (.writeAt path offset src size)
  | mkdir (path : List UInt8) (rest : Nat → UInt8) (t : Option (Nat × Option Slot))
      (ht : run (target v fuel path) d = some (t, d))
      (h : ¬ ValidNames path ∨ (∀ c, t ≠ some (c, none)) ∨ TableFull v d) :
      QuietCall v fuel d (.mkdir path rest)
  | remove (path : List UInt8) (r : Option Slot) (hr : run (resolve v fuel path) d = some (r, d))
      (h : ∀ loc, r = some loc → loc.dirent.firstCluster < 2 ∨
        loc.dirent.isDir = true ∧ SelfDot (image v d) loc.dirent.firstCluster) :
      QuietCall v fuel d (.remove path)

/-! ## 4. Quiet calls write clusters only -/

theorem readOnly_findSlotsLoop {slots last : Nat} :
    (findSlotsLoop v slots fuel c last).ReadOnly := by
  induction fuel generalizing c last with
  | zero => exact trivial
  | succ fuel ih =>
    rw [findSlotsLoop]
    split_ifs
    · refine ReadOnly.blockRead.bind fun r => ?_
      cases r with
      | none => exact ReadOnly.pure
      | some buf =>
        dsimp only
        cases findRun buf slots 0 v.slots 0 with
        | some offset => exact ReadOnly.pure
        | none => exact readOnly_fatReadEntry.bind fun _ => ih
    · exact ReadOnly.pure

section Quiet

variable {r : Option Slot} (h : WellFormed v g d) (hfuel : v.total ≤ fuel)

include h

theorem firstFree_zero_of_count (hfull : (image v d).freeCount v = 0) : firstFree v d = 0 := by
  rw [h.shows.firstFree]
  exact freeCount_zero_iff.mp hfull

include hfuel

/-- Room for an entry is found, or the directory cannot grow: nothing is written. -/
theorem run_slots_quiet {name : List UInt8} (hat : AtDir g c)
    (hslots : (image v d).freeCount v = 0 ∨ Room v d c name) :
    ∃ r, run (dirFindFreeSlots v fuel c (lfnPartsFor name + 1)) d = some (r, d) ∧
      ∀ p, r = some p → 2 ≤ p.1 ∧ p.1 < v.total := by
  obtain ⟨cs, hchain, hdirs⟩ := h.dirChain hat
  have hlen := hdirs.length_lt h.sized
  rw [room_iff hchain] at hslots
  have hends :
      Ends v d.sectorCount [] (findSlotsLoop v (lfnPartsFor name + 1) fuel c c) (image v d) _ :=
    ends_findSlotsLoop hdirs.inTable hdirs.held hdirs.linked (by omega)
  obtain ⟨r, d₁, -, hrun, -, hsearch, -⟩ := hends.run h.shows
  obtain rfl := readOnly_findSlotsLoop.disk hrun
  rw [dirFindFreeSlots, run_bind_of hrun]
  cases r with
  | inl place =>
    refine ⟨some place, rfl, fun p hp => ?_⟩
    cases hp
    exact hdirs.inTable _ hsearch.1
  | inr last =>
    have hfull := hslots.resolve_right fun hroom => by
      obtain ⟨x, hx, hrun'⟩ := hroom
      exact hsearch.2 x hx hrun'
    refine ⟨none, ?_, fun p hp => (by cases hp)⟩
    dsimp only
    rw [growDirectory, run_bind_of (run_alloc_full (firstFree_zero_of_count h hfull)), if_pos rfl]
    rfl

theorem spares_writeTarget {name : List UInt8} {rest : Nat → UInt8} {t : Option (Nat × Option Slot)}
    (ht : Searchable v g d t) (hquiet : Harmless v d name size t) :
    Spares v (writeTarget v fuel name rest src size t) d := by
  cases hquiet with
  | missing => exact .pure
  | full c e hn hfree =>
    obtain ⟨n, hn⟩ : ∃ n, clusterCount v size = n + 1 := ⟨clusterCount v size - 1, by omega⟩
    rw [writeTarget, hn, storeLoop, bind_assoc]
    refine Spares.bind_of (run_alloc_full (firstFree_zero_of_count h hfree)) ?_
    exact .pure
  | empty c loc hn hfirst =>
    obtain ⟨hge, hlt⟩ := h.loc_range ((ht c _ rfl).2 loc rfl)
    rw [writeTarget, hn, storeLoop, pure_bind]
    dsimp only
    rw [enterFile, if_neg (by omega), writeDirEntryAt_eq]
    exact spares_rewriteCluster h.sized hge hlt
  | slots c hn hslots =>
    obtain ⟨r, hrun, hplace⟩ := run_slots_quiet h hfuel (ht c none rfl).1 hslots
    rw [writeTarget, hn, storeLoop, pure_bind]
    dsimp only
    rw [enterFile]
    refine Spares.bind_of hrun ?_
    cases r with
    | none => exact .pure
    | some p =>
      obtain ⟨hge, hlt⟩ := hplace p rfl
      dsimp only
      rw [createDirEntries_eq]
      exact spares_rewriteCluster h.sized hge hlt

omit hfuel in
/-- A directory is not made: nothing is written. -/
theorem spares_mkdir {rest : Nat → UInt8} {t : Option (Nat × Option Slot)}
    (ht : run (target v fuel path) d = some (t, d))
    (hquiet : ¬ ValidNames path ∨ (∀ c, t ≠ some (c, none)) ∨ TableFull v d) :
    Spares v (fat32Mkdir v fuel path rest) d := by
  intro r d' hrun
  rcases fat32Mkdir_run rest ht with ⟨c, ⟨hnames, rfl⟩, heq⟩ | ⟨-, err, heq⟩
  · rw [heq] at hrun
    have hfull := (hquiet.resolve_left fun hnot => hnot hnames).resolve_left fun hnot => hnot c rfl
    rw [makeAt, run_bind_of (run_alloc_full ((tableFull_iff h.tables).mp hfull))] at hrun
    cases hrun
    exact .refl
  · rw [heq] at hrun
    cases hrun
    exact .refl

omit hfuel in
/-- **A directory that contains `.` is not removed**: nothing is written on any level. -/
theorem run_removeSelf {f levels : Nat} (hf : g.dir f) (hself : SelfDot (image v d) f) :
    ∀ r d', run (removeRecursive v fuel levels f) d = some (r, d') → r ≠ .ok () ∧ d' = d := by
  induction levels with
  | zero =>
    intro r d' hrun
    cases hrun
    exact ⟨fun hok => (by cases hok), rfl⟩
  | succ levels ih =>
    intro r d' hrun
    obtain ⟨hge, hlt⟩ := h.dir_range hf
    have hvalid : clusterValid f = true := clusterValid_of hge (Nat.lt_of_lt_of_le hlt h.numbers)
    rw [removeRecursive] at hrun
    obtain ⟨⟨found, items⟩, hcollect, hrest⟩ := readOnly_readDirectoryLoop.run_bind hrun
    obtain ⟨-, -, hcollected, -⟩ := (does_collect hvalid hlt (h.dir_holds hf)).run h.shows hcollect
    obtain ⟨it, hit, -, hdir, hfirst⟩ := hself
    obtain ⟨s, hs, hslot⟩ := hcollected.2 (live_of_item hit)
    obtain ⟨it', hit', hisDir, hsfirst, -⟩ := hslot.item
    obtain rfl : it = it' := Option.some.inj (hit.symm.trans hit')
    obtain ⟨items, rfl⟩ : ∃ rest, items = s :: rest := by
      cases items with
      | nil => cases hs
      | cons x items =>
        obtain rfl : x = s := Option.some.inj hs
        exact ⟨items, rfl⟩
    dsimp only at hrest
    rw [removeItems, releaseEntry, if_pos (hisDir.symm.trans hdir), ← hsfirst, hfirst,
      bind_assoc, run_bind] at hrest
    obtain ⟨⟨r', d₂⟩, hinner, hlast⟩ := Option.bind_eq_some_iff.mp hrest
    obtain ⟨hne, rfl⟩ := ih r' d₂ hinner
    cases r' with
    | ok u => exact absurd rfl hne
    | error err =>
      cases hlast
      exact ⟨fun hok => (by cases hok), rfl⟩

omit hfuel in
/-- An entry without a chain, or of a directory that contains `.`, is removed. -/
theorem spares_removeItem {loc : Slot} (hloc : Located v g (image v d) loc)
    (hquiet : loc.dirent.firstCluster < 2 ∨
      loc.dirent.isDir = true ∧ SelfDot (image v d) loc.dirent.firstCluster) :
    Spares v (removeItems v (removeRecursive v fuel 17) [loc]) d := by
  obtain ⟨hge, hlt⟩ := h.loc_range hloc
  obtain ⟨hdir, i, hslot⟩ := hloc
  have hrelease : ∀ r d', run (releaseEntry v (removeRecursive v fuel 17) loc.dirent) d =
      some (r, d') → d' = d := by
    intro r d' hrun
    rw [releaseEntry] at hrun
    split_ifs at hrun with hisDir hfirst
    · rcases h.tidy.atDir hdir hslot hisDir with hf | hzero
      · obtain ⟨hge', -⟩ := h.dir_range hf
        exact (run_removeSelf h hf (hquiet.resolve_left fun hlt => by omega).2 r d' hrun).2
      rw [hzero, removeRecursive, readDirectory] at hrun
      cases fuel with
      | zero => cases hrun
      | succ fuel =>
        rw [readDirectoryLoop, if_neg (by decide)] at hrun
        cases hrun
        rfl
    · obtain ⟨hyes, -⟩ := hquiet.resolve_left fun hlt => by omega
      exact absurd hyes hisDir
    · cases hrun
      rfl
  rw [removeItems]
  refine Spares.bind (fun r d' hrun => hrelease r d' hrun ▸ .refl) fun r d' hrun => ?_
  cases r with
  | error err => exact .pure
  | ok u => exact (spares_markEntryDeleted h.sized hge hlt).bind fun _ _ _ => .pure

omit hfuel in
theorem spares_remove (hr : run (resolve v fuel path) d = some (r, d))
    (hquiet : ∀ loc, r = some loc → loc.dirent.firstCluster < 2 ∨
      loc.dirent.isDir = true ∧ SelfDot (image v d) loc.dirent.firstCluster) :
    Spares v (fat32Remove v fuel path) d := by
  intro a d' hrun
  rcases fat32Remove_run hr with ⟨err, rfl, heq⟩ | ⟨loc, rfl, heq⟩
  · rw [heq] at hrun
    cases hrun
    exact .refl
  · rw [heq] at hrun
    exact spares_removeItem h (h.located hr) (hquiet loc rfl) a d' hrun

omit hfuel in
/-- The size is recorded in the entry, on a disk with the same directories. -/
theorem spares_recordSize {e : Dirent} {offset : Nat} {w : Nat × Nat} (hs : SameDirs v g d d')
    (hopen : run (fat32Open v fuel path) d = some (some e, d)) :
    Spares v (recordSize v fuel path e offset size w) d' := by
  obtain ⟨res, d'', left, hrun, hkept, -⟩ := recordSize_faulty h hs hopen offset size [] w
  exact .of_run (runFaulty_nil.mp hrun).1 hkept

omit hfuel in
/-- **`fat32_vfs_write_at` without a new cluster.** -/
theorem spares_writeAt {offset : Nat} {e : Option Dirent}
    (hopen : run (fat32Open v fuel path) d = some (e, d))
    (hquiet : ∀ e', e = some e' → e'.isDir = false → ∃ cs, Chain v d e'.firstCluster cs ∧
      (size = 0 ∨ NoNew v d (writeBase v cs offset) size cs)) :
    Spares v (fat32VfsWriteAt v fuel path offset src size) d := by
  rw [fat32VfsWriteAt]
  refine Spares.bind_of hopen ?_
  cases e with
  | none => exact .pure
  | some e =>
    dsimp only
    cases hdir : e.isDir with
    | true =>
      rw [if_pos rfl]
      exact .pure
    | false =>
      obtain ⟨cs, hchain, hroom⟩ := hquiet e rfl hdir
      obtain ⟨s, ⟨hsdir, i, hslot⟩, rfl⟩ := h.located_open hopen
      obtain ⟨it, hit, hisDir, hfirst, -⟩ := hslot.item
      obtain ⟨cs', hfile, howns⟩ := h.file hsdir hslot.lt hit (hisDir.trans hdir)
      rw [hfirst] at hfile
      obtain rfl := hchain.unique hfile.chain
      rw [if_neg Bool.false_ne_true]
      obtain ⟨d₁, p, left, hwrite, -, hkept, hend⟩ :=
        write_end h.sized h.numbers hfile ⟨rfl, h.tables⟩ (fun x hx =>
          h.tidy.held x _ (howns x hx)) offset src size
          (.inl rfl)
      have hwrite := (runFaulty_nil.mp hwrite).1
      refine Spares.bind (.of_run hwrite (hkept hroom)) fun w d₂ hrun => ?_
      rw [hwrite] at hrun
      cases hrun
      have hsame :=
        h.sameDirs_of_progress (fun c hc => h.dir_not_file hit (hisDir.trans hdir) howns hc)
        hend.progress hend.device
      exact spares_recordSize h hsame hopen

/-- **A quiet call writes clusters only.** -/
theorem QuietCall.spares {call : Call} (hquiet : QuietCall v fuel d call) :
    Spares v (call.prog v fuel) d := by
  cases hquiet with
  | writeFile path rest src size t ht hharm =>
    obtain ⟨-, -, hfound, -⟩ := (does_target h.tidy).run h.shows ht
    rw [Call.prog, fat32WriteFile_target]
    refine Spares.bind (Spares.bind_of ht ?_) fun _ _ _ => .pure
    exact spares_writeTarget h hfuel (fun c e hte => (hfound c e hte).imp_left AtHead.atDir) hharm
  | writeAt path offset src size r hr hroom =>
    exact (spares_writeAt h hr hroom).bind fun _ _ _ => .pure
  | mkdir path rest t ht hno => exact (spares_mkdir h ht hno).bind fun _ _ _ => .pure
  | remove path r hr hno => exact (spares_remove h hr hno).bind fun _ _ _ => .pure

end Quiet

/-- **The copies of the table stay the same in every run of quiet calls on a well-formed volume**,
    and in every run when there is only one. -/
theorem copies_agree_of_quiet (hfuel : v.total ≤ fuel) (hcopies : CopiesAgree v d)
    (hrun : CallRun v fuel (fun d₁ call => v.fatCount = 1 ∨ ∃ g, WellFormed v g d₁ ∧
      QuietCall v fuel d₁ call) d d') :
    CopiesAgree v d' := by
  induction hrun with
  | start => exact hcopies
  | step d₁ d₂ call _ hP hstep ih =>
    rcases hP with hone | ⟨g, hwell, hquiet⟩
    · exact copiesAgree_one hone
    · exact (hquiet.spares hwell hfuel () d₂ hstep).copies hwell.sized ih

/-- A volume with two copies of a table of one sector. -/
def twinVolume : Volume :=
  { smallVolume with
    fatCount := 2
    count_pos := Nat.succ_ne_zero 1
    count_lt := Nat.lt_add_of_pos_right (k := 254) (Nat.succ_pos 253) }

/-- An empty root directory on this volume. -/
def twinDisk : Disk 512 :=
    ⟨129, fun x => if 512 ≤ x ∧ x < 524 ∨ 1024 ≤ x ∧ x < 1036 then 0xFF else 0⟩

theorem twinDisk_flat : Flat twinVolume (fun _ => none) twinDisk where
  sized := ⟨by decide, by decide, by decide⟩
  numbers := by decide
  tables := (by decide : twinVolume.dataStart ≤ 129)
  mark := by decide +kernel
  root := by decide +kernel
  root_held := by decide
  files := fun _ _ hs => by cases hs
  items := by decide +kernel

theorem twinDisk_copies : CopiesAgree twinVolume twinDisk := by
  have hall : ∀ k, k < 2 → ∀ x, x < 512 →
      twinDisk.bytes ((1 + k * 1) * 512 + x) = twinDisk.bytes (1 * 512 + x) := by
    decide +kernel
  exact hall

/-- A file of one byte: its cluster is marked in the first copy only. -/
theorem copies_differ : WellFormed twinVolume (flatLayout twinVolume fun _ => none) twinDisk ∧
    CopiesAgree twinVolume twinDisk ∧
    ∃ d', run ((Call.writeFile [0x41] (fun _ => 0) (fun _ => 7) 1).prog twinVolume 128) twinDisk =
      some ((), d') ∧
      ¬ CopiesAgree twinVolume d' := by
  refine ⟨twinDisk_flat.wellFormed, twinDisk_copies, ?_⟩
  have hrun :
      (run ((Call.writeFile [0x41] (fun _ => 0) (fun _ => 7) 1).prog twinVolume 128) twinDisk).map
      (fun r => (r.2.bytes 524, r.2.bytes 1036)) = some (0xF8, 0) := by decide +kernel
  obtain ⟨⟨u, d'⟩, hr, heq⟩ := Option.map_eq_some_iff.mp hrun
  obtain ⟨hfirst, hsecond⟩ := Prod.ext_iff.mp heq
  refine ⟨d', hr, fun hagree => ?_⟩
  have hsame : d'.bytes 1036 = d'.bytes 524 := hagree 1 (by decide) 12 (by decide)
  rw [show d'.bytes 524 = 0xF8 from hfirst, show d'.bytes 1036 = 0 from hsecond] at hsame
  exact absurd hsame (by decide)

/-- The same volume with a file A of one byte in the cluster 3. -/
def twinFileDisk : Disk 512 :=
  ⟨129, fun x => if 512 ≤ x ∧ x < 528 ∨ 1024 ≤ x ∧ x < 1040 then 0xFF
    else if x = 1536 then 0x41 else if 1536 < x ∧ x ≤ 1547 then 0x20 else if x = 1562 then 3
    else if x = 1564 then 1 else 0⟩

theorem twinFileDisk_flat :
    Flat twinVolume (fun c => if c = 3 then some 0 else none) twinFileDisk where
  sized := ⟨by decide, by decide, by decide⟩
  numbers := by decide
  tables := (by decide : twinVolume.dataStart ≤ 129)
  mark := by decide +kernel
  root := by decide +kernel
  root_held := by decide
  files := fun c s hs => by
    split_ifs at hs with hc
    subst hc
    decide +kernel
  items := by decide +kernel

/-- The cluster of a file is written again: its bytes change, and both copies are as before. -/
theorem copies_agree_rewritten : ∃ d',
    run ((Call.writeAt [0x41] 0 (fun _ => 7) 512).prog twinVolume 128) twinFileDisk =
    some ((), d') ∧
      (clusterBytes twinVolume twinFileDisk 3 0 = 0 ∧ clusterBytes twinVolume d' 3 0 = 7) ∧
      CopiesAgree twinVolume d' := by
  have hcopies : CopiesAgree twinVolume twinFileDisk := by
    have hall : ∀ k, k < 2 → ∀ x, x < 512 →
        twinFileDisk.bytes ((1 + k * 1) * 512 + x) = twinFileDisk.bytes (1 * 512 + x) := by
      decide +kernel
    exact hall
  have hfind : (run (fat32Open twinVolume 128 [0x41]) twinFileDisk).map
      (fun r => r.1.map Dirent.firstCluster) =
        some (some 3) := by decide +kernel
  have hrun : (run ((Call.writeAt [0x41] 0 (fun _ => 7) 512).prog twinVolume 128) twinFileDisk).map
      (fun r => clusterBytes twinVolume r.2 3 0) = some 7 := by decide +kernel
  obtain ⟨e, hopen, hfirst⟩ := readOnly_fat32Open.found hfind
  obtain ⟨⟨u, d'⟩, hr, hbyte⟩ := Option.map_eq_some_iff.mp hrun
  have hchain : Chain twinVolume twinFileDisk 3 [3] :=
    ⟨rfl, rfl, (by decide +kernel : clusterValid (entryAt twinVolume twinFileDisk 3) = false)⟩
  have hquiet : QuietCall twinVolume 128 twinFileDisk (.writeAt [0x41] 0 (fun _ => 7) 512) := by
    refine .writeAt _ _ _ _ _ hopen fun e' he _ => ⟨[3], ?_, .inr (.inr (by decide))⟩
    rw [← Option.some.inj he, hfirst]
    exact hchain
  exact ⟨d', hr, ⟨by decide +kernel, hbyte⟩, copies_agree_of_quiet (by decide) hcopies
    (.step twinFileDisk d' _ .start (.inr ⟨_, twinFileDisk_flat.wellFormed, hquiet⟩) hr)⟩

end DyntKernel.Fat
