/-
  File:      DyntKernel/Fat/Aliases.lean
  Subject:   SHORT NAMES AND ATTRIBUTES under writes (fs/fat32.c, write_dir_entry_at and its callers
             fat32_write_file and fat32_update_size).

  Both callers write the whole entry again: the short name is computed from the last component of
  the path and the attribute is that of an ordinary file. The checksum in the parts of the long name
  fits only while the short name stays.

  * `EntryKept`, `SameAlias` -- the other fields stay, and the condition on the name;
  * `fat32Write_dirs`, `storeLoop` by `Stored` -- until the entry is written no directory changes;
  * **`alias_kept_iff`** -- both routines.
-/
import DyntKernel.Fat.WriteFile

namespace DyntKernel.Fat

open Library Prog List

variable {v : Volume} {g : Layout} {d d' : Disk 512} {m m₀ m' : Image} {cs : List Nat} {loc : Slot}
  {name path short : List UInt8} {rest src buf e : Nat → UInt8}
  {N c first fuel i offset size x : Nat}

/-! ## 1. The fields of an entry -/

/-- A byte of the first cluster or of the size. -/
def WriteField (j : Nat) : Prop := 20 ≤ j ∧ j < 22 ∨ 26 ≤ j ∧ j < 32

/-- **The entry has the same bytes but for the first cluster and the size.** -/
def EntryKept (v : Volume) (loc : Slot) (d d' : Disk 512) : Prop :=
  ∀ j, j < 32 → ¬ WriteField j →
    clusterBytes v d' loc.cluster (loc.offset + j) = clusterBytes v d loc.cluster (loc.offset + j)

/-- The entry has the short name that the last component of the path yields, and the attribute of a
    file that was written. -/
def SameAlias (path : List UInt8) (loc : Slot) : Prop :=
  encodeShortName (lastComponent path) = some ((List.range 11).map loc.entry) ∧ loc.entry 11 = 0x20

/-- What `write_dir_entry_at` writes besides the two fields. -/
theorem stamp_bytes (hlen : short.length = 11) :
    (∀ j, j < 32 → ¬ WriteField j →
      stampEntry (putBytes buf offset short) offset first size false (offset + j) =
      buf (offset + j)) ↔ (∀ j, j < 11 → short.getD j 0 = buf (offset + j)) ∧
        0x20 = buf (offset + 11) := by
  have hname (j : Nat) (hj : j < 11) :
      stampEntry (putBytes buf offset short) offset first size false (offset + j) =
        short.getD j 0 := by
    rw [stampEntry_of_out (.inl (by omega)), putBytes, blit_of_in (by omega)]
  have hattr : stampEntry (putBytes buf offset short) offset first size false
      (offset + 11) = 0x20 := by
    simp only [stampEntry, writeLE]
    rw [blit_of_out (by omega), blit_of_out (by omega),
      blit_of_out (by omega), Function.update_self]
    rfl
  have hother (j : Nat) (hj : j < 32) (hfield : ¬ WriteField j) (hge : 12 ≤ j) :
      stampEntry (putBytes buf offset short) offset first size false (offset + j) =
        buf (offset + j) := by
    rw [WriteField] at hfield
    simp only [stampEntry, writeLE]
    rw [blit_of_out (by omega), blit_of_out (by omega), blit_of_out (by omega),
      Function.update_of_ne (by omega),
      putBytes_of_out (by omega)]
  constructor
  · intro h
    refine ⟨fun j hj => ?_, ?_⟩
    · rw [← hname j hj]
      exact h j (by omega) (by rw [WriteField]; omega)
    · rw [← hattr]
      exact h 11 (by decide) (by rw [WriteField]; omega)
  rintro ⟨hshort, h11⟩ j hj hfield
  rcases Nat.lt_trichotomy j 11 with hlt | rfl | hgt
  · rw [hname j hlt]
    exact hshort j hlt
  · rw [hattr]
    exact h11
  · exact hother j hj hfield hgt

/-- The condition in terms of the bytes. -/
theorem sameAlias_iff (hshort : encodeShortName (lastComponent path) = some short)
    (hentry : ∀ j, j < 32 → loc.entry j = e j) :
    SameAlias path loc ↔ (∀ j, j < 11 → short.getD j 0 = e j) ∧ 0x20 = e 11 := by
  have hlen := (encodeShortName_spec hshort).1
  rw [SameAlias, hshort, hentry 11 (by decide), Option.some.injEq, eq_comm (a := e 11)]
  refine and_congr_left fun _ => ⟨fun h j hj => ?_, fun h => ?_⟩
  · rw [h, getD_eq_getElem _ _ (by rw [length_map, length_range]; exact hj),
      getElem_map, getElem_range]
    exact hentry j (by omega)
  · refine ext_getElem (by rw [length_map, length_range, hlen]) fun j hj hj' => ?_
    rw [hlen] at hj
    rw [getElem_map, getElem_range, hentry j (by omega), ← h j hj, getD_eq_getElem]

/-- **An entry of a directory that is rewritten**, on a disk whose directories are those of `d`. -/
theorem entryKept_iff (hloc : SlotOf v (image v d) loc.cluster i loc) (hd' : Shows v N d' m')
    (hrange : 2 ≤ loc.cluster ∧ loc.cluster < v.total)
    (hshort : encodeShortName (lastComponent path) = some short)
    (hbuf : ∀ j, j < v.bytesPerCluster → buf j = clusterBytes v d loc.cluster j)
    (hdata : m'.data loc.cluster =
      stampEntry (putBytes buf loc.offset short) loc.offset first size false) :
    EntryKept v loc d d' ↔ SameAlias path loc := by
  have hinside (j : Nat) (hj : j < 32) : loc.offset + j < v.bytesPerCluster := by
    rw [hloc.offset]
    exact slot_inside hloc.lt hj
  have hentry : ∀ j, j < 32 → loc.entry j = buf (loc.offset + j) := fun j hj => by
    rw [hloc.entry j hj, hbuf _ (hinside j hj), hloc.offset]
    rfl
  rw [sameAlias_iff hshort hentry, ← stamp_bytes (encodeShortName_spec hshort).1]
  refine forall_congr' fun j => imp_congr_right fun hj => imp_congr_right fun _ => ?_
  rw [hd'.data _ _ hrange.1 hrange.2 (hinside j hj), hdata, hbuf _ (hinside j hj)]

/-! ## 2. `fat32_write_file` -/

/-- The entry of an existing file after the call. -/
theorem ends_rewrite (hv : v.Sized) (hbad : v.total ≤ bad) (hcs : InTable v cs)
    (h : Linked m.table loc.dirent.firstCluster cs) (hused : ∀ x ∈ cs, m.table x ≠ 0)
    (hloc : 2 ≤ loc.cluster ∧ loc.cluster < v.total) (hheld : v.Holds N loc.cluster)
    (hdir : m.table loc.cluster ≠ 0) :
    Ends v N [] (writeTarget v fuel name rest src size (some (c, some loc))) m
    (fun ok m' _ => ok = true →
      ∃ short buf first, encodeShortName name = some short ∧
        (∀ j, j < v.bytesPerCluster → buf j = m.data loc.cluster j) ∧
        m'.data loc.cluster =
          stampEntry (putBytes buf loc.offset short) loc.offset first size false) := by
  rw [writeTarget]
  refine (ends_store hv hbad).bind fun r m₁ left hpost => ?_
  obtain ⟨rfl, hresult⟩ := hpost
  cases hresult with
  | full L _ _ _ _ _ => exact Ends.pure fun hok => absurd hok Bool.false_ne_true
  | back _ _ _ _ => exact Ends.pure fun hok => absurd hok Bool.false_ne_true
  | all L _ hL _ _ =>
    have hnot : ∀ x ∈ cs, x ∉ L := fun x hx hmem => hused x hx (hL.fresh x hmem)
    have hlinked : Linked m₁.table loc.dirent.firstCluster cs :=
      h.congr fun x hx => hL.table x (hnot x hx)
    refine (ends_enterExisting hv hcs hlinked hloc hheld fun k _ => by rw [drop_nil]; rfl).mono
      fun ok m' _ hrew hok => ?_
    subst hok
    rcases hrew with ⟨-, hfail, -⟩ | ⟨short, buf, hshort, hbuf, -, rfl⟩
    · cases hfail
    · refine ⟨short, buf, L.headD 0, hshort, fun j hj => ?_, ?_⟩
      · rw [hbuf j hj, hL.data loc.cluster fun hmem => hdir (hL.fresh _ hmem)]
      · rw [if_pos rfl, Image.setData_self]

/-- **An existing file is written again.** -/
theorem write_file_alias (h : WellFormed v g d)
    (hresolve : run (resolve v fuel path) d = some (some loc, d))
    (hrun : run (fat32WriteFile v fuel path rest src size) d = some (true, d')) :
    EntryKept v loc d d' ↔ SameAlias path loc := by
  have hloc := h.located hresolve
  obtain ⟨cs, hfile, -⟩ := h.entryChain hloc
  obtain ⟨hdir, i, hslot⟩ := hloc
  have hrange := h.dir_range hdir
  have hdused : (image v d).table loc.cluster ≠ 0 := by
    obtain ⟨o, hown⟩ := h.tidy.dir_own _ hdir
    exact h.tidy.used _ o hown
  have hlinked := (linked_iff_chain h.shows hfile.inTable).mpr hfile.chain
  rw [resolve_target] at hresolve
  obtain ⟨t, ht, hret⟩ := readOnly_target.run_bind hresolve
  have hfound : t.bind Prod.snd = some loc := (Prod.ext_iff.mp (Option.some.inj hret)).1
  obtain ⟨⟨c, e⟩, rfl, he⟩ := Option.bind_eq_some_iff.mp hfound
  obtain rfl : e = some loc := he
  rw [fat32WriteFile_target, run_bind_of ht] at hrun
  obtain ⟨m', hd', hpost⟩ := (ends_rewrite h.sized h.numbers hfile.inTable hlinked hfile.used hrange
    (h.dir_holds hdir) hdused).result_run h.shows hrun
  obtain ⟨short, buf, first, hshort, hbuf, hdata⟩ := hpost rfl
  exact entryKept_iff hslot hd' hrange hshort hbuf hdata

/-! ## 3. `fat32_vfs_write_at` -/

/-- **`fat32_write` changes no directory**, when it writes everything. -/
theorem fat32Write_dirs {first' : Nat} (h : WellFormed v g d) (hfile : IsFile v d first cs)
    (hcs : ∀ c, g.dir c → c ∉ cs)
    (hrun : run (fat32Write v first offset src size) d = some ((size, first'), d')) :
    SameDirs v g d d' := by
  refine ⟨run_sectorCount hrun, fun c hc j hj => ?_⟩
  rcases Nat.eq_zero_or_pos size with rfl | hsize
  · rw [fat32Write, if_pos rfl] at hrun
    cases hrun
    rfl
  · obtain ⟨p, hp, -⟩ := (fat32Write_spec h.sized h.numbers hfile hsize).run hrun rfl
    obtain ⟨hge, hlt⟩ := h.dir_range hc
    obtain ⟨o, hown⟩ := h.tidy.dir_own c hc
    exact (hp.file.others c hge hlt (h.tidy.used c o hown) (hcs c hc)).2 j hj

/-- The two searches of `fat32_vfs_write_at` find the same entry. -/
theorem open_resolve_eq {entry : Dirent} {d₁ : Disk 512}
    (hopen : run (fat32Open v fuel path) d = some (some entry, d₁))
    (hresolve : run (resolve v fuel path) d = some (some loc, d)) : entry = loc.dirent := by
  obtain ⟨d₂, hwalk⟩ := (finds_open.mp ⟨d₁, hopen⟩).2
  have hfinds : Finds (resolveDirent v fuel path) d loc.dirent :=
    ⟨d, by rw [resolveDirent, run_bind_of hresolve]; rfl⟩
  obtain ⟨d₃, hwalk'⟩ := (finds_resolve.mp hfinds).2
  rw [hwalk] at hwalk'
  exact Option.some.inj (Prod.ext_iff.mp (Option.some.inj hwalk')).1

/-- **A file is written at an offset.** -/
theorem write_at_alias {n : Nat} (h : WellFormed v g d)
    (hresolve : run (resolve v fuel path) d = some (some loc, d))
    (hfile : loc.dirent.isDir = false)
    (hrun : run (fat32VfsWriteAt v fuel path offset src size) d = some (some n, d')) :
    EntryKept v loc d d' ↔ SameAlias path loc := by
  obtain ⟨hdir, i, hslot⟩ := h.located hresolve
  have hrange := h.dir_range hdir
  rw [fat32VfsWriteAt] at hrun
  obtain ⟨found, hopen, hrest⟩ := readOnly_fat32Open.run_bind hrun
  cases found with
  | none => cases hrest
  | some entry =>
    obtain rfl := open_resolve_eq hopen hresolve
    dsimp only at hrest
    rw [hfile, if_neg Bool.false_ne_true, run_bind] at hrest
    obtain ⟨⟨⟨done, first'⟩, d₂⟩, hwrite, hupdate⟩ := Option.bind_eq_some_iff.mp hrest
    by_cases hdone : done = size
    · subst hdone
      obtain ⟨it, hit, hisDir, hfirst, -⟩ := hslot.item
      obtain ⟨cs, hchain, howns⟩ := h.file hdir hslot.lt hit (hisDir.trans hfile)
      rw [hfirst] at hchain
      have hsame :=
        fat32Write_dirs h hchain (fun c hc =>
          h.dir_not_file hit (hisDir.trans hfile) howns hc) hwrite
      obtain ⟨r, hresolve', hrel⟩ := resolve_same h hsame hresolve
      rw [if_neg (fun hne => hne rfl), run_bind] at hupdate
      obtain ⟨⟨ok, d₃⟩, hok, hret⟩ := Option.bind_eq_some_iff.mp hupdate
      cases ok with
      | false => cases hret
      | true =>
        obtain ⟨-, rfl⟩ : _ ∧ d₃ = d' := Prod.ext_iff.mp (Option.some.inj hret)
        rw [fat32UpdateSize_resolve, run_bind_of hresolve'] at hok
        obtain ⟨loc', rfl, halike⟩ : ∃ loc', r = some loc' ∧ loc.Alike loc' := by
          cases hrel with
          | some halike => exact ⟨_, rfl, halike⟩
        dsimp only at hok
        rw [← halike.cluster, ← halike.offset, writeDirEntryAt_eq] at hok
        have htables : v.TablesOn d₂ := by
          rw [Volume.TablesOn, hsame.sectors]
          exact h.tables
        obtain ⟨m', hd', buf, hbuf, ⟨-, hfail, -⟩ | ⟨data, hdata, -, rfl, -⟩⟩ :=
          (ends_rewriteCluster h.sized hrange.1 hrange.2
            (hsame.sectors ▸ h.dir_holds hdir)).result_run
            (shows_image htables) hok
        · cases hfail
        · obtain ⟨short, hshort, rfl⟩ := Option.map_eq_some_iff.mp hdata
          refine entryKept_iff hslot hd' hrange hshort (fun j hj => ?_) Image.setData_self
          rw [hbuf j hj]
          exact hsame.bytes _ hdir j hj
    · rw [if_pos hdone] at hupdate
      cases hupdate

/-- **A successful write changes in the entry only the first cluster and the size, exactly when the
    last component of the path yields the short name that is there and the attribute is that of an
    ordinary file.** -/
theorem alias_kept_iff (h : WellFormed v g d)
    (hresolve : run (resolve v fuel path) d = some (some loc, d))
    (hfile : loc.dirent.isDir = false) :
    (∀ offset src size n d', run (fat32VfsWriteAt v fuel path offset src size) d =
      some (some n, d') →
      (EntryKept v loc d d' ↔ SameAlias path loc)) ∧
    ∀ rest src size d', run (fat32WriteFile v fuel path rest src size) d = some (true, d') →
      (EntryKept v loc d d' ↔ SameAlias path loc) :=
  ⟨fun _ _ _ _ _ hrun => write_at_alias h hresolve hfile hrun,
    fun _ _ _ _ hrun => write_file_alias h hresolve hrun⟩

/-- A root directory with one empty file: the long name ab, and the short name X~1. -/
def aliasDisk : Disk 512 :=
  ⟨128, fun x =>
    if 512 ≤ x ∧ x < 524 then 0xFF
    else if x = 1024 then 0x41 else if x = 1025 then 0x61 else if x = 1027 then 0x62
      else if x = 1035 then 0x0F
    else if x = 1056 then 0x58 else if x = 1057 then 0x7E else if x = 1058 then 0x31
    else if 1058 < x ∧ x ≤ 1067 then 0x20 else 0⟩

/-- A root directory with one empty file A. -/
def plainDisk : Disk 512 :=
  ⟨128, fun x =>
    if 512 ≤ x ∧ x < 524 then 0xFF else if x = 1024 then 0x41
    else if 1024 < x ∧ x ≤ 1035 then 0x20 else 0⟩

theorem aliasDisk_flat : Flat smallVolume (fun _ => none) aliasDisk :=
  flat_small rfl (by decide +kernel) (by decide +kernel) (by decide +kernel)

theorem plainDisk_flat : Flat smallVolume (fun _ => none) plainDisk :=
  flat_small rfl (by decide +kernel) (by decide +kernel) (by decide +kernel)

/-- The file ab is written: its short name becomes AB, and the part of its long name has the
    checksum of X~1. -/
theorem alias_replaced : WellFormed smallVolume (flatLayout smallVolume fun _ => none) aliasDisk ∧
    ∃ loc d' n, run (resolve smallVolume 1 [0x61, 0x62]) aliasDisk = some (some loc, aliasDisk) ∧
      loc.dirent.isDir = false ∧
      run (fat32VfsWriteAt smallVolume 1 [0x61, 0x62] 0 (fun _ => 7) 1) aliasDisk =
        some (some n, d') ∧
      ¬ EntryKept smallVolume loc aliasDisk d' := by
  refine ⟨aliasDisk_flat.wellFormed, ?_⟩
  have hfind : (run (resolve smallVolume 1 [0x61, 0x62]) aliasDisk).map (fun r => r.1.map fun s =>
      (s.cluster, s.offset, s.dirent.isDir)) = some (some (2, 32, false)) := by decide +kernel
  have hwrite :
      (run (fat32VfsWriteAt smallVolume 1 [0x61, 0x62] 0 (fun _ => 7) 1) aliasDisk).map (fun r =>
      (r.1, clusterBytes smallVolume r.2 2 32)) = some (some 1, 0x41) := by decide +kernel
  obtain ⟨loc, hresolve, hloc⟩ := readOnly_resolve.found hfind
  obtain ⟨⟨n, d'⟩, hrun, hpair⟩ := Option.map_eq_some_iff.mp hwrite
  obtain ⟨rfl, hbyte⟩ := Prod.ext_iff.mp hpair
  obtain ⟨hcluster, hrest⟩ := Prod.ext_iff.mp hloc
  obtain ⟨hoffset, hdir⟩ := Prod.ext_iff.mp hrest
  refine ⟨loc, d', 1, hresolve, hdir, hrun, fun hkept => ?_⟩
  have hold := hkept 0 (by decide) (by rw [WriteField]; omega)
  rw [show loc.cluster = 2 from hcluster, show loc.offset = 32 from hoffset] at hold
  rw [show clusterBytes smallVolume d' 2 (32 + 0) = 0x41 from hbyte] at hold
  exact absurd hold (by decide +kernel)

theorem alias_kept_plain :
    ∃ loc d', run (resolve smallVolume 1 [0x61]) plainDisk = some (some loc, plainDisk) ∧
    run (fat32VfsWriteAt smallVolume 1 [0x61] 0 (fun _ => 7) 1) plainDisk = some (some 1, d') ∧
      EntryKept smallVolume loc plainDisk d' := by
  have hfind : (run (resolve smallVolume 1 [0x61]) plainDisk).map (fun r => r.1.map fun s =>
      (s.dirent.isDir, (List.range 11).map s.entry, s.entry 11)) =
      some (some (false,
        [0x41, 0x20, 0x20, 0x20, 0x20, 0x20, 0x20, 0x20, 0x20, 0x20, 0x20], 0x20)) := by
    decide +kernel
  have hwrite :
      (run (fat32VfsWriteAt smallVolume 1 [0x61] 0 (fun _ => 7) 1) plainDisk).map Prod.fst =
        some (some 1) := by decide +kernel
  obtain ⟨loc, hresolve, hloc⟩ := readOnly_resolve.found hfind
  obtain ⟨⟨n, d'⟩, hrun, rfl⟩ := Option.map_eq_some_iff.mp hwrite
  obtain ⟨hdir, hrest⟩ := Prod.ext_iff.mp hloc
  obtain ⟨hshort, hattr⟩ := Prod.ext_iff.mp hrest
  have halias : SameAlias [0x61] loc := by
    refine ⟨?_, hattr⟩
    rw [show (List.range 11).map loc.entry = _ from hshort]
    decide
  exact ⟨loc, d', hresolve, hrun,
    ((alias_kept_iff plainDisk_flat.wellFormed hresolve hdir).1 0 _ 1 1 d' hrun).mpr halias⟩

end DyntKernel.Fat
