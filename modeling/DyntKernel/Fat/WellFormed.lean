/-
  File:      DyntKernel/Fat/WellFormed.lean
  Subject:   WELL-FORMED VOLUMES and the paths on them.

  On a well-formed volume a layout gives every used cluster to one owner, and every chain ends. A
  path then leads through directories of the layout, and what it finds is a live entry of one of
  them. Disks with the same directories have the same paths.

  * `WellFormed`, `WellFormed.file` -- the volume, and the chain of a file on it;
  * `does_target`, `does_resolve`, `does_open` -- the walks along a path find a live entry of a
    directory;
  * `SameDirs`, `resolve_same` -- two disks with the same directories: the walk finds alike entries.
-/
import DyntKernel.Fat.Ends
import DyntKernel.Fat.Layout
import DyntKernel.Fat.Paths

namespace DyntKernel.Fat

open Library Prog

variable {v : Volume} {g : Layout} {d d' : Disk 512} {m : Image} {N c c' f i fuel : Nat} {s : Slot}
  {name path : List UInt8} {names : List (List UInt8)} {it : Item}

/-! ## 1. Well-formed volumes -/

/-- **A well-formed volume**: its geometry is computed without overflow and its tables lie on the
    device, the entry 0 of the table is a mark, every used cluster of the tree has one owner and
    lies on the device, and every chain ends. The table may have entries of clusters that the device
    does not have. -/
structure WellFormed (v : Volume) (g : Layout) (d : Disk 512) : Prop where
  sized : v.Sized
  numbers : v.total ≤ bad
  tables : v.TablesOn d
  mark : clusterValid (entryAt v d 0) = false
  tidy : Tidy v d.sectorCount g none (image v d)
  ends : ∀ c o, g.own c = some o → ∃ cs, Chain v d c cs

/-- The first cluster of a file belongs to its entry. -/
theorem Tidy.file_own (h : Tidy v N g none m) (hc : g.dir c) (hi : i < v.slots)
    (hit : m.item c i = some it)
    (hfile : it.isDir = false) : it.first = 0 ∨ g.own it.first = some (.entry c i) := by
  have ht := h.entry c i it hc hi (Option.some_ne_none _).symm hit
  refine ht.file (fun hdot => ?_) hfile
  rw [(ht.dot hdot).1] at hfile
  cases hfile

namespace WellFormed

variable (h : WellFormed v g d)

include h

theorem shows : Shows v d.sectorCount d (image v d) := shows_image h.tables

theorem dir_range (hc : g.dir c) : 2 ≤ c ∧ c < v.total := by
  obtain ⟨o, hown⟩ := h.tidy.dir_own c hc
  exact h.tidy.range c o hown

theorem dir_holds (hc : g.dir c) : v.Holds d.sectorCount c := by
  obtain ⟨o, hown⟩ := h.tidy.dir_own c hc
  exact h.tidy.held c o hown

/-- A chain stays with its owner. -/
theorem chain_own {o : Owner} {cs : List Nat} (hchain : Chain v d c cs) (hown : g.own c = some o) :
    ∀ x ∈ cs, g.own x = some o := by
  induction cs generalizing c with
  | nil => exact fun x hx => absurd hx List.not_mem_nil
  | cons y cs ih =>
    obtain ⟨rfl, hvalid, hrest⟩ := hchain
    intro x hx
    rcases List.mem_cons.mp hx with rfl | hx
    · exact hown
    · cases cs with
      | nil => cases hx
      | cons z cs =>
        have hvalid' : clusterValid (entryAt v d c) = true := hrest.1 ▸ hrest.2.1
        exact ih hrest (h.tidy.link c o hown hvalid') x hx

/-- **The chain of what an owner has.** -/
theorem owned {o : Owner} (hown : g.own c = some o) :
    ∃ cs, IsFile v d c cs ∧ cs ≠ [] ∧ ∀ x ∈ cs, g.own x = some o := by
  obtain ⟨cs, hchain⟩ := h.ends _ _ hown
  have howns := h.chain_own hchain hown
  have hne : cs ≠ [] := by
    rintro rfl
    obtain ⟨hge, hlt⟩ := h.tidy.range _ _ hown
    have hvalid : clusterValid c = true := clusterValid_of hge (Nat.lt_of_lt_of_le hlt h.numbers)
    rw [show clusterValid c = false from hchain] at hvalid
    cases hvalid
  exact ⟨cs,
    ⟨hchain, fun x hx => h.tidy.range x _ (howns x hx), fun x hx => h.tidy.used x _ (howns x hx),
    fun hnil => absurd hnil hne⟩, hne, howns⟩

/-- **The chain of a file.** -/
theorem file (hc : g.dir c) (hi : i < v.slots) (hit : (image v d).item c i = some it)
    (hfile : it.isDir = false) :
    ∃ cs, IsFile v d it.first cs ∧ ∀ x ∈ cs, g.own x = some (.entry c i) := by
  rcases h.tidy.file_own hc hi hit hfile with hzero | hown
  · refine ⟨[], ⟨?_, fun x hx => absurd hx List.not_mem_nil, fun x hx => absurd hx List.not_mem_nil,
      fun _ => hzero⟩, fun x hx => absurd hx List.not_mem_nil⟩
    rw [hzero]
    exact (rfl : clusterValid 0 = false)
  · obtain ⟨cs, hfile, -, howns⟩ := h.owned hown
    exact ⟨cs, hfile, howns⟩

/-- A cluster of a directory is none of a file. -/
theorem dir_not_file {cs : List Nat} (hit : (image v d).item c i = some it)
    (hfile : it.isDir = false) (hcs : ∀ x ∈ cs, g.own x = some (.entry c i))
    (hf : g.dir f) : f ∉ cs := by
  intro hmem
  obtain ⟨-, -, it', hit', -, hdir⟩ := h.tidy.dir_entry f c i hf (hcs f hmem)
  obtain rfl : it = it' := Option.some.inj (hit.symm.trans hit')
  rw [hfile] at hdir
  cases hdir

end WellFormed

/-! ## 2. The entries that a path finds -/

/-- What a scan hands out and what the entry says. -/
theorem SlotOf.item (h : SlotOf v m c i s) : ∃ it, m.item c i = some it ∧
    it.isDir = s.dirent.isDir ∧
    it.first = s.dirent.firstCluster ∧ it.size = s.dirent.size := by
  have hread (a w : Nat) (hw : a + w ≤ 32) : readLE (m.entry c i) a w = readLE s.entry a w :=
    readLE_congr fun j hj => (h.entry (a + j) (by omega)).symm
  refine ⟨_, if_pos h.live, ?_, ?_, ?_⟩
  all_goals simp only [makeDirent, Slot.dirent, hread 28 4 (by decide), hread 20 2 (by decide),
    hread 26 2 (by decide), h.entry 11 (by decide)]

/-- Where a path may be: in a directory, or at the cluster 0 that stands for the root in `..`. -/
def AtDir (g : Layout) (c : Nat) : Prop := g.dir c ∨ c = 0

/-- Where a path is after an entry: at the first cluster of a directory, or at the cluster 0. -/
def AtHead (v : Volume) (g : Layout) (m : Image) (c : Nat) : Prop :=
  (g.dir c ∧ ∃ o, g.own c = some o ∧ c = o.head v m) ∨ c = 0

theorem AtHead.atDir (h : AtHead v g m c) : AtDir g c := h.imp_left And.left

section

variable (h : Tidy v N g none m)
include h

theorem Tidy.root_atHead : AtHead v g m v.rootCluster :=
  .inl ⟨h.root_dir, .root, h.root_own, rfl⟩

/-- **The first cluster of a live entry** has an owner, or it is 0. -/
theorem Tidy.first_own (hc : g.dir c) (hi : i < v.slots) (hit : m.item c i = some it) :
    it.first = 0 ∨ ∃ o, g.own it.first = some o := by
  have ht := h.entry c i it hc hi (Option.some_ne_none _).symm hit
  by_cases hdot : it.Dot
  · refine (ht.dot hdot).2.imp_right fun htarget => ?_
    obtain ⟨-, o, hown, -⟩ := h.dot_dir hc htarget
    exact ⟨o, hown⟩
  · cases hd : it.isDir with
    | true => exact .inr ⟨_, (ht.sub hdot hd).1⟩
    | false => exact (ht.file hdot hd).imp_right fun hown => ⟨_, hown⟩

/-- **A directory entry leads to a directory**, or to the cluster 0. -/
theorem Tidy.item_atHead (hc : g.dir c) (hi : i < v.slots) (hit : m.item c i = some it)
    (hdir : it.isDir = true) : AtHead v g m it.first := by
  have ht := h.entry c i it hc hi (Option.some_ne_none _).symm hit
  by_cases hdot : it.Dot
  · rcases (ht.dot hdot).2 with hzero | htarget
    · exact .inr hzero
    · exact .inl (h.dot_dir hc htarget)
  · obtain ⟨hown, hsub, -⟩ := ht.sub hdot hdir
    refine .inl ⟨hsub, _, hown, ?_⟩
    rw [Owner.head, hit]
    rfl

theorem Tidy.atHead (hc : g.dir c) (hs : SlotOf v m c i s) (hdir : s.dirent.isDir = true) :
    AtHead v g m s.dirent.firstCluster := by
  obtain ⟨it, hit, hisDir, hfirst, -⟩ := hs.item
  rw [← hfirst]
  exact h.item_atHead hc hs.lt hit (hisDir.trans hdir)

theorem Tidy.atDir (hc : g.dir c) (hs : SlotOf v m c i s) (hdir : s.dirent.isDir = true) :
    AtDir g s.dirent.firstCluster := (h.atHead hc hs hdir).atDir

end

/-- What a search in a directory of the layout finds. -/
def Located (v : Volume) (g : Layout) (m : Image) (s : Slot) : Prop :=
  g.dir s.cluster ∧ ∃ i, SlotOf v m s.cluster i s

/-- The search of `fat32_write_file`: the directory of the path, and the entry if there is one. -/
def target (v : Volume) (fuel : Nat) (path : List UInt8) : Io (Option (Nat × Option Slot)) := do
  match components path with
  | none => pure none
  | some (dirs, name) =>
    match ← descend v fuel dirs v.rootCluster with
    | .error _ => pure none
    | .ok dirCluster => do
      let existing ← locateEntry v fuel dirCluster name
      pure (some (dirCluster, existing))

theorem resolve_target : resolve v fuel path = target v fuel path >>= fun t =>
    pure (t.bind Prod.snd) := by
  rw [resolve, target]
  cases components path with
  | none => rfl
  | some parts =>
    obtain ⟨dirs, name⟩ := parts
    rw [bind_assoc]
    refine bind_congr fun r => ?_
    cases r with
    | error err => rfl
    | ok c =>
      rw [bind_assoc]
      exact (bind_pure (locateEntry v fuel c name)).symm

section Searches

variable (h : Tidy v N g none m)

include h

theorem does_locate (hc : AtDir g c) : Does v N (locateEntry v fuel c name) m
    (fun r m' => (∀ s, r = some s → Located v g m s) ∧ m' = m) := by
  rcases hc with hdir | rfl
  · obtain ⟨o, hown⟩ := h.dir_own c hdir
    refine (does_locateEntry fun _ => ⟨(h.range c o hown).2, h.held c o hown⟩).mono
      fun r m' hpost => ⟨fun s hs => ?_, hpost.2⟩
    obtain ⟨i, hi⟩ := hpost.1 s hs
    obtain rfl := hi.cluster
    exact ⟨hdir, i, hi⟩
  rw [locateEntry, readDirectory]
  cases fuel with
  | zero => exact does_hang
  | succ fuel =>
    rw [readDirectoryLoop, if_neg (by decide)]
    exact Does.pure ⟨fun _ hs => (by cases hs), rfl⟩

theorem does_descend (hc : AtHead v g m c) : Does v N (descend v fuel names c) m
    (fun r m' => (∀ c', r = .ok c' → AtHead v g m c') ∧ m' = m) := by
  induction names generalizing c with
  | nil => exact Does.pure ⟨fun c' hc' => by cases hc'; exact hc, rfl⟩
  | cons name names ih =>
    rw [descend, findEntry, bind_assoc]
    refine (does_locate h hc.atDir).bind_same fun r hfound => ?_
    cases r with
    | none => exact Does.pure ⟨fun _ hs => (by cases hs), rfl⟩
    | some s =>
      show Does v N (if s.dirent.isDir = true then descend v fuel names s.dirent.firstCluster
        else pure (.error .eisdir)) m _
      split_ifs with hdir
      · obtain ⟨hsdir, i, hs⟩ := hfound s rfl
        exact ih (h.atHead hsdir hs hdir)
      · exact Does.pure ⟨fun _ hs => (by cases hs), rfl⟩

/-- **What the search finds.** -/
theorem does_target : Does v N (target v fuel path) m (fun t m' =>
    (∀ c e, t = some (c, e) → AtHead v g m c ∧ ∀ s, e = some s → Located v g m s) ∧ m' = m) := by
  rw [target]
  cases components path with
  | none => exact Does.pure ⟨fun c e ht => (by cases ht), rfl⟩
  | some parts =>
    refine (does_descend h h.root_atHead).bind_same fun r hdir => ?_
    cases r with
    | error err => exact Does.pure ⟨fun c e ht => (by cases ht), rfl⟩
    | ok c =>
      refine (does_locate h (hdir c rfl).atDir).bind_same fun e hfound => ?_
      refine Does.pure ⟨fun c' e' ht => ?_, rfl⟩
      cases ht
      exact ⟨hdir c rfl, hfound⟩

/-- **What the walk over the components finds.** -/
theorem does_resolve : Does v N (resolve v fuel path) m
    (fun r m' => (∀ s, r = some s → Located v g m s) ∧ m' = m) := by
  rw [resolve_target]
  refine (does_target h).bind_same fun t ht => Does.pure ⟨fun s hs => ?_, rfl⟩
  obtain ⟨⟨c, e⟩, rfl, he⟩ := Option.bind_eq_some_iff.mp hs
  exact (ht c e rfl).2 s he

/-- **What `fat32_open` finds.** -/
theorem does_open : Does v N (fat32Open v fuel path) m
    (fun r m' => (∀ e, r = some e → ∃ s, Located v g m s ∧ s.dirent = e) ∧ m' = m) := by
  have hloop : ∀ n path c, AtDir g c → Does v N (openLoop v fuel n path c) m
      (fun r m' => (∀ e, r = some e → ∃ s, Located v g m s ∧ s.dirent = e) ∧ m' = m) := by
    intro n
    induction n with
    | zero => exact fun _ _ _ => Does.pure ⟨fun _ he => (by cases he), rfl⟩
    | succ n ih =>
      intro path c hc
      rw [openLoop]
      cases splitComponent path with
      | none => exact Does.pure ⟨fun _ he => (by cases he), rfl⟩
      | some parts =>
        obtain ⟨component, rest⟩ := parts
        dsimp only
        rw [findEntry, bind_assoc]
        refine (does_locate h hc).bind_same fun r hfound => ?_
        rw [pure_bind]
        cases r with
        | none => exact Does.pure ⟨fun _ he => (by cases he), rfl⟩
        | some s =>
          obtain ⟨hsdir, i, hs⟩ := hfound s rfl
          dsimp only [Option.map_some]
          split_ifs with hrest hdir
          · exact Does.pure ⟨fun e he => ⟨s, ⟨hsdir, i, hs⟩, Option.some.inj he⟩, rfl⟩
          · exact ih rest _ (h.atDir hsdir hs hdir)
          · exact Does.pure ⟨fun _ he => (by cases he), rfl⟩
  exact hloop path.length path v.rootCluster (.inl h.root_dir)

end Searches

theorem WellFormed.located (h : WellFormed v g d)
    (hrun : run (resolve v fuel path) d = some (some s, d')) :
    Located v g (image v d) s := by
  obtain ⟨m', -, hfound, -⟩ := (does_resolve h.tidy).run h.shows hrun
  exact hfound s rfl

theorem WellFormed.located_open {e : Dirent} (h : WellFormed v g d)
    (hrun : run (fat32Open v fuel path) d = some (some e, d')) : ∃ s, Located v g (image v d) s ∧
    s.dirent = e := by
  obtain ⟨m', -, hfound, -⟩ := (does_open h.tidy).run h.shows hrun
  exact hfound e rfl

/-! ## 3. What only reads -/

theorem readOnly_readDirectoryLoop {σ : Type} {visit : Slot → σ → Bool × σ} {acc : LfnAcc} {u : σ} :
    (readDirectoryLoop v c visit fuel acc u).ReadOnly := by
  induction fuel generalizing acc u with
  | zero => exact trivial
  | succ fuel ih =>
    rw [readDirectoryLoop]
    split_ifs
    · refine ReadOnly.blockRead.bind fun r => ?_
      cases r with
      | none => exact ReadOnly.pure
      | some buf =>
        dsimp only
        generalize scanEntries visit c buf 0 v.slots acc u = q
        obtain ⟨out, acc', u'⟩ := q
        cases out with
        | more => exact ih
        | last => exact ReadOnly.pure
        | found => exact ReadOnly.pure
    · exact ReadOnly.pure

theorem readOnly_locateEntry : (locateEntry v fuel c name).ReadOnly :=
  readOnly_readDirectoryLoop.bind fun _ => ReadOnly.pure

theorem readOnly_findEntry : (findEntry v fuel c name).ReadOnly :=
  readOnly_locateEntry.bind fun _ => ReadOnly.pure

theorem readOnly_descend : (descend v fuel names c).ReadOnly := by
  induction names generalizing c with
  | nil => exact ReadOnly.pure
  | cons name names ih =>
    refine readOnly_findEntry.bind fun r => ?_
    cases r with
    | none => exact ReadOnly.pure
    | some e =>
      dsimp only
      split_ifs
      · exact ih
      · exact ReadOnly.pure

theorem readOnly_target : (target v fuel path).ReadOnly := by
  rw [target]
  cases components path with
  | none => exact ReadOnly.pure
  | some parts =>
    refine readOnly_descend.bind fun r => ?_
    cases r with
    | error err => exact ReadOnly.pure
    | ok c => exact readOnly_locateEntry.bind fun _ => ReadOnly.pure

theorem readOnly_resolve : (resolve v fuel path).ReadOnly := by
  rw [resolve_target]
  exact readOnly_target.bind fun _ => ReadOnly.pure

/-- What `fat32_remove` does once the path is resolved. -/
theorem fat32Remove_run {r : Option Slot} (hresolve : run (resolve v fuel path) d = some (r, d)) :
    (∃ err, r = none ∧ run (fat32Remove v fuel path) d = some (.error err, d)) ∨
    ∃ loc, r = some loc ∧
      run (fat32Remove v fuel path) d =
        run (removeItems v (removeRecursive v fuel 17) [loc]) d := by
  rw [resolve] at hresolve
  rw [fat32Remove]
  cases hcomps : components path with
  | none =>
    rw [hcomps] at hresolve
    cases hresolve
    exact .inl ⟨_, rfl, rfl⟩
  | some parts =>
    rw [hcomps] at hresolve
    obtain ⟨q, hdescend, hlocate⟩ := readOnly_descend.run_bind hresolve
    rw [run_bind_of hdescend]
    cases q with
    | error err =>
      cases hlocate
      exact .inl ⟨err, rfl, rfl⟩
    | ok c =>
      dsimp only
      rw [run_bind_of hlocate]
      cases r with
      | none => exact .inl ⟨_, rfl, rfl⟩
      | some loc => exact .inr ⟨loc, rfl, rfl⟩

theorem readOnly_fat32Open : (fat32Open v fuel path).ReadOnly := by
  have hloop : ∀ n path c, (openLoop v fuel n path c).ReadOnly := by
    intro n
    induction n with
    | zero => exact fun _ _ => ReadOnly.pure
    | succ n ih =>
      intro path c
      rw [openLoop]
      cases splitComponent path with
      | none => exact ReadOnly.pure
      | some parts =>
        refine readOnly_findEntry.bind fun r => ?_
        cases r with
        | none => exact ReadOnly.pure
        | some e =>
          dsimp only
          split_ifs
          · exact ReadOnly.pure
          · exact ih _ _
          · exact ReadOnly.pure
  exact hloop path.length path v.rootCluster

/-! ## 4. Disks with the same directories -/

/-- The directories of the layout have the same bytes on both disks. -/
structure SameDirs (v : Volume) (g : Layout) (d d' : Disk 512) : Prop where
  sectors : d'.sectorCount = d.sectorCount
  bytes : ∀ c, g.dir c → ∀ j, j < v.bytesPerCluster → clusterBytes v d' c j = clusterBytes v d c j

section Same

variable (h : WellFormed v g d) (hs : SameDirs v g d d')

include h hs

theorem locate_same {r : Option Slot} {d₁ : Disk 512} (hc : AtDir g c)
    (hrun : run (locateEntry v fuel c name) d = some (r, d₁)) :
    ∃ r', run (locateEntry v fuel c name) d' = some (r', d') ∧ Option.Rel Slot.Alike r r' := by
  rcases hc with hdir | rfl
  · have hheld := h.dir_holds hdir
    exact (locate_alike (fits_iff_holds.mpr hheld) (fits_iff_holds.mpr (hs.sectors ▸ hheld))
      (fun j hj => (hs.bytes c hdir j hj).symm) hrun).2
  · cases fuel with
    | zero => cases hrun
    | succ fuel =>
      obtain rfl : none = r := (Prod.ext_iff.mp (Option.some.inj hrun)).1
      exact ⟨none, rfl, .none⟩

theorem find_same {r : Option Dirent} {d₁ : Disk 512} (hc : AtDir g c)
    (hrun : run (findEntry v fuel c name) d = some (r, d₁)) :
    run (findEntry v fuel c name) d' = some (r, d') ∧
      ∀ e, r = some e → e.isDir = true → AtDir g e.firstCluster := by
  rw [findEntry, run_bind] at hrun
  obtain ⟨⟨found, d₂⟩, hfound, hret⟩ := Option.bind_eq_some_iff.mp hrun
  obtain ⟨found', hfound', hrel⟩ := locate_same h hs hc hfound
  obtain ⟨rfl, rfl⟩ : found.map Slot.dirent = r ∧ d₂ = d₁ := Prod.ext_iff.mp (Option.some.inj hret)
  refine ⟨?_, fun e he hdir => ?_⟩
  · rw [findEntry, run_bind_of hfound']
    cases hrel with
    | none => rfl
    | some halike => exact congrArg (fun e => some (some e, d')) halike.dirent.symm
  · obtain ⟨s, rfl, rfl⟩ := Option.map_eq_some_iff.mp he
    obtain ⟨m', -, hlocated, -⟩ := (does_locate h.tidy hc).run h.shows hfound
    obtain ⟨hsdir, i, hslot⟩ := hlocated s rfl
    exact h.tidy.atDir hsdir hslot hdir

theorem descend_same {r : Except Errno Nat} {d₁ : Disk 512} (hc : AtDir g c)
    (hrun : run (descend v fuel names c) d = some (r, d₁)) :
    run (descend v fuel names c) d' = some (r, d') ∧ ∀ c', r = .ok c' → AtDir g c' := by
  induction names generalizing c with
  | nil =>
    obtain rfl : .ok c = r := (Prod.ext_iff.mp (Option.some.inj hrun)).1
    exact ⟨rfl, fun c' hc' => by cases hc'; exact hc⟩
  | cons name names ih =>
    rw [descend] at hrun
    obtain ⟨found, hfound, hrest⟩ := readOnly_findEntry.run_bind hrun
    obtain ⟨hfound', hdir⟩ := find_same h hs hc hfound
    rw [descend, run_bind_of hfound']
    cases found with
    | none =>
      obtain rfl : .error .enoent = r := (Prod.ext_iff.mp (Option.some.inj hrest)).1
      exact ⟨rfl, fun c' hc' => by cases hc'⟩
    | some e =>
      dsimp only at hrest ⊢
      split_ifs at hrest ⊢ with hisDir
      · exact ih (hdir e rfl hisDir) hrest
      · obtain rfl : .error .eisdir = r := (Prod.ext_iff.mp (Option.some.inj hrest)).1
        exact ⟨rfl, fun c' hc' => by cases hc'⟩

/-- **The walk over the components finds alike entries.** -/
theorem resolve_same {r : Option Slot} {d₁ : Disk 512}
    (hrun : run (resolve v fuel path) d = some (r, d₁)) :
    ∃ r', run (resolve v fuel path) d' = some (r', d') ∧ Option.Rel Slot.Alike r r' := by
  rw [resolve] at hrun ⊢
  cases hcomps : components path with
  | none =>
    rw [hcomps] at hrun
    obtain rfl : none = r := (Prod.ext_iff.mp (Option.some.inj hrun)).1
    exact ⟨none, rfl, .none⟩
  | some parts =>
    rw [hcomps] at hrun
    obtain ⟨q, hq, hrest⟩ := readOnly_descend.run_bind hrun
    obtain ⟨hq', hdir⟩ := descend_same h hs (.inl h.tidy.root_dir) hq
    rw [run_bind_of hq']
    cases q with
    | error err =>
      obtain rfl : none = r := (Prod.ext_iff.mp (Option.some.inj hrest)).1
      exact ⟨none, rfl, .none⟩
    | ok c => exact locate_same h hs (hdir c rfl) hrest

/-- **`fat32_open` finds the same entry.** -/
theorem open_same {r : Option Dirent} {d₁ : Disk 512}
    (hrun : run (fat32Open v fuel path) d = some (r, d₁)) :
    run (fat32Open v fuel path) d' = some (r, d') := by
  have hloop : ∀ n path c, AtDir g c → run (openLoop v fuel n path c) d = some (r, d₁) →
      run (openLoop v fuel n path c) d' = some (r, d') := by
    intro n
    induction n with
    | zero =>
      intro path c _ hrun
      obtain rfl : none = r := (Prod.ext_iff.mp (Option.some.inj hrun)).1
      rfl
    | succ n ih =>
      intro path c hc hrun
      rw [openLoop] at hrun ⊢
      cases hsplit : splitComponent path with
      | none =>
        rw [hsplit] at hrun
        obtain rfl : none = r := (Prod.ext_iff.mp (Option.some.inj hrun)).1
        rfl
      | some parts =>
        obtain ⟨component, rest⟩ := parts
        rw [hsplit] at hrun
        obtain ⟨found, hfound, hnext⟩ := readOnly_findEntry.run_bind hrun
        obtain ⟨hfound', hdir⟩ := find_same h hs hc hfound
        rw [run_bind_of hfound']
        cases found with
        | none =>
          obtain rfl : none = r := (Prod.ext_iff.mp (Option.some.inj hnext)).1
          rfl
        | some e =>
          dsimp only at hnext ⊢
          split_ifs at hnext ⊢ with hempty hisDir
          · obtain rfl : some e = r := (Prod.ext_iff.mp (Option.some.inj hnext)).1
            rfl
          · exact ih rest e.firstCluster (hdir e rfl hisDir) hnext
          · obtain rfl : none = r := (Prod.ext_iff.mp (Option.some.inj hnext)).1
            rfl
  exact hloop path.length path v.rootCluster (.inl h.tidy.root_dir) hrun

end Same

/-! ## 5. Volumes with one directory -/

/-- The layout of a volume whose files are the entries of a root directory of one cluster; `owner`
    gives the clusters of the files to their slots. -/
def flatLayout (v : Volume) (owner : Nat → Option Nat) : Layout where
  dir := fun c => c = v.rootCluster
  own := fun c => if c = v.rootCluster then some .root else (owner c).map (.entry v.rootCluster)
  depth := fun _ => 0

/-- What an entry of such a directory has to say. -/
def FlatItem (v : Volume) (owner : Nat → Option Nat) (i : Nat) (it : Item) : Prop :=
  it.isDir = false ∧ ¬ it.Dot ∧ (it.first = 0 ∨ it.first ≠ v.rootCluster ∧ owner it.first = some i)

instance {owner : Nat → Option Nat} {i : Nat} : Decidable (FlatItem v owner i it) :=
  inferInstanceAs (Decidable (_ ∧ ¬ (_ = _) ∧ _))

/-- **A volume with files of one cluster in a root directory of one cluster**, in terms that can be
    evaluated. -/
structure Flat (v : Volume) (owner : Nat → Option Nat) (d : Disk 512) : Prop where
  sized : v.Sized
  numbers : v.total ≤ bad
  tables : v.TablesOn d
  mark : clusterValid (entryAt v d 0) = false
  root : v.rootCluster < v.total ∧ entryAt v d v.rootCluster ≠ 0 ∧
    clusterValid (entryAt v d v.rootCluster) = false
  root_held : v.Holds d.sectorCount v.rootCluster
  files : ∀ c s, owner c = some s → c ≠ v.rootCluster ∧
    ((2 ≤ c ∧ c < v.total) ∧ v.Holds d.sectorCount c) ∧
    entryAt v d c ≠ 0 ∧ clusterValid (entryAt v d c) = false
  items : ∀ i, i < v.slots →
    ((image v d).item v.rootCluster i).all (fun it => FlatItem v owner i it) = true

/-- Files without a cluster, on a small volume. -/
theorem flat_small (hd : d.sectorCount = 128)
    (hmark : clusterValid (entryAt smallVolume d 0) = false)
    (hroot : entryAt smallVolume d 2 ≠ 0 ∧ clusterValid (entryAt smallVolume d 2) = false)
    (hitems : ∀ i, i < smallVolume.slots → ((image smallVolume d).item 2 i).all
      (fun it => FlatItem smallVolume (fun _ => none) i it) = true) :
        Flat smallVolume (fun _ => none) d :=
  ⟨smallVolume_sized, by decide, by rw [Volume.TablesOn, hd]; decide, hmark, ⟨by decide, hroot⟩,
    by rw [hd]; decide, fun _ _ hs => (by cases hs), hitems⟩

theorem Flat.wellFormed {owner : Nat → Option Nat} (h : Flat v owner d) :
    WellFormed v (flatLayout v owner) d := by
  have hroot : (flatLayout v owner).own v.rootCluster = some .root := if_pos rfl
  have hcases : ∀ c o, (flatLayout v owner).own c = some o → c = v.rootCluster ∧ o = .root ∨
      ∃ s, owner c = some s ∧ o = .entry v.rootCluster s := by
    intro c o hown
    by_cases hc : c = v.rootCluster
    · subst hc
      exact .inl ⟨rfl, (Option.some.inj (hroot.symm.trans hown)).symm⟩
    · rw [flatLayout] at hown
      simp only [if_neg hc] at hown
      obtain ⟨s, hs, rfl⟩ := Option.map_eq_some_iff.mp hown
      exact .inr ⟨s, hs, rfl⟩
  have hclusters : ∀ c o, (flatLayout v owner).own c = some o →
      ((2 ≤ c ∧ c < v.total) ∧ v.Holds d.sectorCount c) ∧ entryAt v d c ≠ 0 ∧
      clusterValid (entryAt v d c) = false := by
    intro c o hown
    rcases hcases c o hown with ⟨rfl, -⟩ | ⟨s, hs, -⟩
    · exact ⟨⟨⟨v.root_ge, h.root.1⟩, h.root_held⟩, h.root.2⟩
    · exact (h.files c s hs).2
  have hend {p : Prop} {c : Nat} {o : Owner} (hown : (flatLayout v owner).own c = some o)
      (hvalid : clusterValid (entryAt v d c) = true) : p := by
    rw [(hclusters c o hown).2.2] at hvalid
    cases hvalid
  refine ⟨h.sized, h.numbers, h.tables, h.mark, ?_, fun c o hown => ?_⟩
  · refine ⟨rfl, hroot, fun c o hown => (hclusters c o hown).1.1, fun c o hown =>
      (hclusters c o hown).1.2,
      fun c o hown => (hclusters c o hown).2.1, fun c o hown hvalid => hend hown hvalid, fun c hc =>
        ⟨.root, hc ▸ hroot⟩, fun c hc hvalid => ?_,
      fun c p i hc hown => ?_, fun c o hc hown => ?_, fun c p i o hc hown =>
        ?_, fun c i it hc hi _ hit => ?_,
      fun c i x hhole => ?_⟩
    · exact hend (hc ▸ hroot) hvalid
    · obtain rfl : c = v.rootCluster := hc
      rw [hroot] at hown
      cases hown
    · obtain rfl : c = v.rootCluster := hc
      obtain rfl : .root = o := Option.some.inj (hroot.symm.trans hown)
      exact .head (clusterValid_of v.root_ge (Nat.lt_of_lt_of_le h.root.1 h.numbers))
    · obtain rfl : c = v.rootCluster := hc
      rw [hroot] at hown
      cases hown
    · obtain rfl : c = v.rootCluster := hc
      have hitem := h.items i hi
      rw [hit] at hitem
      obtain ⟨hdir, hdot, hfirst⟩ := of_decide_eq_true hitem
      refine ⟨fun hd => absurd hd hdot, fun _ hd => ?_, fun _ _ => hfirst.imp_right fun hown => ?_⟩
      · rw [hdir] at hd
        cases hd
      · rw [flatLayout]
        simp only [if_neg hown.1, hown.2, Option.map_some]
    · cases hhole
  · obtain ⟨⟨⟨hge, hlt⟩, -⟩, -, hlast⟩ := hclusters c o hown
    exact ⟨[c], rfl, clusterValid_of hge (Nat.lt_of_lt_of_le hlt h.numbers), hlast⟩

end DyntKernel.Fat
