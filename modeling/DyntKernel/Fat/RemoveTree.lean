/-
  File:      DyntKernel/Fat/RemoveTree.lean
  Subject:   `fat32_remove` ON A DIRECTORY (fs/fat32.c, remove_recursive).

  The routine collects every entry of the directory, `.` and `..` among them, and goes down into `.`
  before anything else. It comes back with an error from the level at which it gives up, and so does
  every level above: a directory that contains `.` is never given back.

  * `Eroded` -- a volume on which entries were deleted and clusters freed, but not the cluster `q`;
  * `does_removeRecursive`, `does_removeItems` -- what the removal does on every level;
  * **`does_remove`** -- no call of `fat32_remove` frees the cluster of a directory that contains
    `.`;
  * `remove_erodes` -- nor makes an entry, nor changes one it does not delete.
-/
import DyntKernel.Fat.Remove

namespace DyntKernel.Fat

open Library Prog List

variable {v : Volume} {g : Layout} {m m₀ m' : Image} {s : Slot} {path : List UInt8} {it : Item}
  {N c f fuel i k q x : Nat}

/-! ## 1. What a removal may change -/

/-- The cluster `q` belongs to nothing, or it is the only cluster of a directory that contains
    `.`. -/
def Spared (g : Layout) (m : Image) (q : Nat) : Prop :=
  g.own q = none ∨ g.dir q ∧ SelfDot m q ∧ ∀ x, g.own x = g.own q → x = q

/-- **Entries are deleted and clusters freed, but not `q`.** -/
structure Eroded (v : Volume) (g : Layout) (m₀ : Image) (q : Nat) (m : Image) : Prop where
  table : ∀ x, m.table x = m₀.table x ∨ m.table x = 0
  kept : m.table q = m₀.table q
  items : ∀ c i it, g.dir c → i < v.slots → m.item c i = some it → m₀.item c i = some it
  self : m.item q 0 = m₀.item q 0

theorem Eroded.refl : Eroded v g m₀ q m₀ :=
  ⟨fun _ => .inl rfl, rfl, fun _ _ _ _ _ hit => hit, rfl⟩

/-- The chain of an owner other than that of `q` is given back. -/
theorem does_freeOwned {o : Owner} (hv : v.Sized) (h : Tidy v N g none m₀) (hm : Eroded v g m₀ q m)
    (hown : clusterValid f = true → g.own f = some o) (hq : g.own q ≠ some o) :
    Does v N (freeChain v f) m (fun _ m' => Eroded v g m₀ q m') := by
  refine (does_freeChain (U := fun x => g.own x = some o) hv (fun x hx =>
    (h.range x o hx).2) (fun x hx hvalid => ?_)
    hown).mono fun _ m' hpost => ?_
  · rcases hm.table x with hsame | hzero
    · rw [hsame] at hvalid ⊢
      exact h.link x o hx hvalid
    · rw [hzero] at hvalid
      cases hvalid
  obtain ⟨hdata, htable⟩ := hpost
  have hitem : ∀ c i, m'.item c i = m.item c i := fun c i => Image.item_congr (congrFun hdata c)
  refine ⟨fun x => ?_, ?_, fun c i it hc hi hit => ?_, (hitem q 0).trans hm.self⟩
  · rcases htable x with hsame | hzero
    · rw [hsame]
      exact hm.table x
    · exact .inr hzero.2
  · rcases htable q with hsame | hzero
    · exact hsame.trans hm.kept
    · exact absurd hzero.1 hq
  · rw [hitem] at hit
    exact hm.items c i it hc hi hit

/-- An entry is marked, but not the first one of `q`. -/
theorem does_erase (hv : v.Sized) (hge : 2 ≤ c) (hc : c < v.total)
    (hh : v.Holds N c) (hi : i < v.slots)
    (hm : Eroded v g m₀ q m) (hne : ¬ (c = q ∧ i = 0)) :
    Does v N (markEntryDeleted v c (i * 32)) m (fun _ m' => Eroded v g m₀ q m') := by
  rw [markEntryDeleted]
  refine Does.readCluster hge hc hh fun buf hbuf => ?_
  dsimp only
  split_ifs with hgone
  · exact Does.pure hm
  refine (does_writeCluster hv hge hc hh).mono fun ok m' hpost => ?_
  obtain ⟨hdel, hkeep⟩ := marked_keepsOthers (i := i) hbuf
  obtain ⟨htable, hdata, hhere, hothers⟩ : ItemSet v m c i none m' := by
    rw [hpost.2]
    exact itemSet_of_keeps hkeep fun _ => itemOf_of_not_live hdel
  have hitem : ∀ x k, k < v.slots → m'.item x k = m.item x k ∨ (x = c ∧ k = i) ∧
      m'.item x k = none := by
    intro x k hk
    by_cases hx : x = c
    · subst hx
      by_cases hki : k = i
      · subst hki
        exact .inr ⟨⟨rfl, rfl⟩, hhere hk⟩
      · exact .inl (hothers k hk hki)
    · exact .inl (Image.item_congr (hdata x hx))
  refine ⟨fun x => htable ▸ hm.table x, htable ▸ hm.kept, fun x k it hx hk hit => ?_, ?_⟩
  · rcases hitem x k hk with hsame | ⟨-, hnone⟩
    · rw [hsame] at hit
      exact hm.items x k it hx hk hit
    · rw [hnone] at hit
      cases hit
  · rcases hitem q 0 Volume.slots_pos with hsame | ⟨⟨hqc, hk⟩, -⟩
    · exact hsame.trans hm.self
    · exact absurd ⟨hqc.symm, hk.symm⟩ hne

/-! ## 2. The entries that are collected -/

/-- What has been collected of the cluster `c`: live entries, and in front the first entry if it is
    live. -/
def Collected (v : Volume) (m : Image) (c : Nat) (items : List Slot) : Prop :=
  (∀ s ∈ items, ∃ i, SlotOf v m c i s) ∧
  (Live (m.entry c 0) → ∃ s, items.head? = some s ∧ SlotOf v m c 0 s)

theorem Collected.visit {items : List Slot} (h : Collected v m c items) (hs : SlotOf v m c i s) :
    Collected v m c (removeCollectVisit s items).2 := by
  rw [removeCollectVisit]
  split_ifs
  · exact h
  refine ⟨fun t ht => ?_, fun hlive => ?_⟩
  · rcases mem_append.mp ht with ht | ht
    · exact h.1 t ht
    · obtain rfl := mem_singleton.mp ht
      exact ⟨i, hs⟩
  · obtain ⟨t, ht, ht0⟩ := h.2 hlive
    refine ⟨t, ?_, ht0⟩
    rw [List.head?_append, ht]
    rfl

/-- The first round collects the first entry before all others. -/
theorem collected_round {buf : Nat → UInt8}
    (hbuf : ∀ j, j < v.bytesPerCluster → buf j = m.data c j) :
    Collected v m c (visitAll removeCollectVisit (clusterSlots c buf 0 v.slots []).1 []).2 := by
  have hslot : ∀ s ∈ (clusterSlots c buf 0 v.slots []).1, ∃ i, SlotOf v m c i s :=
    fun s hs => slotOf_of_mem hbuf hs
  have hvisit {l : List Slot} (hl : ∀ s ∈ l, ∃ i, SlotOf v m c i s) {u : List Slot}
      (hu : Collected v m c u) :
      Collected v m c (visitAll removeCollectVisit l u).2 := by
    refine visitAll_inv (fun s hs items hitems => ?_) hu
    obtain ⟨i, hi⟩ := hl s hs
    exact hitems.visit hi
  by_cases hlive : Live (m.entry c 0)
  · obtain ⟨n, hn⟩ : ∃ n, v.slots = n + 1 :=
      ⟨v.slots - 1, by have := Volume.slots_pos (v := v); omega⟩
    have hentry : ∀ j, j < 32 → buf (0 * 32 + j) = m.entry c 0 j := fun j hj =>
      hbuf _ (slot_inside Volume.slots_pos hj)
    have hlive' : Live fun j => buf (0 * 32 + j) := (Live.congr hentry).mpr hlive
    have hcons : (clusterSlots c buf 0 v.slots []).1 = ⟨c, 0 * 32, fun j => buf (0 * 32 + j),
        slotName [] fun j => buf (0 * 32 + j)⟩ :: (clusterSlots c buf 1 n []).1 := by
      rw [hn, clusterSlots]
      simp only [if_neg hlive'.1, if_neg hlive'.2.1, if_neg hlive'.2.2, Nat.zero_add]
    rw [hcons] at hslot ⊢
    rw [visitAll_cons_of_false (by rfl)]
    refine hvisit (fun s hs => hslot s (mem_cons_of_mem _ hs)) ?_
    have h0 :
        SlotOf v m c 0 ⟨c, 0 * 32,
          fun j => buf (0 * 32 + j), slotName [] fun j => buf (0 * 32 + j)⟩ :=
      ⟨rfl, Volume.slots_pos, rfl, hentry, hlive⟩
    refine ⟨fun s hs => ?_, fun _ => ⟨_, rfl, h0⟩⟩
    obtain rfl := mem_singleton.mp hs
    exact ⟨0, h0⟩
  · exact hvisit hslot ⟨fun s hs => absurd hs not_mem_nil, fun h => absurd h hlive⟩

/-- **The entries of a directory are collected.** -/
theorem does_collect (hvalid : clusterValid c = true) (hc : c < v.total) (hh : v.Holds N c) :
    Does v N (readDirectory v fuel c removeCollectVisit []) m (fun r m' =>
      Collected v m c r.2 ∧ m' = m) := by
  rw [readDirectory]
  cases fuel with
  | zero => exact does_hang
  | succ fuel =>
    rw [readDirectoryLoop, if_pos hvalid]
    refine Does.readCluster (clusterValid_ge hvalid) hc hh fun buf hbuf => ?_
    obtain ⟨-, hend, -⟩ := scanEntries_eq removeCollectVisit c buf 0 v.slots [] []
    have hround : Collected v m c (scanEntries removeCollectVisit c buf 0 v.slots [] []).2.2 := by
      rw [hend]
      exact collected_round hbuf
    dsimp only
    generalize scanEntries removeCollectVisit c buf 0 v.slots [] [] = r at hround ⊢
    obtain ⟨out, acc, items⟩ := r
    cases out with
    | more =>
      exact does_readDirectoryLoop (fun _ => ⟨hc, hh⟩) (fun s i hs u hu =>
        Collected.visit hu hs) hround
    | last => exact Does.pure ⟨hround, rfl⟩
    | found => exact Does.pure ⟨hround, rfl⟩

/-! ## 3. The removal -/

theorem live_of_item (h : m.item c i = some it) : Live (m.entry c i) := by
  refine Classical.byContradiction fun hdead => ?_
  rw [Image.item, itemOf_of_not_live hdead] at h
  cases h

/-- The entry is one that the disk had at first. -/
def Had (v : Volume) (m₀ : Image) (s : Slot) : Prop :=
  ∃ i it, i < v.slots ∧ s.offset = i * 32 ∧ m₀.item s.cluster i = some it ∧
    it.isDir = s.dirent.isDir ∧
    it.first = s.dirent.firstCluster

theorem Eroded.had (hm : Eroded v g m₀ q m) (hc : g.dir c) (hs : SlotOf v m c i s) :
    Had v m₀ s := by
  obtain ⟨it, hit, hisDir, hfirst, -⟩ := hs.item
  obtain rfl := hs.cluster
  exact ⟨i, it, hs.lt, hs.offset, hm.items _ i it hc hs.lt hit, hisDir, hfirst⟩

/-- **What is asked of the call for a directory**: it erodes the volume, and it does not succeed on
    `q`. -/
def Erodes (v : Volume) (N : Nat) (g : Layout) (m₀ : Image) (q : Nat)
    (inner : Nat → Io (Except Errno Unit)) : Prop :=
  ∀ f m, AtDir g f → Eroded v g m₀ q m → Does v N (inner f) m (fun r m' =>
    Eroded v g m₀ q m' ∧ (g.dir q → f = q → r ≠ .ok ()))

/-- The first entry of `q` leads to `q`. -/
theorem had_self (hself : SelfDot m₀ q) (hs : Had v m₀ s) (hcluster : s.cluster = q)
    (hoffset : s.offset = 0) :
    s.dirent.isDir = true ∧ s.dirent.firstCluster = q := by
  obtain ⟨i, it, -, hoff, hit, hisDir, hfirst⟩ := hs
  obtain ⟨it', hit', -, hdir', hfirst'⟩ := hself
  obtain rfl : i = 0 := by omega
  rw [hcluster] at hit
  obtain rfl : it = it' := Option.some.inj (hit.symm.trans hit')
  exact ⟨hisDir.symm.trans hdir', hfirst.symm.trans hfirst'⟩

section Removal

variable {inner : Nat → Io (Except Errno Unit)} (hv : v.Sized)
  (h : Tidy v N g none m₀) (hq : Spared g m₀ q)

include hv h hq

theorem does_releaseEntry (hinner : Erodes v N g m₀ q inner)
    (hm : Eroded v g m₀ q m) (hc : g.dir s.cluster)
    (hs : Had v m₀ s) : Does v N (releaseEntry v inner s.dirent) m (fun r m' =>
      Eroded v g m₀ q m' ∧ (g.dir q → s.cluster = q → s.offset = 0 → r ≠ .ok ())) := by
  rw [releaseEntry]
  have hself : g.dir q → s.cluster = q → s.offset = 0 → s.dirent.isDir = true ∧
      s.dirent.firstCluster = q := by
    intro hdir hcluster hoffset
    rcases hq with hnone | ⟨-, hself, -⟩
    · exact absurd hdir (h.not_dir hnone)
    · exact had_self hself hs hcluster hoffset
  obtain ⟨i, it, hi, -, hit, hisDir, hfirst⟩ := hs
  cases hd : s.dirent.isDir with
  | true =>
    rw [if_pos rfl]
    have hat : AtDir g s.dirent.firstCluster := by
      rw [← hfirst]
      exact (h.item_atHead hc hi hit (hisDir.trans hd)).atDir
    refine (hinner _ m hat hm).mono fun r m' hpost => ⟨hpost.1, fun hdir hcluster hoffset => ?_⟩
    exact hpost.2 hdir (hself hdir hcluster hoffset).2
  | false =>
    rw [if_neg Bool.false_ne_true]
    have hno : ∀ r : Except Errno Unit, g.dir q → s.cluster = q → s.offset = 0 → r ≠ .ok () := by
      intro r hdir hcluster hoffset
      have hyes := (hself hdir hcluster hoffset).1
      rw [hd] at hyes
      cases hyes
    split_ifs with hge
    · have hown : g.own s.dirent.firstCluster = some (.entry s.cluster i) := by
        rw [← hfirst] at hge ⊢
        exact (h.file_own hc hi hit (hisDir.trans hd)).resolve_left fun hzero => by omega
      have hnot : g.own q ≠ some (.entry s.cluster i) := by
        intro hqown
        rcases hq with hnone | ⟨hdir, -, -⟩
        · rw [hnone] at hqown
          cases hqown
        · obtain ⟨-, -, it', hit', -, hdir'⟩ := h.dir_entry q _ _ hdir hqown
          obtain rfl : it = it' := Option.some.inj (hit.symm.trans hit')
          rw [hisDir, hd] at hdir'
          cases hdir'
      refine (does_freeOwned hv h hm (fun _ => hown) hnot).bind fun _ m' hm' => ?_
      exact Does.pure ⟨hm', hno _⟩
    · exact Does.pure ⟨hm, hno _⟩

theorem does_removeItems {items : List Slot} (hinner : Erodes v N g m₀ q inner)
    (hm : Eroded v g m₀ q m)
    (hitems : ∀ s ∈ items, g.dir s.cluster ∧ Had v m₀ s) :
    Does v N (removeItems v inner items) m (fun r m' =>
      Eroded v g m₀ q m' ∧
      (g.dir q → (∃ s ∈ items, s.cluster = q ∧ s.offset = 0) → r ≠ .ok ())) := by
  induction items generalizing m with
  | nil =>
    refine Does.pure ⟨hm, fun _ hex => ?_⟩
    obtain ⟨s, hs, -⟩ := hex
    cases hs
  | cons ch items ih =>
    obtain ⟨hdir, hhad⟩ := hitems ch mem_cons_self
    rw [removeItems]
    refine (does_releaseEntry hv h hq hinner hm hdir hhad).bind fun r m' hpost => ?_
    obtain ⟨hm', hfirst⟩ := hpost
    cases r with
    | error err => exact Does.pure ⟨hm', fun _ _ hok => (by cases hok)⟩
    | ok u =>
      obtain ⟨o, hown⟩ := h.dir_own _ hdir
      obtain ⟨hge, hlt⟩ := h.range _ o hown
      obtain ⟨i, it, hi, hoff, -⟩ := hhad
      have hplace : ¬ (ch.cluster = q ∧ i = 0) := by
        rintro ⟨hcluster, hzero⟩
        exact hfirst (hcluster ▸ hdir) hcluster (by omega) rfl
      rw [hoff]
      refine (does_erase hv hge hlt (h.held _ o hown) hi hm' hplace).bind fun _ m'' hm'' => ?_
      refine (ih hm'' fun s hs => hitems s (mem_cons_of_mem _ hs)).mono fun r m₃ hrest =>
        ⟨hrest.1, fun hqdir hex => ?_⟩
      obtain ⟨s, hs, hcluster, hoffset⟩ := hex
      rcases mem_cons.mp hs with rfl | hs
      · exact absurd ⟨hcluster, by omega⟩ hplace
      · exact hrest.2 hqdir ⟨s, hs, hcluster, hoffset⟩

/-- **`remove_recursive`, on every level**: what it collects of `q` begins with `.`. -/
theorem does_removeRecursive (hbad : v.total ≤ bad) (levels : Nat) :
    Erodes v N g m₀ q (removeRecursive v fuel levels) := by
  induction levels with
  | zero => exact fun f m _ hm => Does.pure ⟨hm, fun _ _ hok => (by cases hok)⟩
  | succ levels ih =>
    intro f m hat hm
    rw [removeRecursive]
    rcases hat with hdir | rfl
    · obtain ⟨o, hown⟩ := h.dir_own f hdir
      obtain ⟨hge, hlt⟩ := h.range f o hown
      refine (does_collect (clusterValid_of hge (by omega)) hlt (h.held f o hown)).bind_same
        fun r hcollected => ?_
      obtain ⟨found, items⟩ := r
      have hitems : ∀ s ∈ items, g.dir s.cluster ∧ Had v m₀ s := by
        intro s hs
        obtain ⟨i, hslot⟩ := hcollected.1 s hs
        exact ⟨hslot.cluster ▸ hdir, hm.had hdir hslot⟩
      refine (does_removeItems hv h hq ih hm hitems).bind fun r m'' hpost => ?_
      obtain ⟨hm'', hself⟩ := hpost
      cases r with
      | error err => exact Does.pure ⟨hm'', fun _ _ hok => (by cases hok)⟩
      | ok u =>
        have hne : g.own q ≠ some o := by
          intro hqown
          rcases hq with hnone | ⟨hqdir, hdot, honly⟩
          · rw [hnone] at hqown
            cases hqown
          · obtain rfl : f = q := honly f (hown.trans hqown.symm)
            obtain ⟨it, hit, -⟩ := hdot
            obtain ⟨s, hs, hslot⟩ := hcollected.2 (live_of_item (hm.self.trans hit))
            exact hself hqdir ⟨s, List.mem_of_head? hs, hslot.cluster,
              hslot.offset.trans (Nat.zero_mul 32)⟩ rfl
        rw [if_pos hge]
        refine (does_freeOwned hv h hm'' (fun _ => hown) hne).bind fun _ m₃ hm₃ =>
          Does.pure ⟨hm₃, ?_⟩
        intro _ hfq
        exact absurd (hfq ▸ hown) hne
    -- the cluster 0: no entries, no chain
    rw [readDirectory]
    cases fuel with
    | zero => exact does_hang
    | succ fuel =>
      rw [readDirectoryLoop, if_neg (by decide)]
      refine Does.pure ⟨hm, fun hqdir hzero => ?_⟩
      obtain ⟨o, hown⟩ := h.dir_own q hqdir
      have := (h.range q o hown).1
      omega

/-- `fat32_remove`, whatever it finds. -/
theorem eroded_remove (hbad : v.total ≤ bad) :
    Does v N (fat32Remove v fuel path) m₀ (fun _ m' => Eroded v g m₀ q m') := by
  rw [fat32Remove]
  cases components path with
  | none => exact Does.pure .refl
  | some parts =>
    refine (does_descend h h.root_atHead).bind_same fun r hat => ?_
    cases r with
    | error err => exact Does.pure .refl
    | ok c =>
      refine (does_locate h (hat c rfl).atDir).bind_same fun r hfound => ?_
      cases r with
      | none => exact Does.pure .refl
      | some loc =>
        obtain ⟨hdir, i, hslot⟩ := hfound loc rfl
        refine (does_removeItems hv h hq (does_removeRecursive hv h hq hbad 17) .refl ?_).mono
          fun _ m' hpost => hpost.1
        intro s hs
        obtain rfl := mem_singleton.mp hs
        exact ⟨hdir, Eroded.refl.had (q := q) hdir hslot⟩

/-- **`fat32_remove` never frees the cluster of a directory that contains `.`.** -/
theorem does_remove (hbad : v.total ≤ bad) :
    Does v N (fat32Remove v fuel path) m₀ (fun _ m' => m'.table q = m₀.table q) :=
  (eroded_remove hv h hq hbad).mono fun _ _ hpost => hpost.kept

end Removal

/-- **`fat32_remove` only takes away**, on whatever path and however it ends. -/
theorem remove_erodes {d d' : Disk 512} {r : Except Errno Unit} (h : WellFormed v g d)
    (hrun : run (fat32Remove v fuel path) d = some (r, d')) :
    (∀ x < v.total, entryAt v d' x = entryAt v d x ∨ entryAt v d' x = 0) ∧
      ∀ c i it, g.dir c → i < v.slots → (image v d').item c i = some it →
        (image v d).item c i = some it := by
  have hzero : g.own 0 = none := by
    by_contra hown
    obtain ⟨o, hown⟩ := Option.ne_none_iff_exists'.mp hown
    exact absurd (h.tidy.range 0 o hown).1 (by decide)
  obtain ⟨m', hd', he⟩ := (eroded_remove h.sized h.tidy (.inl hzero) h.numbers).run h.shows hrun
  refine ⟨fun x hx => hd'.table x hx ▸ he.table x, fun c i it hc hi hit => he.items c i it hc hi ?_⟩
  obtain ⟨hge, hlt⟩ := h.dir_range hc
  rw [← hit]
  refine itemOf_congr fun j hj => (hd'.data c _ hge hlt ?_).symm
  rw [Volume.slots] at hi
  omega

theorem remove_erodes_pair :
    ∃ r d', run (fat32Remove smallVolume 1 [0x41]) pairDisk = some (r, d') ∧
    ∀ x < smallVolume.total, entryAt smallVolume d' x = entryAt smallVolume pairDisk x ∨
      entryAt smallVolume d' x = 0 := by
  have hremove : (run (fat32Remove smallVolume 1 [0x41]) pairDisk).isSome = true := by
    decide +kernel
  obtain ⟨⟨r, d'⟩, hrun⟩ := Option.isSome_iff_exists.mp hremove
  exact ⟨r, d', hrun, (remove_erodes pairDisk_flat.wellFormed hrun).1⟩

end DyntKernel.Fat
