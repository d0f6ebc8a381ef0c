/-
  File:      DyntKernel/Fat/Mkdir.lean
  Subject:   `fat32_mkdir`, AND `fat32_remove` BEHIND IT (fs/fat32.c).

  A new directory gets a cluster with `.` and `..`, and an entry in its parent, which may grow. With
  the entry `.` the cluster is one that `fat32_remove` never gives back.

  * `makeAt`, `fat32Mkdir_run` -- the call as the search and the rest;
  * `Ready`, `Ready.grown`, `Placed.entered` -- the invariant from the new cluster to its entry;
  * `ends_makeAt` -- when the call succeeds, and what it leaves;
  * **`mkdir_remove_iff`** -- a call that succeeds is never undone by `fat32_remove`.
-/
import DyntKernel.Fat.RemoveTree
import DyntKernel.Fat.WriteFile

namespace DyntKernel.Fat

open Library Prog Function Image

variable {v : Volume} {g g' : Layout} {d d' : Disk 512} {m m' : Image}
  {cs : List Nat} {it : Item} {o : Owner}
  {name path : List UInt8} {rest buf : Nat → UInt8} {N c c' cl fuel i k q q₂ x : Nat}
  {t : Option (Nat × Option Slot)}

/-! ## 1. The entries `.` and `..` -/

theorem putDot_slot {tail : List UInt8} (hlen : tail.length ≤ 10) (hcl : cl < 2 ^ 32) :
    ∃ it, itemOf (slotAt (putDot buf (i * 32) ('.'.toUInt8 :: tail) cl) i) = some it ∧
      it.Dot ∧ it.isDir = true ∧
      it.first = cl := by
  generalize hname : '.'.toUInt8 :: tail = name
  have hpos : 0 < name.length ∧ name.length ≤ 11 := by
    rw [← hname, List.length_cons]
    omega
  have hread (a w : Nat) (bs : Nat → UInt8) : readLE (slotAt bs i) a w = readLE bs (i * 32 + a) w :=
    readLE_congr fun j _ => by rw [slotAt, Nat.add_assoc]
  have hfirst : slotAt (putDot buf (i * 32) name cl) i 0 = '.'.toUInt8 := by
    simp only [slotAt, putDot, writeLE]
    rw [blit_of_out (by omega), blit_of_out (by omega), update_of_ne (by omega), putBytes,
      blit_of_in hpos.1, ← hname]
    rfl
  have hattr : slotAt (putDot buf (i * 32) name cl) i 11 = attrDirectory := by
    simp only [slotAt, putDot, writeLE]
    rw [blit_of_out (by omega), blit_of_out (by omega), update_self]
  have hhigh : readLE (slotAt (putDot buf (i * 32) name cl) i) 20 2 = cl / 2 ^ 16 % 2 ^ 16 := by
    simp only [hread, putDot]
    rw [writeLE, readLE_blit_of_disjoint (by omega), readLE_writeLE, Nat.shiftRight_eq_div_pow]
    rfl
  have hlow : readLE (slotAt (putDot buf (i * 32) name cl) i) 26 2 = cl % 2 ^ 16 := by
    simp only [hread, putDot]
    exact readLE_writeLE
  have hlive : Live (slotAt (putDot buf (i * 32) name cl) i) := by
    refine ⟨?_, ?_, ?_⟩
    · rw [hfirst]
      decide
    · rw [hfirst]
      decide
    · rw [hattr]
      decide
  refine ⟨_, if_pos hlive, ?_, ?_, ?_⟩
  · exact congrArg some hfirst
  · simp only [makeDirent, hattr]
    decide
  · simp only [makeDirent, hhigh, hlow]
    rw [← Nat.shiftLeft_add_eq_or_of_lt (Nat.mod_lt _ (by decide)), Nat.shiftLeft_eq]
    omega

theorem putDot_other {j : Nat} (hlen : name.length ≤ 11) (hne : k ≠ i) (hj : j < 32) :
    slotAt (putDot buf (i * 32) name cl) k j = slotAt buf k j := by
  simp only [slotAt, putDot, writeLE]
  rw [blit_of_out (by omega), blit_of_out (by omega), update_of_ne (by omega),
    putBytes_of_out (by omega)]

/-- The bytes of a new directory. -/
def dotBytes (q c : Nat) : Nat → UInt8 :=
  putDot (putDot (fun _ => 0) 0 ['.'.toUInt8] q) 32 ['.'.toUInt8, '.'.toUInt8] c

theorem dotBytes_self (hq : q < 2 ^ 32) :
    ∃ it, itemOf (slotAt (dotBytes q c) 0) = some it ∧ it.Dot ∧ it.isDir = true ∧ it.first = q := by
  obtain ⟨it, hit, hrest⟩ : ∃ it, itemOf (slotAt (putDot (fun _ => 0) (0 * 32) ['.'.toUInt8] q) 0) =
    some it ∧ _ :=
    putDot_slot (by decide) hq
  refine ⟨it, (itemOf_congr fun j hj => ?_).trans hit, hrest⟩
  exact putDot_other (i := 1) (by decide) (by decide) hj

/-- **`.` leads to the directory itself, `..` to its parent**, and there is no other entry. -/
theorem dotBytes_item (hq : q < 2 ^ 32) (hc : c < 2 ^ 32)
    (hit : itemOf (slotAt (dotBytes q c) k) = some it) :
    it.Dot ∧ it.isDir = true ∧ (it.first = q ∨ it.first = c) := by
  by_cases hzero : k = 0
  · subst hzero
    obtain ⟨it', hit', hdot, hdir, hfirst⟩ := dotBytes_self (c := c) hq
    obtain rfl : it = it' := Option.some.inj (hit.symm.trans hit')
    exact ⟨hdot, hdir, .inl hfirst⟩
  by_cases hone : k = 1
  · subst hone
    obtain ⟨it', hit', hdot, hdir, hfirst⟩ : ∃ it, itemOf (slotAt (dotBytes q c) 1) = some it ∧ _ :=
      putDot_slot (i := 1) (by decide) hc
    obtain rfl : it = it' := Option.some.inj (hit.symm.trans hit')
    exact ⟨hdot, hdir, .inr hfirst⟩
  · have hfree : slotAt (dotBytes q c) k 0 = 0 :=
      (putDot_other (i := 1) (by decide) hone (by decide)).trans
        (putDot_other (i := 0) (by decide) hzero (by decide))
    rw [itemOf_of_not_live (not_live_of_free (.inl hfree))] at hit
    cases hit

/-! ## 2. The new cluster -/

theorem NewDir.congr (h : NewDir v N g m c q) (hown : g'.own q = none)
    (hc : ∀ o, g.own c = some o → g'.own c' = some o ∧ o.head v m' = o.head v m)
    (htable : m'.table q = m.table q)
    (hitem : ∀ k, m'.item q k = m.item q k) : NewDir v N g' m' c' q where
  range := h.range
  held := h.held
  valid := h.valid
  free := hown
  used := htable ▸ h.used
  atEnd := htable ▸ h.atEnd
  self := by
    obtain ⟨it, hit, hrest⟩ := h.self
    exact ⟨it, (hitem 0).trans hit, hrest⟩
  dots := fun k it hk hit => by
    obtain ⟨hdot, hdir, htarget⟩ := h.dots k it hk ((hitem k).symm.trans hit)
    refine ⟨hdot, hdir, htarget.imp_right (Or.imp_right ?_)⟩
    intro ⟨o, ho, hfirst⟩
    obtain ⟨ho', hhead⟩ := hc o ho
    exact ⟨o, ho', hfirst.trans hhead.symm⟩

/-- **A volume with a new directory `q` that has no entry yet**, for the directory at `c`. -/
structure Ready (v : Volume) (N : Nat) (g : Layout) (m : Image) (c q : Nat) : Prop where
  tidy : Tidy v N g none m
  parent : AtDir g c
  new : NewDir v N g m c q

/-- The image with the cluster `q` taken and filled. -/
def Image.taken (m : Image) (q : Nat) (b : Nat → UInt8) : Image := (m.setLink q eoc).setData q b

theorem ready_taken (hbad : v.total ≤ bad) (h : Tidy v N g none m) (hat : AtHead v g m c)
    (hq : 2 ≤ q ∧ q < v.total) (hheld : v.Holds N q)
    (hfree : m.table q = 0) : Ready v N g (m.taken q (dotBytes q c)) c q := by
  have hown := h.own_none hfree
  have htotal : v.total < 2 ^ 30 := Volume.total_lt
  have hitem : ∀ x k, g.dir x → k < v.slots → (m.taken q (dotBytes q c)).item x k = m.item x k := by
    intro x k hx _
    refine item_congr (setData_of_ne fun heq => ?_)
    exact h.not_dir hown (heq ▸ hx)
  have hself : ∀ k, (m.taken q (dotBytes q c)).item q k = itemOf (slotAt (dotBytes q c) k) :=
    fun k =>
    congrArg itemOf (funext fun j => congrFun setData_self (k * 32 + j))
  have hmark : (m.taken q (dotBytes q c)).table q = eoc := setLink_self
  have hclt : c < 2 ^ 32 := by
    rcases hat with ⟨hdir, -⟩ | rfl
    · obtain ⟨o, ho⟩ := h.dir_own c hdir
      have := (h.range c o ho).2
      omega
    · decide
  refine ⟨(h.setLink hown).setData (h.not_dir hown), hat.atDir, hq, hheld,
    clusterValid_of hq.1 (by omega), hown, ?_,
    ?_, ?_,
    fun k it hk hit => ?_⟩
  · rw [hmark]
    decide
  · rw [hmark]
    decide
  · obtain ⟨it, hit, hrest⟩ := dotBytes_self (q := q) (c := c) (by omega)
    exact ⟨it, (hself 0).trans hit, hrest⟩
  rw [hself] at hit
  obtain ⟨hdot, hdir, hfirst⟩ := dotBytes_item (by omega) hclt hit
  refine ⟨hdot, hdir, ?_⟩
  rcases hfirst with hfirst | hfirst
  · exact .inr (.inl hfirst)
  · rcases hat with ⟨hcdir, o, ho, hhead⟩ | hzero
    · refine .inr (.inr ⟨o, ho, ?_⟩)
      rw [hfirst, h.head_congr (fun x k hx hk => .inl (hitem x k hx hk)) hcdir ho]
      exact hhead
    · exact .inl (hfirst.trans hzero)

/-- The new cluster is not the last one of the parent. -/
theorem Ready.not_last (h : Ready v N g m c q) (hchain : DirChain v N m c cs) :
    q ≠ cs.getLastD 0 := by
  intro heq
  have hge := h.new.range.1
  have hcs : cs ≠ [] := fun hnil => by
    rw [hnil, List.getLastD_nil] at heq
    omega
  have hin := hchain.linked.inChain (hchain.linked.getLastD_end hcs (x := 0)).1
  rcases h.parent with hdir | rfl
  · obtain ⟨o, ho⟩ := h.tidy.dir_own c hdir
    have hlast := h.tidy.own_chain ho hin
    rw [← heq, h.new.free] at hlast
    cases hlast
  · exact not_inChain_zero hin

/-- **The parent grows.** -/
theorem Ready.grown (h : Ready v N g m c q) (hbad : v.total ≤ bad) (hchain : DirChain v N m c cs)
    (hq₂ : 2 ≤ q₂ ∧ q₂ < v.total) (hheld : v.Holds N q₂) (hfree : m.table q₂ = 0) :
    ∃ g', Ready v N g' (m.grown (cs.getLastD 0) q₂) c q ∧ (g'.dir q₂ → g'.own q₂ = g'.own c) ∧
      (m.grown (cs.getLastD 0) q₂).table q = m.table q := by
  have hown := h.tidy.own_none hfree
  have hne : q ≠ q₂ := fun heq => h.new.used (heq ▸ hfree)
  have hvalid : clusterValid q₂ = true := clusterValid_of hq₂.1 (by omega)
  have hitem : ∀ x k, x ≠ q₂ → (m.grown (cs.getLastD 0) q₂).item x k = m.item x k := fun x k hx =>
    item_congr (setData_of_ne hx)
  have hdirne : ∀ x, g.dir x → x ≠ q₂ := fun x hx heq => h.tidy.not_dir hown (heq ▸ hx)
  have hkept : (m.grown (cs.getLastD 0) q₂).table q = m.table q :=
    (setLink_of_ne (h.not_last hchain)).trans (setLink_of_ne hne)
  rcases h.parent with hdir | rfl
  · -- the last cluster of a directory: the new one is a cluster of the same directory
    obtain ⟨o, ho⟩ := h.tidy.dir_own c hdir
    have hcs : cs ≠ [] := fun hnil => by
      have hge := (h.tidy.range c o ho).1
      have hzero := (hchain.empty hnil).1
      omega
    obtain ⟨hmem, hend⟩ := hchain.linked.getLastD_end hcs (x := 0)
    have hin := hchain.linked.inChain hmem
    have hlast : g.own (cs.getLastD 0) = some o := h.tidy.own_chain ho hin
    have hlastne : cs.getLastD 0 ≠ q₂ := hdirne _ (h.tidy.dir_of_chain hdir hin)
    have hgrow := (h.tidy.setLink (x := eoc) hown).grow (h.tidy.dir_of_chain hdir hin)
      (by rw [setLink_of_ne hlastne]; exact hend) hq₂ hheld hvalid hown
      (by rw [setLink_self]; decide)
    refine ⟨_, ⟨hgrow, .inl (.inl hdir),
      h.new.congr ?_ (fun o' ho' => ⟨?_, ?_⟩) hkept fun k => hitem q k hne⟩, fun _ => ?_, hkept⟩
    · exact (update_of_ne hne ..).trans h.new.free
    · exact (update_of_ne (hdirne c hdir) ..).trans ho'
    · exact h.tidy.head_congr (fun x k hx _ => .inl (hitem x k (hdirne x hx))) hdir ho'
    · show Function.update g.own q₂ _ q₂ = Function.update g.own q₂ _ c
      rw [update_self, update_of_ne (hdirne c hdir), hlast, ho]
  -- the cluster 0: the new one belongs to nothing
  obtain rfl := hchain.linked.eq_nil (by decide)
  have hzero : g.own 0 = none := by
    cases ho : g.own 0 with
    | none => rfl
    | some o => exact absurd (h.tidy.range 0 o ho).1 (by decide)
  refine ⟨g, ⟨((h.tidy.setLink hown).setLink hzero).setData (h.tidy.not_dir hown), .inr rfl,
    h.new.congr h.new.free (fun o' ho' => ?_) hkept fun k => hitem q k hne⟩, fun hdir => ?_, hkept⟩
  · rw [hzero] at ho'
    cases ho'
  · exact absurd hdir (h.tidy.not_dir hown)

/-! ## 3. The entry -/

theorem encodeShortName_not_dot {short : List UInt8} (h : encodeShortName name = some short) :
    short.head? ≠ some '.'.toUInt8 := by
  obtain ⟨-, hvalid⟩ := encodeShortName_spec h
  intro hdot
  cases short with
  | nil => cases hdot
  | cons ch short =>
    obtain rfl : ch = '.'.toUInt8 := Option.some.inj hdot
    exact (validShortChar_marks hvalid).2.2 rfl

/-- **Room for the entry of the new directory**: the entry `i` of the cluster `x`. -/
structure Placed (v : Volume) (N : Nat) (g : Layout) (m : Image) (c q : Nat) (name : List UInt8)
    (x i : Nat) : Prop where
  ready : Ready v N g m c q
  range : 2 ≤ x ∧ x < v.total
  held : v.Holds N x
  other : q ≠ x
  parts : lfnPartsFor name ≤ i
  free : ∀ k, i - lfnPartsFor name ≤ k → k ≤ i → k < v.slots → m.item x k = none
  own : g.dir x → g.own x = g.own c

/-- A directory with an entry, or one whose entry is lost: behind the end of its cluster, or in a
    cluster that is none of a directory. -/
structure Entered (v : Volume) (N : Nat) (g : Layout) (m : Image) (c q : Nat) : Prop where
  tidy : Tidy v N g none m
  parent : AtDir g c
  spared : Spared g m q
  used : m.table q ≠ 0

theorem Placed.entered (h : Placed v N g m c q name x i)
    (hw : EntryWritten v m x i name q 0 true m') :
    ∃ g', Entered v N g' m' c q := by
  obtain ⟨short, hshort, hset⟩ := hw
  have htable : m'.table q = m.table q := congrFun hset.table q
  have hitem : ∀ k, m'.item q k = m.item q k := fun k => item_congr (hset.data q h.other)
  by_cases hin : g.dir x ∧ i < v.slots
  · obtain ⟨hdir, hi⟩ := hin
    have hnone : m.item x i = none := h.free i (by omega) (Nat.le_refl i) hi
    have hnodot : ∀ it, m.item x i = some it → ¬ it.Dot := fun it hit => by
      rw [hnone] at hit
      cases hit
    obtain ⟨hhole, hdir'⟩ := h.ready.tidy.vacate (i := i) hdir
    have hholes : ∀ y k, (g.vacate (.entry x i)).dir y → k < v.slots →
        m'.item y k = m.item y k ∨ some (x, i) = some (y, k) ∧
        ∀ it, m.item y k = some it → ¬ it.Dot := by
      intro y k _ hk
      by_cases hyx : y = x
      · subst hyx
        by_cases hki : k = i
        · subst hki
          exact .inr ⟨rfl, hnodot⟩
        · exact .inl (hset.others k hk hki)
      · exact .inl (item_congr (hset.data y hyx))
    have hownx : ∀ o, g.own c = some o → (g.vacate (.entry x i)).own x = some o := by
      intro o ho
      rw [← h.own hdir] at ho
      exact Layout.vacate_of ho (hdir'.2 o ho)
    have hnew : NewDir v N (g.vacate (.entry x i)) m' x q :=
      h.ready.new.congr (Layout.vacate_none h.ready.new.free)
        (fun o ho => ⟨hownx o ho, hhole.head_congr hholes hdir' (hownx o ho)⟩) htable hitem
    have hdot : ¬ (⟨short, true, q, 0⟩ : Item).Dot := encodeShortName_not_dot hshort
    have hfill := (hhole.setItem hset fun _ => hnodot).fillDir hdir' hi (hset.here hi) hdot rfl hnew
    refine ⟨_, hfill, ?_, .inr ⟨.inr rfl, hnew.self, fun y hy => ?_⟩, htable ▸ h.ready.new.used⟩
    · refine h.ready.parent.imp_left fun hc => .inl ⟨hc, fun o ho => hdir'.2 o ?_⟩
      rw [h.own hdir]
      exact ho
    · by_contra hne
      have hself : ((g.vacate (.entry x i)).adopt q x i).own q = some (.entry x i) := update_self ..
      have hold : ((g.vacate (.entry x i)).adopt q x i).own y = (g.vacate (.entry x i)).own y :=
        update_of_ne hne ..
      exact hhole.hole_free x i y rfl (hold.symm.trans (hy.trans hself))
  refine ⟨g, h.ready.tidy.congr (fun y _ _ => congrFun hset.table y) fun y k hy hk =>
    .inl ?_, h.ready.parent,
    .inl h.ready.new.free, htable ▸ h.ready.new.used⟩
  by_cases hyx : y = x
  · subst hyx
    exact hset.others k hk fun hki => hin ⟨hy, hki ▸ hk⟩
  · exact item_congr (hset.data y hyx)

/-- The new cluster is none of the parent's. -/
theorem Entered.not_inChain {table : Nat → Nat} (h : Entered v N g m c q) (hne : c ≠ q)
    (htable : ∀ x, x < v.total → table x = m.table x) : ¬ InChain table c q := by
  rcases h.parent with hdir | rfl
  · obtain ⟨o, ho⟩ := h.tidy.dir_own c hdir
    intro hin
    have hq : g.own q = some o := by
      refine hin.inv (P := fun y => g.own y = some o) ho fun y hy hvalid => ?_
      rw [htable y (h.tidy.range y o hy).2] at hvalid ⊢
      exact h.tidy.link y o hy hvalid
    rcases h.spared with hnone | ⟨-, -, honly⟩
    · rw [hnone] at hq
      cases hq
    · exact hne (honly c (ho.trans hq.symm))
  · exact not_inChain_zero

/-! ## 4. The call -/

/-- The entry of the new directory, and its cluster given back when there is none. -/
def placeAt (v : Volume) (fuel dirCluster newCluster : Nat)
    (name : List UInt8) (rest : Nat → UInt8) :
    Io (Except Errno Unit) := do
  match ← dirFindFreeSlots v fuel dirCluster (lfnPartsFor name + 1) with
  | none =>
    freeChain v newCluster
    pure (.error .enotempty)
  | some (cluster, offset) =>
    if ← createDirEntries v cluster (offset + lfnPartsFor name * 32) name
      rest newCluster 0 true then
      pure (.ok ())
    else
      freeChain v newCluster
      pure (.error .einval)

/-- `fat32_mkdir` behind the search. -/
def makeAt (v : Volume) (fuel dirCluster : Nat) (name : List UInt8) (rest : Nat → UInt8) :
    Io (Except Errno Unit) := do
  let newCluster ← allocCluster v
  if newCluster = 0 then pure (.error .enotempty)
  else if ← writeDotEntries v newCluster dirCluster then
    placeAt v fuel dirCluster newCluster name rest
  else
    freeChain v newCluster
    pure (.error .einval)

theorem makeDirectory_eq :
    makeDirectory v fuel c name rest = locateEntry v fuel c name >>= fun found =>
    if found.isSome then pure (.error .eexist) else makeAt v fuel c name rest := by
  rw [makeDirectory, findEntry, bind_assoc]
  refine bind_congr fun found => ?_
  rw [pure_bind, Option.isSome_map]
  rfl

/-- What is taken leaves one free cluster of the device less. -/
theorem heldCount_taken {b : Nat → UInt8} (hbad : v.total ≤ bad) (hq : 2 ≤ q ∧ q < v.total)
    (hheld : v.Holds N q)
    (hfree : m.table q = 0) : (m.taken q b).heldCount v N + 1 = m.heldCount v N := by
  have hstored : Stored v b 0 m [] m := stored_nil
  refine (hstored.append hbad hq hfree).card_held fun x hx => ?_
  rw [List.mem_singleton.mp hx]
  exact hheld

theorem DirChain.taken {b : Nat → UInt8} (h : DirChain v N m c cs) (hq : 2 ≤ q)
    (hfree : m.table q = 0) :
    DirChain v N (m.taken q b) c cs ∧ ∀ x ∈ cs, (m.taken q b).data x = m.data x := by
  have hne : ∀ x ∈ cs, x ≠ q := fun x hx heq => h.used x hx (heq ▸ hfree)
  have htable : ∀ x, x ≠ q → (m.taken q b).table x = m.table x := fun x hx => setLink_of_ne hx
  refine ⟨⟨h.linked.congr fun x hx => htable x (hne x hx), h.inTable, h.held,
    fun x hx => ?_, fun hnil => ?_⟩,
    fun x hx => setData_of_ne (hne x hx)⟩
  · rw [htable x (hne x hx)]
    exact h.used x hx
  · rw [htable 0 (by omega)]
    exact h.empty hnil

/-- What is known of a result holds together with what is known of it in every run. -/
theorem Ends.and_does {α : Type} {p : Io α} {P : α → Prop} {R : α → Image → Prop}
    (h : Ends v N [] p m fun a _ _ => P a)
    (hR : Does v N p m R) : Ends v N [] p m fun a m' left => left = [] ∧ P a ∧ R a m' := by
  intro d hd
  obtain ⟨a, d', left, m', hrun, -, hP⟩ := h d hd
  obtain ⟨hr, rfl⟩ := runFaulty_nil.mp hrun
  obtain ⟨m'', hd'', hR'⟩ := hR.run hd hr
  exact ⟨a, d', [], m'', hrun, hd'', rfl, hP, hR'⟩

/-- The entry is created, or its cluster is given back. -/
theorem ends_createAt (hv : v.Sized) (h : Placed v N g m c q name x i)
    (hmark : bad ≤ m.table q) {off : Nat}
    (hoff : off + lfnPartsFor name * 32 = i * 32) : Ends v N [] (do
      if ← createDirEntries v x (off + lfnPartsFor name * 32) name rest q 0 true then pure (.ok ())
      else
        freeChain v q
        pure (.error .einval)) m (fun (r : Except Errno Unit) m' _ =>
          (r = .ok () ↔ encodeShortName name ≠ none) ∧
          (r = .ok () → ∃ g', Entered v N g' m' c q)) := by
  have hqlt : q < 2 ^ 32 := by
    have := h.ready.new.range.2
    have : v.total < 2 ^ 30 := Volume.total_lt
    omega
  have hdoes :
      Does v N (createDirEntries v x (off + lfnPartsFor name * 32) name rest q 0 true)
      m (fun ok m' =>
      (ok = false ∧ encodeShortName name = none ∧ m' = m) ∨ ok = true ∧
      EntryWritten v m x i name q 0 true m') := by
    rw [hoff]
    exact does_createDirEntries hv h.range.1 h.range.2 h.held hqlt h.parts
      fun k hk hki hks => h.free k hk (by omega) hks
  have hcreate :
      Ends v N [] (createDirEntries v x (off + lfnPartsFor name * 32) name rest q 0 true) m
      (fun ok _ _ => ok = true ↔ encodeShortName name ≠ none) :=
    (ends_createFound hv h.range.1 h.range.2 h.held).mono fun ok m' _ hpost => hpost.2 rfl
  refine (hcreate.and_does hdoes).bind fun ok m' left hpost => ?_
  obtain ⟨rfl, hiff, ⟨rfl, hnone, rfl⟩ | ⟨rfl, hwritten⟩⟩ := hpost
  · refine (ends_freeOne hv h.ready.new.valid h.ready.new.range.2 hmark).bind fun _ m'' _ _ => ?_
    exact Ends.pure ⟨⟨fun hok => (by cases hok), fun hsome => absurd hnone hsome⟩, fun hok =>
      (by cases hok)⟩
  · exact Ends.pure ⟨⟨fun _ => hiff.mp rfl, fun _ => rfl⟩, fun _ => h.entered hwritten⟩

theorem ends_placeAt (hv : v.Sized) (hbad : v.total ≤ bad) (h : Ready v N g m c q)
    (hmark : bad ≤ m.table q)
    (hchain : DirChain v N m c cs) (hfuel : cs.length < fuel) :
    Ends v N [] (placeAt v fuel c q name rest) m (fun r m' _ =>
      (r = .ok () ↔ encodeShortName name ≠ none ∧ (RoomIn v m cs name ∨ 0 < m.heldCount v N)) ∧
      (r = .ok () → ∃ g', Entered v N g' m' c q)) := by
  rw [placeAt, ← dirFindFreeSlotsHeap_true, heldCount_pos_iff hv]
  refine (ends_dirFindFreeSlots (true, true) [] _ hv hbad hchain hfuel).rest.bind
    fun r m₁ left hpost => ?_
  obtain ⟨⟨hheap, -⟩ | ⟨x, off, rfl, hx, hfind, rfl⟩ | ⟨⟨-, hnone⟩, hgrow⟩, hleft⟩ := hpost
  · cases hheap
  · -- a run of free entries in a cluster of the parent
    obtain rfl := hleft rfl
    obtain ⟨k, rfl, hend, hfree⟩ := findRun_some (Nat.succ_pos _) hfind
    have hroom : RoomIn v m₁ cs name := ⟨x, hx, Nat.succ_pos _, k, hend, hfree⟩
    have hin := hchain.linked.inChain hx
    have hdir : g.dir c := by
      rcases h.parent with hdir | rfl
      · exact hdir
      · exact absurd hin not_inChain_zero
    obtain ⟨o, ho⟩ := h.tidy.dir_own c hdir
    have hxown := h.tidy.own_chain ho hin
    have hplaced : Placed v N g m₁ c q name x (k + lfnPartsFor name) := by
      refine ⟨h, hchain.inTable x hx, hchain.held x hx, fun heq => ?_, by omega,
        fun j hj hjk _ => ?_, fun _ => hxown.trans ho.symm⟩
      · rw [← heq, h.new.free] at hxown
        cases hxown
      · exact itemOf_of_not_live (not_live_of_free (hfree j (by omega) (by omega)))
    refine (ends_createAt hv hplaced hmark (by omega)).mono fun r m' _ hpost => ⟨?_, hpost.2⟩
    rw [hpost.1]
    exact ⟨fun henc => ⟨henc, .inl hroom⟩, fun henc => henc.1⟩
  have hnoroom : ¬ RoomIn v m cs name := by
    rintro ⟨x, hx, hrun⟩
    exact hnone x hx hrun
  by_cases hgrows : Grows v N m [] true
  swap
  · -- there is no room, and the parent does not grow
    obtain ⟨rfl, -, hsame, hlinked⟩ := hgrow.2 hgrows
    have hq := h.new.range.2
    have hkept : m₁.table q = m.table q := by
      by_cases hfree : m.firstFree v = 0
      · exact hsame.mpr (.inl hfree) q hq
      obtain ⟨-, hothers⟩ := hlinked hfree rfl rfl
      refine hothers q (fun heq => ?_) fun heq => h.new.used (heq ▸ (firstFree_spec hfree).2)
      exact h.not_last hchain heq
    have hmark' : bad ≤ m₁.table q := hkept ▸ hmark
    refine (ends_freeOne hv h.new.valid hq hmark').bind fun _ m'' _ _ => ?_
    refine Ends.pure ⟨⟨fun hok => (by cases hok), fun hor => ?_⟩, fun hok => (by cases hok)⟩
    rcases hor.2 with hroom | ⟨hfree, hheld⟩
    · exact absurd hroom hnoroom
    · exact absurd ⟨hfree, rfl, rfl, rfl, rfl, hheld⟩ hgrows
  -- the parent grows by a cluster full of zeros
  obtain rfl := hleft rfl
  obtain ⟨rfl, rfl⟩ := hgrow.1 hgrows
  obtain ⟨hfree, -, -, -, -, hheld⟩ := hgrows
  obtain ⟨hq₂, hzero⟩ := firstFree_spec hfree
  obtain ⟨g', hready, hown, hkept⟩ := h.grown hbad hchain hq₂ hheld hzero
  have hne : q ≠ m.firstFree v := fun heq => h.new.used (heq ▸ hzero)
  have hplaced : Placed v N g' (m.grown (cs.getLastD 0) (m.firstFree v)) c q name (m.firstFree v)
      (lfnPartsFor name) :=
      ⟨hready, hq₂, hheld, hne, Nat.le_refl _, fun _ _ _ _ => item_zero rfl, hown⟩
  have hmark' : bad ≤ (m.grown (cs.getLastD 0) (m.firstFree v)).table q := hkept ▸ hmark
  refine (ends_createAt hv hplaced hmark' (by omega)).mono fun r m' _ hpost => ⟨?_, hpost.2⟩
  rw [hpost.1]
  exact ⟨fun henc => ⟨henc, .inr ⟨hfree, hheld⟩⟩, fun henc => henc.1⟩

/-- When there is an 8.3 form, a cluster of the device for the directory, and room for its entry. -/
def Makes (v : Volume) (N : Nat) (m : Image) (cs : List Nat) (name : List UInt8) : Prop :=
  encodeShortName name ≠ none ∧ (m.heldCount v N ≠ 0 ∧ RoomIn v m cs name ∨ 2 ≤ m.heldCount v N)

/-- **`fat32_mkdir` behind the search, on a device that takes every write.** -/
theorem ends_makeAt (hv : v.Sized) (hbad : v.total ≤ bad)
    (h : Tidy v N g none m) (hat : AtHead v g m c)
    (hchain : DirChain v N m c cs) (hfuel : cs.length < fuel) :
    Ends v N [] (makeAt v fuel c name rest) m (fun r m' _ => (r = .ok () ↔ Makes v N m cs name) ∧
      (r = .ok () → ∃ g' q, Entered v N g' m' c q ∧ (2 ≤ q ∧ q < v.total) ∧ m.table q = 0)) := by
  rw [makeAt]
  refine Ends.allocCluster hv (fun hfull => ?_) (fun _ hrefused => by cases hrefused) fun hfree _ =>
    ?_
  · rw [if_pos rfl]
    refine Ends.pure ⟨⟨fun hok => (by cases hok), fun hmakes => ?_⟩, fun hok => (by cases hok)⟩
    have hzero : m.heldCount v N = 0 := by
      have := freeCount_zero_iff.mpr hfull
      have := heldCount_le (v := v) (N := N) (m := m)
      omega
    rcases hmakes.2 with hroom | htwo
    · exact absurd hzero hroom.1
    · omega
  obtain ⟨hq, hzero⟩ := firstFree_spec hfree
  have hnone : ¬ v.Holds N (m.firstFree v) → m.heldCount v N = 0 := fun hoff => by
    rw [Image.heldCount, heldClusters_empty hv hfree hoff, Finset.card_empty]
  generalize m.firstFree v = q at hq hzero hfree hnone ⊢
  rw [if_neg hfree, writeDotEntries]
  by_cases hheld : v.Holds N q
  swap
  · -- the cluster is none of the device, and is given back
    refine Ends.writeSlack hheld ?_
    rw [if_neg Bool.false_ne_true]
    have hmark : bad ≤ (m.setLink q eoc).table q := by
      rw [setLink_self]
      decide
    refine (ends_freeOne hv (clusterValid_of hq.1 (by omega)) hq.2 hmark).bind fun _ m' _ _ => ?_
    refine Ends.pure ⟨⟨fun hok => (by cases hok), fun hmakes => ?_⟩, fun hok => (by cases hok)⟩
    rcases hmakes.2 with hroom | htwo
    · exact absurd (hnone hheld) hroom.1
    · have := hnone hheld
      omega
  refine Ends.writeCluster hv hq.1 hq.2 hheld ?_
  rw [show took ([] : List Bool).tail = true from rfl, if_pos rfl, if_pos rfl]
  show Ends v N [] _ (m.taken q (dotBytes q c)) _
  have hready := ready_taken hbad h hat hq hheld hzero
  have hcount := heldCount_taken (b := dotBytes q c) hbad hq hheld hzero
  obtain ⟨hchain', hdata⟩ := hchain.taken (b := dotBytes q c) hq.1 hzero
  have hroom : RoomIn v (m.taken q (dotBytes q c)) cs name ↔ RoomIn v m cs name :=
    RoomIn.congr hdata
  have hmark : bad ≤ (m.taken q (dotBytes q c)).table q := by
    rw [show (m.taken q (dotBytes q c)).table q = eoc from setLink_self]
    decide
  refine (ends_placeAt hv hbad hready hmark hchain' hfuel).mono fun r m' _ hpost =>
    ⟨?_, fun hok => ?_⟩
  · rw [hpost.1, hroom, Makes]
    refine and_congr_right fun _ => ⟨?_, ?_⟩
    · rintro (hroom' | hmore)
      · exact .inl ⟨by omega, hroom'⟩
      · exact .inr (by omega)
    · rintro (⟨-, hroom'⟩ | hmore)
      · exact .inl hroom'
      · exact .inr (by omega)
  · obtain ⟨g', hentered⟩ := hpost.2 hok
    exact ⟨g', q, hentered, hq, hzero⟩

/-! ## 5. A directory that is made and removed -/

/-- Every component of the path is a valid name. -/
def ValidNames (path : List UInt8) : Prop :=
  ∃ dirs name, components path = some (dirs, name) ∧ (dirs ++ [name]).all validComponentName = true

/-- **Calls that succeed**: valid names, no such entry, an 8.3 form, and clusters of the device for
    the directory and its entry. -/
def MakesDir (v : Volume) (d : Disk 512) (path : List UInt8)
    (t : Option (Nat × Option Slot)) : Prop :=
  ValidNames path ∧ encodeShortName (lastComponent path) ≠ none ∧ ∃ c, t = some (c, none) ∧
    (heldFree v d ≠ 0 ∧ Room v d c (lastComponent path) ∨ 2 ≤ heldFree v d)

/-- The call as the search and the rest. -/
theorem fat32Mkdir_run (rest : Nat → UInt8) (htarget : run (target v fuel path) d = some (t, d)) :
    (∃ c, (ValidNames path ∧ t = some (c, none)) ∧
      run (fat32Mkdir v fuel path rest) d = run (makeAt v fuel c (lastComponent path) rest) d) ∨
    (¬ ∃ c, ValidNames path ∧ t = some (c, none)) ∧
    ∃ err, run (fat32Mkdir v fuel path rest) d = some (.error err, d) := by
  rw [fat32Mkdir]
  rw [target] at htarget
  unfold ValidNames
  cases hcomps : components path with
  | none =>
    refine .inr ⟨?_, _, rfl⟩
    rintro ⟨c, ⟨dirs, name, hsome, -⟩, -⟩
    cases hsome
  | some parts =>
    obtain ⟨dirs, name⟩ := parts
    rw [hcomps] at htarget
    dsimp only at htarget ⊢
    obtain ⟨r, hdescend, hrest⟩ := readOnly_descend.run_bind htarget
    by_cases hall : (dirs ++ [name]).all validComponentName = true
    · rw [if_pos hall, run_bind_of hdescend, ← components_last hcomps]
      cases r with
      | error err =>
        cases hrest
        refine .inr ⟨?_, err, rfl⟩
        rintro ⟨c, -, hc⟩
        cases hc
      | ok c =>
        dsimp only at hrest ⊢
        obtain ⟨found, hlocate, hpure⟩ := readOnly_locateEntry.run_bind hrest
        obtain rfl : some (c, found) = t := (Prod.ext_iff.mp (Option.some.inj hpure)).1
        rw [makeDirectory_eq, run_bind_of hlocate]
        cases found with
        | some s =>
          refine .inr ⟨?_, _, rfl⟩
          rintro ⟨c', -, hc⟩
          cases hc
        | none => exact .inl ⟨c, ⟨⟨dirs, name, rfl, hall⟩, rfl⟩, rfl⟩
    · rw [if_neg hall]
      refine .inr ⟨?_, _, rfl⟩
      rintro ⟨c, ⟨dirs', name', heq, hall'⟩, -⟩
      cases heq
      exact hall hall'

/-- **`fat32_remove` undoes a call of `fat32_mkdir`** that took the disk `d` to `d₁`: it succeeds,
    the path leads nowhere, and what was free is free again, besides clusters of the parent. -/
def MkdirUndone (v : Volume) (fuel : Nat) (path : List UInt8) (parent : Nat)
    (d d₁ : Disk 512) : Prop :=
  ∃ d₂, run (fat32Remove v fuel path) d₁ = some (.ok (), d₂) ∧
    run (fat32Open v fuel path) d₂ = some (none, d₂) ∧
    ∀ x, 2 ≤ x → x < v.total → entryAt v d x = 0 → ¬ InChain (entryAt v d₁) parent x →
      entryAt v d₂ x = 0

/-- **When every call of `fat32_mkdir` that succeeds is undone by `fat32_remove`**: when none
    succeeds. The cluster of the new directory is never given back. -/
theorem mkdir_remove_iff (h : WellFormed v g d) (hfuel : v.total ≤ fuel)
    (htarget : run (target v fuel path) d = some (t, d)) :
    (∀ d₁, run (fat32Mkdir v fuel path rest) d = some (.ok (), d₁) →
      MkdirUndone v fuel path (t.elim 0 Prod.fst) d d₁) ↔ ¬ MakesDir v d path t := by
  obtain ⟨-, -, hfound, -⟩ := (does_target h.tidy).run h.shows htarget
  constructor
  · rintro hall ⟨hnames, hshort, c, rfl, hroom⟩
    have hat := (hfound c none rfl).1
    obtain ⟨cs, hchain, hdirs⟩ := h.dirChain hat.atDir
    rw [room_iff hchain] at hroom
    obtain ⟨r, d₁, m₁, hrun, hd₁, hiff, hmade⟩ :
        ∃ r d₁ m₁, run (makeAt v fuel c (lastComponent path) rest) d = some (r, d₁) ∧ _ :=
      (ends_makeAt h.sized h.numbers h.tidy hat hdirs
        (by have := hdirs.length_lt h.sized; omega)).run h.shows
    obtain rfl := hiff.mpr ⟨hshort, hroom⟩
    obtain ⟨g', q, hentered, hq, hfree⟩ := hmade rfl
    have hmkdir : run (fat32Mkdir v fuel path rest) d = some (.ok (), d₁) := by
      rcases fat32Mkdir_run rest htarget with ⟨c', ⟨-, hc⟩, heq⟩ | ⟨hnone, -⟩
      · cases hc
        exact heq.trans hrun
      · exact absurd ⟨c, hnames, rfl⟩ hnone
    obtain ⟨d₂, hremove, -, hgone⟩ := hall d₁ hmkdir
    obtain ⟨m₂, hd₂, hkept⟩ :=
      (does_remove h.sized hentered.tidy hentered.spared h.numbers).run hd₁ hremove
    have hne : c ≠ q := by
      rintro rfl
      rcases hat.atDir with hdir | rfl
      · obtain ⟨o, ho⟩ := h.tidy.dir_own c hdir
        exact h.tidy.used c o ho hfree
      · exact absurd hq.1 (by decide)
    have hzero :=
      hgone q hq.1 hq.2 ((h.shows.table q hq.2).trans hfree) (hentered.not_inChain hne hd₁.table)
    rw [hd₂.table q hq.2, hkept] at hzero
    exact hentered.used hzero
  intro hnot d₁ hrun
  rcases fat32Mkdir_run rest htarget with ⟨c, ⟨hnames, rfl⟩, heq⟩ | ⟨-, err, heq⟩
  swap
  · rw [heq] at hrun
    cases hrun
  have hmake := heq.symm.trans hrun
  have hat := (hfound c none rfl).1
  obtain ⟨cs, hchain, hdirs⟩ := h.dirChain hat.atDir
  obtain ⟨m₁, -, hiff, -⟩ :=
    (ends_makeAt h.sized h.numbers h.tidy hat hdirs
      (by have := hdirs.length_lt h.sized; omega)).result_run
      h.shows hmake
  obtain ⟨hshort, hroom⟩ := hiff.mp rfl
  rw [← room_iff hchain] at hroom
  exact absurd ⟨hnames, hshort, c, rfl, hroom⟩ hnot

/-- The directory A is made in an empty root directory, which does not grow. Its removal fails, and
    its cluster stays taken. -/
theorem mkdir_not_removed : WellFormed smallVolume (flatLayout smallVolume fun _ => none) rootDisk ∧
    ∃ d₁ d₂, run (fat32Mkdir smallVolume 128 [0x41] fun _ => 0) rootDisk = some (.ok (), d₁) ∧
      run (fat32Remove smallVolume 128 [0x41]) d₁ = some (.error .enotempty, d₂) ∧
      clusterValid (entryAt smallVolume d₁ 2) = false ∧
      entryAt smallVolume rootDisk 3 = 0 ∧ entryAt smallVolume d₂ 3 = eoc := by
  refine ⟨rootDisk_flat.wellFormed, ?_⟩
  have hrun : ((run (fat32Mkdir smallVolume 128 [0x41] fun _ => 0) rootDisk).bind fun r =>
      (run (fat32Remove smallVolume 128 [0x41]) r.2).map fun r' => (r.1, r'.1,
        clusterValid (entryAt smallVolume r.2 2), entryAt smallVolume r'.2 3)) =
      some (.ok (), .error .enotempty, false, eoc) := by decide +kernel
  obtain ⟨⟨ok, d₁⟩, hmake, hmap⟩ := Option.bind_eq_some_iff.mp hrun
  obtain ⟨⟨err, d₂⟩, hremove, heq⟩ := Option.map_eq_some_iff.mp hmap
  obtain ⟨rfl, heq⟩ := Prod.ext_iff.mp heq
  obtain ⟨rfl, heq⟩ := Prod.ext_iff.mp heq
  obtain ⟨hend, hused⟩ := Prod.ext_iff.mp heq
  exact ⟨d₁, d₂, hmake, hremove, hend, by decide +kernel, hused⟩

/-- The call for the directory A succeeds and is not undone. -/
theorem mkdir_remove_fresh :
    ∃ d₁, run (fat32Mkdir smallVolume 128 [0x41] fun _ => 0) rootDisk = some (.ok (), d₁) ∧
    ¬ MkdirUndone smallVolume 128 [0x41] 2 rootDisk d₁ := by
  have ht : run (target smallVolume 128 [0x41]) rootDisk = some (some (2, none), rootDisk) :=
    target_new (by decide +kernel)
  have hmem : ∀ x, x = 3 ∨ x = 4 →
      x ∈ heldClusters smallVolume rootDisk.sectorCount (image smallVolume rootDisk).table := by
    rintro x (rfl | rfl)
    · exact mem_heldClusters.mpr ⟨mem_freeClusters.mpr ⟨by decide, by decide +kernel⟩, by decide⟩
    · exact mem_heldClusters.mpr ⟨mem_freeClusters.mpr ⟨by decide, by decide +kernel⟩, by decide⟩
  have hfree : 2 ≤ heldFree smallVolume rootDisk :=
    Finset.one_lt_card.mpr ⟨3, hmem 3 (.inl rfl), 4, hmem 4 (.inr rfl), by decide⟩
  have hmakes : MakesDir smallVolume rootDisk [0x41] (some (2, none)) :=
    ⟨⟨[], [0x41], by decide, by decide⟩, by decide, 2, rfl, .inr hfree⟩
  have hiff :
      (∀ d₁, run (fat32Mkdir smallVolume 128 [0x41] fun _ => 0) rootDisk = some (.ok (), d₁) →
      MkdirUndone smallVolume 128 [0x41] 2 rootDisk d₁) ↔ _ :=
    mkdir_remove_iff rootDisk_flat.wellFormed (by decide) ht
  by_contra hall
  refine hiff.mp (fun d₁ hrun => ?_) hmakes
  by_contra hnot
  exact hall ⟨d₁, hrun, hnot⟩

end DyntKernel.Fat
