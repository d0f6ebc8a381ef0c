/-
  File:      DyntKernel/Fat/Layout.lean
  Subject:   WHO OWNS A CLUSTER: the invariant behind chains that do not meet.

  Every used cluster belongs to at most one owner, the root directory or an entry of a directory,
  and a link leads to a cluster of the same owner. Chains of different entries then have no cluster
  in common, without a word about the chains themselves. While an entry is rewritten its place is a
  hole: it owns nothing, and nothing is asked of what stands there.

  * `Owner`, `Layout` -- the owners, and the clusters of directories, chosen for the proof;
  * `Tidy` -- the invariant, with the hole if there is one;
  * `Tidy.vacate` -- an entry gives up what it owns: a directory gives up all below it;
  * `Tidy.fillDir` -- the hole is filled with a directory;
  * `Tidy.congr`, `Tidy.setItem`, `Tidy.grow` -- changes that keep the invariant.
-/
import DyntKernel.Fat.SlotWrites

namespace DyntKernel.Fat

open Library Prog Function

/-! ## 1. Owners -/

/-- What a cluster belongs to: the root directory, or what an entry of a directory names. -/
inductive Owner
  | root
  | entry (cluster slot : Nat)
  deriving DecidableEq

/-- The clusters of directories, the owners of the clusters, and how deep an owner lies. -/
structure Layout where
  dir : Nat → Prop
  own : Nat → Option Owner
  depth : Owner → Nat

/-- **The clusters that the links of a table lead to from `f`.** -/
inductive InChain (t : Nat → Nat) (f : Nat) : Nat → Prop
  | head (h : clusterValid f = true) : InChain t f f
  | next (x : Nat) (h : InChain t f x) (hvalid : clusterValid (t x) = true) : InChain t f (t x)

/-- The first cluster of what belongs to an owner. -/
def Owner.head (v : Volume) (m : Image) : Owner → Nat
  | .root => v.rootCluster
  | .entry c i => ((m.item c i).map Item.first).getD 0

/-- Where `.` and `..` in the cluster `c` may lead: to the directory itself and to the one above. -/
def DotTarget (v : Volume) (g : Layout) (m : Image) (c f : Nat) : Prop :=
  ∃ o, g.own c = some o ∧ (f = o.head v m ∨
    ∃ p i o', o = .entry p i ∧ g.own p = some o' ∧ f = o'.head v m)

/-- The first entry of a directory is `.`. -/
def SelfDot (m : Image) (f : Nat) : Prop :=
  ∃ it, m.item f 0 = some it ∧ it.Dot ∧ it.isDir = true ∧ it.first = f

/-- What is asked of the live entry `i` of the cluster `c`. -/
structure EntryTidy (v : Volume) (g : Layout) (m : Image) (c i : Nat) (it : Item) : Prop where
  dot : it.Dot → it.isDir = true ∧ (it.first = 0 ∨ DotTarget v g m c it.first)
  sub : ¬ it.Dot → it.isDir = true → g.own it.first = some (.entry c i) ∧
    g.dir it.first ∧ SelfDot m it.first
  file : ¬ it.Dot → it.isDir = false → it.first = 0 ∨ g.own it.first = some (.entry c i)

/-- **The invariant**, on a device of `N` sectors: the clusters that belong to something lie on
    it. -/
structure Tidy (v : Volume) (N : Nat) (g : Layout) (hole : Option (Nat × Nat))
    (m : Image) : Prop where
  root_dir : g.dir v.rootCluster
  root_own : g.own v.rootCluster = some .root
  range : ∀ c o, g.own c = some o → 2 ≤ c ∧ c < v.total
  held : ∀ c o, g.own c = some o → v.Holds N c
  used : ∀ c o, g.own c = some o → m.table c ≠ 0
  link : ∀ c o, g.own c = some o → clusterValid (m.table c) = true → g.own (m.table c) = some o
  dir_own : ∀ c, g.dir c → ∃ o, g.own c = some o
  dir_link : ∀ c, g.dir c → clusterValid (m.table c) = true → g.dir (m.table c)
  dir_entry : ∀ c p i, g.dir c → g.own c = some (.entry p i) →
    g.dir p ∧ i < v.slots ∧ ∃ it, m.item p i = some it ∧ ¬ it.Dot ∧ it.isDir = true
  dir_chain : ∀ c o, g.dir c → g.own c = some o → InChain m.table (o.head v m) c
  deeper : ∀ c p i o, g.dir c → g.own c = some (.entry p i) → g.own p = some o →
    g.depth o < g.depth (.entry p i)
  entry : ∀ c i it, g.dir c → i < v.slots → hole ≠ some (c, i) → m.item c i = some it →
    EntryTidy v g m c i it
  hole_free : ∀ c i x, hole = some (c, i) → g.own x ≠ some (.entry c i)

variable {v : Volume} {g : Layout} {hole : Option (Nat × Nat)}
  {m m' : Image} {N c f i k p q x : Nat}
  {o : Owner} {it : Item} {U : Nat → Prop}

theorem Volume.slots_pos : 0 < v.slots := by
  have hspc : 0 < v.sectorsPerCluster := Nat.pos_of_ne_zero v.spc_pos
  rw [Volume.slots, Volume.bytesPerCluster]
  omega

/-- What the table says along a chain. -/
theorem InChain.inv {t : Nat → Nat} {P : Nat → Prop} (h : InChain t f x) (hf : P f)
    (hnext : ∀ y, P y → clusterValid (t y) = true → P (t y)) : P x := by
  induction h with
  | head _ => exact hf
  | next y _ hvalid ih => exact hnext y ih hvalid

/-- A chain stays where the links along it do. -/
theorem InChain.congr {t t' : Nat → Nat} (h : InChain t f x)
    (hsame : ∀ y, InChain t f y → clusterValid (t y) = true → t' y = t y) : InChain t' f x := by
  induction h with
  | head hvalid => exact .head hvalid
  | next y hy hvalid ih =>
    have heq := hsame y hy hvalid
    rw [← heq] at hvalid ⊢
    exact .next y ih hvalid

theorem InChain.cons {t : Nat → Nat} (hvalid : clusterValid c = true) (h : InChain t (t c) x) :
    InChain t c x := by
  induction h with
  | head hnext => exact .next c (.head hvalid) hnext
  | next y _ hnext ih => exact .next y ih hnext

theorem Linked.inChain {t : Nat → Nat} {L : List Nat} (h : Linked t c L)
    (hx : x ∈ L) : InChain t c x := by
  induction L generalizing c with
  | nil => cases hx
  | cons y L ih =>
    obtain ⟨rfl, hvalid, hrest⟩ := h
    rcases List.mem_cons.mp hx with rfl | hx
    · exact .head hvalid
    · exact .cons hvalid (ih hrest hx)

theorem not_inChain_zero {t : Nat → Nat} : ¬ InChain t 0 x := by
  intro h
  induction h with
  | head hvalid => cases hvalid
  | next y _ _ ih => exact ih

/-- More clusters get owners. -/
theorem EntryTidy.mono {g' : Layout} (h : EntryTidy v g m c i it)
    (hown : ∀ x o, g.own x = some o → g'.own x = some o) (hdir : ∀ x, g.dir x → g'.dir x) :
    EntryTidy v g' m c i it where
  dot hdot := by
    obtain ⟨hisDir, hfirst⟩ := h.dot hdot
    refine ⟨hisDir, hfirst.imp_right ?_⟩
    intro ⟨o, ho, htarget⟩
    refine ⟨o, hown c o ho, htarget.imp_right ?_⟩
    intro ⟨p, k, o', heq, hp, hhead⟩
    exact ⟨p, k, o', heq, hown p o' hp, hhead⟩
  sub hdot hisDir := by
    obtain ⟨ho, hsub, hself⟩ := h.sub hdot hisDir
    exact ⟨hown _ _ ho, hdir _ hsub, hself⟩
  file hdot hisDir := (h.file hdot hisDir).imp_right (hown _ _)

namespace Tidy

section

variable (h : Tidy v N g hole m)
include h

/-- A free cluster has no owner. -/
theorem own_none (hfree : m.table c = 0) : g.own c = none := by
  cases hown : g.own c with
  | none => rfl
  | some o => exact absurd hfree (h.used c o hown)

theorem not_dir (hfree : g.own c = none) : ¬ g.dir c := by
  intro hdir
  obtain ⟨o, hown⟩ := h.dir_own c hdir
  rw [hfree] at hown
  cases hown

/-- The chain of a cluster has its owner. -/
theorem own_chain (hf : g.own f = some o) (hx : InChain m.table f x) : g.own x = some o :=
  hx.inv (P := fun y => g.own y = some o) hf fun y hy hvalid => h.link y o hy hvalid

theorem dir_of_chain (hf : g.dir f) (hx : InChain m.table f x) : g.dir x :=
  hx.inv hf h.dir_link

/-- The entry that owns a directory. -/
theorem home (hc : g.dir c) (hown : g.own c = some (.entry p i)) :
    ∃ it, m.item p i = some it ∧ EntryTidy v g m p i it ∧ ¬ it.Dot ∧ it.isDir = true := by
  obtain ⟨hp, hi, it, hit, hdot, hdir⟩ := h.dir_entry c p i hc hown
  exact ⟨it, hit, h.entry p i it hp hi (fun heq => h.hole_free p i c heq hown) hit, hdot, hdir⟩

/-- **The first cluster of a directory** belongs to it. -/
theorem head_dir (hc : g.dir c) (hown : g.own c = some o) : g.dir (o.head v m) ∧
    g.own (o.head v m) = some o := by
  cases o with
  | root => exact ⟨h.root_dir, h.root_own⟩
  | entry p i =>
    obtain ⟨it, hit, htidy, hdot, hdir⟩ := h.home hc hown
    have hsub := htidy.sub hdot hdir
    rw [Owner.head, hit]
    exact ⟨hsub.2.1, hsub.1⟩

theorem dot_dir (hc : g.dir c) (ht : DotTarget v g m c f) :
    g.dir f ∧ ∃ o, g.own f = some o ∧ f = o.head v m := by
  obtain ⟨o, hown, rfl | ⟨p, i, o', rfl, hp, rfl⟩⟩ := ht
  · obtain ⟨hdir, hhead⟩ := h.head_dir hc hown
    exact ⟨hdir, o, hhead, rfl⟩
  · obtain ⟨hdir, hhead⟩ := h.head_dir (h.dir_entry c p i hc hown).1 hp
    exact ⟨hdir, o', hhead, rfl⟩

end

/-! ## 2. Changes that keep the invariant -/

section Congr

variable (h : Tidy v N g hole m) (htable : ∀ c o, g.own c = some o → m'.table c = m.table c)
  (hitem : ∀ c i, g.dir c → i < v.slots → m'.item c i = m.item c i ∨
    hole = some (c, i) ∧ ∀ it, m.item c i = some it → ¬ it.Dot)

include h hitem

theorem item_home (hc : g.dir c) (hown : g.own c = some (.entry p i)) :
    m'.item p i = m.item p i := by
  obtain ⟨hp, hi, -⟩ := h.dir_entry c p i hc hown
  rcases hitem p i hp hi with hsame | ⟨hhole, -⟩
  · exact hsame
  · exact absurd hown (h.hole_free p i c hhole)

theorem head_congr (hc : g.dir c) (hown : g.own c = some o) : o.head v m' = o.head v m := by
  cases o with
  | root => rfl
  | entry p i => rw [Owner.head, Owner.head, h.item_home hitem hc hown]

theorem entryTidy_congr (hc : g.dir c) (ht : EntryTidy v g m c i it) : EntryTidy v g m' c i it where
  dot hdot := by
    obtain ⟨hdir, hfirst⟩ := ht.dot hdot
    refine ⟨hdir, hfirst.imp_right ?_⟩
    intro ⟨o, hown, htarget⟩
    refine ⟨o, hown, ?_⟩
    rcases htarget with hhead | ⟨p, k, o', rfl, hp, hhead⟩
    · left
      rw [h.head_congr hitem hc hown]
      exact hhead
    · refine .inr ⟨p, k, o', rfl, hp, ?_⟩
      rw [h.head_congr hitem (h.dir_entry c p k hc hown).1 hp]
      exact hhead
  sub hdot hdir := by
    obtain ⟨hown, hsub, self, hself, hselfDot, hselfDir⟩ := ht.sub hdot hdir
    refine ⟨hown, hsub, self, ?_, hselfDot, hselfDir⟩
    rcases hitem _ 0 hsub Volume.slots_pos with hsame | ⟨-, hnot⟩
    · rw [hsame]
      exact hself
    · exact absurd hselfDot (hnot self hself)
  file := ht.file

omit hitem in
theorem chain_congr (htable : ∀ c o, g.own c = some o → m'.table c = m.table c)
    (hf : g.own f = some o) (hx : InChain m.table f x) : InChain m'.table f x :=
  hx.congr fun y hy _ => htable y o (h.own_chain hf hy)

include htable

/-- **The invariant looks at the entries of owned clusters, and at the entries of directories
    besides the hole.** -/
theorem congr : Tidy v N g hole m' where
  root_dir := h.root_dir
  root_own := h.root_own
  range := h.range
  held := h.held
  used := fun c o hown => by
    rw [htable c o hown]
    exact h.used c o hown
  link := fun c o hown => by
    rw [htable c o hown]
    exact h.link c o hown
  dir_own := h.dir_own
  dir_link := fun c hc => by
    obtain ⟨o, hown⟩ := h.dir_own c hc
    rw [htable c o hown]
    exact h.dir_link c hc
  dir_entry := fun c p i hc hown => by
    rw [h.item_home hitem hc hown]
    exact h.dir_entry c p i hc hown
  dir_chain := fun c o hc hown => by
    rw [h.head_congr hitem hc hown]
    exact h.chain_congr htable (h.head_dir hc hown).2 (h.dir_chain c o hc hown)
  deeper := h.deeper
  entry := fun c i it hc hi hhole hit => by
    rcases hitem c i hc hi with hsame | ⟨heq, -⟩
    · rw [hsame] at hit
      exact h.entryTidy_congr hitem hc (h.entry c i it hc hi hhole hit)
    · exact absurd heq hhole
  hole_free := h.hole_free

end Congr

/-- A cluster that nothing owns gets another entry. -/
theorem setLink (h : Tidy v N g hole m) (hfree : g.own c = none) :
    Tidy v N g hole (m.setLink c x) := by
  refine h.congr (fun k o hown => Image.setLink_of_ne fun heq => ?_) fun _ _ _ _ => .inl rfl
  rw [heq, hfree] at hown
  cases hown

/-- A cluster that is not one of a directory is written. -/
theorem setData {b : Nat → UInt8} (h : Tidy v N g hole m) (hdir : ¬ g.dir c) :
    Tidy v N g hole (m.setData c b) := by
  refine h.congr (fun _ _ _ => rfl) fun k i hk _ => .inl ?_
  exact Image.item_congr (Image.setData_of_ne fun heq => hdir (heq ▸ hk))

/-- **What stands in the hole changes.** -/
theorem setItem {new : Option Item} (h : Tidy v N g (some (c, i)) m) (hset : ItemSet v m c i new m')
    (hdot : i < v.slots → ∀ it, m.item c i = some it → ¬ it.Dot) : Tidy v N g (some (c, i)) m' := by
  refine h.congr (fun k _ _ => congrFun hset.table k) fun x k hx hk => ?_
  by_cases hxc : x = c
  · subst hxc
    by_cases hki : k = i
    · subst hki
      exact .inr ⟨rfl, hdot hk⟩
    · exact .inl (hset.others k hk hki)
  · exact .inl (Image.item_congr (hset.data x hxc))

end Tidy

/-! ## 3. A directory grows -/

/-- The cluster `q` becomes one of the directory of the cluster `p`. -/
def Layout.grow (g : Layout) (p q : Nat) : Layout where
  dir x := g.dir x ∨ x = q
  own := Function.update g.own q (g.own p)
  depth := g.depth

theorem item_zero {b : Nat → UInt8} (hb : b = fun _ => 0) : (m.setData c b).item c i = none := by
  refine itemOf_of_not_live (not_live_of_free (.inl ?_))
  have hzero := congrFun (Image.setData_self (m := m) (c := c) (b := b)) (i * 32 + 0)
  rw [hb] at hzero
  rw [hb]
  exact hzero

/-- The cluster `q`, which nothing owned, becomes one of a directory. -/
structure Gains (g g' : Layout) (q : Nat) (o : Owner) : Prop where
  free : g.own q = none
  dir : g'.dir = fun x => g.dir x ∨ x = q
  own : g'.own = Function.update g.own q (some o)

namespace Gains

variable {g' : Layout} {o' : Owner} (hg : Gains g g' q o)
include hg

theorem ne (hx : g.own x = some o') : x ≠ q := by
  intro heq
  rw [heq, hg.free] at hx
  cases hx

theorem own_old (x : Nat) (o' : Owner) (hx : g.own x = some o') : g'.own x = some o' := by
  rw [hg.own, update_of_ne (hg.ne hx), hx]

theorem own_new : g'.own q = some o := by
  rw [hg.own, update_self]

theorem dir_old (x : Nat) (hx : g.dir x) : g'.dir x := by
  rw [hg.dir]
  exact .inl hx

theorem of_own (hx : g'.own x = some o') : x = q ∧ o' = o ∨ g.own x = some o' := by
  by_cases hxq : x = q
  · rw [hxq, hg.own_new] at hx
    exact .inl ⟨hxq, (Option.some.inj hx).symm⟩
  · rw [hg.own, update_of_ne hxq] at hx
    exact .inr hx

theorem of_dir (hd : g'.dir x) (hx : g'.own x = some o') :
    g.dir x ∧ g.own x = some o' ∨ x = q ∧ o' = o := by
  rcases hg.of_own hx with hq | hx
  · exact .inr hq
  · rw [hg.dir] at hd
    exact .inl ⟨hd.resolve_right (hg.ne hx), hx⟩

/-- What is known of all owned clusters, and of `q`. -/
theorem owned {P : Nat → Prop} (h : ∀ x o', g.own x = some o' → P x)
    (hq : P q) (x : Nat) (o' : Owner)
    (hx : g'.own x = some o') : P x := by
  rcases hg.of_own hx with ⟨rfl, -⟩ | hx
  · exact hq
  · exact h x o' hx

theorem dir_own (h : Tidy v N g hole m) (x : Nat) (hx : g'.dir x) : ∃ o', g'.own x = some o' := by
  rw [hg.dir] at hx
  rcases hx with hx | rfl
  · obtain ⟨o', hx'⟩ := h.dir_own x hx
    exact ⟨o', hg.own_old x o' hx'⟩
  · exact ⟨o, hg.own_new⟩

end Gains

/-- **A cluster full of zeros is linked behind the last cluster of a directory.** -/
theorem Tidy.grow (h : Tidy v N g hole m) (hp : g.dir p) (hend : clusterValid (m.table p) = false)
    (hq : 2 ≤ q ∧ q < v.total) (hheld : v.Holds N q) (hvalid : clusterValid q = true)
    (hfree : g.own q = none)
    (hmark : m.table q ≠ 0 ∧ clusterValid (m.table q) = false) :
    Tidy v N (g.grow p q) hole ((m.setLink p q).setData q fun _ => 0) := by
  obtain ⟨o, hown⟩ := h.dir_own p hp
  have hg : Gains g (g.grow p q) q o := ⟨hfree, rfl, by rw [← hown]; rfl⟩
  have hpq : p ≠ q := hg.ne hown
  have htable : ∀ x, x ≠ p → ((m.setLink p q).setData q fun _ => 0).table x = m.table x :=
    fun x hx => Image.setLink_of_ne hx
  have htablep : ((m.setLink p q).setData q fun _ => 0).table p = q := Image.setLink_self
  have hitem : ∀ x k, x ≠ q → ((m.setLink p q).setData q fun _ => 0).item x k = m.item x k :=
    fun x k hx =>
    Image.item_congr (Image.setData_of_ne hx)
  have hold : ∀ x k, g.dir x → k < v.slots →
      ((m.setLink p q).setData q fun _ => 0).item x k = m.item x k := fun x k hx _ => by
    obtain ⟨o', hx'⟩ := h.dir_own x hx
    exact hitem x k (hg.ne hx')
  have hhead : ∀ x o', g.dir x → g.own x = some o' →
      o'.head v ((m.setLink p q).setData q fun _ => 0) = o'.head v m := fun x o' hx hown =>
    h.head_congr (fun x k hx hk => .inl (hold x k hx hk)) hx hown
  -- the old link of `p` leads nowhere, so no chain goes through it
  have hchain : ∀ f x, InChain m.table f x →
      InChain ((m.setLink p q).setData q fun _ => 0).table f x := by
    refine fun f x hx => hx.congr fun y _ hvalid => htable y fun heq => ?_
    rw [heq, hend] at hvalid
    cases hvalid
  have hsome : ∀ x o', (g.grow p q).dir x → (g.grow p q).own x = some o' →
      ∃ y, g.dir y ∧ g.own y = some o' := by
    intro x o' hx hx'
    rcases hg.of_dir hx hx' with hold' | ⟨-, ho⟩
    · exact ⟨x, hold'⟩
    · exact ⟨p, hp, by rw [hown, ho]⟩
  refine ⟨.inl h.root_dir, hg.own_old _ _ h.root_own, hg.owned h.range hq,
    hg.owned h.held hheld, ?_, ?_,
    hg.dir_own h, ?_, ?_, ?_, ?_, ?_, ?_⟩
  · intro x o' hx
    by_cases hxp : x = p
    · rw [hxp, htablep]
      omega
    · rw [htable x hxp]
      rcases hg.of_own hx with ⟨rfl, -⟩ | hx'
      · exact hmark.1
      · exact h.used x o' hx'
  · intro x o' hx hvalid'
    by_cases hxp : x = p
    · subst hxp
      rw [htablep]
      rcases hg.of_own hx with ⟨heq, -⟩ | hx'
      · exact absurd heq hpq
      · rw [hg.own_new, ← hown]
        exact hx'
    · rw [htable x hxp] at hvalid' ⊢
      rcases hg.of_own hx with ⟨rfl, -⟩ | hx'
      · rw [hmark.2] at hvalid'
        cases hvalid'
      · exact hg.own_old _ _ (h.link x o' hx' hvalid')
  · intro x hx hvalid'
    by_cases hxp : x = p
    · subst hxp
      rw [htablep]
      exact .inr rfl
    · rw [htable x hxp] at hvalid' ⊢
      rcases hx with hx | rfl
      · exact .inl (h.dir_link x hx hvalid')
      · rw [hmark.2] at hvalid'
        cases hvalid'
  · intro x p' k hx hx'
    obtain ⟨y, hy, hy'⟩ := hsome x _ hx hx'
    obtain ⟨hdir, hk, it, hit, hrest⟩ := h.dir_entry y p' k hy hy'
    exact ⟨.inl hdir, hk, it, (hold p' k hdir hk).trans hit, hrest⟩
  · intro x o' hx hx'
    rcases hg.of_dir hx hx' with ⟨hdir, hx''⟩ | ⟨rfl, rfl⟩
    · rw [hhead x o' hdir hx'']
      exact hchain _ _ (h.dir_chain x o' hdir hx'')
    · rw [hhead p o' hp hown]
      have hlast :=
        InChain.next p (hchain _ _ (h.dir_chain p o' hp hown)) (by rw [htablep]; exact hvalid)
      rwa [htablep] at hlast
  · intro x p' k o' hx hx' hp'
    obtain ⟨y, hy, hy'⟩ := hsome x _ hx hx'
    obtain ⟨o'', hp''⟩ := h.dir_own p' (h.dir_entry y p' k hy hy').1
    obtain rfl : o' = o'' := Option.some.inj (hp'.symm.trans (hg.own_old p' o'' hp''))
    exact h.deeper y p' k o' hy hy' hp''
  · intro x k it hx hk hhole hit
    rcases hx with hx | rfl
    · rw [hold x k hx hk] at hit
      exact (h.entryTidy_congr (fun x k hx hk => .inl (hold x k hx hk)) hx
        (h.entry x k it hx hk hhole hit)).mono hg.own_old hg.dir_old
    · rw [item_zero rfl] at hit
      cases hit
  · intro c i x hhole hx
    rcases hg.of_own hx with ⟨-, ho⟩ | hx'
    · exact h.hole_free c i p hhole (by rw [hown, ho])
    · exact h.hole_free c i x hhole hx'

/-! ## 4. The hole is filled -/

/-- The cluster `q` becomes a directory, that of the entry `i` of the cluster `c`. -/
def Layout.adopt (g : Layout) (q c i : Nat) : Layout where
  dir x := g.dir x ∨ x = q
  own := Function.update g.own q (some (.entry c i))
  depth := Function.update g.depth (.entry c i) (((g.own c).map g.depth).getD 0 + 1)

/-- A new directory: `.` and `..` in one cluster. -/
structure NewDir (v : Volume) (N : Nat) (g : Layout) (m : Image) (c q : Nat) : Prop where
  range : 2 ≤ q ∧ q < v.total
  held : v.Holds N q
  valid : clusterValid q = true
  free : g.own q = none
  used : m.table q ≠ 0
  atEnd : clusterValid (m.table q) = false
  self : SelfDot m q
  dots : ∀ k it, k < v.slots → m.item q k = some it → it.Dot ∧ it.isDir = true ∧
    (it.first = 0 ∨ it.first = q ∨ ∃ o, g.own c = some o ∧ it.first = o.head v m)

/-- **The hole holds a new directory.** -/
theorem Tidy.fillDir (h : Tidy v N g (some (c, i)) m) (hc : g.dir c) (hi : i < v.slots)
    (hit : m.item c i = some it) (hdot : ¬ it.Dot) (hdir : it.isDir = true)
    (hnew : NewDir v N g m c it.first) : Tidy v N (g.adopt it.first c i) none m := by
  have hg : Gains g (g.adopt it.first c i) it.first (.entry c i) := ⟨hnew.free, rfl, rfl⟩
  have hdepth : ∀ o', o' ≠ .entry c i → (g.adopt it.first c i).depth o' = g.depth o' :=
    fun o' ho' => update_of_ne ho' ..
  have hother : ∀ x o', g.own x = some o' → o' ≠ .entry c i := fun x o' hx heq =>
    h.hole_free c i x rfl (heq ▸ hx)
  have hhead : (Owner.entry c i).head v m = it.first := by
    rw [Owner.head, hit]
    rfl
  refine ⟨.inl h.root_dir, hg.own_old _ _ h.root_own, hg.owned h.range hnew.range,
    hg.owned h.held hnew.held, ?_, ?_, hg.dir_own h, ?_, ?_, ?_, ?_, ?_, nofun⟩
  · intro x o' hx
    rcases hg.of_own hx with ⟨rfl, -⟩ | hx'
    · exact hnew.used
    · exact h.used x o' hx'
  · intro x o' hx hvalid
    rcases hg.of_own hx with ⟨rfl, -⟩ | hx'
    · rw [hnew.atEnd] at hvalid
      cases hvalid
    · exact hg.own_old _ _ (h.link x o' hx' hvalid)
  · intro x hx hvalid
    rcases hx with hx | rfl
    · exact .inl (h.dir_link x hx hvalid)
    · rw [hnew.atEnd] at hvalid
      cases hvalid
  · intro x p k hx hx'
    rcases hg.of_dir hx hx' with ⟨hx, hx'⟩ | ⟨-, heq⟩
    · obtain ⟨hp, hrest⟩ := h.dir_entry x p k hx hx'
      exact ⟨.inl hp, hrest⟩
    · cases heq
      exact ⟨.inl hc, hi, it, hit, hdot, hdir⟩
  · intro x o' hx hx'
    rcases hg.of_dir hx hx' with ⟨hx, hx'⟩ | ⟨rfl, rfl⟩
    · exact h.dir_chain x o' hx hx'
    · rw [hhead]
      exact .head hnew.valid
  · intro x p k o' hx hx' hp
    rcases hg.of_dir hx hx' with ⟨hx, hx'⟩ | ⟨-, heq⟩
    · obtain ⟨o'', hp'⟩ := h.dir_own p (h.dir_entry x p k hx hx').1
      obtain rfl : o' = o'' := Option.some.inj (hp.symm.trans (hg.own_old p o'' hp'))
      rw [hdepth _ (hother x _ hx'), hdepth _ (hother p _ hp')]
      exact h.deeper x p k o' hx hx' hp'
    cases heq
    obtain ⟨o'', hc'⟩ := h.dir_own c hc
    obtain rfl : o' = o'' := Option.some.inj (hp.symm.trans (hg.own_old c o'' hc'))
    have hself : (g.adopt it.first c i).depth (.entry c i) = ((g.own c).map g.depth).getD 0 + 1 :=
      update_self ..
    rw [hdepth _ (hother c _ hc'), hself, hc']
    exact Nat.lt_succ_self _
  intro x k it' hx hk _ hit'
  rcases hx with hx | rfl
  · by_cases heq : (x, k) = (c, i)
    · cases heq
      obtain rfl : it = it' := Option.some.inj (hit.symm.trans hit')
      refine ⟨fun hd => absurd hd hdot, fun _ _ => ⟨hg.own_new, .inr rfl, hnew.self⟩,
        fun _ hd => ?_⟩
      rw [hdir] at hd
      cases hd
    · exact (h.entry x k it' hx hk (fun hc => heq (Option.some.inj hc).symm) hit').mono
        hg.own_old hg.dir_old
  · obtain ⟨hdot', hdir', htarget⟩ := hnew.dots k it' hk hit'
    refine ⟨fun _ => ⟨hdir', htarget.imp_right ?_⟩,
      fun hd => absurd hdot' hd, fun hd => absurd hdot' hd⟩
    rintro (hself | ⟨o', hc', hup⟩)
    · exact ⟨_, hg.own_new, .inl (hself.trans hhead.symm)⟩
    · exact ⟨_, hg.own_new, .inr ⟨c, i, o', rfl, hg.own_old c o' hc', hup⟩⟩

/-! ## 5. An entry gives up what it owns -/

/-- An owner below another one in the tree of directories, or this one itself. -/
inductive Below (g : Layout) (o : Owner) : Owner → Prop
  | self : Below g o o
  | step (p k : Nat) (o' : Owner) (hp : g.own p = some o')
      (h : Below g o o') : Below g o (.entry p k)

open Classical in
/-- What belongs to `o`, and to all below it, belongs to nothing. -/
noncomputable def Layout.vacate (g : Layout) (o : Owner) : Layout where
  dir x := g.dir x ∧ ∀ o', g.own x = some o' → ¬ Below g o o'
  own x := if ∀ o', g.own x = some o' → ¬ Below g o o' then g.own x else none
  depth := g.depth

section Vacate

variable {o' : Owner}

theorem Layout.vacate_own (h : (g.vacate o).own x = some o') :
    g.own x = some o' ∧ ¬ Below g o o' := by
  by_cases hkeep : ∀ o', g.own x = some o' → ¬ Below g o o'
  · have hown : g.own x = some o' := (if_pos hkeep).symm.trans h
    exact ⟨hown, hkeep o' hown⟩
  · cases (if_neg hkeep).symm.trans h

theorem Layout.vacate_of (hown : g.own x = some o') (hkeep : ¬ Below g o o') :
    (g.vacate o).own x = some o' := by
  refine (if_pos fun o'' hx => ?_).trans hown
  obtain rfl : o' = o'' := Option.some.inj (hown.symm.trans hx)
  exact hkeep

theorem Layout.vacate_none (h : g.own x = none) : (g.vacate o).own x = none := by
  cases hx : (g.vacate o).own x with
  | none => rfl
  | some o' =>
    have hold := (Layout.vacate_own hx).1
    rw [h] at hold
    cases hold

/-- A directory below `o` makes `o` the owner of a directory, and it lies at least as deep. -/
theorem Tidy.below (h : Tidy v N g hole m) (hb : Below g o o') (hx : g.dir x)
    (hown : g.own x = some o') :
    (∃ y, g.dir y ∧ g.own y = some o) ∧ g.depth o ≤ g.depth o' := by
  induction hb generalizing x with
  | self => exact ⟨⟨x, hx, hown⟩, Nat.le_refl _⟩
  | step p k o'' hp _ ih =>
    obtain ⟨hactive, hle⟩ := ih (h.dir_entry x p k hx hown).1 hp
    exact ⟨hactive, Nat.le_trans hle (Nat.le_of_lt (h.deeper x p k o'' hx hown hp))⟩

/-- **An entry becomes a hole**: its clusters and, if it is a directory, everything below it are
    given up; the directory it stands in is not. -/
theorem Tidy.vacate (h : Tidy v N g none m) (hc : g.dir c) :
    Tidy v N (g.vacate (.entry c i)) (some (c, i)) m ∧ (g.vacate (.entry c i)).dir c := by
  have hroot : ¬ Below g (.entry c i) .root := fun hb => by cases hb
  have hup : ∀ p k o', g.own p = some o' → ¬ Below g (.entry c i) (.entry p k) →
      ¬ Below g (.entry c i) o' :=
    fun p k o' hp hnot hb => hnot (.step p k o' hp hb)
  have hkeep : ∀ x o', g.dir x → g.own x = some o' → ¬ Below g (.entry c i) o' →
      (g.vacate (.entry c i)).dir x := by
    intro x o' hx hown hnot
    refine ⟨hx, fun o'' hx' => ?_⟩
    obtain rfl : o' = o'' := Option.some.inj (hown.symm.trans hx')
    exact hnot
  refine ⟨⟨?_, Layout.vacate_of h.root_own hroot, ?_, ?_, ?_, ?_, ?_, ?_, ?_, ?_, ?_, ?_, ?_⟩, ?_⟩
  · exact hkeep _ _ h.root_dir h.root_own hroot
  · exact fun x o' hx => h.range x o' (Layout.vacate_own hx).1
  · exact fun x o' hx => h.held x o' (Layout.vacate_own hx).1
  · exact fun x o' hx => h.used x o' (Layout.vacate_own hx).1
  · intro x o' hx hvalid
    obtain ⟨hown, hnot⟩ := Layout.vacate_own hx
    exact Layout.vacate_of (h.link x o' hown hvalid) hnot
  · intro x hx
    obtain ⟨o', hown⟩ := h.dir_own x hx.1
    exact ⟨o', Layout.vacate_of hown (hx.2 o' hown)⟩
  · intro x hx hvalid
    obtain ⟨o', hown⟩ := h.dir_own x hx.1
    exact hkeep _ o' (h.dir_link x hx.1 hvalid) (h.link x o' hown hvalid) (hx.2 o' hown)
  · intro x p k hx hx'
    obtain ⟨hown, hnot⟩ := Layout.vacate_own hx'
    obtain ⟨hp, hrest⟩ := h.dir_entry x p k hx.1 hown
    obtain ⟨o', hp'⟩ := h.dir_own p hp
    exact ⟨hkeep p o' hp hp' (hup p k o' hp' hnot), hrest⟩
  · exact fun x o' hx hx' => h.dir_chain x o' hx.1 (Layout.vacate_own hx').1
  · exact fun x p k o' hx hx' hp =>
      h.deeper x p k o' hx.1 (Layout.vacate_own hx').1 (Layout.vacate_own hp).1
  · intro x k it hx hk hne hit
    obtain ⟨ox, hxown⟩ := h.dir_own x hx.1
    have hxnot := hx.2 ox hxown
    -- what another entry of a directory that is kept owns is kept
    have hentry : ¬ Below g (.entry c i) (.entry x k) := by
      intro hb
      cases hb with
      | self => exact hne rfl
      | step p k o' hp hb =>
        obtain rfl : ox = o' := Option.some.inj (hxown.symm.trans hp)
        exact hxnot hb
    have ht := h.entry x k it hx.1 hk nofun hit
    refine ⟨fun hdot => ?_, fun hdot hdir => ?_, fun hdot hdir => ?_⟩
    · obtain ⟨hdir, hfirst⟩ := ht.dot hdot
      refine ⟨hdir, hfirst.imp_right ?_⟩
      intro ⟨o', hown, htarget⟩
      have hnot := hx.2 o' hown
      refine ⟨o', Layout.vacate_of hown hnot, htarget.imp_right ?_⟩
      intro ⟨p, k', o'', heq, hp, hhead⟩
      exact ⟨p, k', o'', heq, Layout.vacate_of hp (hup p k' o'' hp (heq ▸ hnot)), hhead⟩
    · obtain ⟨hown, hsub, hself⟩ := ht.sub hdot hdir
      exact ⟨Layout.vacate_of hown hentry, hkeep _ _ hsub hown hentry, hself⟩
    · exact (ht.file hdot hdir).imp_right fun hown => Layout.vacate_of hown hentry
  · intro c' i' x heq hx
    cases heq
    exact (Layout.vacate_own hx).2 .self
  · obtain ⟨o', hown⟩ := h.dir_own c hc
    refine hkeep c o' hc hown fun hb => ?_
    obtain ⟨⟨y, hy, hy'⟩, hle⟩ := h.below hb hc hown
    exact Nat.lt_irrefl _ (Nat.lt_of_lt_of_le (h.deeper y c i o' hy hy' hown) hle)

end Vacate

end DyntKernel.Fat
