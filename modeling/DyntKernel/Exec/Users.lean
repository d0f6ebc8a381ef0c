/-
  File:      DyntKernel/Exec/Users.lean
  Subject:   WHAT USER PROCESSES CAN DO TO THE KERNEL'S MAPPINGS.

  User processes call mmap, munmap, fork, execve and exit, in any order and with any arguments.

  * `UserProc`, `Users`, `Call`, `Users.step` -- the processes and their calls;
  * `Supervised` -- every space still has the kernel's identity map and the page of the local APIC,
    out of reach of user mode, and the bitmap marks no frame free that is no RAM;
  * `Careful` -- the condition on a call;
  * `UsersInv`, `usersInv_step` -- the invariant, call by call;
  * `users_supervised` -- the property in every run of careful calls;
  * `UserPage`, `users_isolated` -- no frame is in two user pages, of one process or of two.
-/
import DyntKernel.Exec.Confined

namespace DyntKernel.Exec

open Library Library.Fallible Mem List

/-! ## 1. Processes and calls -/

structure UserProc where
  pid : Nat
  cr3 : Nat
  mmapCursor : Nat
deriving DecidableEq

/-- The machine, the processes (in no order) and `next_pid`. -/
structure Users where
  mm : Mm
  procs : List UserProc
  nextPid : Nat

inductive Call where
  | mmap (len : Nat)
  | munmap (addr len : Nat)
  /-- The heap grows by `heap` before the new space is made and by `heap'` after it. -/
  | fork (heap heap' : List Nat)
  | execve (heap : List Nat) (a : Args) (file : Option Image)
  /-- The process is destroyed at once, or stays with its space until its parent waits for it. -/
  | exit (destroyed : Bool)

namespace Users

/-- `process_fork`. -/
def fork (w : Users) (p : UserProc) (heap heap' : List Nat) : Users :=
  let r := (w.mm.takeFrames heap).pagingNewAddressSpace
  if r.1 = 0 then { w with mm := r.2, nextPid := w.nextPid + 1 }
  else
    let c := (r.2.takeFrames heap').pagingCloneUserSpace p.cr3 r.1
    if c.1 then ⟨c.2, ⟨w.nextPid, r.1, p.mmapCursor⟩ :: w.procs, w.nextPid + 1⟩
    else { w with mm := c.2.pagingFreeAddressSpace r.1, nextPid := w.nextPid + 1 }

/-- A system call of the process `p`. -/
def call (w : Users) (p : UserProc) : Call → Users
  | .mmap len =>
    let r := w.mm.sysMmap p.cr3 p.mmapCursor len
    { w with mm := r.2, procs := { p with mmapCursor := r.1 } :: w.procs.erase p }
  | .munmap addr len => { w with mm := w.mm.sysMunmap p.cr3 addr len }
  | .fork heap heap' => w.fork p heap heap'
  | .execve heap a file =>
    match processExecve p.cr3 p.pid a file (Load.begin (w.mm.takeFrames heap)) with
    | (none, l) => { w with mm := l.mm }
    | (some r, l) =>
      { w with mm := l.mm, procs := ⟨p.pid, r, processMmapStart⟩ :: w.procs.erase p }
  | .exit destroyed =>
    if destroyed then
      { w with mm := w.mm.pagingFreeAddressSpace p.cr3, procs := w.procs.erase p }
    else w

def step (w : Users) (e : UserProc × Call) : Option Users :=
  if e.1 ∈ w.procs then some (w.call e.1 e.2) else none

/-- The roots of the live address spaces. -/
def roots (w : Users) : List Nat := w.procs.map UserProc.cr3

end Users

/-! ## 2. The property and the condition -/

/-- **The kernel's mappings are in place**: every live space translates the kernel's addresses and
    those of the APIC page to themselves, without user access, and every free frame is RAM. -/
structure Supervised (b : Boot) (w : Users) : Prop where
  kernel : ∀ p ∈ w.procs, ∀ a, a < pagingUserBase →
    pagingTranslate w.mm.mem p.cr3 a = a ∧ userMapped w.mm.mem p.cr3 a = false
  lapic : ∀ p ∈ w.procs, ∀ a, w.mm.lapicBase ≤ a → a < w.mm.lapicBase + 0x200000 →
    pagingTranslate w.mm.mem p.cr3 a = a ∧ userMapped w.mm.mem p.cr3 a = false
  ram : ∀ f, w.mm.pmm.free f = true → b.Ram f

/-- **The condition on a call**: no huge page is released, what is given back was mapped, no child
    gets the last two frames, and the stores of a program that is loaded stay inside its pages. -/
def Careful (w : Users) (e : UserProc × Call) : Prop :=
  match e.2 with
  | .mmap len => GivesBack w.mm e.1.cr3 (Mm.mmapRequest e.1.mmapCursor len)
  | .munmap addr len => ∀ va ∈ Mm.munmapPages addr len, hugeAt w.mm.mem e.1.cr3 va = false
  | .fork heap heap' =>
    freeCount (w.mm.takeFrames heap) = 2 → (w.fork e.1 heap heap').procs = w.procs
  | .execve heap a file => ExecInside e.1.pid a file (w.mm.takeFrames heap)
  | .exit _ => True

/-- **The invariant**: the spaces are apart, and each has the entry of the APIC. -/
structure UsersInv (b : Boot) (w : Users) : Prop where
  inv : Inv b w.mm w.roots
  apart : w.roots.Nodup
  base : LapicBase w.mm.lapicBase
  mapped : ∀ r ∈ w.roots, LapicMapped w.mm r

variable {b : Boot} {w w' : Users} {s s' : Mm} {sp : List Nat} {p : UserProc}

theorem UsersInv.supervised (h : UsersInv b w) : Supervised b w := by
  refine ⟨fun p hp a ha => ?_, fun p hp a hlow hhigh => ?_, h.inv.free⟩
  · exact kernel_mapped h.inv.toShape (mem_map_of_mem hp) ha
  · exact (h.mapped p.cr3 (mem_map_of_mem hp)).mapped h.base hlow hhigh

/-! ## 3. Call by call -/

section Calls

variable (h : UsersInv b w) (hp : p ∈ w.procs)
include h

/-- The invariant of processes whose spaces grew. -/
theorem UsersInv.kept {mm : Mm} {procs : List UserProc} {next : Nat} (hinv : Inv b mm sp)
    (hkept : Kept w.roots w.mm mm) (hroots : ∀ q ∈ procs, q.cr3 ∈ sp ∧ q.cr3 ∈ w.roots)
    (hapart : (procs.map UserProc.cr3).Nodup) : UsersInv b ⟨mm, procs, next⟩ := by
  have hmem : ∀ r ∈ procs.map UserProc.cr3, r ∈ sp ∧ r ∈ w.roots := by
    intro r hr
    obtain ⟨q, hq, rfl⟩ := mem_map.mp hr
    exact hroots q hq
  refine ⟨hinv.mono fun r hr => (hmem r hr).1, hapart, ?_, fun r hr => ?_⟩
  · exact hkept.lapic ▸ h.base
  · exact (h.mapped r (hmem r hr).2).kept h.base hkept (hmem r hr).2

include hp

/-- The roots without the process `p`. -/
theorem roots_erase : ((w.procs.erase p).map UserProc.cr3).Nodup ∧
    p.cr3 ∉ (w.procs.erase p).map UserProc.cr3 ∧ ∀ q ∈ w.procs.erase p, q.cr3 ∈ w.roots := by
  have hperm : w.roots.Perm (p.cr3 :: (w.procs.erase p).map UserProc.cr3) :=
    (perm_cons_erase hp).map UserProc.cr3
  have hnodup := nodup_cons.mp (hperm.nodup_iff.mp h.apart)
  exact ⟨hnodup.2, hnodup.1, fun q hq => mem_map_of_mem (mem_of_mem_erase hq)⟩

theorem usersInv_mmap {len : Nat} (hc : Careful w (p, .mmap len)) :
    UsersInv b (w.call p (.mmap len)) := by
  obtain ⟨hnodup, hnot, hroots⟩ := roots_erase h hp
  have hr : p.cr3 ∈ w.roots := mem_map_of_mem hp
  obtain ⟨hinv, s₁, hkept, habove⟩ := h.inv.sysMmap hr hc
  have hmem : ∀ r ∈ (w.call p (.mmap len)).roots, r ∈ w.roots := by
    intro r hr'
    obtain ⟨q, hq, rfl⟩ := mem_map.mp hr'
    rcases mem_cons.mp hq with rfl | hq
    · exact hr
    · exact hroots q hq
  have hbase : LapicBase s₁.lapicBase := hkept.lapic ▸ h.base
  refine ⟨hinv.mono hmem, nodup_cons.mpr ⟨hnot, hnodup⟩, ?_, fun r hr' => ?_⟩
  · show LapicBase (w.mm.sysMmap p.cr3 p.mmapCursor len).2.lapicBase
    rw [habove.lapic]
    exact hbase
  · exact ((h.mapped r (hmem r hr')).kept h.base hkept (hmem r hr')).above hbase habove (hmem r hr')

theorem usersInv_munmap {addr len : Nat} (hc : Careful w (p, .munmap addr len)) :
    UsersInv b (w.call p (.munmap addr len)) := by
  obtain ⟨hinv, habove⟩ := h.inv.sysMunmap (mem_map_of_mem hp) hc
  refine ⟨hinv, h.apart, ?_, fun r hr => (h.mapped r hr).above h.base habove hr⟩
  show LapicBase (w.mm.sysMunmap p.cr3 addr len).lapicBase
  rw [habove.lapic]
  exact h.base

theorem usersInv_exit (destroyed : Bool) : UsersInv b (w.call p (.exit destroyed)) := by
  rw [Users.call]
  split_ifs
  · obtain ⟨hnodup, hnot, hroots⟩ := roots_erase h hp
    refine h.kept (h.inv.pagingFreeAddressSpace (mem_map_of_mem hp)) (Kept.freeSpace w.mm p.cr3)
      (fun q hq => ⟨mem_filter.mpr ⟨hroots q hq, ?_⟩, hroots q hq⟩) hnodup
    refine decide_eq_true fun heq => hnot ?_
    rw [← heq]
    exact mem_map_of_mem hq
  · exact h

omit hp in
/-- The invariant of the processes and a new one. -/
theorem UsersInv.add {mm : Mm} {q : UserProc} {procs : List UserProc}
    {next : Nat} (hinv : Inv b mm sp)
    (hkept : Kept w.roots w.mm mm) (hmapped : LapicMapped mm q.cr3) (hq : q.cr3 ∈ sp)
    (hnew : q.cr3 ∉ w.roots) (hroots : ∀ q' ∈ procs, q'.cr3 ∈ sp ∧ q'.cr3 ∈ w.roots)
    (hapart : (procs.map UserProc.cr3).Nodup) : UsersInv b ⟨mm, q :: procs, next⟩ := by
  have hold : UsersInv b ⟨mm, procs, next⟩ := h.kept hinv hkept hroots hapart
  have hmem : ∀ r ∈ procs.map UserProc.cr3, r ∈ sp ∧ r ∈ w.roots := by
    intro r hr
    obtain ⟨q', hq', rfl⟩ := mem_map.mp hr
    exact hroots q' hq'
  refine ⟨hinv.mono fun r hr => ?_, nodup_cons.mpr ⟨fun hr => hnew (hmem _ hr).2, hapart⟩,
    hold.base, fun r hr => ?_⟩
  · rcases mem_cons.mp hr with rfl | hr
    · exact hq
    · exact (hmem r hr).1
  · rcases mem_cons.mp hr with rfl | hr
    · exact hmapped
    · exact hold.mapped r hr

omit hp in
theorem usersInv_fork {heap heap' : List Nat} (hc : Careful w (p, .fork heap heap')) :
    UsersInv b (w.call p (.fork heap heap')) := by
  have hinv₁ := h.inv.takeFrames heap
  have hkept₁ : Kept w.roots w.mm (w.mm.takeFrames heap) := Kept.of_mem rfl rfl
  have hroots : ∀ q ∈ w.procs, q.cr3 ∈ w.roots := fun q hq => mem_map_of_mem hq
  rcases pagingNewAddressSpace_cases hinv₁ with
    ⟨s₂, heq, hinv, hmem, hlapic, -⟩ | ⟨r, s₂, heq, hne, hnew⟩
  · simp only [Users.call, Users.fork, heq, if_true]
    exact h.kept hinv (hkept₁.trans (Kept.of_mem hmem hlapic)) (fun q hq =>
      ⟨hroots q hq, hroots q hq⟩)
      h.apart
  have hkept₃ : Kept (r :: w.roots) s₂ (s₂.takeFrames heap') := Kept.of_mem rfl rfl
  obtain ⟨hinv₄, hkept₄⟩ := (hnew.inv.takeFrames heap').pagingCloneUserSpace p.cr3
    (mem_cons_self (a := r))
  have hkept := hkept₃.trans hkept₄
  have hall := (hkept₁.trans hnew.kept).trans (hkept.mono fun _ => mem_cons_of_mem r)
  have hnot := hnew.not_mem hinv₁
  have hc' : freeCount (w.mm.takeFrames heap) = 2 → (w.fork p heap heap').procs = w.procs := hc
  simp only [Users.fork, heq, if_neg hne] at hc'
  simp only [Users.call, Users.fork, heq, if_neg hne]
  generalize (s₂.takeFrames heap').pagingCloneUserSpace p.cr3 r = c at hinv₄ hkept hall hc' ⊢
  split_ifs at hc' ⊢
  · -- a child that is made has more than two frames, so its space has the APIC page
    have hfree : 3 ≤ freeCount (w.mm.takeFrames heap) := by
      have htwo := two_le_freeCount hinv₁ heq hne
      have hmore : freeCount (w.mm.takeFrames heap) ≠ 2 := fun heq₂ => cons_ne_self _ _ (hc' heq₂)
      omega
    obtain ⟨r', s', heq', -, -, hmapped⟩ := newSpace_lapic hinv₁ h.base hfree
    obtain ⟨rfl, rfl⟩ := Prod.mk.inj (heq.symm.trans heq')
    have hbase : LapicBase s₂.lapicBase := hnew.kept.lapic ▸ h.base
    exact h.add hinv₄ hall (hmapped.kept hbase hkept mem_cons_self) mem_cons_self
      hnot (fun q hq => ⟨mem_cons_of_mem r (hroots q hq), hroots q hq⟩) h.apart
  refine h.kept (hinv₄.pagingFreeAddressSpace mem_cons_self) (hall.trans (Kept.freeSpace c.2 r))
    (fun q hq => ⟨mem_filter.mpr ⟨mem_cons_of_mem r (hroots q hq), ?_⟩, hroots q hq⟩) h.apart
  refine decide_eq_true fun heq' => hnot ?_
  rw [← heq']
  exact hroots q hq

theorem usersInv_execve {heap : List Nat} {a : Args} {file : Option Image}
    (hc : Careful w (p, .execve heap a file)) : UsersInv b (w.call p (.execve heap a file)) := by
  have hinv₁ := h.inv.takeFrames heap
  have hr : p.cr3 ∈ w.roots := mem_map_of_mem hp
  have hkept₁ : Kept w.roots w.mm (w.mm.takeFrames heap) := Kept.of_mem rfl rfl
  rw [Users.call]
  rcases processExecve_cases hinv₁ hr p.pid hc with
    ⟨l, heq, -, hinv, hkept⟩ | ⟨r, s', l, heq, -, hinv, hspace, hfree, hnew, hkept⟩
  · rw [heq]
    exact h.kept hinv (hkept₁.trans hkept) (fun q hq =>
      ⟨mem_map_of_mem hq, mem_map_of_mem hq⟩) h.apart
  rw [heq]
  obtain ⟨r', s'', hspace', -, -, hmapped⟩ := newSpace_lapic hinv₁ h.base hfree
  obtain ⟨rfl, rfl⟩ := Prod.mk.inj (hspace.symm.trans hspace')
  have hbase : LapicBase s'.lapicBase := by
    rw [hnew.kept.lapic]
    exact h.base
  obtain ⟨hnodup, hnot, hroots⟩ := roots_erase h hp
  have hne := hnew.not_mem hinv₁
  have hfilter : ∀ r' ∈ w.roots, r' ≠ p.cr3 → r' ∈ (r :: w.roots).filter (· ≠ p.cr3) :=
    fun r' hr' hr'ne => mem_filter.mpr ⟨mem_cons_of_mem r hr', decide_eq_true hr'ne⟩
  refine h.add hinv ((hkept₁.trans hnew.kept).trans (hkept.mono fun _ => mem_cons_of_mem r))
    (hmapped.kept hbase hkept mem_cons_self) (mem_filter.mpr ⟨mem_cons_self, ?_⟩) hne
    (fun q hq => ⟨hfilter _ (hroots q hq) fun heq' => hnot ?_, hroots q hq⟩) hnodup
  · exact decide_eq_true fun (heq' : r = p.cr3) => hne (by rw [heq']; exact hr)
  · rw [← heq']
    exact mem_map_of_mem hq

end Calls

/-- **A careful call keeps the invariant.** -/
theorem usersInv_step {e : UserProc × Call} (h : UsersInv b w) (hc : Careful w e)
    (hs : w.step e = some w') : UsersInv b w' := by
  obtain ⟨p, c⟩ := e
  rw [Users.step] at hs
  split_ifs at hs with hp
  obtain rfl := Option.some.inj hs
  cases c with
  | mmap len => exact usersInv_mmap h hp hc
  | munmap addr len => exact usersInv_munmap h hp hc
  | fork heap heap' => exact usersInv_fork h hc
  | execve heap a file => exact usersInv_execve h hp hc
  | exit destroyed => exact usersInv_exit h hp destroyed

/-! ## 4. The result -/

/-- **User processes that make careful calls leave the kernel's mappings in place**, and no frame
    that is no RAM becomes free, in every state of every run. The frames of the spaces and those
    that are free lie in the identity map, so that the kernel reaches them under the root of any
    process. -/
theorem users_supervised (h : UsersInv b w) (hlow : b.Low)
    (hrun : Reaches Users.step Careful w w') :
    Supervised b w' ∧
      ∀ f, w'.mm.pmm.free f = true ∨ Tree w'.mm w'.roots f → f * 4096 < pagingUserBase := by
  have hi := hrun.inv (I := UsersInv b) h fun _ _ _ hi hc hs => usersInv_step hi hc hs
  refine ⟨hi.supervised, fun f hf => hlow f ?_⟩
  rcases hf with hf | hf
  · exact hi.inv.free f hf
  · exact hi.inv.ram f hf

/-- **A new process**, after `paging_map_lapic`. -/
theorem UsersInv.create (h : UsersInv b w) (hfree : 3 ≤ freeCount w.mm) (pid cursor next : Nat) :
    UsersInv b ⟨w.mm.pagingNewAddressSpace.2,
      ⟨pid, w.mm.pagingNewAddressSpace.1, cursor⟩ :: w.procs, next⟩ := by
  obtain ⟨r, s', heq, -, hnew, hmapped⟩ := newSpace_lapic h.inv h.base hfree
  rw [heq]
  exact h.add hnew.inv hnew.kept hmapped mem_cons_self (hnew.not_mem h.inv)
    (fun q hq => ⟨mem_cons_of_mem r (mem_map_of_mem hq), mem_map_of_mem hq⟩) h.apart

/-- `smallBoot` with its APIC at the usual place and two processes, made one after the other. -/
def apicUsers : Users :=
  let x := apicMm.pagingNewAddressSpace
  let y := x.2.pagingNewAddressSpace
  ⟨y.2, [⟨2, y.1, processMmapStart⟩, ⟨1, x.1, processMmapStart⟩], 3⟩

theorem apicUsers_inv : UsersInv smallBoot apicUsers := by
  have hnone : UsersInv smallBoot ⟨apicMm, [], 1⟩ :=
    ⟨apicMm_inv, nodup_nil, apicMm_base, fun r hr => absurd hr not_mem_nil⟩
  have hone := hnone.create apicMm_free 1 processMmapStart 2
  exact hone.create (le_freeCount (f := 8) (by decide +kernel) (by decide)) 2 processMmapStart 3

/-- After both have mapped a page, at the same address. -/
def mmapUsers : Users :=
  (apicUsers.call ⟨1, 5, processMmapStart⟩ (.mmap 4096)).call ⟨2, 8, processMmapStart⟩ (.mmap 4096)

theorem mmapUsers_reaches : Reaches Users.step Careful apicUsers mmapUsers := by
  have hfirst : Reaches Users.step Careful apicUsers
      (apicUsers.call ⟨1, 5, processMmapStart⟩ (.mmap 4096)) := by
    refine .step _ _ (⟨1, 5, processMmapStart⟩, .mmap 4096) .start ?_ (if_pos (by decide +kernel))
    exact GivesBack.of_done (by decide +kernel)
  refine .step _ _ (⟨2, 8, processMmapStart⟩, .mmap 4096) hfirst ?_ (if_pos (by decide +kernel))
  exact GivesBack.of_done (by decide +kernel)

theorem users_supervised_munmap : ∃ w, Reaches Users.step Careful apicUsers w ∧
    pagingTranslate mmapUsers.mm.mem 5 0x1000000000 ≠ 0 ∧
    pagingTranslate w.mm.mem 5 0x1000000000 = 0 ∧
    Supervised smallBoot w := by
  have hrun : Reaches Users.step Careful apicUsers
      (mmapUsers.call ⟨1, 5, 0x1000001000⟩ (.munmap 0x1000000000 4096)) :=
    .step _ _ (⟨1, 5, 0x1000001000⟩, .munmap 0x1000000000 4096) mmapUsers_reaches (by
        intro va hva
        have hpages : Mm.munmapPages 0x1000000000 4096 = [0x1000000000] := by decide +kernel
        rw [hpages, mem_singleton] at hva
        rw [hva]
        decide +kernel)
      (if_pos (by decide +kernel))
  exact ⟨_, hrun, by decide +kernel, by decide +kernel,
    (users_supervised apicUsers_inv smallBoot_low hrun).1⟩

/-- **`sys_munmap` of the APIC page frees its frames**, which are no RAM. -/
theorem munmap_frees_lapic : ¬ ∀ (b : Boot) (w w' : Users), UsersInv b w → b.Low →
    Reaches Users.step Any w w' → Supervised b w' := by
  intro hall
  obtain ⟨w, hrun, hfree⟩ := Reaches.of_exec_any Users.step Any apicUsers
    [(⟨1, 5, processMmapStart⟩, .munmap 0xFEE00000 4096)]
    (fun w => w.mm.pmm.free 0xFEE00) (by decide +kernel)
  have hram := (hall smallBoot apicUsers w apicUsers_inv smallBoot_low hrun).ram 0xFEE00 hfree
  rw [Boot.Ram, smallBoot_free] at hram
  revert hram
  decide

/-! ## 5. User memory -/

/-- The process `p` can use the address `a` in user mode, in the page with the frame `f`. -/
structure UserPage (w : Users) (p : UserProc) (a f : Nat) : Prop where
  live : p ∈ w.procs
  user : userMapped w.mm.mem p.cr3 a = true
  small : hugeAt w.mm.mem p.cr3 a = false
  frame : f = pagingTranslate w.mm.mem p.cr3 a / 4096 % 2 ^ 51

/-- The frame of a user page is at the end of a walk outside the kernel's slot. -/
theorem UserPage.walk {a f : Nat} (hu : UserPage w p a f) (h : UsersInv b w) :
    Visible (pathOf a) ∧ walkFrom w.mm.mem p.cr3 (pathOf a) = some f := by
  obtain ⟨hv, pt, hw, hpres⟩ :=
    userMapped_leaf h.inv.toShape (mem_map_of_mem hu.live) hu.small hu.user
  refine ⟨hv, (walk_leaf hw hpres).trans (congrArg some ?_)⟩
  rw [hu.frame, translate_leaf hw hpres]
  omega

/-- **Processes share no memory**: after any careful calls two user pages on one frame are one page
    of one process, and the frame is RAM that is not free and that the identity map reaches. -/
theorem users_isolated (h : UsersInv b w) (hlow : b.Low) (hrun : Reaches Users.step Careful w w')
    {q : UserProc} {a a' f : Nat} (hp : UserPage w' p a f) (hq : UserPage w' q a' f) :
    p = q ∧ SamePage a a' ∧ b.Ram f ∧ w'.mm.pmm.free f = false ∧ f * 4096 < pagingUserBase := by
  have hi := hrun.inv (I := UsersInv b) h fun _ _ _ hi hc hs => usersInv_step hi hc hs
  obtain ⟨hv, hw⟩ := hp.walk hi
  obtain ⟨hv', hw'⟩ := hq.walk hi
  have hr : p.cr3 ∈ w'.roots := mem_map_of_mem hp.live
  have hr' : q.cr3 ∈ w'.roots := mem_map_of_mem hq.live
  obtain ⟨hroot, hpath⟩ := hi.inv.forest.inj _ _ _ _ f hr hr' hv hv' hw hw'
  have htree : Tree w'.mm w'.roots f := ⟨p.cr3, _, hr, hv, hw⟩
  exact ⟨inj_on_of_nodup_map hi.apart hp.live hq.live hroot, pathOf_eq_iff.mp hpath,
    hi.inv.ram f htree, hi.inv.taken f htree, hlow f (hi.inv.ram f htree)⟩

theorem users_isolated_mmap : ∃ p q f f', p.pid ≠ q.pid ∧ UserPage mmapUsers p 0x1000000000 f ∧
    UserPage mmapUsers q 0x1000000000 f' ∧ f ≠ f' := by
  have hp : UserPage mmapUsers ⟨1, 5, 0x1000001000⟩ 0x1000000000 _ :=
    ⟨by decide +kernel, by decide +kernel, by decide +kernel, rfl⟩
  have hq : UserPage mmapUsers ⟨2, 8, 0x1000001000⟩ 0x1000000000 _ :=
    ⟨by decide +kernel, by decide +kernel, by decide +kernel, rfl⟩
  refine ⟨_, _, _, _, by decide, hp, hq, fun heq => ?_⟩
  have hsame := (users_isolated apicUsers_inv smallBoot_low mmapUsers_reaches hp (heq ▸ hq)).1
  exact absurd (congrArg UserProc.pid hsame) (by decide)

end DyntKernel.Exec
