/-
  File:      DyntKernel/Scheduler/Family.lean
  Subject:   PARENTS AND CHILDREN along every run of the machine.

  `process_fork` links a child to its parent, `waitpid` takes a zombie out of the list of its parent
  and destroys it, and a process without a parent is destroyed as soon as it dies. Nobody tells the
  children of a process that is destroyed.

  * `FamilyOk` -- parents and lists of children agree, among the processes not destroyed;
  * `DestroysChildless` -- the condition on an event: what it destroys has no children;
  * `Kin` -- all an event can do to the pcbs' parents and children;
  * `family_ok` -- under the condition the links agree in every run.
-/
import DyntKernel.Scheduler.Invariant

namespace DyntKernel.Scheduler

open Library List

/-! ## 1. The property and the condition -/

/-- **The links agree**: the parent of a process is alive and has it exactly once in its list, and
    who is in the list of a process has it as its parent. -/
structure FamilyOk (s : State) : Prop where
  parent : ∀ p q, s.life p = .alive → (s.procs p).parent = some q →
    s.life q = .alive ∧ (s.procs q).children.count p = 1
  child : ∀ p q, s.life q = .alive → p ∈ (s.procs q).children → (s.procs p).parent = some q

/-- **The condition on an event**: a process that it destroys has no children. Destroyed are a
    process without a parent when it exits or is killed, and a zombie that is reaped. -/
def DestroysChildless (s : State) : Event → Prop
  | .tick c _ _ => ∀ p ∈ (s.cpus c).current, (s.procs p).terminate = true →
      (s.cpus c).mode.isUser = true → (s.procs p).parent = none → (s.procs p).children = []
  | .sysExit c _ => ∀ p ∈ (s.cpus c).current, (s.procs p).parent = none → (s.procs p).children = []
  | .reap c pid => ∀ cur ∈ (s.cpus c).current, ∀ z ∈ s.processFindZombieChild cur pid,
      (s.procs z).children = []
  | _ => True

instance (s : State) (e : Event) : Decidable (DestroysChildless s e) :=
  match e with
  | .tick c _ _ => inferInstanceAs (Decidable (∀ p ∈ (s.cpus c).current, _ → _ → _ → _ = _))
  | .sysExit c _ => inferInstanceAs (Decidable (∀ p ∈ (s.cpus c).current, _ → _ = _))
  | .reap c pid => inferInstanceAs (Decidable (∀ cur ∈ (s.cpus c).current,
      ∀ z ∈ s.processFindZombieChild cur pid, _ = _))
  | .boot .. | .sysExec .. | .sysFork .. | .syscallEntry .. | .sysret .. | .block .. | .unblock ..
  | .execve .. | .exitResume .. | .terminate .. => .isTrue trivial

/-! ## 2. All an event can do to the links -/

/-- The links and the lives are the same. -/
structure SameFamily (s s' : State) : Prop where
  life : ∀ p, s'.life p = s.life p
  parent : ∀ p, (s'.procs p).parent = (s.procs p).parent
  children : ∀ p, (s'.procs p).children = (s.procs p).children

variable {s t s' : State} {c : Nat} {p q : ProcPtr} {o : State.Outcome}

theorem SameFamily.refl : SameFamily s s := ⟨fun _ => rfl, fun _ => rfl, fun _ => rfl⟩

theorem SameFamily.trans (h : SameFamily s t) (h' : SameFamily t s') : SameFamily s s' :=
  ⟨fun p => (h'.life p).trans (h.life p), fun p => (h'.parent p).trans (h.parent p),
    fun p => (h'.children p).trans (h.children p)⟩

theorem sameFamily_setProc {f : Process → Process}
    (hf : (f (s.procs p)).parent = (s.procs p).parent ∧
      (f (s.procs p)).children = (s.procs p).children) : SameFamily s (s.setProc p f) := by
  refine ⟨fun _ => rfl, fun q => ?_, fun q => ?_⟩
  · by_cases hq : q = p
    · subst hq
      simp [hf.1]
    · simp [hq]
  · by_cases hq : q = p
    · subst hq
      simp [hf.2]
    · simp [hq]

/-- Only the pcbs and the lives matter. -/
theorem sameFamily_of_eq (hp : s'.procs = s.procs) (hl : s'.life = s.life) : SameFamily s s' :=
  ⟨fun _ => by rw [hl], fun _ => by rw [hp], fun _ => by rw [hp]⟩

/-- **All an event can do to the links**: nothing; a new process without a parent, or with one; a
    process without a parent is destroyed; a zombie is taken from its parent's list and
    destroyed. -/
inductive Kin (s : State) : State → Prop where
  | same (s' : State) (h : SameFamily s s') : Kin s s'
  | adopted (child : ProcPtr) (s' : State) (hu : s.life child = .unborn)
      (hl : ∀ p, s'.life p = if p = child then .alive else s.life p)
      (hp : ∀ p, (s'.procs p).parent = if p = child then none else (s.procs p).parent)
      (hc : ∀ p, (s'.procs p).children = if p = child then [] else (s.procs p).children) : Kin s s'
  | forked (parent child : ProcPtr) (s' : State) (hu : s.life child = .unborn)
      (hal : s.life parent = .alive) (hl : ∀ p, s'.life p = if p = child then .alive else s.life p)
      (hp : ∀ p, (s'.procs p).parent = if p = child then some parent else (s.procs p).parent)
      (hc : ∀ p, (s'.procs p).children = if p = child then []
        else if p = parent then child :: (s.procs p).children else (s.procs p).children) : Kin s s'
  | destroyed (p : ProcPtr) (s' : State) (horphan : (s.procs p).parent = none)
      (hchildless : (s.procs p).children = [])
      (hl : ∀ q, s'.life q = if q = p then .destroyed else s.life q)
      (hp : ∀ q, (s'.procs q).parent = (s.procs q).parent)
      (hc : ∀ q, (s'.procs q).children = (s.procs q).children) : Kin s s'
  | reaped (cur z : ProcPtr) (s' : State) (hcur : s.life cur = .alive)
      (hz : z ∈ (s.procs cur).children) (hchildless : (s.procs z).children = [])
      (hl : ∀ q, s'.life q = if q = z then .destroyed else s.life q)
      (hp : ∀ q, (s'.procs q).parent = (s.procs q).parent) (hc : ∀ q, (s'.procs q).children =
        if q = cur then (s.procs q).children.erase z else (s.procs q).children) : Kin s s'

theorem Kin.congr (h : Kin s t) (e : SameFamily t s') : Kin s s' := by
  cases h with
  | same _ h => exact .same s' (h.trans e)
  | adopted child _ hu hl hp hc =>
    exact .adopted child s' hu (fun p => (e.life p).trans (hl p))
      (fun p => (e.parent p).trans (hp p)) fun p => (e.children p).trans (hc p)
  | forked parent child _ hu hal hl hp hc =>
    exact .forked parent child s' hu hal (fun p => (e.life p).trans (hl p))
      (fun p => (e.parent p).trans (hp p)) fun p => (e.children p).trans (hc p)
  | destroyed p _ horphan hchildless hl hp hc =>
    exact .destroyed p s' horphan hchildless (fun q => (e.life q).trans (hl q))
      (fun q => (e.parent q).trans (hp q)) fun q => (e.children q).trans (hc q)
  | reaped cur z _ hcur hz hchildless hl hp hc =>
    exact .reaped cur z s' hcur hz hchildless (fun q => (e.life q).trans (hl q))
      (fun q => (e.parent q).trans (hp q)) fun q => (e.children q).trans (hc q)

theorem sameFamily_tickBase (s : State) (c : Nat) (fr : Frame) (slot : KAddr) :
    SameFamily s (s.tickBase c fr slot) := by
  refine ⟨fun p => by rw [tickBase_life], fun p => ?_, fun p => ?_⟩
  · rw [tickBase_proc]
    split_ifs <;> rfl
  · rw [tickBase_proc]
    split_ifs <;> rfl

theorem sameFamily_switchTo (s : State) (c : Nat) (cur : Option ProcPtr) (next : ProcPtr) :
    SameFamily s (s.switchTo c cur next) := by
  refine ⟨fun p => by rw [State.switchTo_life], fun p => ?_, fun p => ?_⟩
  · rw [State.switchTo_proc]
    split_ifs <;> rfl
  · rw [State.switchTo_proc]
    split_ifs <;> rfl

/-- The death of a process: a zombie for its parent, or destroyed. -/
theorem Kin.kill (e : SameFamily s t)
    (hchildless : (s.procs p).parent = none → (s.procs p).children = []) :
    Kin s (t.killCurLocked p c) := by
  have hout : SameFamily t ((t.unlink c p).setCpu c fun k => { k with current := none }) :=
    sameFamily_of_eq rfl rfl
  cases hparent : (t.procs p).parent with
  | some r =>
    rw [State.killCurLocked_zombie _ _ _ hparent]
    exact .same _ ((e.trans hout).trans (sameFamily_setProc ⟨rfl, rfl⟩))
  | none =>
    have hnone := (e.parent p).symm.trans hparent
    rw [State.killCurLocked_orphan _ _ _ hparent]
    refine .destroyed p _ hnone (hchildless hnone) (fun q => ?_) (fun q => e.parent q)
      fun q => e.children q
    by_cases hq : q = p
    · rw [hq, if_pos rfl]
      exact Function.update_self ..
    · rw [if_neg hq, ← e.life q]
      exact Function.update_of_ne hq _ _

theorem sameFamily_enqueueAt (s : State) (p : ProcPtr) (c : Nat) :
    SameFamily s (s.enqueueAt p c) := by
  rw [State.enqueueAt]
  have hset :
      SameFamily s (s.setProc p fun p => { p with state := .ready, cpu := c, ticks := 0 }) :=
    sameFamily_setProc ⟨rfl, rfl⟩
  exact hset.trans (sameFamily_of_eq rfl rfl)

theorem Kin.create {child : ProcPtr} (hu : s.life child = .unborn) (entry stackPtr : UInt64) :
    Kin s ((s.processCreate child).processSetup child entry stackPtr) := by
  refine .adopted child _ hu (fun p => ?_) (fun p => ?_) fun p => ?_
  all_goals by_cases hp : p = child <;> simp [State.processSetup, State.processCreate, hp]

theorem Kin.fork {parent child : ProcPtr} (hu : s.life child = .unborn)
    (hal : s.life parent = .alive)
    (regs : Registers) : Kin s (s.processFork c parent child regs) := by
  have hne : parent ≠ child := by
    rintro rfl
    rw [hu] at hal
    cases hal
  unfold State.processFork State.processLinkChild State.processCreate
  refine .forked parent child _ hu hal (fun p => ?_) (fun p => ?_) fun p => ?_
  · by_cases hp : p = child <;> simp [hp]
  all_goals
    by_cases hp : p = child
    · simp [hp, hne.symm]
    · by_cases hq : p = parent
      · simp [hq, hne]
      · simp [hp, hq]

theorem Kin.tick {fr : Frame} {slot : KAddr}
    (hchildless : ∀ p, (s.cpus c).current = some p → (s.procs p).terminate = true →
      fr.regs.cs = userCs → (s.procs p).parent = none → (s.procs p).children = [])
    (hr : TickResult s (s.tickBase c fr slot) c fr s' o) : Kin s s' := by
  have hb := sameFamily_tickBase s c fr slot
  cases hr with
  | stay => exact .same _ hb
  | kill p hcur ht hcs _ => exact .kill hb (hchildless p hcur ht hcs)
  | killSwitch p next hcur ht hcs _ =>
    exact (Kin.kill hb (hchildless p hcur ht hcs)).congr (sameFamily_switchTo ..)
  | switch next _ _ => exact .same _ (hb.trans (sameFamily_switchTo ..))

theorem Kin.exit {status : Int32} {st : Stack}
    (hchildless : ∀ p, (s.cpus c).current = some p → (s.procs p).parent = none →
      (s.procs p).children = []) (hr : ExitResult (s.exitBase c status) c st s') : Kin s s' := by
  have hbase : Kin s (s.exitBase c status) := by
    rw [State.exitBase]
    cases hcur : (s.cpus c).current with
    | none => exact .same _ SameFamily.refl
    | some cur => exact .kill (sameFamily_setProc ⟨rfl, rfl⟩) (hchildless cur hcur)
  cases hr with
  | idle _ => exact hbase.congr (sameFamily_of_eq rfl rfl)
  | next next _ =>
    have hset : SameFamily (s.exitBase c status) ((s.exitBase c status).setProc next
        fun p => { p with ticks := 0, state := .running }) := sameFamily_setProc ⟨rfl, rfl⟩
    exact hbase.congr (hset.trans (sameFamily_of_eq rfl rfl))

theorem Kin.reap {cur z : ProcPtr} (hcur : s.life cur = .alive) (hz : z ∈ (s.procs cur).children)
    (hchildless : (s.procs z).children = []) : Kin s (s.processReapChild cur z) := by
  refine .reaped cur z _ hcur hz hchildless (fun q => ?_) (fun q => ?_) fun q => ?_
  · by_cases hq : q = z <;> simp [State.processReapChild, State.processDestroy, hq]
  · by_cases hq : q = cur <;> simp [State.processReapChild, State.processDestroy, hq]
  · by_cases hq : q = cur <;> simp [State.processReapChild, State.processDestroy, hq]

theorem sameFamily_sysExecve (s : State) (c : Nat) (cur : ProcPtr) (entry rsp : UInt64) :
    SameFamily s (s.sysExecve c cur entry rsp) := by
  have hset : SameFamily s (s.setProc cur fun p =>
      { p with
        fsBase := 0, terminate := false
        ctx := { p.ctx with
          regs := { p.ctx.regs with rip := entry, userRsp := rsp, rflags := 0x202 } } }) :=
    sameFamily_setProc ⟨rfl, rfl⟩
  exact hset.trans (sameFamily_of_eq rfl rfl)

/-- **What an event that meets the condition does to the links.** -/
theorem step_kin {e : Event} (hi : Inv s) (hok : DestroysChildless s e)
    (hs : s.step e = some s') : Kin s s' := by
  have halive : ∀ c p, (s.cpus c).current = some p → s.life p = .alive := fun c p hp =>
    hi.alive c p (hi.curQueued c p hp)
  cases step_cases hs with
  | born _ child cpu _ hu hw =>
    cases hw with
    | boot entry stackPtr => exact (Kin.create hu entry stackPtr).congr (sameFamily_enqueueAt ..)
    | sysExec c entry stackPtr =>
      exact (Kin.create hu entry stackPtr).congr (sameFamily_enqueueAt ..)
    | sysFork c regs parent hcur =>
      exact (Kin.fork hu (halive c parent hcur) regs).congr (sameFamily_enqueueAt ..)
  | tick c regs off _ hcs hr =>
    exact Kin.tick (fun p hcur ht huser => hok p hcur ht (hcs.mp huser)) hr
  | syscallEntry c rsp _ _ => exact .same _ (sameFamily_of_eq rfl rfl)
  | sysret c _ _ _ _ => exact .same _ (sameFamily_of_eq rfl rfl)
  | blocking _ c b _ _ _ _ =>
    exact .same _ (State.setBlocked_rule .refl fun _ => sameFamily_setProc ⟨rfl, rfl⟩)
  | execve c entry rsp _ _ _ _ _ => exact .same _ (sameFamily_sysExecve ..)
  | sysExit c status p st s₁ _ hr => exact (Kin.exit hok hr).congr (sameFamily_of_eq rfl rfl)
  | exitResume c next _ _ =>
    obtain ⟨hp, -, hlf, -⟩ := s.exitResume_rest next c
    exact .same _ (sameFamily_of_eq (funext hp) (funext hlf))
  | terminate pid =>
    exact .same _ (State.terminate_rule .refl fun _ => sameFamily_setProc ⟨rfl, rfl⟩)
  | reap c pid cur p z st _ hcur hz =>
    exact Kin.reap (halive c cur hcur) (List.mem_of_find?_eq_some hz) (hok cur hcur z hz)

/-! ## 3. Every run -/

/-- **The family invariant**: the links agree, and the processes in the lists are alive. -/
structure Family (s : State) : Prop extends FamilyOk s where
  born : ∀ p q, s.life q = .alive → p ∈ (s.procs q).children → s.life p = .alive

theorem family_init (n : Nat) : Family (State.init n) := by
  refine ⟨⟨fun p q hp => ?_, fun p q hq => ?_⟩, fun p q hq => ?_⟩
  · cases hp
  · cases hq
  · cases hq

section

variable (h : Family s)
include h

theorem Family.same (e : SameFamily s s') : Family s' := by
  refine ⟨⟨fun p q hp hq => ?_, fun p q hq hp => ?_⟩, fun p q hq hp => ?_⟩
  · rw [e.life] at hp ⊢
    rw [e.parent] at hq
    rw [e.children]
    exact h.parent p q hp hq
  · rw [e.life] at hq
    rw [e.children] at hp
    rw [e.parent]
    exact h.child p q hq hp
  · rw [e.life] at hq ⊢
    rw [e.children] at hp
    exact h.born p q hq hp

/-- What is not born yet is in no list and nobody's parent. -/
theorem Family.fresh {child : ProcPtr} (hu : s.life child = .unborn) :
    (∀ q, s.life q = .alive → child ∉ (s.procs q).children) ∧
      ∀ p, s.life p = .alive → (s.procs p).parent ≠ some child := by
  refine ⟨fun q hq hmem => ?_, fun p hp hparent => ?_⟩
  · have halive := h.born child q hq hmem
    rw [hu] at halive
    cases halive
  · have halive := (h.parent p child hp hparent).1
    rw [hu] at halive
    cases halive

/-- The new list of the parent holds the child once, and the others as before. -/
theorem Family.forked {parent child : ProcPtr} (hu : s.life child = .unborn)
    (hal : s.life parent = .alive)
    (hl : ∀ p, s'.life p = if p = child then .alive else s.life p)
    (hp : ∀ p, (s'.procs p).parent = if p = child then some parent else (s.procs p).parent)
    (hc : ∀ p, (s'.procs p).children = if p = child then []
      else if p = parent then child :: (s.procs p).children else (s.procs p).children) :
    Family s' := by
  obtain ⟨hlist, hnot⟩ := h.fresh hu
  have hne : parent ≠ child := fun heq => by
    rw [heq, hu] at hal
    cases hal
  have hcOf : ∀ q, s.life q = .alive → (s'.procs q).children =
      if q = parent then child :: (s.procs q).children else (s.procs q).children := fun q hq => by
    rw [hc, if_neg fun heq => by rw [heq, hu] at hq; cases hq]
  -- who is in a list afterwards: the child in the one of its parent, or somebody from before
  have hmem : ∀ p q, s'.life q = .alive → p ∈ (s'.procs q).children →
      p = child ∧ q = parent ∨ p ≠ child ∧ s.life q = .alive ∧ p ∈ (s.procs q).children := by
    intro p q hq hin
    have hqc : q ≠ child := fun heq => by simp [hc, heq] at hin
    rw [hl, if_neg hqc] at hq
    have hpc : p ∈ (s.procs q).children → p ≠ child := fun hin heq => hlist q hq (heq ▸ hin)
    rw [hcOf q hq] at hin
    by_cases hqp : q = parent
    · rw [if_pos hqp] at hin
      cases mem_cons.mp hin with
      | inl hchild => exact .inl ⟨hchild, hqp⟩
      | inr hin => exact .inr ⟨hpc hin, hq, hin⟩
    · rw [if_neg hqp] at hin
      exact .inr ⟨hpc hin, hq, hin⟩
  refine ⟨⟨fun p q hpl hpar => ?_, fun p q hq hin => ?_⟩, fun p q hq hin => ?_⟩
  · rw [hl] at hpl
    rw [hp] at hpar
    by_cases hpc : p = child
    · rw [if_pos hpc] at hpar
      cases hpar
      rw [hl, if_neg hne, hcOf parent hal, if_pos rfl, hpc, count_cons_self,
        count_eq_zero_of_not_mem (hlist parent hal)]
      exact ⟨hal, rfl⟩
    rw [if_neg hpc] at hpar hpl
    obtain ⟨hq, hcount⟩ := h.parent p q hpl hpar
    have hqc : q ≠ child := fun heq => hnot p hpl (heq ▸ hpar)
    rw [hl, if_neg hqc, hcOf q hq]
    refine ⟨hq, ?_⟩
    split_ifs
    · rw [count_cons_of_ne (Ne.symm hpc), hcount]
    · exact hcount
  · rw [hp]
    obtain ⟨hpc, hqp⟩ | ⟨hpc, hq, hin⟩ := hmem p q hq hin
    · rw [if_pos hpc, hqp]
    · rw [if_neg hpc]
      exact h.child p q hq hin
  · rw [hl]
    obtain ⟨hpc, _⟩ | ⟨hpc, hq, hin⟩ := hmem p q hq hin
    · rw [if_pos hpc]
    · rw [if_neg hpc]
      exact h.born p q hq hin

/-- A process that appears without a parent and without children changes no other links. -/
theorem Family.adopted {child : ProcPtr} (hu : s.life child = .unborn)
    (hl : ∀ p, s'.life p = if p = child then .alive else s.life p)
    (hp : ∀ p, (s'.procs p).parent = if p = child then none else (s.procs p).parent)
    (hc : ∀ p, (s'.procs p).children = if p = child then [] else (s.procs p).children) :
    Family s' := by
  obtain ⟨hlist, hnot⟩ := h.fresh hu
  have hmem : ∀ p q, s'.life q = .alive → p ∈ (s'.procs q).children →
      p ≠ child ∧ s.life q = .alive ∧ p ∈ (s.procs q).children := by
    intro p q hq hin
    have hqc : q ≠ child := fun heq => by simp [hc, heq] at hin
    rw [hl, if_neg hqc] at hq
    rw [hc, if_neg hqc] at hin
    exact ⟨fun heq => hlist q hq (heq ▸ hin), hq, hin⟩
  refine ⟨⟨fun p q hpl hpar => ?_, fun p q hq hin => ?_⟩, fun p q hq hin => ?_⟩
  · have hpc : p ≠ child := fun heq => by simp [hp, heq] at hpar
    rw [hl, if_neg hpc] at hpl
    rw [hp, if_neg hpc] at hpar
    have hqc : q ≠ child := fun heq => hnot p hpl (heq ▸ hpar)
    rw [hl, hc, if_neg hqc, if_neg hqc]
    exact h.parent p q hpl hpar
  · obtain ⟨hpc, hq, hin⟩ := hmem p q hq hin
    rw [hp, if_neg hpc]
    exact h.child p q hq hin
  · obtain ⟨hpc, hq, hin⟩ := hmem p q hq hin
    rw [hl, if_neg hpc]
    exact h.born p q hq hin

/-- A process without a parent is in no list, and without children it is nobody's parent. -/
theorem Family.destroyed {r : ProcPtr} (horphan : (s.procs r).parent = none)
    (hchildless : (s.procs r).children = [])
    (hl : ∀ q, s'.life q = if q = r then .destroyed else s.life q)
    (hp : ∀ q, (s'.procs q).parent = (s.procs q).parent)
    (hc : ∀ q, (s'.procs q).children = (s.procs q).children) : Family s' := by
  have halive : ∀ q, s'.life q = .alive → q ≠ r ∧ s.life q = .alive := by
    intro q hq
    rw [hl] at hq
    split_ifs at hq with hqr
    exact ⟨hqr, hq⟩
  refine ⟨⟨fun p q hpl hpar => ?_, fun p q hq hin => ?_⟩, fun p q hq hin => ?_⟩
  · rw [hp] at hpar
    obtain ⟨hq, hcount⟩ := h.parent p q (halive p hpl).2 hpar
    have hqr : q ≠ r := fun heq => by simp [heq, hchildless] at hcount
    rw [hl, if_neg hqr, hc]
    exact ⟨hq, hcount⟩
  · rw [hc] at hin
    rw [hp]
    exact h.child p q (halive q hq).2 hin
  rw [hc] at hin
  have hpr : p ≠ r := fun heq => by
    have hpar := h.child p q (halive q hq).2 hin
    rw [heq, horphan] at hpar
    cases hpar
  rw [hl, if_neg hpr]
  exact h.born p q (halive q hq).2 hin

/-- The zombie was once in the list of its parent, so it is in no list afterwards. -/
theorem Family.reaped {cur z : ProcPtr} (hcur : s.life cur = .alive)
    (hz : z ∈ (s.procs cur).children) (hchildless : (s.procs z).children = [])
    (hl : ∀ q, s'.life q = if q = z then .destroyed else s.life q)
    (hp : ∀ q, (s'.procs q).parent = (s.procs q).parent) (hc : ∀ q, (s'.procs q).children =
      if q = cur then (s.procs q).children.erase z else (s.procs q).children) : Family s' := by
  have hparent : (s.procs z).parent = some cur := h.child z cur hcur hz
  have honce : (s.procs cur).children.count z = 1 :=
    (h.parent z cur (h.born z cur hcur hz) hparent).2
  have halive : ∀ q, s'.life q = .alive → q ≠ z ∧ s.life q = .alive := by
    intro q hq
    rw [hl] at hq
    split_ifs at hq with hqz
    exact ⟨hqz, hq⟩
  have hmem : ∀ p q, s.life q = .alive → p ∈ (s'.procs q).children →
      p ≠ z ∧ p ∈ (s.procs q).children := by
    intro p q hq hin
    rw [hc] at hin
    by_cases hqc : q = cur
    · rw [if_pos hqc] at hin
      refine ⟨fun heq => ?_, mem_of_mem_erase hin⟩
      rw [heq, hqc] at hin
      have hcount := count_erase_self (a := z) (l := (s.procs cur).children)
      rw [honce] at hcount
      exact count_eq_zero.mp hcount hin
    · rw [if_neg hqc] at hin
      refine ⟨fun heq => hqc ?_, hin⟩
      have hother := h.child p q hq hin
      rw [heq, hparent] at hother
      exact (Option.some.inj hother).symm
  refine ⟨⟨fun p q hpl hpar => ?_, fun p q hq hin => ?_⟩, fun p q hq hin => ?_⟩
  · obtain ⟨hpz, hpl⟩ := halive p hpl
    rw [hp] at hpar
    obtain ⟨hq, hcount⟩ := h.parent p q hpl hpar
    have hqz : q ≠ z := fun heq => by simp [heq, hchildless] at hcount
    rw [hl, if_neg hqz, hc]
    refine ⟨hq, ?_⟩
    split_ifs
    · rw [count_erase_of_ne hpz, hcount]
    · exact hcount
  · rw [hp]
    exact h.child p q (halive q hq).2 (hmem p q (halive q hq).2 hin).2
  · obtain ⟨hpz, hin⟩ := hmem p q (halive q hq).2 hin
    rw [hl, if_neg hpz]
    exact h.born p q (halive q hq).2 hin

/-- **The step lemma.** -/
theorem Family.kin (hk : Kin s s') : Family s' := by
  cases hk with
  | same _ e => exact h.same e
  | adopted child _ hu hl hp hc => exact h.adopted hu hl hp hc
  | forked parent child _ hu hal hl hp hc => exact h.forked hu hal hl hp hc
  | destroyed p _ horphan hchildless hl hp hc => exact h.destroyed horphan hchildless hl hp hc
  | reaped cur z _ hcur hz hchildless hl hp hc => exact h.reaped hcur hz hchildless hl hp hc

end

/-- Process 2, forked by process 1, exits while process 1 waits in a blocking syscall; process 1 is
    resumed, reaps it and forks process 3. -/
def forkAgainRun : List Event :=
  [.boot 1 0 0, .tick 0 { cs := kernelCs } 0, .syscallEntry 0 0xAAAA, .sysFork 0 2 {}, .block 0,
    .tick 0 { cs := kernelCs } 0, .syscallEntry 0 0xBBBB, .sysExit 0 0, .exitResume 0, .reap 0 0,
    .sysFork 0 3 {}]

/-- **If only processes without children are destroyed, the links agree**, in every run on as
    many cpus as the tables have slots for. -/
theorem family_ok {n : Fin (percpuMaxCpus + 1)} {s : State}
    (h : Reaches State.step DestroysChildless (State.init n) s) : FamilyOk s := by
  have hboth : Inv s ∧ Family s :=
    h.inv (I := fun s => Inv s ∧ Family s) ⟨inv_init n, family_init n⟩ fun _ _ _ hi hok hs =>
      ⟨inv_step hi.1 hs, hi.2.kin (step_kin hi.1 hok hs)⟩
  exact hboth.2.toFamilyOk

theorem family_ok_forkAgain :
    ∃ s, Reaches State.step DestroysChildless (State.init 1) s ∧ s.life 2 = .destroyed ∧
      (s.procs 1).children = [3] ∧ FamilyOk s := by
  obtain ⟨s, hr, hf⟩ := Reaches.of_exec_any State.step DestroysChildless (State.init 1) forkAgainRun
    (fun s => s.life 2 = .destroyed ∧ (s.procs 1).children = [3]) (by decide)
  simp only [decide_eq_true_eq] at hf
  exact ⟨s, hr, hf.1, hf.2, family_ok (n := 1) hr⟩

/-- Process 1 has no parent and exits after a fork: it is destroyed, and process 2 still has it as
    its parent. -/
theorem parent_destroyed : ¬ ∀ (n : Fin (percpuMaxCpus + 1)) s,
    Reaches State.step Any (State.init n) s → FamilyOk s := by
  intro h
  obtain ⟨s, hr, hf⟩ := Reaches.of_exec_any State.step Any (State.init 1)
    [.boot 1 0 0, .tick 0 { cs := kernelCs } 0, .syscallEntry 0 0xAAAA,
      .sysFork 0 2 {}, .sysExit 0 0]
    (fun s => s.life 2 = .alive ∧ (s.procs 2).parent = some 1 ∧ s.life 1 = .destroyed) (by decide)
  simp only [decide_eq_true_eq] at hf
  obtain ⟨hchild, hparent, hdestroyed⟩ := hf
  have halive := ((h 1 s hr).parent 2 1 hchild hparent).1
  rw [hdestroyed] at halive
  cases halive

end DyntKernel.Scheduler
