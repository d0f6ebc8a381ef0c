/-
  File:      DyntKernel/Scheduler/Links.lean
  Subject:   THE RUNQUEUES AS THE CODE HAS THEM: heads in `rq`, links in the pcbs.

  Sched.lean works on lists. Here are the functions of scheduler.c on `process_t.next` and
  `cpu_rq_t.head`, with the loops the source has; a loop takes a bound on its rounds and is `none`
  where the bound is too small.

  * `Wired` -- the state with its links, `Wired.queueOp` -- the calls on it;
  * `Rep` -- the links of every queue run through the list of that queue;
  * `Rep.queueOp` -- the functions on links do what the functions on lists do, and end;
  * `QueuesSound`, `queues_sound` -- what holds in every state every sequence of calls reaches.
-/
import DyntKernel.Library.LinkedList
import DyntKernel.Scheduler.Queues
import Mathlib.Algebra.Order.BigOperators.Group.List
import Mathlib.Algebra.Order.Ring.Nat
import Mathlib.Order.Interval.Finset.Nat

namespace DyntKernel.Scheduler

open Library List Function State

/-! ## 1. The functions on links -/

/-- **The scheduler's state with its links.** The lists of the queues in `core` are not used. -/
structure Wired where
  core : State
  next : ProcPtr → Option ProcPtr
  head : Nat → Option ProcPtr

namespace Wired

def pushFront (w : Wired) (cpu : Nat) (proc : ProcPtr) : Wired where
  core := w.core.setRq cpu fun q => { q with count := q.count + 1 }
  next := Function.update w.next proc (w.head cpu)
  head := Function.update w.head cpu (some proc)

/-- What `scheduler_enqueue` and `scheduler_enqueue_on` write into the pcb before the push. -/
def enqueueAt (w : Wired) (proc : ProcPtr) (cpu : Nat) : Wired :=
  { w with core := w.core.setProc proc fun p =>
      { p with state := .ready, cpu := cpu, ticks := 0 } }.pushFront cpu proc

def schedulerEnqueueOn (w : Wired) (proc : ProcPtr) (cpu : Nat) : Wired :=
  w.enqueueAt proc (if cpu ≥ percpuMaxCpus then 0 else cpu)

def schedulerEnqueue (w : Wired) (proc : ProcPtr) : Wired :=
  w.enqueueAt proc w.core.leastLoadedLocked

def unlink (n : Nat) (w : Wired) (cpu : Nat) (proc : ProcPtr) : Option Wired :=
  (Links.unlink proc ⟨w.head cpu, w.next⟩ n none).map fun r =>
    { core := if r.2 then w.core.setRq cpu fun q => { q with count := q.count - 1 } else w.core
      next := r.1.next
      head := Function.update w.head cpu r.1.head }

def pickNext (n : Nat) (w : Wired) (cpu : Nat) (skip : Option ProcPtr) : Option (Option ProcPtr) :=
  match w.head cpu with
  | none => some none
  | some start =>
    pick w.next start (fun p => (w.core.procs p).state = .ready ∧ some p ≠ skip) n start

/-- The queues of `find_pid_locked`, one after the other. -/
def findPidIn (n : Nat) (w : Wired) (pid : UInt64) : List Nat → Option (Option ProcPtr)
  | [] => some none
  | cpu :: cpus =>
    match scan w.next (fun p => (w.core.procs p).pid = pid) n (w.head cpu) with
    | none => none
    | some (some p) => some (some p)
    | some none => findPidIn n w pid cpus

def findPidLocked (n : Nat) (w : Wired) (pid : UInt64) : Option (Option ProcPtr) :=
  w.findPidIn n pid (List.range percpuMaxCpus)

/-- `kill_cur_locked` after the unlink. -/
def killCore (s : State) (cur : ProcPtr) (cpu : Nat) : State :=
  let s := s.setCpu cpu fun c => { c with current := none }
  if (s.procs cur).parent.isSome then
    s.setProc cur fun p => { p with state := .zombie, terminate := false }
  else
    s.processDestroy cur

def killCurLocked (n : Nat) (w : Wired) (cur : ProcPtr) (cpu : Nat) : Option Wired :=
  (w.unlink n cpu cur).map fun w => { w with core := killCore w.core cur cpu }

def tickSwitch (n : Nat) (w : Wired) (cpu : Nat) (cur : Option ProcPtr) (fr : Frame) :
    Option (Wired × State.Outcome) :=
  if fr.regs.cs ≠ userCs ∧ cur.any (fun p => !(w.core.procs p).blocked) then some (w, .same)
  else
    match w.pickNext n cpu cur with
    | none => none
    | some none => some (w, .same)
    | some (some next) =>
      if some next = cur then some (w, .same)
      else
        let core := ((w.core.putBack cur).dispatch cpu next).loadSpace cpu next
        some ({ w with core := core }, core.resumeOf next)

def schedulerTimerTick (n : Nat) (w : Wired) (cpu : Nat) (fr : Frame) (slot : KAddr) :
    Option (Wired × State.Outcome) :=
  let s := { w.core with uptimeTicks := w.core.uptimeTicks + 1 }
  match (s.cpus cpu).current with
  | some cur =>
    if (s.procs cur).state = .running then
      let s := (s.accountBusy cpu).saveCur cur fr slot
      if (s.procs cur).terminate then
        if fr.regs.cs = userCs then
          match { w with core := s }.killCurLocked n cur cpu with
          | none => none
          | some w => w.tickSwitch n cpu none fr
        else some ({ w with core := s }, .same)
      else if (s.procs cur).ticks < schedQuantum ∧ !(s.procs cur).blocked then
        some ({ w with core := s }, .same)
      else { w with core := s }.tickSwitch n cpu (some cur) fr
    else { w with core := s.accountIdle cpu }.tickSwitch n cpu (some cur) fr
  | none => { w with core := s.accountIdle cpu }.tickSwitch n cpu none fr

def exitBase (n : Nat) (w : Wired) (cpu : Nat) (status : Int32) : Option Wired :=
  match (w.core.cpus cpu).current with
  | some cur =>
    { w with core := w.core.setProc cur fun p => { p with exitStatus := status } }.killCurLocked n
      cur cpu
  | none => some w

def exitLocked (n : Nat) (w : Wired) (cpu : Nat) (status : Int32) : Option Wired :=
  match w.exitBase n cpu status with
  | none => none
  | some w =>
    match w.pickNext n cpu none with
    | none => none
    | some none => some w
    | some (some next) => some { w with core := w.core.dispatch cpu next }

def schedulerTerminate (n : Nat) (w : Wired) (pid : UInt64) : Option Wired :=
  match w.findPidLocked n pid with
  | none => none
  | some none => some w
  | some (some p) =>
    if (w.core.procs p).state ≠ .zombie then
      some { w with core :=
        w.core.setProc p fun q => { q with terminate := true, exitStatus := 2 } }
    else some w

/-- One call, its loops bounded by `n` rounds. -/
def queueOp (n : Nat) (w : Wired) : QueueOp → Option Wired
  | .enqueue p pcb =>
    if w.core.Fresh p then some ({ w with core := w.core.adopt p pcb }.schedulerEnqueue p) else none
  | .enqueueOn p pcb cpu =>
    if w.core.Fresh p then some ({ w with core := w.core.adopt p pcb }.schedulerEnqueueOn p cpu)
    else none
  | .tick c fr slot =>
    if c < w.core.cpuCountOr1 then
      (w.schedulerTimerTick n c fr slot).map fun r =>
      { r.1 with core := r.1.core.applyOutcome c r.2 }
    else none
  | .exit c status => if c < w.core.cpuCountOr1 then w.exitLocked n c status else none
  | .terminate pid => w.schedulerTerminate n pid
  | .block c b => some { w with core := w.core.setBlocked c b }

/-- The state `scheduler_init` leaves on `n` cpus. -/
def init (n : Nat) : Wired := ⟨State.init n, fun _ => none, fun _ => none⟩

end Wired

/-! ## 2. The lists of the links -/

/-- The state without its lists. -/
def State.forget (s : State) : State := { s with rq := fun c => { s.rq c with list := [] } }

/-- **The links represent the lists.** -/
structure Rep (w : Wired) (s : State) : Prop where
  core : w.core = s.forget
  links : ∀ c, Linked w.next (w.head c) (s.rq c).list

/-- The bound is above the length of every list. -/
def Enough (n : Nat) (s : State) : Prop := ∀ c, (s.rq c).list.length < n

/-- A function on links against the one on lists: it does the same, or its bound is too small. -/
def Agrees (n : Nat) (s : State) (r : Option Wired) (t : State) : Prop :=
  (r = none ∧ ¬ Enough n s) ∨ ∃ w, r = some w ∧ Rep w t

theorem rep_init (n : Nat) : Rep (Wired.init n) (State.init n) := ⟨rfl, fun _ => rfl⟩

variable {w : Wired} {s t : State} {n c : Nat} {p : ProcPtr} {skip : Option ProcPtr}

theorem forget_setRq {f g : CpuRq → CpuRq}
    (hfg : f { s.rq c with list := [] } = { g (s.rq c) with list := [] }) :
    s.forget.setRq c f = (s.setRq c g).forget := by
  have hrq : Function.update (fun d => { s.rq d with list := [] }) c
    (f { s.rq c with list := [] }) =
      fun d => { Function.update s.rq c (g (s.rq c)) d with list := [] } := by
    funext d
    by_cases hd : d = c
    · subst hd
      rw [update_self, update_self, hfg]
    · rw [update_of_ne hd, update_of_ne hd]
  simp only [State.forget, State.setRq, hrq]

/-- A rewrite of the state outside the links. -/
theorem Rep.setCore (h : Rep w s) {core : State} (hcore : core = t.forget)
    (hlist : ∀ c, (t.rq c).list = (s.rq c).list) : Rep { w with core := core } t := by
  refine ⟨hcore, fun c => ?_⟩
  rw [hlist]
  exact h.links c

/-! ## 3. The functions agree -/

theorem Rep.pushFront (h : Rep w s) (hout : ∀ d, p ∉ (s.rq d).list) :
    Rep (w.pushFront c p) (s.pushFront c p) := by
  refine ⟨?_, fun d => ?_⟩
  · rw [Wired.pushFront, h.core]
    exact forget_setRq (s := s) (c := c) (f := fun q => { q with count := q.count + 1 })
      (g := fun q => { q with list := p :: q.list, count := q.count + 1 }) rfl
  by_cases hd : d = c
  · subst hd
    simp only [Wired.pushFront, State.pushFront, setRq_rq, update_self]
    exact (h.links d).push (hout d)
  · simp only [Wired.pushFront, State.pushFront, setRq_rq, update_of_ne hd]
    refine (h.links d).congr fun q hq => update_of_ne ?_ _ _
    rintro rfl
    exact hout d hq

theorem Rep.enqueueAt (h : Rep w s) (hq : QueueInv s) (hf : s.Fresh p) (pcb : Process) :
    Rep ({ w with core := w.core.adopt p pcb }.enqueueAt p c) ((s.adopt p pcb).enqueueAt p c) := by
  have hout : ∀ d, p ∉ (s.rq d).list := fun d hp => hf.1 (hq.pcb d p hp).2
  refine Rep.pushFront (h.setCore ?_ fun _ => rfl) hout
  rw [h.core]
  rfl

theorem forget_unlink : (s.unlink c p).forget =
    if decide (p ∈ (s.rq c).list) then s.forget.setRq c fun q => { q with count := q.count - 1 }
    else s.forget := by
  rw [State.unlink]
  by_cases hp : p ∈ (s.rq c).list
  · rw [decide_eq_true hp, if_pos rfl]
    exact (forget_setRq (by rw [if_pos hp])).symm
  · rw [decide_eq_false hp, if_neg Bool.false_ne_true,
      ← forget_setRq (f := id) (by rw [if_neg hp]; rfl)]
    simp [State.setRq]

theorem Rep.unlink (h : Rep w s) (hq : QueueInv s) :
    Agrees n s (w.unlink n c p) (s.unlink c p) := by
  rcases Linked.unlink (L := ⟨w.head c, w.next⟩) (a := p) (n := n) (h.links c) (hq.nodup c) with
    ⟨hnone, hle⟩ | ⟨L', heq, hlinked, hkeep⟩
  · exact .inl ⟨by rw [Wired.unlink, hnone]; rfl, fun he => absurd (he c) (Nat.not_lt.mpr hle)⟩
  refine .inr ⟨_, by rw [Wired.unlink, heq]; rfl, ?_, fun d => ?_⟩
  · rw [forget_unlink, h.core]
  rw [unlink_queue]
  dsimp only
  by_cases hd : d = c
  · subst hd
    rw [if_pos rfl, update_self]
    exact hlinked
  · rw [if_neg hd, update_of_ne hd]
    refine (h.links d).congr fun q hqd => hkeep q fun hqc => hd ?_
    exact hq.unique d c q hqd hqc

theorem Rep.pickNext (h : Rep w s) (hq : QueueInv s) (skip : Option ProcPtr) :
    (w.pickNext n c skip = none ∧ ¬ Enough n s) ∨
    w.pickNext n c skip = some (s.pickNext c skip) := by
  have hprocs : w.core.procs = s.procs := by rw [h.core]; rfl
  have hl := h.links c
  rw [Wired.pickNext, State.pickNext, hprocs]
  cases hhead : w.head c with
  | none =>
    rw [hhead] at hl
    cases hlist : (s.rq c).list with
    | nil => exact .inr rfl
    | cons q l =>
      rw [hlist] at hl
      cases hl.1
  | some start =>
    rw [hhead] at hl
    refine (hl.pick (hq.nodup c)).imp_left fun hno => ⟨hno.1, fun he => ?_⟩
    exact absurd (he c) (Nat.not_lt.mpr hno.2)

theorem Rep.findPidLocked (h : Rep w s) (pid : UInt64) :
    (w.findPidLocked n pid = none ∧ ¬ Enough n s) ∨
      w.findPidLocked n pid = some (s.findPidLocked pid) := by
  have hprocs : w.core.procs = s.procs := by rw [h.core]; rfl
  rw [Wired.findPidLocked, State.findPidLocked]
  induction List.range percpuMaxCpus with
  | nil => exact .inr rfl
  | cons c cs ih =>
    rw [Wired.findPidIn, List.findSome?_cons, hprocs]
    rcases (h.links c).scan (P := fun p => decide ((s.procs p).pid = pid)) (n := n) with
      ⟨hnone, hle⟩ | heq
    · refine .inl ⟨?_, fun he => absurd (he c) (Nat.not_lt.mpr hle)⟩
      rw [hnone]
    · rw [heq]
      cases (s.rq c).list.find? fun p => decide ((s.procs p).pid = pid) with
      | none => exact ih
      | some q => exact .inr rfl

/-- A queue that lost a process is no longer than before. -/
theorem Enough.kill (h : Enough n s) : Enough n (s.killCurLocked p c) := by
  intro d
  rw [killCurLocked_queue]
  split_ifs with hd
  · exact Nat.lt_of_le_of_lt (length_erase_le ..) (h c)
  · exact h d

theorem forget_killCore : Wired.killCore s.forget p c = (Wired.killCore s p c).forget := by
  rw [Wired.killCore, Wired.killCore, apply_ite State.forget]
  rfl

theorem Rep.killCurLocked (h : Rep w s) (hq : QueueInv s) :
    Agrees n s (w.killCurLocked n p c) (s.killCurLocked p c) := by
  rcases h.unlink (n := n) (c := c) (p := p) hq with ⟨hnone, hno⟩ | ⟨w', heq, hrep⟩
  · exact .inl ⟨by rw [Wired.killCurLocked, hnone]; rfl, hno⟩
  · refine .inr ⟨_, by rw [Wired.killCurLocked, heq]; rfl, hrep.setCore ?_ fun d => ?_⟩
    · rw [hrep.core, forget_killCore]
      rfl
    · rw [killCurLocked_queue, unlink_queue]

theorem Rep.tickSwitch (h : Rep w s) (hq : QueueInv s) (cur : Option ProcPtr) (fr : Frame) :
    (w.tickSwitch n c cur fr = none ∧ ¬ Enough n s) ∨
      ∃ w', w.tickSwitch n c cur fr = some (w', (s.tickSwitch c cur fr).2) ∧
        Rep w' (s.tickSwitch c cur fr).1 := by
  have hprocs : w.core.procs = s.procs := by rw [h.core]; rfl
  rw [Wired.tickSwitch, State.tickSwitch, hprocs]
  split_ifs with hkernel
  · exact .inr ⟨w, rfl, h⟩
  rcases h.pickNext (n := n) (c := c) hq cur with ⟨hnone, hno⟩ | heq
  · exact .inl ⟨by rw [hnone], hno⟩
  rw [heq]
  cases s.pickNext c cur with
  | none => exact .inr ⟨w, rfl, h⟩
  | some next =>
    dsimp only
    split_ifs with hsame
    · exact .inr ⟨w, rfl, h⟩
    have hcore : ((w.core.putBack cur).dispatch c next).loadSpace c next =
        (((s.putBack cur).dispatch c next).loadSpace c next).forget := by
      rw [h.core]
      cases cur <;> rfl
    refine .inr ⟨_, ?_, h.setCore hcore fun d => ?_⟩
    · rw [hcore]
      rfl
    · cases cur <;> rfl

theorem Enough.congr (h : Enough n s) (hlist : ∀ d, (t.rq d).list = (s.rq d).list) :
    Enough n t := by
  intro d
  rw [hlist]
  exact h d

/-- The states of a tick before it looks at the frame. -/
theorem forget_account : s.forget.accountBusy c = (s.accountBusy c).forget ∧
    s.forget.accountIdle c = (s.accountIdle c).forget :=
  ⟨forget_setRq (s := s) (c := c)
      (f := fun q => { q with busyTicks := q.busyTicks + 1, load := (q.load >>> 1) + loadUnit })
      (g := fun q => { q with busyTicks := q.busyTicks + 1, load := (q.load >>> 1) + loadUnit })
      rfl,
    forget_setRq (s := s) (c := c)
      (f := fun q => { q with idleTicks := q.idleTicks + 1, load := q.load >>> 1 })
      (g := fun q => { q with idleTicks := q.idleTicks + 1, load := q.load >>> 1 }) rfl⟩

theorem Rep.tickBase (h : Rep w s) (fr : Frame) (slot : KAddr) {core : State}
    (hcore : core = (s.tickBase c fr slot).forget) :
    Rep { w with core := core } (s.tickBase c fr slot) :=
  h.setCore hcore fun _ => tickBase_queue ..

/-- **The tick** on links does what it does on lists. -/
theorem Rep.schedulerTimerTick (h : Rep w s) (hq : QueueInv s) (fr : Frame) (slot : KAddr) :
    (w.schedulerTimerTick n c fr slot = none ∧ ¬ Enough n s) ∨
      ∃ w', w.schedulerTimerTick n c fr slot = some (w', (s.schedulerTimerTick c fr slot).2) ∧
        Rep w' (s.schedulerTimerTick c fr slot).1 := by
  have hb := hq.congr (sameQueues_tickBase s c fr slot)
  have hle : Enough n s → Enough n (s.tickBase c fr slot) := fun he =>
    he.congr fun d => tickBase_queue ..
  have hswitch : ∀ cur core, core = (s.tickBase c fr slot).forget →
      (Wired.tickSwitch n { w with core := core } c cur fr = none ∧ ¬ Enough n s) ∨
        ∃ w', Wired.tickSwitch n { w with core := core } c cur fr =
          some (w', ((s.tickBase c fr slot).tickSwitch c cur fr).2) ∧
          Rep w' ((s.tickBase c fr slot).tickSwitch c cur fr).1 := by
    intro cur core hcore
    refine ((h.tickBase fr slot hcore).tickSwitch hb cur fr).imp_left fun hno => ⟨hno.1, ?_⟩
    exact fun he => hno.2 (hle he)
  have hbusy := (forget_account (s := { s with uptimeTicks := s.uptimeTicks + 1 }) (c := c)).1
  have hidle := (forget_account (s := { s with uptimeTicks := s.uptimeTicks + 1 }) (c := c)).2
  rw [Wired.schedulerTimerTick, State.schedulerTimerTick, h.core]
  simp only [State.tickBase] at hswitch
  have hcpus : s.forget.cpus = s.cpus := rfl
  cases hcur : (s.cpus c).current with
  | none =>
    simp only [hcur] at hswitch
    simp only [hcpus, hcur]
    exact hswitch none _ hidle
  | some cur =>
    have hprocs : s.forget.procs = s.procs := rfl
    simp only [hcur] at hswitch
    simp only [hcpus, hcur, hprocs]
    by_cases hrun : (s.procs cur).state = .running
    swap
    · simp only [if_neg hrun] at hswitch ⊢
      exact hswitch (some cur) _ hidle
    have hbase : s.tickBase c fr slot =
        ({ s with uptimeTicks := s.uptimeTicks + 1 }.accountBusy c).saveCur cur fr slot := by
      simp only [State.tickBase, hcur, if_pos hrun]
    have hcore : ({ s.forget with uptimeTicks := s.forget.uptimeTicks + 1 }.accountBusy c).saveCur
        cur fr slot = (s.tickBase c fr slot).forget := by
      rw [hbase]
      exact congrArg (fun b => State.saveCur b cur fr slot) hbusy
    have hrep := h.tickBase fr slot hcore
    have hbcur : ((s.tickBase c fr slot).cpus c).current = some cur := by rw [tickBase_cpus, hcur]
    simp only [if_pos hrun, ← hbase] at hswitch ⊢
    rw [hcore] at hrep
    generalize hgen : State.saveCur (State.accountBusy _ c) cur fr slot = core
    obtain rfl : core = (s.tickBase c fr slot).forget := hgen.symm.trans hcore
    generalize s.tickBase c fr slot = b at *
    have hbprocs : b.forget.procs = b.procs := rfl
    simp only [hbprocs]
    split_ifs with hterm huser hquant
    · rcases hrep.killCurLocked (n := n) (c := c) (p := cur) hb with ⟨hnone, hno⟩ | ⟨w', heq, hkill⟩
      · rw [hnone]
        exact .inl ⟨rfl, fun he => hno (hle he)⟩
      · rw [heq]
        refine (hkill.tickSwitch (hb.kill hbcur) none fr).imp_left fun hno => ⟨hno.1, fun he => ?_⟩
        exact hno.2 (hle he).kill
    · exact .inr ⟨_, rfl, hrep⟩
    · exact .inr ⟨_, rfl, hrep⟩
    · exact hswitch (some cur) _ rfl

theorem Rep.exitLocked (h : Rep w s) (hq : QueueInv s) (status : Int32) :
    Agrees n s (w.exitLocked n c status) (s.exitLocked c status).1 := by
  have hbase : Agrees n s (w.exitBase n c status) (s.exitBase c status) ∧
      (Enough n s → Enough n (s.exitBase c status)) := by
    have hcpus : w.core.cpus = s.cpus := by rw [h.core]; rfl
    rw [Wired.exitBase, State.exitBase, hcpus]
    cases hcur : (s.cpus c).current with
    | none => exact ⟨.inr ⟨w, rfl, h⟩, id⟩
    | some cur =>
      refine ⟨?_, fun he => Enough.kill (s := s.setProc cur _) he⟩
      refine (h.setCore (t := s.setProc cur fun p => { p with exitStatus := status }) ?_
        fun _ => rfl).killCurLocked (hq.congr (sameQueues_setProc rfl))
      rw [h.core]
      rfl
  obtain ⟨hagree, hle⟩ := hbase
  have hb := hq.exitBase (c := c) status
  rw [Wired.exitLocked, State.exitLocked]
  generalize s.exitBase c status = b at *
  rcases hagree with ⟨hnone, hno⟩ | ⟨w', heq, hrep⟩
  · exact .inl ⟨by rw [hnone], hno⟩
  rw [heq]
  rcases hrep.pickNext (n := n) (c := c) hb none with ⟨hnone, hno⟩ | hpick
  · exact .inl ⟨by simp only [hnone], fun he => hno (hle he)⟩
  simp only [hpick]
  cases b.pickNext c none with
  | none => exact .inr ⟨w', rfl, hrep⟩
  | some next =>
    refine .inr ⟨_, rfl, hrep.setCore ?_ fun _ => rfl⟩
    rw [hrep.core]
    rfl

theorem Rep.schedulerTerminate (h : Rep w s) (pid : UInt64) :
    Agrees n s (w.schedulerTerminate n pid) (s.schedulerTerminate pid).1 := by
  have hprocs : w.core.procs = s.procs := by rw [h.core]; rfl
  rw [Wired.schedulerTerminate, State.schedulerTerminate, hprocs]
  rcases h.findPidLocked (n := n) pid with ⟨hnone, hno⟩ | heq
  · exact .inl ⟨by rw [hnone], hno⟩
  rw [heq]
  cases s.findPidLocked pid with
  | none => exact .inr ⟨w, rfl, h⟩
  | some p =>
    dsimp only
    split_ifs
    · refine .inr ⟨_, rfl, h.setCore ?_ fun _ => rfl⟩
      rw [h.core]
      rfl
    · exact .inr ⟨w, rfl, h⟩

/-- The calls that can be made: of a fresh process, and on a cpu of the machine. -/
def State.Callable (s : State) : QueueOp → Prop
  | .enqueue p _ | .enqueueOn p _ _ => s.Fresh p
  | .tick c _ _ | .exit c _ => c < s.cpuCountOr1
  | .terminate _ | .block _ _ => True

/-- **Every call on links does what it does on lists.** -/
theorem Rep.queueOp (h : Rep w s) (hq : QueueInv s) (op : QueueOp) :
    (¬ s.Callable op ∧ w.queueOp n op = none) ∨
      ∃ t, s.queueOp op = some t ∧ Agrees n s (w.queueOp n op) t := by
  have hfresh : ∀ p, w.core.Fresh p ↔ s.Fresh p := fun p => by rw [h.core]; rfl
  have hcpus : w.core.cpuCountOr1 = s.cpuCountOr1 := by rw [h.core]; rfl
  cases op with
  | enqueue p pcb =>
    rw [Wired.queueOp, State.queueOp]
    by_cases hf : s.Fresh p
    · rw [if_pos hf, if_pos ((hfresh p).mpr hf)]
      have hload : (w.core.adopt p pcb).leastLoadedLocked = (s.adopt p pcb).leastLoadedLocked := by
        rw [h.core]
        rfl
      refine .inr ⟨_, rfl, .inr ⟨_, rfl, ?_⟩⟩
      rw [Wired.schedulerEnqueue, State.schedulerEnqueue, hload]
      exact h.enqueueAt hq hf pcb
    · exact .inl ⟨hf, if_neg fun hw => hf ((hfresh p).mp hw)⟩
  | enqueueOn p pcb cpu =>
    rw [Wired.queueOp, State.queueOp]
    by_cases hf : s.Fresh p
    · rw [if_pos hf, if_pos ((hfresh p).mpr hf)]
      exact .inr ⟨_, rfl, .inr ⟨_, rfl, h.enqueueAt hq hf pcb⟩⟩
    · exact .inl ⟨hf, if_neg fun hw => hf ((hfresh p).mp hw)⟩
  | tick c fr slot =>
    rw [Wired.queueOp, State.queueOp, hcpus]
    by_cases hc : c < s.cpuCountOr1
    swap
    · exact .inl ⟨hc, if_neg hc⟩
    rw [if_pos hc, if_pos hc]
    refine .inr ⟨_, rfl, ?_⟩
    rcases h.schedulerTimerTick (n := n) (c := c) hq fr slot with ⟨hnone, hno⟩ | ⟨w', heq, hrep⟩
    · exact .inl ⟨by rw [hnone]; rfl, hno⟩
    · refine .inr ⟨_, by rw [heq]; rfl, hrep.setCore ?_ fun d => ?_⟩
      · rw [hrep.core]
        cases (s.schedulerTimerTick c fr slot).2 <;> rfl
      · rw [applyOutcome_rq]
  | exit c status =>
    rw [Wired.queueOp, State.queueOp, hcpus]
    by_cases hc : c < s.cpuCountOr1
    · rw [if_pos hc, if_pos hc]
      exact .inr ⟨_, rfl, h.exitLocked hq status⟩
    · exact .inl ⟨hc, if_neg hc⟩
  | terminate pid => exact .inr ⟨_, rfl, h.schedulerTerminate pid⟩
  | block c b =>
    refine .inr ⟨_, rfl, .inr ⟨_, rfl, h.setCore ?_ fun d => ?_⟩⟩
    · have hcur : w.core.cpus = s.cpus := by rw [h.core]; rfl
      rw [State.setBlocked, State.setBlocked, hcur, h.core]
      cases (s.cpus c).current <;> rfl
    · rw [State.setBlocked]
      cases (s.cpus c).current <;> rfl

/-! ## 4. The result -/

/-- **Sound runqueues**: the links of each queue run through distinct processes,
    no process is in two queues, the counter is the length, and the current process of a cpu is in
    its queue and the only running one there. -/
structure QueuesSound (w : Wired) (lists : Nat → List ProcPtr) : Prop where
  linked : ∀ c, Linked w.next (w.head c) (lists c)
  nodup : ∀ c, (lists c).Nodup
  unique : ∀ c d p, p ∈ lists c → p ∈ lists d → c = d
  count : ∀ c, (w.core.rq c).count.toNat = (lists c).length
  current : ∀ c p, (w.core.cpus c).current = some p → p ∈ lists c ∧
    (w.core.procs p).state = .running
  running : ∀ c, ∀ p ∈ lists c, (w.core.procs p).state = .running → (w.core.cpus c).current = some p

/-- There are fewer than `2 ^ 32` addresses for a pcb. -/
theorem length_lt_of_pcb {l : List Nat} (hnd : l.Nodup) (hpcb : ∀ p ∈ l, IsPcb p) :
    l.length < 2 ^ 32 := by
  have hpcb : ∀ p ∈ l, p ≠ 0 ∧ p % 16 = 0 ∧ p < 2 ^ 36 := hpcb
  have hinj : (l.map (· / 16)).Nodup := by
    refine (nodup_map_iff_inj_on hnd).mpr fun p hp q hq heq => ?_
    have hp16 := (hpcb p hp).2.1
    have hq16 := (hpcb q hq).2.1
    omega
  have hsub : (l.map (· / 16)).toFinset ⊆ Finset.Ico 1 (2 ^ 32) := by
    intro x hx
    obtain ⟨p, hp, rfl⟩ := mem_map.mp (mem_toFinset.mp hx)
    obtain ⟨hne, h16, hlt⟩ := hpcb p hp
    rw [Finset.mem_Ico]
    omega
  have hcard := Finset.card_le_card hsub
  rw [toFinset_card_of_nodup hinj, length_map, Nat.card_Ico] at hcard
  omega

theorem QueueInv.sound (hq : QueueInv s) (h : Rep w s) : QueuesSound w fun c => (s.rq c).list := by
  have hcpus : w.core.cpus = s.cpus := by rw [h.core]; rfl
  have hprocs : w.core.procs = s.procs := by rw [h.core]; rfl
  refine ⟨h.links, hq.nodup, hq.unique, fun c => ?_, ?_, ?_⟩
  · have hcount : (w.core.rq c).count = (s.rq c).count := by rw [h.core]; rfl
    rw [hcount, hq.count]
    exact UInt32.toNat_ofNat_of_lt (length_lt_of_pcb (hq.nodup c) fun p hp => (hq.pcb c p hp).1)
  · rw [hcpus, hprocs]
    exact hq.current
  · rw [hcpus, hprocs]
    exact hq.running

/-- Some bound is above the length of every queue. -/
theorem QueueInv.enough (hq : QueueInv s) : ∃ n, Enough n s := by
  refine ⟨((List.range percpuMaxCpus).map fun c => (s.rq c).list.length).sum + 1, fun c => ?_⟩
  rw [Nat.lt_succ_iff]
  by_cases hc : c < percpuMaxCpus
  · exact single_le_sum (fun _ _ => Nat.zero_le _) _ (mem_map.mpr ⟨c, mem_range.mpr hc, rfl⟩)
  · rw [hq.bounded c (by omega)]
    exact Nat.zero_le _

/-- One call with its bound. -/
def Wired.step (w : Wired) (e : Nat × QueueOp) : Option Wired := w.queueOp e.1 e.2

/-- **In every state every sequence of calls reaches the runqueues are sound, and every call that
    can be made there ends.** -/
theorem queues_sound {m : Nat} (hm : m ≤ percpuMaxCpus)
    (h : Reaches Wired.step Any (Wired.init m) w) :
    (∃ lists, QueuesSound w lists) ∧ ∃ n, ∀ op, w.core.Callable op →
    ∃ w', w.queueOp n op = some w' := by
  have hrep : ∃ s, Rep w s ∧ QueueInv s := by
    refine h.inv (I := fun w => ∃ s, Rep w s ∧ QueueInv s) ⟨_, rep_init m, queueInv_init hm⟩ ?_
    intro w w' e hi _ hs
    obtain ⟨s, hrep, hq⟩ := hi
    rcases hrep.queueOp (n := e.1) hq e.2 with ⟨-, hnone⟩ | ⟨t, ht, ⟨hnone, -⟩ | ⟨w'', heq, hrep'⟩⟩
    · rw [Wired.step, hnone] at hs
      cases hs
    · rw [Wired.step, hnone] at hs
      cases hs
    · rw [Wired.step, heq] at hs
      cases hs
      exact ⟨t, hrep', queueInv_op hq e.2 ht⟩
  obtain ⟨s, hrep, hq⟩ := hrep
  refine ⟨⟨_, hq.sound hrep⟩, ?_⟩
  obtain ⟨n, hn⟩ := hq.enough
  refine ⟨n, fun op hop => ?_⟩
  rcases hrep.queueOp (n := n) hq op with ⟨hno, -⟩ | ⟨t, -, ⟨-, hno⟩ | ⟨w', heq, -⟩⟩
  · rw [hrep.core] at hop
    exact absurd hop (by cases op <;> exact hno)
  · exact absurd hn hno
  · exact ⟨w', heq⟩

/-- Two processes on a cpu, one of them dispatched. -/
theorem queues_sound_two : ∃ w,
    Reaches Wired.step Any (Wired.init 2) w ∧ w.head 1 = some 32 ∧ w.next 32 = some 16 ∧
      (w.core.cpus 1).current = some 32 ∧ ∃ lists, QueuesSound w lists := by
  obtain ⟨w, hr, hw⟩ := Reaches.of_exec_any Wired.step Any (Wired.init 2)
    [(0, .enqueueOn 16 State.noPcb 1), (0, .enqueueOn 32 State.noPcb 1),
      (3, .tick 1 ⟨{}, .idle (.boot 1)⟩ ⟨.boot 1, 0⟩)]
    (fun w => w.head 1 = some 32 ∧ w.next 32 = some 16 ∧ (w.core.cpus 1).current = some 32)
    (by decide +kernel)
  obtain ⟨hhead, hnext, hcur⟩ := of_decide_eq_true hw
  exact ⟨w, hr, hhead, hnext, hcur, (queues_sound (by decide) hr).1⟩

end DyntKernel.Scheduler
