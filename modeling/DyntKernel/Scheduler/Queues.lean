/-
  File:      DyntKernel/Scheduler/Queues.lean
  Subject:   THE RUNQUEUES UNDER ANY USE of the scheduler's functions, with any frame.

  `Inv` (Invariant.lean) is about the machine, whose frames belong to what a cpu executes. The
  runqueues alone are sound under much less: whoever calls the functions, each under `sched_lock`,
  with processes that are in no queue yet.

  * `QueueOp`, `State.queueOp` -- the calls;
  * `QueueInv` -- who is in which queue, what the counters say, who is running;
  * `queueInv_op` -- every call keeps it.
-/
import DyntKernel.Library.Loop
import DyntKernel.Scheduler.Invariant
import Mathlib.Algebra.Order.Ring.Nat

namespace DyntKernel.Scheduler

open Library List State

/-! ## 1. The calls -/

/-- An address `process_create` gets from `kheap_alloc(sizeof(process_t), 16)`: aligned, and in the
    memory the frame bitmap covers. -/
def IsPcb (p : ProcPtr) : Prop := p ≠ 0 ∧ p % 16 = 0 ∧ p < 2 ^ 36

instance : DecidablePred IsPcb := fun _ => inferInstanceAs (Decidable (_ ∧ _ ∧ _))

/-- `enqueue`, `enqueueOn`: of a process just created, whatever its pcb holds; `tick`, `exit`,
    `terminate`: the functions of scheduler.c; `block`: the flag that the blocking syscalls of the
    current process set and clear. -/
inductive QueueOp where
  | enqueue (p : ProcPtr) (pcb : Process)
  | enqueueOn (p : ProcPtr) (pcb : Process) (cpu : Nat)
  | tick (c : Nat) (fr : Frame) (slot : KAddr)
  | exit (c : Nat) (status : Int32)
  | terminate (pid : UInt64)
  | block (c : Nat) (b : Bool)
  deriving DecidableEq, Repr

namespace State

/-- The pcb of a process just created, under an address no process has. -/
def adopt (s : State) (p : ProcPtr) (pcb : Process) : State :=
  (s.setProc p fun _ => pcb).setLife p .alive

/-- An address for a new pcb. -/
def Fresh (s : State) (p : ProcPtr) : Prop := s.life p ≠ .alive ∧ IsPcb p

instance (s : State) (p : ProcPtr) : Decidable (s.Fresh p) := inferInstanceAs (Decidable (_ ∧ _))

/-- One call; `none` when it cannot be made in this state. -/
def queueOp (s : State) : QueueOp → Option State
  | .enqueue p pcb => if s.Fresh p then some ((s.adopt p pcb).schedulerEnqueue p) else none
  | .enqueueOn p pcb cpu =>
    if s.Fresh p then some ((s.adopt p pcb).schedulerEnqueueOn p cpu) else none
  | .tick c fr slot =>
    if c < s.cpuCountOr1 then
      some ((s.schedulerTimerTick c fr slot).1.applyOutcome c (s.schedulerTimerTick c fr slot).2)
    else none
  | .exit c status => if c < s.cpuCountOr1 then some (s.exitLocked c status).1 else none
  | .terminate pid => some (s.schedulerTerminate pid).1
  | .block c b => some (s.setBlocked c b)

end State

/-! ## 2. The invariant -/

/-- **What the runqueues keep.** -/
structure QueueInv (s : State) : Prop where
  cpus : s.cpuCount ≤ percpuMaxCpus
  bounded : ∀ c, percpuMaxCpus ≤ c → (s.rq c).list = []
  pcb : ∀ c, ∀ p ∈ (s.rq c).list, IsPcb p ∧ s.life p = .alive
  nodup : ∀ c, (s.rq c).list.Nodup
  unique : ∀ c d p, p ∈ (s.rq c).list → p ∈ (s.rq d).list → c = d
  count : ∀ c, (s.rq c).count = UInt32.ofNat (s.rq c).list.length
  current : ∀ c p, (s.cpus c).current = some p → p ∈ (s.rq c).list ∧ (s.procs p).state = .running
  running : ∀ c, ∀ p ∈ (s.rq c).list, (s.procs p).state = .running → (s.cpus c).current = some p

theorem queueInv_init {n : Nat} (hn : n ≤ percpuMaxCpus) : QueueInv (State.init n) where
  cpus := hn
  bounded := fun _ _ => rfl
  pcb := fun _ _ hp => absurd hp not_mem_nil
  nodup := fun _ => nodup_nil
  unique := fun _ _ _ hp => absurd hp not_mem_nil
  count := fun _ => rfl
  current := fun _ _ hp => absurd hp (by simp [State.init, State.bootCpu])
  running := fun _ _ hp => absurd hp not_mem_nil

variable {s s' : State} {c : Nat} {p next : ProcPtr} {o : State.Outcome}

/-- What `QueueInv` reads is the same in `s` and `s'`. -/
structure SameQueues (s s' : State) : Prop where
  cpuCount : s'.cpuCount = s.cpuCount
  list : ∀ c, (s'.rq c).list = (s.rq c).list
  count : ∀ c, (s'.rq c).count = (s.rq c).count
  life : ∀ p, s'.life p = s.life p
  current : ∀ c, (s'.cpus c).current = (s.cpus c).current
  state : ∀ p, (s'.procs p).state = (s.procs p).state

theorem QueueInv.congr (h : QueueInv s) (e : SameQueues s s') : QueueInv s' where
  cpus := e.cpuCount ▸ h.cpus
  bounded := fun c hc => (e.list c).trans (h.bounded c hc)
  pcb := fun c p hp => by
    rw [e.life]
    exact h.pcb c p (e.list c ▸ hp)
  nodup := fun c => e.list c ▸ h.nodup c
  unique := fun c d p hc hd => h.unique c d p (e.list c ▸ hc) (e.list d ▸ hd)
  count := fun c => by rw [e.count, e.list, h.count]
  current := fun c p hp => by
    rw [e.list, e.state]
    exact h.current c p (e.current c ▸ hp)
  running := fun c p hp hr => by
    rw [e.current]
    exact h.running c p (e.list c ▸ hp) (e.state p ▸ hr)

/-- A rewrite of one pcb that keeps its state. -/
theorem sameQueues_setProc {f : Process → Process}
    (hf : (f (s.procs p)).state = (s.procs p).state) :
    SameQueues s (s.setProc p f) := by
  refine ⟨rfl, fun _ => rfl, fun _ => rfl, fun _ => rfl, fun _ => rfl, fun q => ?_⟩
  by_cases hq : q = p
  · rw [hq, setProc_procs, Function.update_self]
    exact hf
  · rw [setProc_procs, Function.update_of_ne hq]

theorem sameQueues_applyOutcome (s : State) (c : Nat) (o : State.Outcome) :
    SameQueues s (s.applyOutcome c o) := by
  have hmode : ∀ m, SameQueues s (s.setMode c m) := by
    refine fun m => ⟨rfl, fun _ => rfl, fun _ => rfl, fun _ => rfl, fun d => ?_, fun _ => rfl⟩
    rw [setMode_cpu]
    split_ifs with hd
    · rw [hd]
    · rfl
  cases o with
  | same => exact ⟨rfl, fun _ => rfl, fun _ => rfl, fun _ => rfl, fun _ => rfl, fun _ => rfl⟩
  | load next => exact hmode _
  | kernelResume next krsp => exact hmode _

/-! ## 3. Taking out, giving the cpu, putting in -/

theorem killCurLocked_count (s : State) (p : ProcPtr) (c d : Nat) :
    ((s.killCurLocked p c).rq d).count =
      if d = c ∧ p ∈ (s.rq c).list then (s.rq c).count - 1 else (s.rq d).count := by
  have hunlink : ((s.unlink c p).rq d).count =
      if d = c ∧ p ∈ (s.rq c).list then (s.rq c).count - 1 else (s.rq d).count := by
    by_cases hd : d = c
    · subst hd
      by_cases hp : p ∈ (s.rq d).list <;> simp [State.unlink, hp]
    · simp [State.unlink, hd]
  rw [← hunlink]
  cases h : (s.procs p).parent with
  | none => rw [killCurLocked_orphan _ _ _ h]; rfl
  | some r => rw [killCurLocked_zombie _ _ _ h]; rfl

theorem killCurLocked_cpuCount (s : State) (p : ProcPtr) (c : Nat) :
    (s.killCurLocked p c).cpuCount = s.cpuCount := by
  cases h : (s.procs p).parent with
  | none => rw [killCurLocked_orphan _ _ _ h]; rfl
  | some r => rw [killCurLocked_zombie _ _ _ h]; rfl

/-- The current process leaves its queue. -/
theorem QueueInv.kill (h : QueueInv s) (hc : (s.cpus c).current = some p) :
    QueueInv (s.killCurLocked p c) := by
  obtain ⟨hp, -⟩ := h.current c p hc
  have hk := culled hc h.nodup (fun d hd => h.unique d c p hd hp) fun d hd =>
    h.unique d c p (h.current d p hd).1 hp
  refine ⟨?_, fun d hd => ?_, fun d q hq => ?_, hk.nodup, fun d e q hq hq' => ?_, fun d => ?_,
    fun d q hq => ?_, fun d q hq hr => ?_⟩
  · rw [killCurLocked_cpuCount]
    exact h.cpus
  · refine eq_nil_iff_forall_not_mem.mpr fun q hq => ?_
    have hold := ((hk.queue d q).mp hq).1
    rw [h.bounded d hd] at hold
    exact absurd hold not_mem_nil
  · obtain ⟨hq, hne⟩ := (hk.queue d q).mp hq
    rw [hk.life q hne]
    exact h.pcb d q hq
  · exact h.unique d e q ((hk.queue d q).mp hq).1 ((hk.queue e q).mp hq').1
  · rw [killCurLocked_count, killCurLocked_queue]
    by_cases hd : d = c
    · obtain ⟨k, hk⟩ := Nat.exists_eq_succ_of_ne_zero (Nat.ne_of_gt (length_pos_of_mem hp))
      rw [if_pos ⟨hd, hp⟩, if_pos hd, h.count, length_erase_of_mem hp, hk, Nat.succ_sub_one,
        Nat.succ_eq_add_one, UInt32.ofNat_add]
      exact UInt32.add_sub_cancel ..
    · rw [if_neg fun he => hd he.1, if_neg hd, h.count]
  · obtain ⟨hq, hne⟩ := (hk.current d q).mp hq
    obtain ⟨hmem, hrun⟩ := h.current d q hq
    rw [hk.other q hne]
    exact ⟨(hk.queue d q).mpr ⟨hmem, hne⟩, hrun⟩
  · obtain ⟨hq, hne⟩ := (hk.queue d q).mp hq
    rw [hk.other q hne] at hr
    exact (hk.current d q).mpr ⟨h.running d q hq hr, hne⟩

/-- The cpu `c` goes from its current process, if it has one, to `next`. -/
structure Switched (s s' : State) (c : Nat) (next : ProcPtr) : Prop where
  cpuCount : s'.cpuCount = s.cpuCount
  rq : s'.rq = s.rq
  life : s'.life = s.life
  current : ∀ d, (s'.cpus d).current = if d = c then some next else (s.cpus d).current
  state : ∀ q, (s'.procs q).state =
    if q = next then .running
    else if (s.cpus c).current = some q then .ready else (s.procs q).state

theorem QueueInv.switched (h : QueueInv s) (hn : s.pickNext c (s.cpus c).current = some next)
    (e : Switched s s' c next) : QueueInv s' := by
  obtain ⟨hmem, hready, hne⟩ := s.pickNext_some _ _ hn
  refine ⟨e.cpuCount ▸ h.cpus, e.rq ▸ h.bounded, e.rq ▸ e.life ▸ h.pcb, e.rq ▸ h.nodup,
    e.rq ▸ h.unique, e.rq ▸ h.count, fun d q hq => ?_, fun d q hq hr => ?_⟩
  · rw [e.current] at hq
    rw [e.rq, e.state]
    split_ifs at hq with hd
    · obtain rfl := Option.some.inj hq
      exact ⟨hd ▸ hmem, if_pos rfl⟩
    -- another cpu runs neither the old nor the new process of this one
    obtain ⟨hqd, hrun⟩ := h.current d q hq
    refine ⟨hqd, ?_⟩
    rw [if_neg, if_neg]
    · exact hrun
    · exact fun hc => hd (h.unique d c q hqd (h.current c q hc).1)
    · rintro rfl
      rw [hready] at hrun
      cases hrun
  rw [e.rq] at hq
  rw [e.state] at hr
  rw [e.current]
  split_ifs at hr with hqn hqc
  · rw [hqn] at hq ⊢
    rw [if_pos (h.unique d c next hq hmem)]
  · have hold := h.running d q hq hr
    rw [if_neg, hold]
    rintro rfl
    exact hqc hold

theorem switched_switchTo (s : State) (c : Nat) (next : ProcPtr) :
    Switched s (s.switchTo c (s.cpus c).current next) c next := by
  refine ⟨?_, switchTo_rq .., switchTo_life .., fun d => ?_, fun q => ?_⟩
  · refine (sameQueues_applyOutcome _ c _).cpuCount.trans ?_
    cases (s.cpus c).current <;> rfl
  · rw [switchTo_cpu]
    split_ifs <;> rfl
  · rw [switchTo_proc]
    split_ifs <;> rfl

/-- A new process in front of a queue. -/
theorem QueueInv.enqueueAt (h : QueueInv s) (hf : s.Fresh p) (pcb : Process)
    (hc : c < percpuMaxCpus) : QueueInv ((s.adopt p pcb).enqueueAt p c) := by
  have hout : ∀ d, p ∉ (s.rq d).list := fun d hp => hf.1 (h.pcb d p hp).2
  have hlist : ∀ d, (((s.adopt p pcb).enqueueAt p c).rq d).list =
      if d = c then p :: (s.rq d).list else (s.rq d).list := by
    intro d
    by_cases hd : d = c
    · subst hd
      simp [State.enqueueAt, State.pushFront, State.adopt]
    · simp [State.enqueueAt, State.pushFront, State.adopt, hd]
  have hmem : ∀ d q, q ∈ (((s.adopt p pcb).enqueueAt p c).rq d).list →
      (q = p ∧ d = c) ∨ (q ∈ (s.rq d).list ∧ q ≠ p) := by
    intro d q hq
    have hne : q ∈ (s.rq d).list → q ≠ p := fun hq hqp => hout d (hqp ▸ hq)
    rw [hlist] at hq
    split_ifs at hq with hd
    · rcases mem_cons.mp hq with rfl | hq
      · exact .inl ⟨rfl, hd⟩
      · exact .inr ⟨hq, hne hq⟩
    · exact .inr ⟨hq, hne hq⟩
  have hkeep : ∀ d q, q ∈ (s.rq d).list → q ∈ (((s.adopt p pcb).enqueueAt p c).rq d).list := by
    intro d q hq
    rw [hlist]
    split_ifs
    · exact mem_cons_of_mem p hq
    · exact hq
  have hother : ∀ q, q ≠ p → ((s.adopt p pcb).enqueueAt p c).procs q = s.procs q ∧
      ((s.adopt p pcb).enqueueAt p c).life q = s.life q := by
    intro q hq
    simp [State.enqueueAt, State.pushFront, State.adopt, hq]
  have hself : (((s.adopt p pcb).enqueueAt p c).procs p).state = .ready ∧
      ((s.adopt p pcb).enqueueAt p c).life p = .alive := by
    simp [State.enqueueAt, State.pushFront, State.adopt]
  have hcur : ∀ d, ((s.adopt p pcb).enqueueAt p c).cpus d = s.cpus d := fun _ => rfl
  refine ⟨h.cpus, fun d hd => ?_, fun d q hq => ?_, fun d =>
    ?_, fun d e q hq hq' => ?_, fun d => ?_,
    fun d q hq => ?_, fun d q hq hr => ?_⟩
  · rw [hlist, if_neg (by omega)]
    exact h.bounded d hd
  · rcases hmem d q hq with ⟨rfl, -⟩ | ⟨hq, hne⟩
    · exact ⟨hf.2, hself.2⟩
    · rw [(hother q hne).2]
      exact h.pcb d q hq
  · rw [hlist]
    split_ifs
    · exact nodup_cons.mpr ⟨hout d, h.nodup d⟩
    · exact h.nodup d
  · rcases hmem d q hq with ⟨rfl, rfl⟩ | ⟨hq, hne⟩
    · rcases hmem e q hq' with ⟨-, he⟩ | ⟨-, hne⟩
      · exact he.symm
      · exact absurd rfl hne
    · rcases hmem e q hq' with ⟨hqp, -⟩ | ⟨hq', -⟩
      · exact absurd hqp hne
      · exact h.unique d e q hq hq'
  · rw [hlist]
    by_cases hd : d = c
    · subst hd
      simp [State.enqueueAt, State.pushFront, State.adopt, h.count]
    · simp [State.enqueueAt, State.pushFront, State.adopt, hd, h.count]
  · obtain ⟨hq, hrun⟩ := h.current d q (hcur d ▸ hq)
    have hne : q ≠ p := fun hqp => hout d (hqp ▸ hq)
    rw [(hother q hne).1]
    exact ⟨hkeep d q hq, hrun⟩
  rcases hmem d q hq with ⟨rfl, -⟩ | ⟨hq, hne⟩
  · rw [hself.1] at hr
    cases hr
  · rw [(hother q hne).1] at hr
    rw [hcur]
    exact h.running d q hq hr

theorem leastLoadedLocked_lt (h : QueueInv s) : s.leastLoadedLocked < percpuMaxCpus := by
  have hcpus := h.cpus
  have hmax : percpuMaxCpus = 16 := rfl
  have hbound : s.cpuCountOr1 ≤ percpuMaxCpus ∧ 0 < s.cpuCountOr1 := by
    rw [State.cpuCountOr1]
    split_ifs <;> omega
  refine foldl_inv (I := (· < percpuMaxCpus)) (fun i hi best hbest => ?_) (by omega)
  have hlt := mem_range'_1.mp hi
  split_ifs
  · omega
  · exact hbest

/-! ## 4. Every call -/

theorem tickBase_count (s : State) (c d : Nat) (fr : Frame) (slot : KAddr) :
    ((s.tickBase c fr slot).rq d).count = (s.rq d).count := by
  rcases tickBase_form s c fr slot with e | ⟨cur, e⟩ <;> rw [e] <;> by_cases hd : d = c <;>
    simp [State.accountIdle, State.accountBusy, State.saveCur, hd]

theorem sameQueues_tickBase (s : State) (c : Nat) (fr : Frame) (slot : KAddr) :
    SameQueues s (s.tickBase c fr slot) := by
  refine ⟨?_, fun d => tickBase_queue .., fun d => tickBase_count .., fun p => ?_, fun d => ?_,
    fun q => ?_⟩
  · rcases tickBase_form s c fr slot with e | ⟨cur, e⟩ <;> rw [e] <;> rfl
  · rw [tickBase_life]
  · rw [tickBase_cpus]
  · rw [tickBase_proc]
    split_ifs <;> rfl

theorem QueueInv.tick (h : QueueInv s) {fr : Frame} {slot : KAddr}
    (hr : TickResult s (s.tickBase c fr slot) c fr s' o) : QueueInv s' := by
  have hb := h.congr (sameQueues_tickBase s c fr slot)
  have hcpu : (s.tickBase c fr slot).cpus c = s.cpus c := by rw [tickBase_cpus]
  generalize s.tickBase c fr slot = b at *
  cases hr with
  | stay => exact hb
  | kill p hp _ _ _ => exact hb.kill (by rw [hcpu, hp])
  | killSwitch p next hp _ _ hn =>
    have hk := hb.kill (c := c) (p := p) (by rw [hcpu, hp])
    have hnone : ((b.killCurLocked p c).cpus c).current = none := by
      rw [killCurLocked_cpu, if_pos rfl]
    have hswitch := switched_switchTo (b.killCurLocked p c) c next
    rw [← hnone] at hn
    rw [hnone] at hswitch
    exact hk.switched hn hswitch
  | switch next _ hn =>
    rw [← hcpu] at hn ⊢
    exact hb.switched hn (switched_switchTo b c next)

theorem QueueInv.exitBase (h : QueueInv s) (status : Int32) : QueueInv (s.exitBase c status) := by
  rw [State.exitBase]
  cases hcur : (s.cpus c).current with
  | none => exact h
  | some cur => exact (h.congr (sameQueues_setProc rfl)).kill hcur

theorem QueueInv.exitLocked (h : QueueInv s) (status : Int32) :
    QueueInv (s.exitLocked c status).1 := by
  have hb := h.exitBase (c := c) status
  have hnone := exitBase_current s c status
  rw [State.exitLocked]
  generalize s.exitBase c status = b at *
  cases hn : b.pickNext c none with
  | none => exact hb
  | some next =>
    rw [← hnone] at hn
    refine hb.switched hn ⟨rfl, rfl, rfl, fun d => ?_, fun q => ?_⟩
    · by_cases hd : d = c
      · subst hd
        simp [State.dispatch]
      · simp [State.dispatch, hd]
    · by_cases hq : q = next
      · subst hq
        simp [State.dispatch]
      · simp [State.dispatch, hq, hnone]

theorem sameQueues_terminate (s : State) (pid : UInt64) :
    SameQueues s (s.schedulerTerminate pid).1 := by
  have hsame : SameQueues s s :=
    ⟨rfl, fun _ => rfl, fun _ => rfl, fun _ => rfl, fun _ => rfl, fun _ => rfl⟩
  rw [State.schedulerTerminate]
  cases s.findPidLocked pid with
  | none => exact hsame
  | some p =>
    dsimp only
    split_ifs
    · exact sameQueues_setProc (f := fun q => { q with terminate := true, exitStatus := 2 }) rfl
    · exact hsame

/-- **Every call keeps the invariant of the runqueues.** -/
theorem queueInv_op (h : QueueInv s) (op : QueueOp) (hs : s.queueOp op = some s') :
    QueueInv s' := by
  cases op with
  | enqueue p pcb =>
    rw [State.queueOp, Option.ite_none_right_eq_some, Option.some.injEq] at hs
    obtain ⟨hf, rfl⟩ := hs
    have hload : (s.adopt p pcb).leastLoadedLocked = s.leastLoadedLocked := rfl
    rw [State.schedulerEnqueue, hload]
    exact h.enqueueAt hf pcb (leastLoadedLocked_lt h)
  | enqueueOn p pcb cpu =>
    rw [State.queueOp, Option.ite_none_right_eq_some, Option.some.injEq] at hs
    obtain ⟨hf, rfl⟩ := hs
    refine h.enqueueAt hf pcb ?_
    split_ifs with hcpu
    · decide
    · exact Nat.not_le.mp hcpu
  | tick c fr slot =>
    rw [State.queueOp, Option.ite_none_right_eq_some, Option.some.injEq] at hs
    obtain ⟨-, rfl⟩ := hs
    exact h.tick (tick_cases s c fr slot)
  | exit c status =>
    rw [State.queueOp, Option.ite_none_right_eq_some, Option.some.injEq] at hs
    obtain ⟨-, rfl⟩ := hs
    exact h.exitLocked status
  | terminate pid =>
    rw [← Option.some.inj hs]
    exact h.congr (sameQueues_terminate s pid)
  | block c b =>
    rw [← Option.some.inj hs, State.setBlocked]
    cases (s.cpus c).current with
    | none => exact h
    | some cur => exact h.congr (sameQueues_setProc rfl)

end DyntKernel.Scheduler
