/-
  File:      DyntKernel/Scheduler/Sched.lean
  Subject:   THE FUNCTIONS of scheduler/scheduler.c and of the process tree in
             process/process.c, on `State`.

  Every function here runs under `sched_lock` (or, in `process_create` and the tree functions,
  in one syscall), so it is a state transformer. The two functions that end in an `iretq` say
  how they end: `scheduler_timer_tick` by `Outcome`, `scheduler_exit_current` in its two halves
  `exitLocked` (up to the release of `sched_lock`) and `exitResume` (from there on).
-/
import DyntKernel.Scheduler.State

namespace DyntKernel.Scheduler

namespace State

/-! ## 1. The runqueue -/

def cpuCountOr1 (s : State) : Nat := if s.cpuCount = 0 then 1 else s.cpuCount

def pushFront (s : State) (cpu : Nat) (proc : ProcPtr) : State :=
  s.setRq cpu fun q => { q with list := proc :: q.list, count := q.count + 1 }

def leastLoadedLocked (s : State) : Nat :=
  (List.range' 1 (s.cpuCountOr1 - 1)).foldl (fun best i =>
    if (s.rq i).count < (s.rq best).count ∨
        ((s.rq i).count = (s.rq best).count ∧ (s.rq i).load < (s.rq best).load)
    then i else best) 0

/-- What `scheduler_enqueue` and `scheduler_enqueue_on` write into the pcb before the push. -/
def enqueueAt (s : State) (proc : ProcPtr) (cpu : Nat) : State :=
  (s.setProc proc fun p => { p with state := .ready, cpu := cpu, ticks := 0 }).pushFront cpu proc

def schedulerEnqueueOn (s : State) (proc : ProcPtr) (cpu : Nat) : State :=
  s.enqueueAt proc (if cpu ≥ percpuMaxCpus then 0 else cpu)

def schedulerEnqueue (s : State) (proc : ProcPtr) : State :=
  s.enqueueAt proc s.leastLoadedLocked

def unlink (s : State) (cpu : Nat) (proc : ProcPtr) : State :=
  s.setRq cpu fun q =>
    if proc ∈ q.list then { q with list := q.list.erase proc, count := q.count - 1 } else q

/-- The circular walk from the head, once around. -/
def pickNext (s : State) (cpu : Nat) (skip : Option ProcPtr) : Option ProcPtr :=
  (s.rq cpu).list.find? fun p => (s.procs p).state = .ready ∧ some p ≠ skip

def findPidLocked (s : State) (pid : UInt64) : Option ProcPtr :=
  (List.range percpuMaxCpus).findSome? fun cpu =>
    (s.rq cpu).list.find? fun p => (s.procs p).pid = pid

/-! ## 2. Processes -/

/-- `process_create` for the pcb pointer `p`: a zeroed pcb with its own address space and its
    own kernel stack (`PROCESS_KSTACK_SIZE` bytes). The pcb is in no queue yet. -/
def processCreate (s : State) (p : ProcPtr) : State :=
  let pcb : Process :=
    { pid := s.nextPid, state := .ready, cpu := 0, cr3 := .space p, ticks := 0, fsBase := 0,
      kernelStackTop := ⟨.kernelStack p, 16384⟩, savedKernelRsp := none, userRsp := 0,
      exitStatus := 0, parent := none, children := [], terminate := false, blocked := false,
      ctx := ⟨{ cs := userCs, ss := 0x1B, rflags := 0x202 }, .user p⟩ }
  { s.setProc p (fun _ => pcb) with
    life := Function.update s.life p .alive, nextPid := s.nextPid + 1,
    entered := Function.update s.entered p none }

/-- The entry state `process_load_elf` leaves in the context (`process_setup`). -/
def processSetup (s : State) (p : ProcPtr) (entry stackPtr : UInt64) : State :=
  s.setProc p fun pcb =>
    { pcb with ctx := { pcb.ctx with
        regs := { pcb.ctx.regs with rip := entry, userRsp := stackPtr, rflags := 0x202 } } }

def processDestroy (s : State) (p : ProcPtr) : State := s.setLife p .destroyed

def processLinkChild (s : State) (parent child : ProcPtr) : State :=
  (s.setProc child fun p => { p with parent := some parent }).setProc parent
    fun p => { p with children := child :: p.children }

/-- `process_fork` after `process_create` succeeded: the child's context is built from the
    saved syscall registers (`rcx` is the user rip, `r11` the user rflags) and from `gs:16`. -/
def processFork (s : State) (cpu : Nat) (parent child : ProcPtr) (regs : Registers) : State :=
  let fs := (s.procs parent).fsBase
  let rsp := (s.cpus cpu).userRsp
  ((s.processCreate child).setProc child fun p =>
    { p with
      fsBase := fs
      ctx := ⟨{ regs with
        rax := 0, intNo := 0, errCode := 0, rip := regs.rcx, cs := userCs, rflags := regs.r11,
        userRsp := rsp, ss := 0x1B }, .user child⟩ }).processLinkChild parent child

def processFindZombieChild (s : State) (parent : ProcPtr) (pid : UInt64) : Option ProcPtr :=
  (s.procs parent).children.find? fun c =>
    (s.procs c).state = .zombie ∧ (pid = 0 ∨ (s.procs c).pid = pid)

def processReapChild (s : State) (parent child : ProcPtr) : State :=
  (s.setProc parent fun p => { p with children := p.children.erase child }).processDestroy child

/-! ## 3. Killing and the timer tick -/

def killCurLocked (s : State) (cur : ProcPtr) (cpu : Nat) : State :=
  let s := (s.unlink cpu cur).setCpu cpu fun c => { c with current := none }
  if (s.procs cur).parent.isSome then
    s.setProc cur fun p => { p with state := .zombie, terminate := false }
  else
    s.processDestroy cur

/-- How `scheduler_timer_tick` ends: it returns with the frame it was called with, it returns
    with `next->ctx` copied into the frame, or it ends in `kernel_resume(&next->ctx, krsp)`. -/
inductive Outcome where
  | same
  | load (next : ProcPtr)
  | kernelResume (next : ProcPtr) (krsp : Option KAddr)
  deriving DecidableEq, Repr

/-- The accounting of a tick that found a running process. -/
def accountBusy (s : State) (cpu : Nat) : State :=
  s.setRq cpu fun q =>
    { q with busyTicks := q.busyTicks + 1, load := (q.load >>> 1) + loadUnit }

/-- The accounting of a tick that found none. -/
def accountIdle (s : State) (cpu : Nat) : State :=
  s.setRq cpu fun q => { q with idleTicks := q.idleTicks + 1, load := q.load >>> 1 }

/-- Makes `next` the process of the cpu: the pcb, the percpu slot and the registers. -/
def dispatch (s : State) (cpu : Nat) (next : ProcPtr) : State :=
  (s.setProc next fun p => { p with ticks := 0, state := .running }).setCpu cpu fun c =>
    { c with current := some next, kernelRsp := (s.procs next).kernelStackTop }

def loadSpace (s : State) (cpu : Nat) (next : ProcPtr) : State :=
  s.setCpu cpu fun c => { c with cr3 := (s.procs next).cr3, fsBase := (s.procs next).fsBase }

/-- The process `cur` gives the cpu up. -/
def putBack (s : State) (cur : Option ProcPtr) : State :=
  match cur with
  | some p => s.setProc p fun pcb => { pcb with ticks := 0, state := .ready }
  | none => s

/-- How the dispatched process `next` is resumed: a process parked in a blocking syscall goes
    back into its `hlt` loop, every other one into its saved frame. -/
def resumeOf (s : State) (next : ProcPtr) : Outcome :=
  if (s.procs next).blocked then .kernelResume next (s.procs next).savedKernelRsp else .load next

/-- `scheduler_timer_tick` from the check of the frame's `cs` on. -/
def tickSwitch (s : State) (cpu : Nat) (cur : Option ProcPtr) (fr : Frame) : State × Outcome :=
  if fr.regs.cs ≠ userCs ∧ cur.any (fun p => !(s.procs p).blocked) then (s, .same)
  else
    match s.pickNext cpu cur with
    | none => (s, .same)
    | some next =>
      if some next = cur then (s, .same)
      else
        let s' := ((s.putBack cur).dispatch cpu next).loadSpace cpu next
        (s', s'.resumeOf next)

/-- What a tick saves of the running process `cur`: the frame and, when it is parked in a
    blocking syscall, the address of the frame's stack-pointer slot. -/
def saveCur (s : State) (cur : ProcPtr) (fr : Frame) (slot : KAddr) : State :=
  s.setProc cur fun p =>
    { p with
      ticks := p.ticks + 1
      ctx := fr
      savedKernelRsp := if p.blocked then some slot else p.savedKernelRsp }

def schedulerTimerTick (s : State) (cpu : Nat) (fr : Frame) (slot : KAddr) : State × Outcome :=
  let s := { s with uptimeTicks := s.uptimeTicks + 1 }
  match (s.cpus cpu).current with
  | some cur =>
    if (s.procs cur).state = .running then
      let s := (s.accountBusy cpu).saveCur cur fr slot
      if (s.procs cur).terminate then
        -- a frame in ring 0 is inside a syscall handler, which dies at its own boundary
        if fr.regs.cs = userCs then (s.killCurLocked cur cpu).tickSwitch cpu none fr
        else (s, .same)
      else if (s.procs cur).ticks < schedQuantum ∧ !(s.procs cur).blocked then (s, .same)
      else s.tickSwitch cpu (some cur) fr
    else (s.accountIdle cpu).tickSwitch cpu (some cur) fr
  | none => (s.accountIdle cpu).tickSwitch cpu none fr

/-! ## 4. Exit and kill requests -/

/-- The state of `scheduler_exit_current` when it looks for a successor. -/
def exitBase (s : State) (cpu : Nat) (status : Int32) : State :=
  match (s.cpus cpu).current with
  | some cur => (s.setProc cur fun p => { p with exitStatus := status }).killCurLocked cur cpu
  | none => s

/-- `scheduler_exit_current` up to the release of `sched_lock`; `none`: nothing is ready and
    the cpu goes on to `scheduler_idle_cpu`. -/
def exitLocked (s : State) (cpu : Nat) (status : Int32) : State × Option ProcPtr :=
  let s := s.exitBase cpu status
  match s.pickNext cpu none with
  | none => (s, none)
  | some next => (s.dispatch cpu next, some next)

def schedulerTerminate (s : State) (pid : UInt64) : State × Bool :=
  match s.findPidLocked pid with
  | some p =>
    if (s.procs p).state ≠ .zombie then
      (s.setProc p fun q => { q with terminate := true, exitStatus := 2 }, true)
    else (s, false)
  | none => (s, false)

end State

end DyntKernel.Scheduler
