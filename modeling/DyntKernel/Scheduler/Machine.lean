/-
  File:      DyntKernel/Scheduler/Machine.lean
  Subject:   THE MACHINE the scheduler runs on: any number of cpus, each in one `Mode`, and the
             events that move it.

  One event is one stretch of code that no other cpu can divide as far as the scheduler's
  state goes: a call under `sched_lock`, a syscall entry or return (syscall_entry.S, with
  interrupts masked by `MSR_FMASK`), the setting of a pcb flag by its own process.
  `scheduler_exit_current` is two events, because it releases `sched_lock` before it leaves
  the stack and the address space of the process that exited: `sysExit` and `exitResume`.

  * `tick c regs off` -- the timer interrupt on cpu `c`. From ring 3 the frame lies on the
    interrupt stack of the cpu (TSS rsp0), from ring 0 on the stack in use; `regs` is what the
    cpu held, with the `cs` of the interrupted mode;
  * `syscallEntry c rsp`, `sysret c` -- `gs:16` is written with the user stack pointer and the
    stack is taken from `gs:8`; the return loads `gs:16`;
  * `block c`, `unblock c` -- `cur->blocked = true; sti()` and `cli(); cur->blocked = false`
    around the `hlt` loops of SYS_READ, SYS_WAITPID and SYS_SLEEP;
  * `reap c pid` -- one turn of the SYS_WAITPID loop that finds a zombie child.
-/
import DyntKernel.Scheduler.Sched
import DyntKernel.Library.Runs

namespace DyntKernel.Scheduler

inductive Event where
  | boot (child : ProcPtr) (entry stackPtr : UInt64)
  | sysExec (c : Nat) (child : ProcPtr) (entry stackPtr : UInt64)
  | sysFork (c : Nat) (child : ProcPtr) (regs : Registers)
  | tick (c : Nat) (regs : Registers) (off : UInt64)
  | syscallEntry (c : Nat) (rsp : UInt64)
  | sysret (c : Nat)
  | block (c : Nat)
  | unblock (c : Nat)
  | execve (c : Nat) (entry rsp : UInt64)
  | sysExit (c : Nat) (status : Int32)
  | exitResume (c : Nat)
  | terminate (pid : UInt64)
  | reap (c : Nat) (pid : UInt64)
  deriving DecidableEq, Repr

/-- The mode runs in ring 3. -/
def Mode.isUser : Mode → Bool
  | .user _ => true
  | _ => false

/-- The stack an interrupt frame of cpu `c` is pushed on. -/
def Mode.frameStack (c : Nat) : Mode → Stack
  | .user _ => .boot c
  | .idle st => st
  | .syscall _ st => st
  | .exiting _ st => st

/-- The kernel stack a mode executes on, if it executes on one. -/
def Mode.stack : Mode → Option Stack
  | .user _ => none
  | .idle st => some st
  | .syscall _ st => some st
  | .exiting _ st => some st

/-- The mode resumed with its stack pointer set to `krsp` (`kernel_resume`). -/
def Mode.onStack (m : Mode) (krsp : Option KAddr) : Mode :=
  match krsp, m with
  | some a, .syscall p _ => .syscall p a.stack
  | some a, .exiting n _ => .exiting n a.stack
  | some a, .idle _ => .idle a.stack
  | _, m => m

namespace State

def setMode (s : State) (c : Nat) (m : Mode) : State := s.setCpu c fun k => { k with mode := m }

section SetMode

variable (s : State) (c d : Nat) (m : Mode)

@[simp] theorem setMode_procs : (s.setMode c m).procs = s.procs := rfl
@[simp] theorem setMode_life : (s.setMode c m).life = s.life := rfl
@[simp] theorem setMode_rq : (s.setMode c m).rq = s.rq := rfl
@[simp] theorem setMode_entered : (s.setMode c m).entered = s.entered := rfl

theorem setMode_cpu :
    (s.setMode c m).cpus d = if d = c then { s.cpus c with mode := m } else s.cpus d := by
  simp [setMode, Function.update_apply]

end SetMode

/-- The end of a tick on cpu `c`. -/
def applyOutcome (s : State) (c : Nat) : Outcome → State
  | .same => s
  | .load next => s.setMode c (s.procs next).ctx.code
  | .kernelResume next krsp => s.setMode c ((s.procs next).ctx.code.onStack krsp)

/-- The whole switch of a tick from `cur` to `next`, up to the `iretq`. -/
def switchTo (s : State) (c : Nat) (cur : Option ProcPtr) (next : ProcPtr) : State :=
  let s' := ((s.putBack cur).dispatch c next).loadSpace c next
  s'.applyOutcome c (s'.resumeOf next)

/-- The mode in which the saved context of `next` is resumed. -/
def resumeMode (s : State) (next : ProcPtr) : Mode :=
  if (s.procs next).blocked then (s.procs next).ctx.code.onStack (s.procs next).savedKernelRsp
  else (s.procs next).ctx.code

def setBlocked (s : State) (c : Nat) (b : Bool) : State :=
  match (s.cpus c).current with
  | some cur => s.setProc cur fun p => { p with blocked := b }
  | none => s

/-- `scheduler_exit_current` from the release of `sched_lock` on. -/
def exitResume (s : State) (c : Nat) (next : ProcPtr) : State :=
  (s.loadSpace c next).applyOutcome c ((s.loadSpace c next).resumeOf next)

/-- SYS_EXECVE after `process_execve` succeeded: a new image with the entry point `entry` and
    the initial stack pointer `rsp`, entered through the regular return path. -/
def sysExecve (s : State) (c : Nat) (cur : ProcPtr) (entry rsp : UInt64) : State :=
  ((s.setProc cur fun p =>
    { p with
      fsBase := 0, terminate := false
      ctx := { p.ctx with
        regs := { p.ctx.regs with rip := entry, userRsp := rsp, rflags := 0x202 } } }).setCpu c
    fun k => { k with
      fsBase := 0, kernelRsp := (s.procs cur).kernelStackTop, userRsp := rsp,
      cr3 := (s.procs cur).cr3 }).setEntered cur (some rsp)

/-- **One event of the machine**; `none` when it cannot happen in this state. -/
def step (s : State) : Event → Option State
  | .boot child entry stackPtr =>
    if s.life child = .unborn then
      some (((s.processCreate child).processSetup child entry stackPtr).schedulerEnqueueOn child 0)
    else none
  | .sysExec c child entry stackPtr =>
    match (s.cpus c).mode with
    | .syscall _ _ =>
      if s.life child = .unborn then
        some (((s.processCreate child).processSetup child entry stackPtr).schedulerEnqueue child)
      else none
    | _ => none
  | .sysFork c child regs =>
    match (s.cpus c).mode, (s.cpus c).current with
    | .syscall _ _, some parent =>
      if s.life child = .unborn then
        some ((s.processFork c parent child regs).schedulerEnqueue child)
      else none
    | _, _ => none
  | .tick c regs off =>
    let m := (s.cpus c).mode
    if regs.cs = (if m.isUser then userCs else kernelCs) then
      let r := s.schedulerTimerTick c ⟨regs, m⟩ ⟨m.frameStack c, off⟩
      some (r.1.applyOutcome c r.2)
    else none
  | .syscallEntry c rsp =>
    match (s.cpus c).mode with
    | .user p =>
      some ((s.setCpu c fun k =>
        { k with userRsp := rsp, mode := .syscall p k.kernelRsp.stack }).setEntered p (some rsp))
    | _ => none
  | .sysret c =>
    match (s.cpus c).mode with
    | .syscall p _ =>
      if (s.cpus c).current.any (fun q => (s.procs q).blocked) then none
      else some ((s.setMode c (.user p)).setEntered p none)
    | _ => none
  | .block c =>
    match (s.cpus c).mode with
    | .syscall _ _ => some (s.setBlocked c true)
    | _ => none
  | .unblock c =>
    match (s.cpus c).mode with
    | .syscall _ _ => some (s.setBlocked c false)
    | _ => none
  | .execve c entry rsp =>
    match (s.cpus c).mode, (s.cpus c).current with
    | .syscall _ _, some cur => some (s.sysExecve c cur entry rsp)
    | _, _ => none
  | .sysExit c status =>
    match (s.cpus c).mode with
    | .syscall p st =>
      match s.exitLocked c status with
      | (s', none) => some ((s'.setMode c (.idle st)).setEntered p none)
      | (s', some next) => some ((s'.setMode c (.exiting next st)).setEntered p none)
    | _ => none
  | .exitResume c =>
    match (s.cpus c).mode with
    | .exiting next _ => some (s.exitResume c next)
    | _ => none
  | .terminate pid => some (s.schedulerTerminate pid).1
  | .reap c pid =>
    match (s.cpus c).mode, (s.cpus c).current with
    | .syscall _ _, some cur =>
      (s.processFindZombieChild cur pid).map fun z => s.processReapChild cur z
    | _, _ => none

/-- A cpu as bring-up leaves it: idle on its boot stack, under the kernel's tables. -/
def bootCpu (c : Nat) : Cpu :=
  { kernelRsp := ⟨.boot c, 16384⟩, userRsp := 0, current := none, cr3 := .kernel, fsBase := 0,
    mode := .idle (.boot c) }

/-- The content of memory at a pcb pointer no process was created under. -/
def noPcb : Process :=
  { pid := 0, state := .ready, cpu := 0, cr3 := .kernel, ticks := 0, fsBase := 0,
    kernelStackTop := ⟨.boot 0, 0⟩, savedKernelRsp := none, userRsp := 0, exitStatus := 0,
    parent := none, children := [], terminate := false, blocked := false,
    ctx := ⟨{}, .idle (.boot 0)⟩ }

/-- **The state after bring-up** of `n` cpus: empty queues, every cpu idle. -/
def init (n : Nat) : State :=
  { procs := fun _ => noPcb, life := fun _ => .unborn, rq := fun _ => ⟨[], 0, 0, 0, 0⟩,
    cpus := bootCpu, cpuCount := n, nextPid := 1, uptimeTicks := 0, entered := fun _ => none }

end State

end DyntKernel.Scheduler
