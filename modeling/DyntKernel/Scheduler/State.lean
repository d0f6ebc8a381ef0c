/-
  File:      DyntKernel/Scheduler/State.lean
  Subject:   THE SCHEDULER'S STATE (process/process.h, scheduler/scheduler.c, cpu/percpu.h).

  * `Process` -- the pcb, as far as the scheduler and the syscall paths around it read it
    (the file table, the name and the mmap cursor are not read here);
  * `Cpu` -- one `percpu_t` with the hardware registers the switch code writes (cr3, FS base)
    and `mode`, what the cpu executes;
  * `CpuRq` -- `cpu_rq_t`; the singly linked list through `process_t.next` is a `List`;
  * `State` -- everything `sched_lock` protects, plus the pcbs.

  A pcb pointer is a `ProcPtr`; a pcb is created once under its pointer, so a reused heap
  block is a new pointer here. `Root` and `Stack` name an address space and a kernel stack by
  the process they were created for: whether a process still owns what a cpu uses is then a
  question about that process and not about a recycled address.

  A saved context (`Frame`) is the `registers_t` together with `code`, the meaning of its
  rip/cs/rsp: which code an `iretq` of this frame goes on with.
-/
import Mathlib.Logic.Function.Basic
import Mathlib.Data.List.Basic

namespace DyntKernel.Scheduler

abbrev ProcPtr := Nat

/-- `PERCPU_MAX_CPUS`. -/
def percpuMaxCpus : Nat := 16

/-- `SCHED_QUANTUM`. -/
def schedQuantum : UInt64 := 5

/-- `LOAD_UNIT`. -/
def loadUnit : UInt64 := 0x1000

/-- The selector of the ring-3 code segment in an interrupt frame. -/
def userCs : UInt64 := 0x23

/-- The selector of the kernel code segment. -/
def kernelCs : UInt64 := 0x08

/-- `registers_t` (inter/isr.h). -/
structure Registers where
  rax : UInt64 := 0
  rbx : UInt64 := 0
  rcx : UInt64 := 0
  rdx : UInt64 := 0
  rsi : UInt64 := 0
  rdi : UInt64 := 0
  rbp : UInt64 := 0
  r8 : UInt64 := 0
  r9 : UInt64 := 0
  r10 : UInt64 := 0
  r11 : UInt64 := 0
  r12 : UInt64 := 0
  r13 : UInt64 := 0
  r14 : UInt64 := 0
  r15 : UInt64 := 0
  intNo : UInt64 := 0
  errCode : UInt64 := 0
  rip : UInt64 := 0
  cs : UInt64 := 0
  rflags : UInt64 := 0
  userRsp : UInt64 := 0
  ss : UInt64 := 0
  deriving DecidableEq, Repr

/-- A kernel stack: the boot, interrupt or syscall stack a cpu was brought up with, or the
    stack `process_create` allocated for a process. -/
inductive Stack where
  | boot (cpu : Nat)
  | kernelStack (p : ProcPtr)
  deriving DecidableEq, Repr

/-- An address on a kernel stack. -/
structure KAddr where
  stack : Stack
  off : UInt64
  deriving DecidableEq, Repr

/-- A page-table root: the boot tables, or the address space created for a process. -/
inductive Root where
  | kernel
  | space (p : ProcPtr)
  deriving DecidableEq, Repr

/-- What a cpu executes, or what a saved frame goes on with.
    * `idle st`: the `hlt` loop of `scheduler_idle_cpu`, on the stack it was entered on;
    * `user p`: the ring-3 code of `p`;
    * `syscall p st`: `syscall_dispatch` on behalf of `p`;
    * `exiting next st`: the tail of `scheduler_exit_current` after `sched_lock` was released,
      about to resume `next`, still on the stack of the process that exited. -/
inductive Mode where
  | idle (st : Stack)
  | user (p : ProcPtr)
  | syscall (p : ProcPtr) (st : Stack)
  | exiting (next : ProcPtr) (st : Stack)
  deriving DecidableEq, Repr

/-- A saved context: the registers and the code they resume. -/
structure Frame where
  regs : Registers
  code : Mode
  deriving DecidableEq, Repr

/-- `process_state_t`. -/
inductive ProcessState where
  | ready
  | running
  | blocked
  | zombie
  deriving DecidableEq, Repr

/-- `process_t`. -/
structure Process where
  pid : UInt64
  state : ProcessState
  cpu : Nat
  cr3 : Root
  ticks : UInt64
  fsBase : UInt64
  kernelStackTop : KAddr
  savedKernelRsp : Option KAddr
  userRsp : UInt64
  exitStatus : Int32
  parent : Option ProcPtr
  children : List ProcPtr
  terminate : Bool
  blocked : Bool
  ctx : Frame
  deriving DecidableEq, Repr

/-- `percpu_t` and the registers of the cpu. -/
structure Cpu where
  kernelRsp : KAddr
  userRsp : UInt64
  current : Option ProcPtr
  cr3 : Root
  fsBase : UInt64
  mode : Mode
  deriving DecidableEq, Repr

/-- `cpu_rq_t`. -/
structure CpuRq where
  list : List ProcPtr
  count : UInt32
  load : UInt64
  busyTicks : UInt64
  idleTicks : UInt64
  deriving DecidableEq, Repr

/-- The life of a pcb: not created yet, created, passed to `process_destroy`. -/
inductive Life where
  | unborn
  | alive
  | destroyed
  deriving DecidableEq, Repr

/-- The scheduler's state. `entered p` is the user stack pointer `p` had when it entered the
    syscall it is in, kept only to be compared with what the return loads. -/
structure State where
  procs : ProcPtr → Process
  life : ProcPtr → Life
  rq : Nat → CpuRq
  cpus : Nat → Cpu
  cpuCount : Nat
  nextPid : UInt64
  uptimeTicks : UInt64
  entered : ProcPtr → Option UInt64

namespace State

/-- Rewrites one pcb. -/
def setProc (s : State) (p : ProcPtr) (f : Process → Process) : State :=
  { s with procs := Function.update s.procs p (f (s.procs p)) }

/-- Rewrites one cpu. -/
def setCpu (s : State) (c : Nat) (f : Cpu → Cpu) : State :=
  { s with cpus := Function.update s.cpus c (f (s.cpus c)) }

/-- Rewrites one runqueue. -/
def setRq (s : State) (c : Nat) (f : CpuRq → CpuRq) : State :=
  { s with rq := Function.update s.rq c (f (s.rq c)) }

/-- Rewrites the life of one pcb. -/
def setLife (s : State) (p : ProcPtr) (l : Life) : State :=
  { s with life := Function.update s.life p l }

/-- Records the stack pointer a syscall was entered with, or that none is running. -/
def setEntered (s : State) (p : ProcPtr) (r : Option UInt64) : State :=
  { s with entered := Function.update s.entered p r }

section Fields

variable (s : State) (p q : ProcPtr) (c d : Nat) (f : Process → Process)
  (g : Cpu → Cpu) (u : CpuRq → CpuRq)
  (l : Life) (r : Option UInt64)

@[simp] theorem setProc_procs : (s.setProc p f).procs = Function.update s.procs p (f (s.procs p)) :=
  rfl
@[simp] theorem setProc_life : (s.setProc p f).life = s.life := rfl
@[simp] theorem setProc_rq : (s.setProc p f).rq = s.rq := rfl
@[simp] theorem setProc_cpus : (s.setProc p f).cpus = s.cpus := rfl
@[simp] theorem setProc_entered : (s.setProc p f).entered = s.entered := rfl

@[simp] theorem setCpu_procs : (s.setCpu c g).procs = s.procs := rfl
@[simp] theorem setCpu_life : (s.setCpu c g).life = s.life := rfl
@[simp] theorem setCpu_rq : (s.setCpu c g).rq = s.rq := rfl
@[simp] theorem setCpu_cpus : (s.setCpu c g).cpus = Function.update s.cpus c (g (s.cpus c)) := rfl
@[simp] theorem setCpu_entered : (s.setCpu c g).entered = s.entered := rfl

@[simp] theorem setRq_procs : (s.setRq c u).procs = s.procs := rfl
@[simp] theorem setRq_life : (s.setRq c u).life = s.life := rfl
@[simp] theorem setRq_rq : (s.setRq c u).rq = Function.update s.rq c (u (s.rq c)) := rfl
@[simp] theorem setRq_cpus : (s.setRq c u).cpus = s.cpus := rfl
@[simp] theorem setRq_entered : (s.setRq c u).entered = s.entered := rfl

@[simp] theorem setLife_procs : (s.setLife p l).procs = s.procs := rfl
@[simp] theorem setLife_life : (s.setLife p l).life = Function.update s.life p l := rfl
@[simp] theorem setLife_rq : (s.setLife p l).rq = s.rq := rfl
@[simp] theorem setLife_cpus : (s.setLife p l).cpus = s.cpus := rfl
@[simp] theorem setLife_entered : (s.setLife p l).entered = s.entered := rfl

@[simp] theorem setEntered_procs : (s.setEntered p r).procs = s.procs := rfl
@[simp] theorem setEntered_life : (s.setEntered p r).life = s.life := rfl
@[simp] theorem setEntered_rq : (s.setEntered p r).rq = s.rq := rfl
@[simp] theorem setEntered_cpus : (s.setEntered p r).cpus = s.cpus := rfl
@[simp] theorem setEntered_entered : (s.setEntered p r).entered = Function.update s.entered p r :=
  rfl

end Fields

end State

end DyntKernel.Scheduler
