/-
  File:      DyntKernel/Scheduler/GsBase.lean
  Subject:   THE GS BASES (cpu/percpu.c, syscall_entry.S, `gs_to_user` and `gs_to_kernel` of
             scheduler.c): how a cpu finds its percpu slot.

  The syscall stubs swap GS_BASE and KERNEL_GS_BASE unconditionally, interrupts never, and a switch
  swaps only if the bases are not yet as its target expects them. The machine of Machine.lean takes
  `percpu_current()` to be the slot of the cpu; here the two MSRs are added to it and that is
  proved.

  * `GsRegs`, `swapgs`, `gsToUser`, `gsToKernel`, `percpuCurrent` -- the code;
  * `GsMachine` -- the machine with the MSRs of every cpu; `userGs` is user code that writes
    GS_BASE;
  * `FramesFit` -- a process that waits has a user frame exactly if it is not blocked;
  * `gs_convention` -- in every run every cpu finds its own slot.
-/
import DyntKernel.Scheduler.Invariant

namespace DyntKernel.Scheduler

open Library State

variable {c percpu : Nat} {s s' : State} {p next : ProcPtr} {st : Stack}
  {e : Event} {o : State.Outcome}

/-! ## 1. The two MSRs -/

/-- `sizeof(percpu_t)`. -/
def percpuSize : Nat := 0x38

/-- MSR_IA32_GS_BASE and MSR_IA32_KERNEL_GS_BASE. -/
structure GsRegs where
  gsBase : Nat
  kernelGsBase : Nat
  deriving DecidableEq, Repr

/-- `&g_percpu[i]`, with the array at the address `percpu`. -/
def slotAddr (percpu i : Nat) : Nat := percpu + percpuSize * i

/-- An address between `&g_percpu[0]` and `&g_percpu[PERCPU_MAX_CPUS]`. -/
def InPercpu (percpu a : Nat) : Prop := slotAddr percpu 0 ≤ a ∧ a < slotAddr percpu percpuMaxCpus

instance (percpu a : Nat) : Decidable (InPercpu percpu a) := inferInstanceAs (Decidable (_ ∧ _))

namespace GsRegs

/-- `percpu_init` (cpu 0) and `percpu_init_cpu`: both MSRs get the slot. -/
def percpuInitCpu (percpu i : Nat) : GsRegs := ⟨slotAddr percpu i, slotAddr percpu i⟩

/-- `gdt_flush`, which an application processor runs after `percpu_init_cpu`: the load of the
    selector 0x10 into GS replaces the base by the one in the descriptor, 0. -/
def gdtFlush (g : GsRegs) : GsRegs := { g with gsBase := 0 }

def swapgs (g : GsRegs) : GsRegs := ⟨g.kernelGsBase, g.gsBase⟩

def gsToUser (percpu : Nat) (g : GsRegs) : GsRegs :=
  if InPercpu percpu g.gsBase then g.swapgs else g

def gsToKernel (percpu : Nat) (g : GsRegs) : GsRegs :=
  if ¬ InPercpu percpu g.gsBase then g.swapgs else g

def percpuCurrent (percpu : Nat) (g : GsRegs) : Nat :=
  if InPercpu percpu g.gsBase then g.gsBase else g.kernelGsBase

end GsRegs

/-! ## 2. The machine with the MSRs -/

structure GsMachine where
  st : State
  gs : Nat → GsRegs

inductive GsEvent where
  | kernel (e : Event)
  | userGs (c : Nat) (value : Nat)
  deriving DecidableEq, Repr

/-- The swap before a frame is resumed. -/
def gsResume (percpu : Nat) (o : State.Outcome) (g : GsRegs) : GsRegs :=
  match o with
  | .same => g
  | .load _ => g.gsToUser percpu
  | .kernelResume _ _ => g.gsToKernel percpu

/-- What an event does to the MSRs. -/
def gsAfter (percpu : Nat) (s : State) (g : Nat → GsRegs) : Event → Nat → GsRegs
  | .syscallEntry c _ => Function.update g c (g c).swapgs
  | .sysret c => Function.update g c (g c).swapgs
  | .tick c regs off =>
    let m := (s.cpus c).mode
    let r := s.schedulerTimerTick c ⟨regs, m⟩ ⟨m.frameStack c, off⟩
    Function.update g c (gsResume percpu r.2 (g c))
  | .exitResume c =>
    match (s.cpus c).mode with
    | .exiting next _ =>
      Function.update g c (gsResume percpu ((s.loadSpace c next).resumeOf next) (g c))
    | _ => g
  | _ => g

def GsMachine.step (percpu : Nat) (m : GsMachine) : GsEvent → Option GsMachine
  | .kernel e => (m.st.step e).map fun s' => ⟨s', gsAfter percpu m.st m.gs e⟩
  | .userGs c value =>
    if (m.st.cpus c).mode.isUser = true ∧ ¬ InPercpu percpu value then
      some { m with gs := Function.update m.gs c { m.gs c with gsBase := value } }
    else none

/-- **The runs**: the timer interrupts frames of user code, of the idle loop and of syscalls, not
    the tail of `scheduler_exit_current`. -/
def TickInFrame (m : GsMachine) : GsEvent → Prop
  | .kernel (.tick c _ _) => (m.st.cpus c).mode.leaving = none
  | _ => True

instance (m : GsMachine) (e : GsEvent) : Decidable (TickInFrame m e) :=
  match e with
  | .kernel (.tick c _ _) => inferInstanceAs (Decidable ((m.st.cpus c).mode.leaving = none))
  | .kernel (.boot ..) | .kernel (.sysExec ..) | .kernel (.sysFork ..) | .kernel (.syscallEntry ..)
  | .kernel (.sysret ..) | .kernel (.block ..) | .kernel (.unblock ..) | .kernel (.execve ..)
  | .kernel (.sysExit ..) | .kernel (.exitResume ..) | .kernel (.terminate ..)
  | .kernel (.reap ..) | .userGs .. => .isTrue trivial

/-- What bring-up leaves of the MSRs of cpu `c`. -/
def BroughtUp (percpu c : Nat) (g : GsRegs) : Prop :=
  g = .percpuInitCpu percpu c ∨ g = (GsRegs.percpuInitCpu percpu c).gdtFlush

/-- **Every cpu finds its percpu slot**: in user mode through KERNEL_GS_BASE, in a syscall through
    GS_BASE, and `percpu_current()` always. -/
structure FindsSlot (percpu : Nat) (m : GsMachine) (c : Nat) : Prop where
  user : ∀ p, (m.st.cpus c).mode = .user p → (m.gs c).kernelGsBase = slotAddr percpu c
  syscall : ∀ p st, (m.st.cpus c).mode = .syscall p st → (m.gs c).gsBase = slotAddr percpu c
  current : (m.gs c).percpuCurrent percpu = slotAddr percpu c

/-! ## 3. Frames of processes that wait -/

@[simp] theorem Mode.isUser_onStack (m : Mode) (k : Option KAddr) :
    (m.onStack k).isUser = m.isUser := by
  cases k <;> cases m <;> rfl

/-- **A process that waits has a user frame exactly if it is not blocked**, and a process that runs
    in user mode is not blocked. -/
structure FramesFit (s : State) : Prop where
  waits : ∀ c p, p ∈ (s.rq c).list →
    ((s.cpus c).current ≠ some p ∨ (s.cpus c).mode.leaving = some p) →
      (s.procs p).ctx.code.isUser = !(s.procs p).blocked
  runs : ∀ c p, (s.cpus c).current = some p → (s.cpus c).mode.isUser = true →
    (s.procs p).blocked = false

theorem framesFit_init (n : Nat) : FramesFit (State.init n) := by
  constructor <;> simp [State.init, State.bootCpu, Mode.isUser]

/-- An event that leaves the queues, the cpus, the frames and the blocking of processes alone. -/
theorem framesFit_congr (h : FramesFit s) (hq : ∀ c, (s'.rq c).list = (s.rq c).list)
    (hc : ∀ c, (s'.cpus c).current = (s.cpus c).current ∧ (s'.cpus c).mode = (s.cpus c).mode)
    (hp : ∀ p, (s'.procs p).ctx.code = (s.procs p).ctx.code ∧
      (s'.procs p).blocked = (s.procs p).blocked) : FramesFit s' := by
  constructor <;> grind [FramesFit]

theorem framesFit_setProc (h : FramesFit s) {f : Process → Process}
    (hf : (f (s.procs p)).ctx.code = (s.procs p).ctx.code ∧
      (f (s.procs p)).blocked = (s.procs p).blocked) : FramesFit (s.setProc p f) := by
  refine framesFit_congr h (fun _ => rfl) (fun _ => ⟨rfl, rfl⟩) fun q => ?_
  by_cases hq : q = p
  · subst hq; simpa using hf
  · simp [hq]

theorem framesFit_kill (hi : Inv s) (h : FramesFit s)
    (hc : (s.cpus c).current = some p) : FramesFit (s.killCurLocked p c) := by
  obtain ⟨hmem, -, hcur, hcpu, hp, -, -⟩ := hi.culled hc
  constructor <;> grind [FramesFit]

@[simp] theorem State.resumeMode_isUser (s : State) (next : ProcPtr) :
    (s.resumeMode next).isUser = (s.procs next).ctx.code.isUser := by
  unfold resumeMode
  split_ifs <;> simp

/-- A switch: the process put back has a frame of its kind (`hput`). -/
theorem framesFit_switchTo (hi : Inv s) (h : FramesFit s)
    (hn : s.pickNext c (s.cpus c).current = some next) (hput : ∀ p, (s.cpus c).current = some p →
      (s.procs p).ctx.code.isUser = !(s.procs p).blocked) :
        FramesFit (s.switchTo c (s.cpus c).current next) := by
  obtain ⟨hq, -, hne⟩ := s.pickNext_some _ _ hn
  have hp : ∀ q, ((s.switchTo c (s.cpus c).current next).procs q).ctx = (s.procs q).ctx ∧
      ((s.switchTo c (s.cpus c).current next).procs q).blocked = (s.procs q).blocked := by
    intro q
    rw [switchTo_proc]
    split_ifs <;> exact ⟨rfl, rfl⟩
  have hmode : ((s.switchTo c (s.cpus c).current next).cpus c).mode.isUser =
      (s.procs next).ctx.code.isUser := by
    rw [switchTo_cpu, if_pos rfl]
    exact s.resumeMode_isUser next
  obtain ⟨drq, -, dcur, dmode, -, -, -, -⟩ := dispatched_switchTo hi hn
  constructor <;> grind [FramesFit]

theorem framesFit_tick (hi : Inv s) (h : FramesFit s) {fr : Frame}
    {slot : KAddr} (hfr : fr.code = (s.cpus c).mode)
    (hcs : fr.regs.cs = userCs ↔ (s.cpus c).mode.isUser = true)
    (hok : (s.cpus c).mode.leaving = none)
    (hr : TickResult s (s.tickBase c fr slot) c fr s' o) : FramesFit s' := by
  obtain ⟨hib, hcpus, hq, -, hx, hx'⟩ : Saved s c (s.tickBase c fr slot) := saved_tickBase hi hfr
  have hblk : ∀ q, ((s.tickBase c fr slot).procs q).blocked = (s.procs q).blocked := by
    intro q
    rw [tickBase_proc]
    split_ifs <;> rfl
  generalize s.tickBase c fr slot = b at *
  have hb : FramesFit b := by
    refine ⟨fun d p hp hpark => ?_, fun d p hp hu => ?_⟩
    · rw [hq] at hp
      rw [hcpus] at hpark
      by_cases hcur : (s.cpus c).current = some p
      · -- on its own cpu it is current and the cpu is not about to resume it
        obtain rfl := hi.queue_unique hp (hi.curQueued c p hcur)
        rw [hok] at hpark
        exact absurd hcur (hpark.resolve_right nofun)
      · rw [hx' p hcur]
        exact h.waits d p hp hpark
    · rw [hcpus] at hp hu
      rw [hblk]
      exact h.runs d p hp hu
  refine (hr.rule hib (hcpus c) (fun _ => by rw [hcpus, hok]) hb (fun p hp _ _ =>
    framesFit_kill hib hb hp)
    fun x next hix hj hfrom hn => framesFit_switchTo hix hj hn fun p hp => ?_).2
  obtain ⟨rfl, hfrom⟩ := hfrom p hp
  rw [hcpus] at hp
  rw [hx p hp]
  cases hu : (s.cpus c).mode.isUser with
  | true => rw [hblk, h.runs c p hp hu]; rfl
  | false =>
    have hncs : fr.regs.cs ≠ userCs := fun e => by
      rw [hcs.mp e] at hu
      cases hu
    rw [hfrom.resolve_left hncs]
    rfl

theorem framesFit_born (h : FramesFit s) {child : ProcPtr} {cpu : Nat}
    (hb : Born s s' child cpu) : FramesFit s' := by
  obtain ⟨hu, -, hq, hc, -, ho, -, -, hx, -, -, hblk, -⟩ := hb
  have hother : ∀ q, q ≠ child → (s'.procs q).ctx = (s.procs q).ctx ∧
      (s'.procs q).blocked = (s.procs q).blocked := by
    intro q hne
    obtain ⟨ch, e⟩ := ho q hne
    rw [e]
    exact ⟨rfl, rfl⟩
  have hxc : (s'.procs child).ctx.code.isUser = true := by rw [hx]; rfl
  constructor <;> grind [FramesFit]

/-- A process in a syscall starts or stops to wait. -/
theorem framesFit_setBlocked (hi : Inv s) (h : FramesFit s) (hm : (s.cpus c).mode = .syscall p st)
    (b : Bool) : FramesFit (s.setBlocked c b) := by
  unfold State.setBlocked
  cases hcur : (s.cpus c).current with
  | none => exact h
  | some cur =>
    have huser : (s.cpus c).mode.isUser = false ∧ (s.cpus c).mode.leaving = none := by
      rw [hm]
      exact ⟨rfl, rfl⟩
    have hone : ∀ d, cur ∈ (s.rq d).list → d = c :=
      fun d hd => hi.queue_unique hd (hi.curQueued c cur hcur)
    have hone' : ∀ d, (s.cpus d).current = some cur → d = c := fun d hd => hi.cur_unique hd hcur
    have hp : ∀ q, q ≠ cur →
        (s.setProc cur fun p => { p with blocked := b }).procs q = s.procs q := fun q hq => by
      simp [hq]
    have hq : ∀ d, ((s.setProc cur fun p => { p with blocked := b }).rq d) = s.rq d := fun _ => rfl
    have hc : ∀ d, ((s.setProc cur fun p => { p with blocked := b }).cpus d) = s.cpus d :=
      fun _ => rfl
    constructor <;> grind [FramesFit]

/-- A cpu of a process in a syscall changes its mode, without leaving for another process. -/
theorem framesFit_setMode (h : FramesFit s) (m : Mode) (hl : m.leaving = none)
    (hrun : m.isUser = true → ∀ p, (s.cpus c).current = some p → (s.procs p).blocked = false)
    (hq : ∀ d, s'.rq d = s.rq d) (hp : ∀ q, s'.procs q = s.procs q)
    (hc : ∀ d, (s'.cpus d).current = (s.cpus d).current ∧
      (s'.cpus d).mode = if d = c then m else (s.cpus d).mode) : FramesFit s' := by
  constructor <;> grind [FramesFit]

theorem framesFit_exit {b : State} (h : FramesFit b)
    (hcur : (b.cpus c).current = none) (hr : ExitResult b c st s') : FramesFit s' := by
  cases hr with
  | idle hn =>
    refine framesFit_setMode h (c := c) (.idle st) rfl nofun (fun _ => rfl) (fun _ => rfl)
      fun d => ?_
    rw [setMode_cpu]
    split_ifs with hd
    · rw [hd]; exact ⟨rfl, rfl⟩
    · exact ⟨rfl, rfl⟩
  | next next hn =>
    have hp : ∀ q, (((b.dispatch c next).setMode c (.exiting next st)).procs q).blocked =
        (b.procs q).blocked := by
      intro q
      by_cases hq : q = next
      · subst hq; simp [State.dispatch]
      · simp [State.dispatch, hq]
    have hm : (((b.dispatch c next).setMode c (.exiting next st)).cpus c).mode.isUser = false := by
      rw [setMode_cpu, if_pos rfl]
      rfl
    obtain ⟨drq, -, dcur, dmode, -, -, dctx, -⟩ := dispatched_exit hcur next st
    constructor <;> grind [FramesFit]

theorem framesFit_exitBase (hi : Inv s) (h : FramesFit s) (c : Nat) (status : Int32) :
    FramesFit (s.exitBase c status) := by
  unfold State.exitBase
  cases hcur : (s.cpus c).current with
  | none => exact h
  | some cur =>
    exact framesFit_kill (inv_congr hi (sameView_exitStatus s cur status))
      (framesFit_setProc h ⟨rfl, rfl⟩) hcur

theorem framesFit_exitResume (hi : Inv s) (h : FramesFit s)
    (hm : (s.cpus c).mode = .exiting next st) : FramesFit (s.exitResume c next) := by
  have hlv : (s.cpus c).mode.leaving = some next := by rw [hm]; rfl
  have hcur := hi.leavingCur c next hlv
  have hq := hi.curQueued c next hcur
  obtain ⟨hx, hrq, -, -⟩ := s.exitResume_rest next c
  have hc : ∀ d, ((s.exitResume c next).cpus d).current = (s.cpus d).current ∧
      ((s.exitResume c next).cpus d).mode = if d = c then s.resumeMode next
        else (s.cpus d).mode := by
    intro d
    rw [s.exitResume_cpu]
    split_ifs with hd
    · rw [hd]; exact ⟨rfl, rfl⟩
    · exact ⟨rfl, rfl⟩
  have hres := s.resumeMode_isUser next
  constructor <;> grind [FramesFit]

theorem framesFit_step (hi : Inv s) (h : FramesFit s)
    (hok : ∀ c regs off, e = .tick c regs off → (s.cpus c).mode.leaving = none)
    (hs : s.step e = some s') : FramesFit s' := by
  cases step_cases hs with
  | born _ child cpu _ hu hw => exact framesFit_born h (hw.born hi hu)
  | tick c regs off _ hcs hr => exact framesFit_tick hi h rfl hcs (hok c regs off rfl) hr
  | syscallEntry c rsp p hm =>
    refine framesFit_setMode h (c := c) (.syscall p (s.cpus c).kernelRsp.stack) rfl nofun
      (fun _ => rfl)
      (fun _ => rfl) fun d => ?_
    by_cases hd : d = c
    · subst hd; simp
    · simp [hd]
  | sysret c p st hm hb =>
    refine framesFit_setMode h (c := c) (.user p) rfl (fun _ q hq => hb q hq) (fun _ => rfl)
      (fun _ => rfl) fun d => ?_
    rw [setEntered_cpus, setMode_cpu]
    split_ifs with hd
    · rw [hd]; exact ⟨rfl, rfl⟩
    · exact ⟨rfl, rfl⟩
  | blocking _ c b p st _ hm => exact framesFit_setBlocked hi h hm b
  | execve c entry rsp cur p st hm hcur =>
    refine framesFit_congr h (fun _ => rfl) (fun d => ?_) fun q => ?_
    · by_cases hd : d = c
      · subst hd; simp [State.sysExecve]
      · simp [State.sysExecve, hd]
    · by_cases hq : q = cur
      · subst hq; simp [State.sysExecve]
      · simp [State.sysExecve, hq]
  | sysExit c status p st s₁ hm hr =>
    have h₁ := framesFit_exit (framesFit_exitBase hi h c status) (exitBase_current ..) hr
    exact framesFit_congr h₁ (fun _ => rfl) (fun _ => ⟨rfl, rfl⟩) fun _ => ⟨rfl, rfl⟩
  | exitResume c next st hm => exact framesFit_exitResume hi h hm
  | terminate pid => exact terminate_rule h fun _ => framesFit_setProc h ⟨rfl, rfl⟩
  | reap c pid cur p z st hm hcur hz =>
    have hr := framesFit_setProc (p := cur)
      (f := fun p => { p with children := p.children.erase z }) h ⟨rfl, rfl⟩
    exact framesFit_congr hr (fun _ => rfl) (fun _ => ⟨rfl, rfl⟩) fun _ => ⟨rfl, rfl⟩

/-! ## 4. How a tick ends -/

/-- **How a tick ends**: in the frame it came from, or in the frame of a process that waited. -/
inductive TickEnds (s : State) (c : Nat) (s' : State) : State.Outcome → Prop where
  | same (hm : ∀ d, (s'.cpus d).mode = (s.cpus d).mode) : TickEnds s c s' .same
  | resumed (next : ProcPtr) (hq : next ∈ (s.rq c).list) (hwaits : (s.cpus c).current ≠ some next)
      (hm : ∀ d, (s'.cpus d).mode = if d = c then s.resumeMode next else (s.cpus d).mode) :
      TickEnds s c s' (s.resumeOf next)

theorem ends_switchTo {b : State} {cur : Option ProcPtr}
    (hm : ∀ d, (b.cpus d).mode = (s.cpus d).mode)
    (hq : next ∈ (s.rq c).list) (hwaits : (s.cpus c).current ≠ some next)
    (hproc : b.procs next = s.procs next) :
    TickEnds s c (b.switchTo c cur next) (b.resumeOf next) := by
  have ho : b.resumeOf next = s.resumeOf next := by rw [State.resumeOf, State.resumeOf, hproc]
  rw [ho]
  refine .resumed next hq hwaits fun d => ?_
  rw [switchTo_cpu]
  split_ifs
  · rw [State.resumeMode, State.resumeMode, hproc]
  · exact hm d

theorem TickResult.ends {b : State} {fr : Frame} (hi : Inv s) (hb : Saved s c b)
    (hr : TickResult s b c fr s' o) :
    TickEnds s c s' o := by
  have hmode : ∀ d, (b.cpus d).mode = (s.cpus d).mode := fun d => by rw [hb.cpus]
  have hkilled : ∀ p d, ((b.killCurLocked p c).cpus d).mode = (s.cpus d).mode := by
    intro p d
    rw [killCurLocked_cpu, ← hmode]
    split_ifs with hd
    · rw [hd]
    · rfl
  cases hr with
  | stay => exact .same hmode
  | kill p _ _ _ _ => exact .same (hkilled p)
  | killSwitch p next hcur _ _ hn =>
    have hq := (pickNext_some _ _ _ hn).1
    rw [killCurLocked_queue, if_pos rfl, hb.queue, (hi.nodup c).mem_erase_iff] at hq
    have hne : (s.cpus c).current ≠ some next := fun e => by
      rw [hcur] at e
      exact hq.1 (Option.some.inj e).symm
    exact ends_switchTo (hkilled p) hq.2 hne
      ((killCurLocked_proc_ne _ _ _ _ hq.1).trans (hb.other next hne))
  | switch next _ hn =>
    obtain ⟨hq, -, hne⟩ := b.pickNext_some next c hn
    exact ends_switchTo hmode (hb.queue c ▸ hq) hne.symm (hb.other next hne.symm)

/-! ## 5. The two forms of the MSRs -/

section Forms

variable {percpu c : Nat} {g : GsRegs}

/-- As user code has them: KERNEL_GS_BASE is the slot, GS_BASE is the slot or the user's. -/
def UserForm (percpu c : Nat) (g : GsRegs) : Prop :=
  g.kernelGsBase = slotAddr percpu c ∧ (g.gsBase = slotAddr percpu c ∨ ¬ InPercpu percpu g.gsBase)

/-- As a syscall has them: the other way round. -/
def KernelForm (percpu c : Nat) (g : GsRegs) : Prop := UserForm percpu c g.swapgs

/-- The form that a mode needs; the idle loop can do with both. -/
def FormOf (percpu c : Nat) (g : GsRegs) : Mode → Prop
  | .user _ => UserForm percpu c g
  | .idle _ => UserForm percpu c g ∨ KernelForm percpu c g
  | .syscall _ _ => KernelForm percpu c g
  | .exiting _ _ => KernelForm percpu c g

theorem FormOf.either {m : Mode} (h : FormOf percpu c g m) : UserForm percpu c g ∨
    KernelForm percpu c g := by
  cases m with
  | user p => exact .inl h
  | idle st => exact h
  | syscall p st => exact .inr h
  | exiting p st => exact .inr h

theorem slot_inPercpu (hc : c < percpuMaxCpus) : InPercpu percpu (slotAddr percpu c) := by
  unfold InPercpu slotAddr percpuSize
  rw [percpuMaxCpus] at hc ⊢
  omega

theorem UserForm.swap (h : UserForm percpu c g) : KernelForm percpu c g.swapgs := h

section

variable (hc : c < percpuMaxCpus)
include hc

theorem gsToUser_form
    (h : UserForm percpu c g ∨ KernelForm percpu c g) : UserForm percpu c (g.gsToUser percpu) := by
  unfold GsRegs.gsToUser
  split_ifs with hin
  · cases h with
    | inl h =>
      -- both MSRs hold the slot
      have hg : g.gsBase = slotAddr percpu c := h.2.resolve_right fun hout => hout hin
      exact ⟨hg, .inl h.1⟩
    | inr h => exact h
  · cases h with
    | inl h => exact h
    | inr h =>
      have hg : g.gsBase = slotAddr percpu c := h.1
      exact absurd (hg ▸ slot_inPercpu hc) hin

theorem gsToKernel_form (h : UserForm percpu c g ∨ KernelForm percpu c g) :
    KernelForm percpu c (g.gsToKernel percpu) := by
  unfold GsRegs.gsToKernel
  split_ifs with hin
  · cases h with
    | inl h =>
      have hg : g.gsBase = slotAddr percpu c := h.2.resolve_right fun hout => hout hin
      exact ⟨hg, .inl h.1⟩
    | inr h => exact h
  · cases h with
    | inl h => exact h
    | inr h =>
      have hg : g.gsBase = slotAddr percpu c := h.1
      exact absurd (hg ▸ slot_inPercpu hc) hin

theorem percpuCurrent_form (h : UserForm percpu c g ∨ KernelForm percpu c g) :
    g.percpuCurrent percpu = slotAddr percpu c := by
  unfold GsRegs.percpuCurrent
  cases h with
  | inl h =>
    split_ifs with hin
    · exact h.2.resolve_right fun hout => hout hin
    · exact h.1
  | inr h =>
    have hg : g.gsBase = slotAddr percpu c := h.1
    rw [if_pos (hg ▸ slot_inPercpu hc)]
    exact hg

/-- A waiting process is resumed in the form of its frame. -/
theorem gsResume_form (hframe : (s.procs next).ctx.code.isUser = !(s.procs next).blocked)
    (hown : (s.procs next).ctx.code.proc = some next)
    (h : UserForm percpu c g ∨ KernelForm percpu c g) :
    FormOf percpu c (gsResume percpu (s.resumeOf next) g) (s.resumeMode next) := by
  unfold State.resumeOf State.resumeMode
  cases hb : (s.procs next).blocked with
  | true =>
    rw [hb] at hframe
    simp only [if_true, gsResume]
    have hk := gsToKernel_form hc h
    cases hcode : (s.procs next).ctx.code with
    | user p => rw [hcode] at hframe; cases hframe
    | idle st => rw [hcode] at hown; cases hown
    | syscall p st => cases (s.procs next).savedKernelRsp <;> exact hk
    | exiting p st => cases (s.procs next).savedKernelRsp <;> exact hk
  | false =>
    rw [hb] at hframe
    simp only [Bool.false_eq_true, if_false, gsResume]
    cases hcode : (s.procs next).ctx.code with
    | user p => exact gsToUser_form hc h
    | idle st => rw [hcode] at hframe; cases hframe
    | syscall p st => rw [hcode] at hframe; cases hframe
    | exiting p st => rw [hcode] at hframe; cases hframe

end

end Forms

/-! ## 6. Every run -/

/-- **The invariant**: every cpu has its MSRs in the form of what it executes. -/
structure GsInv (percpu : Nat) (m : GsMachine) : Prop where
  inv : Inv m.st
  framesFit : FramesFit m.st
  form : ∀ c, c < percpuMaxCpus → FormOf percpu c (m.gs c) (m.st.cpus c).mode

theorem gsInv_init {n : Nat} {g : Nat → GsRegs} (hpos : 0 < percpu)
    (hg : ∀ c, c < percpuMaxCpus → BroughtUp percpu c (g c)) : GsInv percpu ⟨State.init n, g⟩ := by
  refine ⟨inv_init n, framesFit_init n, fun c hc => .inl ?_⟩
  rcases hg c hc with e | e
  · simp only [e]
    exact ⟨rfl, .inl rfl⟩
  · simp only [e]
    refine ⟨rfl, .inr fun hin => ?_⟩
    have hlow : percpu + percpuSize * 0 ≤ 0 := hin.1
    omega

/-- One cpu changes its MSRs and what it executes. -/
theorem form_update {g : Nat → GsRegs} {r : GsRegs}
    (h : ∀ d, d < percpuMaxCpus → FormOf percpu d (g d) (s.cpus d).mode)
    (hother : ∀ d, d ≠ c → (s'.cpus d).mode = (s.cpus d).mode)
    (hc : c < percpuMaxCpus → FormOf percpu c r (s'.cpus c).mode) :
    ∀ d, d < percpuMaxCpus → FormOf percpu d (Function.update g c r d) (s'.cpus d).mode := by
  intro d hd
  by_cases hdc : d = c
  · subst hdc
    rw [Function.update_self]
    exact hc hd
  · rw [Function.update_of_ne hdc, hother d hdc]
    exact h d hd

theorem form_step {g : Nat → GsRegs} (hi : Inv s)
    (hp : FramesFit s) (h : ∀ c, c < percpuMaxCpus → FormOf percpu c (g c) (s.cpus c).mode)
    (hs : s.step e = some s') :
    ∀ c, c < percpuMaxCpus → FormOf percpu c (gsAfter percpu s g e c) (s'.cpus c).mode := by
  have hsame : (∀ d, (s'.cpus d).mode = (s.cpus d).mode) →
      ∀ c, c < percpuMaxCpus → FormOf percpu c (g c) (s'.cpus c).mode := fun hm c hc => by
    rw [hm]
    exact h c hc
  cases step_cases hs with
  | born _ child cpu _ hu hw =>
    have hb := hw.born hi hu
    cases hw <;> exact hsame fun d => by rw [hb.cpus]
  | tick c regs off _ _ hr =>
    have hends := hr.ends hi (saved_tickBase hi rfl)
    simp only [gsAfter]
    generalize
      (s.schedulerTimerTick c ⟨regs, (s.cpus c).mode⟩ ⟨(s.cpus c).mode.frameStack c, off⟩).2 = o
      at hends ⊢
    cases hends with
    | same hm =>
      refine form_update h (fun d _ => hm d) fun hc => ?_
      rw [hm]
      exact h c hc
    | resumed next hq hwaits hm =>
      refine form_update h (fun d hd => ?_) fun hc => ?_
      · rw [hm, if_neg hd]
      · rw [hm, if_pos rfl]
        exact gsResume_form hc (hp.waits c next hq (.inl hwaits))
          (hi.ctxOwn c next hq) (h c hc).either
  | syscallEntry c rsp p hm =>
    refine form_update h (fun d hd => ?_) fun hc => ?_
    · simp [hd]
    · have huser := h c hc
      rw [hm] at huser
      simp only [setEntered_cpus, setCpu_cpus, Function.update_self]
      exact UserForm.swap huser
  | sysret c p st hm _ =>
    refine form_update h (fun d hd => ?_) fun hc => ?_
    · rw [setEntered_cpus, setMode_cpu, if_neg hd]
    · have hkernel := h c hc
      rw [hm] at hkernel
      rw [setEntered_cpus, setMode_cpu, if_pos rfl]
      exact hkernel
  | blocking _ c b p st he hm =>
    have hmode : ∀ d, ((s.setBlocked c b).cpus d).mode = (s.cpus d).mode := fun d =>
      setBlocked_rule (J := fun s' => (s'.cpus d).mode = (s.cpus d).mode) rfl fun _ => rfl
    rcases he with rfl | rfl <;> exact hsame hmode
  | execve c entry rsp cur p st hm hcur =>
    refine hsame fun d => ?_
    by_cases hd : d = c
    · subst hd; simp [State.sysExecve]
    · simp [State.sysExecve, hd]
  | sysExit c status p st s₁ hm hr =>
    intro d hd
    by_cases hdc : d = c
    · subst hdc
      have hk := h d hd
      rw [hm] at hk
      rw [setEntered_cpus]
      rcases hr.mode with e | ⟨next, e⟩
      · rw [e]
        exact .inr hk
      · rw [e]
        exact hk
    · rw [setEntered_cpus, hr.cpu_ne hdc, exitBase_cpu_ne _ _ hdc]
      exact h d hd
  | exitResume c next st hm =>
    simp only [gsAfter, hm]
    have hlv : (s.cpus c).mode.leaving = some next := by rw [hm]; rfl
    have hq := hi.curQueued c next (hi.leavingCur c next hlv)
    have ho : (s.loadSpace c next).resumeOf next = s.resumeOf next := rfl
    refine form_update h (fun d hd => ?_) fun hc => ?_
    · rw [exitResume_cpu, if_neg hd]
    · rw [exitResume_cpu, if_pos rfl, ho]
      exact gsResume_form hc (hp.waits c next hq (.inr hlv)) (hi.ctxOwn c next hq) (h c hc).either
  | terminate pid =>
    exact hsame fun d =>
      terminate_rule (J := fun s' => (s'.cpus d).mode = (s.cpus d).mode) rfl fun _ => rfl
  | reap c pid cur p z st hm hcur hz => exact hsame fun d => rfl

/-- **The step lemma.** -/
theorem gsInv_step {m m' : GsMachine} {e : GsEvent} (h : GsInv percpu m)
    (hok : TickInFrame m e) (hs : m.step percpu e = some m') : GsInv percpu m' := by
  cases e with
  | kernel e =>
    obtain ⟨s', hs', rfl⟩ := Option.map_eq_some_iff.mp hs
    refine ⟨inv_step h.inv hs', framesFit_step h.inv h.framesFit (fun c regs off heq => ?_) hs',
      form_step h.inv h.framesFit h.form hs'⟩
    subst heq
    exact hok
  | userGs c value =>
    simp only [GsMachine.step] at hs
    split_ifs at hs with hcond
    cases hs
    refine ⟨h.inv, h.framesFit, form_update h.form (fun _ _ => rfl) fun hc => ?_⟩
    have hform := h.form c hc
    cases hm : (m.st.cpus c).mode with
    | user p =>
      rw [hm] at hform
      exact ⟨hform.1, .inr hcond.2⟩
    | idle st => rw [hm] at hcond; cases hcond.1
    | syscall p st => rw [hm] at hcond; cases hcond.1
    | exiting p st => rw [hm] at hcond; cases hcond.1

/-- **In every run every cpu finds its percpu slot.** -/
theorem gs_convention {percpu n : Nat} {g : Nat → GsRegs} {m : GsMachine} (hpos : 0 < percpu)
    (hg : ∀ c, c < percpuMaxCpus → BroughtUp percpu c (g c))
    (h : Reaches (GsMachine.step percpu) TickInFrame ⟨State.init n, g⟩ m) :
    ∀ c, c < percpuMaxCpus → FindsSlot percpu m c := by
  have hinv : GsInv percpu m :=
    h.inv (gsInv_init hpos hg) fun _ _ _ hi hok hs => gsInv_step hi hok hs
  intro c hc
  have hform := hinv.form c hc
  refine ⟨fun p hm => ?_, fun p st hm => ?_, percpuCurrent_form hc hform.either⟩
  · rw [hm] at hform
    exact hform.1
  · rw [hm] at hform
    exact hform.1

/-- Process 2 sets GS_BASE and blocks in a syscall; process 1 runs and sets GS_BASE too, exits, and
    process 2 goes on in its syscall. -/
def gsRun : List GsEvent :=
  [.kernel (.boot 1 0 0), .kernel (.boot 2 0 0), .kernel (.tick 0 { cs := kernelCs } 0),
    .userGs 0 7, .kernel (.syscallEntry 0 0xAAAA), .kernel (.block 0),
    .kernel (.tick 0 { cs := kernelCs } 0), .userGs 0 9, .kernel (.syscallEntry 0 0xBBBB),
    .kernel (.sysExit 0 0), .kernel (.exitResume 0)]

theorem gs_convention_gsRun : ∃ m, Reaches (GsMachine.step 0x100000) TickInFrame
        ⟨State.init 1, GsRegs.percpuInitCpu 0x100000⟩ m ∧
      (m.gs 0).kernelGsBase = 9 ∧ ∀ c, c < percpuMaxCpus → FindsSlot 0x100000 m c := by
  obtain ⟨m, hr, hf⟩ := Reaches.of_exec_any (GsMachine.step 0x100000) TickInFrame
    ⟨State.init 1, GsRegs.percpuInitCpu 0x100000⟩ gsRun
    (fun m => (m.gs 0).kernelGsBase = 9) (by decide)
  simp only [decide_eq_true_eq] at hf
  exact ⟨m, hr, hf, gs_convention (by decide) (fun _ _ => .inl rfl) hr⟩

end DyntKernel.Scheduler
