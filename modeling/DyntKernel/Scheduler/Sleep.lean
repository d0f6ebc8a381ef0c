/-
  File:      DyntKernel/Scheduler/Sleep.lean
  Subject:   SYS_SLEEP AND THE TICK COUNTER (arch/x86_64/syscall/syscall_dispatch.c,
             scheduler/scheduler.c).

  `sys_sleep` waits in a `hlt` loop until `scheduler_ticks` has gone up by `ms / 10`. The counter is
  one for all cpus, and the timer interrupt of every cpu that is online adds one to it.

  * `sleepDeadline`, `sleepTurn` -- what `sys_sleep` computes before the loop, and one turn of it;
  * `Meanwhile`, `Slept` -- the events of a run between two points of a process that does nothing
    itself, and a call of `sys_sleep` from its first line to the end of the loop;
  * `uptimeTicks_step`, `Meanwhile.uptime` -- the counter counts the ticks of all cpus;
  * `sleep_ticks_iff` -- when the cpu of the caller has always ticked as often as it should have.

  A process stays in the queue it was put in, so it leaves the loop on the cpu it called from.
-/
import DyntKernel.Scheduler.Killed
import Mathlib.Algebra.Order.Ring.Nat

namespace DyntKernel.Scheduler

open Library

variable {s s' : State} {c d : Nat} {p : ProcPtr} {ms : UInt64}
  {online : Nat → Prop} {o : State.Outcome}

/-! ## 1. The syscall -/

namespace State

def schedulerTicks (s : State) : UInt64 := s.uptimeTicks

def schedulerTerminateRequested (s : State) (c : Nat) : Bool :=
  (s.cpus c).current.any fun cur => (s.procs cur).terminate

/-- `start + ticks`, in 64 bits. -/
def sleepDeadline (s : State) (ms : UInt64) : UInt64 := s.schedulerTicks + ms / 10

end State

/-- How a turn of the loop ends: behind the loop, in `scheduler_exit_current`, or in `hlt`. -/
inductive SleepTurn where
  | leave
  | exit
  | hlt
  deriving DecidableEq, Repr

def State.sleepTurn (s : State) (c : Nat) (deadline : UInt64) : SleepTurn :=
  if s.schedulerTicks < deadline then
    if s.schedulerTerminateRequested c then .exit else .hlt
  else .leave

/-! ## 2. Runs -/

/-- The cpu whose current process makes the event itself. -/
def Event.callCpu : Event → Option Nat
  | .sysExec c _ _ _ | .sysFork c _ _ | .syscallEntry c _ | .sysret c | .block c | .unblock c
  | .execve c _ _ | .sysExit c _ | .reap c _ => some c
  | .boot _ _ _ | .tick _ _ _ | .exitResume _ | .terminate _ => none

/-- How often the timer of a cpu ticked. -/
def tickCount (c : Nat) (es : List Event) : Nat := es.countP fun e => e.tickCpu = some c

/-- An event that can happen while the process `p` does nothing itself. -/
def Other (online : Nat → Prop) (p : ProcPtr) (s : State) (e : Event) : Prop :=
  (∀ d, e.tickCpu = some d → online d) ∧ ∀ d, e.callCpu = some d → (s.cpus d).current ≠ some p

/-- **What happens, in any order, while the process `p` does nothing itself.** -/
inductive Meanwhile (online : Nat → Prop) (p : ProcPtr) : State → List Event → State → Prop where
  | nil (s : State) : Meanwhile online p s [] s
  | cons (s m s' : State) (e : Event) (es : List Event) (hother : Other online p s e)
      (hstep : s.step e = some m) (hrest : Meanwhile online p m es s') :
      Meanwhile online p s (e :: es) s'

/-- The process executes a syscall on the cpu. -/
def InSyscall (s : State) (c : Nat) (p : ProcPtr) : Prop :=
  (s.cpus c).current = some p ∧ ∃ st, (s.cpus c).mode = .syscall p st

/-- **A call of `sys_sleep` that leaves its loop.** It reads the counter in `s`, with the interrupts
    of its cpu masked, is parked after the events `before`, and leaves the loop in `s'`. -/
structure Slept (online : Nat → Prop) (c : Nat) (p : ProcPtr) (ms : UInt64) (s : State)
    (before after : List Event) (s' : State) : Prop where
  masked : tickCount c before = 0
  run : ∃ m m', Meanwhile online p s before m ∧ m.step (.block c) = some m' ∧
    Meanwhile online p m' after s'
  back : InSyscall s' c p
  left : s'.sleepTurn c (s.sleepDeadline ms) = .leave

/-! ## 3. The counter -/

section Uptime

variable (s : State) (c : Nat) (p : ProcPtr)

@[simp] theorem killCurLocked_uptime : (s.killCurLocked p c).uptimeTicks = s.uptimeTicks := by
  rw [State.killCurLocked]
  split_ifs <;> rfl

@[simp] theorem applyOutcome_uptime (o : State.Outcome) :
    (s.applyOutcome c o).uptimeTicks = s.uptimeTicks := by
  cases o <;> rfl

@[simp] theorem switchTo_uptime (cur : Option ProcPtr) :
    (s.switchTo c cur p).uptimeTicks = s.uptimeTicks := by
  rw [State.switchTo, applyOutcome_uptime]
  cases cur <;> rfl

theorem tickBase_uptime (fr : Frame) (slot : KAddr) :
    (s.tickBase c fr slot).uptimeTicks = s.uptimeTicks + 1 := by
  rcases tickBase_form s c fr slot with e | ⟨cur, e⟩ <;> rw [e] <;> rfl

theorem exitBase_uptime (status : Int32) : (s.exitBase c status).uptimeTicks = s.uptimeTicks := by
  rw [State.exitBase]
  split
  · rw [killCurLocked_uptime]
    rfl
  · rfl

theorem setBlocked_uptime (b : Bool) : (s.setBlocked c b).uptimeTicks = s.uptimeTicks := by
  rw [State.setBlocked]
  split <;> rfl

end Uptime

theorem TickResult.uptime {fr : Frame} {slot : KAddr}
    (h : TickResult s (s.tickBase c fr slot) c fr s' o) :
    s'.uptimeTicks = s.uptimeTicks + 1 := by
  cases h <;> simp only [killCurLocked_uptime, switchTo_uptime, tickBase_uptime]

theorem TickResult.cpu_ne {fr : Frame} {slot : KAddr}
    (h : TickResult s (s.tickBase c fr slot) c fr s' o) (hd : d ≠ c) : s'.cpus d = s.cpus d := by
  cases h <;> simp only [State.killCurLocked_cpu, State.switchTo_cpu, if_neg hd, tickBase_cpus]

theorem step_tick {regs : Registers} {off : UInt64} (h : s.step (.tick c regs off) = some s') :
    s'.uptimeTicks = s.uptimeTicks + 1 ∧ ∀ d, d ≠ c → s'.cpus d = s.cpus d := by
  simp only [State.step] at h
  split_ifs at h
  all_goals
    cases h
    exact ⟨(tick_cases ..).uptime, fun d => (tick_cases ..).cpu_ne⟩

/-- Only ticks write the counter. -/
theorem uptimeTicks_of_no_tick {e : Event} (h : s.step e = some s') (hno : e.tickCpu = none) :
    s'.uptimeTicks = s.uptimeTicks := by
  cases step_cases h with
  | born _ child cpu _ _ hw => cases hw <;> rfl
  | tick c regs off _ _ _ => cases hno
  | syscallEntry c rsp p _ => rfl
  | sysret c p st _ _ => rfl
  | blocking _ c b p st _ _ => exact setBlocked_uptime ..
  | execve c entry rsp cur p st _ _ => rfl
  | sysExit c status p st _ _ hr => cases hr <;> exact exitBase_uptime s c status
  | exitResume c next st _ =>
    rw [State.exitResume, applyOutcome_uptime]
    rfl
  | terminate pid =>
    exact State.terminate_rule (J := fun x => x.uptimeTicks = s.uptimeTicks) rfl fun _ => rfl
  | reap c pid cur p z st _ _ _ => rfl

/-- **A step counts exactly the ticks.** -/
theorem uptimeTicks_step {e : Event} (h : s.step e = some s') :
    s'.uptimeTicks = s.uptimeTicks + if e.tickCpu.isSome then 1 else 0 := by
  cases hcpu : e.tickCpu with
  | none => rw [uptimeTicks_of_no_tick h hcpu]; exact (UInt64.add_zero _).symm
  | some c =>
    cases e with
    | tick c regs off => exact (step_tick h).1
    | _ => cases hcpu

/-- The ticks of all cpus. -/
def allTicks (es : List Event) : Nat := es.countP fun e => e.tickCpu.isSome

/-- **The counter of a run**, in 64 bits. -/
theorem Meanwhile.uptime {es : List Event} (h : Meanwhile online p s es s') :
    s'.uptimeTicks = s.uptimeTicks + UInt64.ofNat (allTicks es) := by
  induction h with
  | nil s => exact (UInt64.add_zero _).symm
  | cons s m s' e es _ hstep _ ih =>
    rw [ih, uptimeTicks_step hstep, allTicks, allTicks, List.countP_cons, UInt64.add_assoc]
    congr 1
    split_ifs with htick
    · rw [UInt64.ofNat_add, UInt64.add_comm]
      rfl
    · rw [UInt64.zero_add]
      rfl

/-- Where no other cpu ticks, all ticks are those of the one. -/
theorem Meanwhile.allTicks_eq {es : List Event} (h : Meanwhile online p s es s')
    (hone : ∀ d, online d → d = c) : allTicks es = tickCount c es := by
  induction h with
  | nil s => rfl
  | cons s m s' e es hother _ _ ih =>
    rw [allTicks] at ih
    rw [allTicks, tickCount, List.countP_cons, List.countP_cons, ih, tickCount]
    congr 1
    cases hcpu : e.tickCpu with
    | none => rfl
    | some d => simp [hone d (hother.1 d hcpu)]

/-! ## 4. How long the process sleeps -/

theorem sleepTurn_leave {deadline : UInt64} :
    s.sleepTurn c deadline = .leave ↔ deadline.toNat ≤ s.uptimeTicks.toNat := by
  rw [State.sleepTurn, State.schedulerTicks, ← UInt64.le_iff_toNat_le, ← UInt64.not_lt]
  split_ifs with hlt hterm <;> simp [hlt]

theorem sleepDeadline_toNat :
    (s.sleepDeadline ms).toNat = (s.uptimeTicks.toNat + (ms / 10).toNat) % 2 ^ 64 := by
  rw [State.sleepDeadline, State.schedulerTicks, UInt64.toNat_add]

/-- On a cpu that ticks alone the process sleeps long enough. -/
theorem Slept.long_enough {before after : List Event} (h : Slept online c p ms s before after s')
    (hone : ∀ d, online d → d = c) (hfits : s.uptimeTicks.toNat + (ms / 10).toNat < 2 ^ 64) :
    (ms / 10).toNat ≤ tickCount c (before ++ after) := by
  obtain ⟨m, m', hbefore, hblock, hafter⟩ := h.run
  have hm := hbefore.uptime
  have hm' := uptimeTicks_of_no_tick hblock rfl
  have hs' := hafter.uptime
  rw [hm', hm, UInt64.add_assoc, ← UInt64.ofNat_add] at hs'
  have hleft := sleepTurn_leave.mp h.left
  rw [sleepDeadline_toNat, Nat.mod_eq_of_lt hfits, hs', UInt64.toNat_add,
    UInt64.toNat_ofNat'] at hleft
  rw [tickCount, List.countP_append]
  change _ ≤ tickCount c before + tickCount c after
  rw [← hbefore.allTicks_eq hone, ← hafter.allTicks_eq hone]
  omega

theorem step_block (h : InSyscall s c p) : s.step (.block c) = some (s.setBlocked c true) := by
  obtain ⟨-, st, hmode⟩ := h
  simp only [State.step, hmode]

theorem InSyscall.setBlocked (h : InSyscall s c p) (b : Bool) :
    InSyscall (s.setBlocked c b) c p := by
  rw [InSyscall, State.setBlocked]
  split <;> exact h

/-- A timer can tick at any time, and leaves the other cpus as they are. -/
theorem exists_ticks (hd : online d) (hne : c ≠ d) (h : InSyscall s c p) (n : Nat) :
    ∃ es s', Meanwhile online p s es s' ∧ InSyscall s' c p ∧ allTicks es = n ∧
      tickCount c es = 0 := by
  induction n generalizing s with
  | zero => exact ⟨[], s, .nil s, h, rfl, rfl⟩
  | succ n ih =>
    let regs : Registers := { cs := if (s.cpus d).mode.isUser then userCs else kernelCs }
    obtain ⟨m, hm⟩ : ∃ m, s.step (.tick d regs 0) = some m := ⟨_, if_pos rfl⟩
    have hc : InSyscall m c p := by
      rw [InSyscall, (step_tick hm).2 c hne]
      exact h
    obtain ⟨es, s', hrun, hs', hall, hcount⟩ := ih hc
    refine ⟨.tick d regs 0 :: es, s', .cons s m s' _ es ⟨?_, nofun⟩ hm hrun, hs', ?_, ?_⟩
    · intro d' hd'
      cases hd'
      exact hd
    · rw [allTicks, List.countP_cons]
      exact congrArg (· + 1) hall
    · rw [tickCount, List.countP_cons, if_neg]
      · exact hcount
      · simpa [Event.tickCpu] using hne.symm

/-- The ticks of another cpu end the sleep. -/
theorem slept_by_other (online : Nat → Prop) (ms : UInt64) (hd : online d)
    (hne : c ≠ d) (h : InSyscall s c p) :
    ∃ after s', Slept online c p ms s [] after s' ∧ tickCount c after = 0 := by
  obtain ⟨es, s', hrun, hs', hall, hcount⟩ :=
    exists_ticks hd hne (h.setBlocked true) (ms / 10).toNat
  refine ⟨es, s', ⟨rfl, ⟨s, _, .nil s, step_block h, hrun⟩, hs', ?_⟩, hcount⟩
  have hup := hrun.uptime
  rw [setBlocked_uptime, hall, UInt64.ofNat_toNat] at hup
  rw [sleepTurn_leave, hup]
  exact Nat.le_refl _

/-- A deadline that wraps is in the past. -/
theorem slept_by_wrap (h : InSyscall s c p)
    (hwrap : 2 ^ 64 ≤ s.uptimeTicks.toNat + (ms / 10).toNat) :
    Slept online c p ms s [] [] (s.setBlocked c true) := by
  refine ⟨rfl, ⟨s, _, .nil s, step_block h, .nil _⟩, h.setBlocked true, ?_⟩
  have hlt := (ms / 10).toNat_lt
  rw [sleepTurn_leave, sleepDeadline_toNat, setBlocked_uptime]
  omega

/-- **Whatever the interleaving, the timer of the caller's cpu has ticked `ms / 10` times when the
    loop is left, exactly if none had to be waited for, or no other cpu ticks and the deadline does
    not wrap.** -/
theorem sleep_ticks_iff (online : Nat → Prop) (ms : UInt64) (h : InSyscall s c p) :
    (∀ before after s', Slept online c p ms s before after s' →
      (ms / 10).toNat ≤ tickCount c (before ++ after)) ↔
    ms / 10 = 0 ∨ (∀ d, online d → d = c) ∧ s.uptimeTicks.toNat + (ms / 10).toNat < 2 ^ 64 := by
  constructor
  · intro hall
    by_cases hzero : ms / 10 = 0
    · exact .inl hzero
    have hpos : (ms / 10).toNat ≠ 0 := fun e => hzero (UInt64.toNat_inj.mp e)
    refine .inr ⟨fun d hd => ?_, ?_⟩
    · by_contra hne
      obtain ⟨after, s', hslept, hcount⟩ := slept_by_other online ms hd (Ne.symm hne) h
      have hle := hall [] after s' hslept
      rw [List.nil_append, hcount] at hle
      omega
    · by_contra hwrap
      have hle := hall [] [] _ (slept_by_wrap h (Nat.le_of_not_lt hwrap))
      exact hpos (Nat.le_zero.mp hle)
  · intro hcond before after s' hslept
    cases hcond with
    | inl hzero => rw [hzero]; exact Nat.zero_le _
    | inr hone => exact hslept.long_enough hone.1 hone.2

/-- Process 1 is started on cpu 0 and enters a syscall. -/
def sleeperRun : List Event :=
  [.boot 1 0 0, .tick 0 { cs := kernelCs } 0, .syscallEntry 0 0]

theorem sleeper_reached (n : Nat) (hn : (exec State.step Any (State.init n) sleeperRun).any
      (fun s => (s.cpus 0).current = some 1 ∧ (s.cpus 0).mode = .syscall 1 (.kernelStack 1) ∧
        s.uptimeTicks = 1) = true) :
    ∃ s, Reaches State.step Any (State.init n) s ∧ InSyscall s 0 1 ∧ s.uptimeTicks = 1 := by
  obtain ⟨s, hr, hf⟩ := Reaches.of_exec_any State.step Any (State.init n) sleeperRun _ hn
  simp only [decide_eq_true_eq] at hf
  exact ⟨s, hr, ⟨hf.1, _, hf.2.1⟩, hf.2.2⟩

theorem sleep_ticks_alone : ∃ s, Reaches State.step Any (State.init 1) s ∧ InSyscall s 0 1 ∧
    ∀ before after s', Slept (· = 0) 0 1 1000 s before after s' →
      100 ≤ tickCount 0 (before ++ after) := by
  obtain ⟨s, hr, hin, hup⟩ := sleeper_reached 1 (by decide)
  refine ⟨s, hr, hin, (sleep_ticks_iff (· = 0) 1000 hin).mpr (.inr ⟨fun d hd => hd, ?_⟩)⟩
  rw [hup]
  decide

/-- With a second cpu a process that asked for ten milliseconds is awake before its own cpu
    ticked. -/
theorem sleep_cut_short : ∃ s, Reaches State.step Any (State.init 2) s ∧ InSyscall s 0 1 ∧
    ∃ after s', Slept (· < 2) 0 1 10 s [] after s' ∧ tickCount 0 after = 0 := by
  obtain ⟨s, hr, hin, -⟩ := sleeper_reached 2 (by decide)
  have hsecond : 1 < 2 := by decide
  obtain ⟨after, s', hslept, hcount⟩ := slept_by_other (· < 2) 10 hsecond (by decide) hin
  exact ⟨s, hr, hin, after, s', hslept, hcount⟩

end DyntKernel.Scheduler
