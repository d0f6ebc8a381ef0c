/-
  File:      DyntKernel/Scheduler/Killed.lean
  Subject:   A KILLED PROCESS DOES NOT RUN AGAIN -- when it does and when it does not.

  `scheduler_exit_current` parks the cpu in the idle loop when nothing is ready.
  `scheduler_timer_tick` does not: after `kill_cur_locked` with an empty queue it returns with
  the frame it was called with, and that frame is the user context of the process it has just
  killed.

  * `UserAlive` -- no cpu is in the user code of a zombie or of a destroyed process;
  * `KillHasSuccessor` -- the condition on a tick: if it kills, another process of the cpu is
    ready;
  * `RunsCur` -- the invariant: a cpu executes on behalf of its current process only;
  * `killed_never_resumed`, `killed_resumed` -- the property under the condition, and a run
    without it.
-/
import DyntKernel.Scheduler.Invariant

namespace DyntKernel.Scheduler

open Library State

variable {s s' : State} {c : Nat} {o : State.Outcome}

/-- **No cpu is in the user context of a process that is dead.** -/
def UserAlive (s : State) : Prop :=
  ∀ c p, (s.cpus c).mode = .user p → s.life p = .alive ∧ (s.procs p).state ≠ .zombie

/-- The cpu of a timer tick. -/
def Event.tickCpu : Event → Option Nat
  | .tick c _ _ => some c
  | _ => none

/-- **The condition on an event**: a tick that finds a user-mode process marked by SYS_KILL
    finds a ready process in the same queue. -/
def KillHasSuccessor (s : State) (e : Event) : Prop :=
  ∀ c ∈ e.tickCpu, ∀ p ∈ (s.cpus c).current, (s.procs p).terminate = true →
    (s.cpus c).mode.isUser = true → (s.pickNext c none).isSome = true

instance (s : State) (e : Event) : Decidable (KillHasSuccessor s e) :=
  inferInstanceAs (Decidable (∀ c ∈ e.tickCpu, ∀ p ∈ (s.cpus c).current,
    (s.procs p).terminate = true → (s.cpus c).mode.isUser = true →
    (s.pickNext c none).isSome = true))

/-- **The invariant**: a cpu executes on behalf of its current process only. -/
def RunsCur (s : State) : Prop :=
  ∀ c p, (s.cpus c).mode.proc = some p → (s.cpus c).current = some p

theorem runsCur_init (n : Nat) : RunsCur (State.init n) := by
  simp [RunsCur, State.init, State.bootCpu, Mode.proc]

theorem RunsCur.userAlive (hi : Inv s) (h : RunsCur s) : UserAlive s := by
  intro c p hm
  have hq := hi.curQueued c p (h c p (by rw [hm]; rfl))
  exact ⟨hi.alive c p hq, hi.notZombie c p hq⟩

/-! ## 1. Preservation -/

theorem runsCur_congr (h : RunsCur s) (e : SameView s s') : RunsCur s' := by
  intro c p hp
  rw [e.mode] at hp
  rw [e.current]
  exact h c p hp

theorem runsCur_dispatched {next : ProcPtr}
    (h : ∀ d, d ≠ c → ∀ p, (s.cpus d).mode.proc = some p → (s.cpus d).current = some p)
    (hd : Dispatched s s' c next) : RunsCur s' := by
  intro d p hp
  rw [hd.current]
  split_ifs with hdc
  · subst hdc
    rw [← hp, hd.modeNext]
  · rw [hd.mode d hdc] at hp
    exact h d hdc p hp

/-- The state a kill leaves: every other cpu is untouched. -/
theorem runsCur_kill_other (h : RunsCur s) (q : ProcPtr) {d : Nat} (hd : d ≠ c)
    (p : ProcPtr) (hp : ((s.killCurLocked q c).cpus d).mode.proc = some p) :
    ((s.killCurLocked q c).cpus d).current = some p := by
  rw [killCurLocked_cpu, if_neg hd] at hp ⊢
  exact h d p hp

/-- A process that was ready beside the killed one is still found after the kill. -/
theorem pickNext_kill {b : State} (hi : Inv s) (hv : SameView s b) {p : ProcPtr}
    (hcur : (s.cpus c).current = some p) (hn : (s.pickNext c none).isSome = true) :
    (b.killCurLocked p c).pickNext c none ≠ none := by
  obtain ⟨next, hn⟩ := Option.isSome_iff_exists.mp hn
  obtain ⟨hq, hready, -⟩ := s.pickNext_some _ _ hn
  have hne : next ≠ p := by
    rintro rfl
    rw [hi.curRunning c next hcur] at hready
    cases hready
  intro hnone
  refine absurd (pickNext_none _ _ hnone next ?_ ?_) (Option.some_ne_none next)
  · rw [killCurLocked_queue, if_pos rfl, hv.queue]
    exact (List.mem_erase_of_ne hne).mpr hq
  · rw [killCurLocked_proc_ne _ _ _ _ hne, hv.state c next hq, hready]

theorem runsCur_tick (hi : Inv s) (h : RunsCur s) {fr : Frame} {slot : KAddr}
    (hfr : fr.code = (s.cpus c).mode)
    (hcs : fr.regs.cs = userCs → (s.cpus c).mode.isUser = true)
    (hok : ∀ p ∈ (s.cpus c).current, (s.procs p).terminate = true →
      (s.cpus c).mode.isUser = true → (s.pickNext c none).isSome = true)
    (hr : TickResult s (s.tickBase c fr slot) c fr s' o) : RunsCur s' := by
  have hv : SameView s (s.tickBase c fr slot) := sameView_tickBase hi hfr
  have hib : Inv (s.tickBase c fr slot) := inv_congr hi hv
  have hb : RunsCur (s.tickBase c fr slot) := runsCur_congr h hv
  generalize s.tickBase c fr slot = b at *
  cases hr with
  | stay => exact hb
  | kill p hp ht hu hn => exact absurd hn (pickNext_kill hi hv hp (hok p hp ht (hcs hu)))
  | killSwitch p next hp ht hu hn =>
    have hpb : (b.cpus c).current = some p := by rw [hv.current, hp]
    have hl : (b.cpus c).mode.leaving = none := by
      rw [hv.leaving]
      exact Mode.leaving_of_isUser (hcs hu)
    have hnone : ((b.killCurLocked p c).cpus c).current = none := by
      rw [killCurLocked_cpu, if_pos rfl]
    rw [← hnone] at hn ⊢
    exact runsCur_dispatched (fun d hd => runsCur_kill_other hb p hd)
      (dispatched_switchTo (inv_kill hib hpb hl) hn)
  | switch next _ hn =>
    rw [← hv.current] at hn ⊢
    exact runsCur_dispatched (fun d _ => hb d) (dispatched_switchTo hib hn)

theorem runsCur_exit (h : RunsCur s) {status : Int32} {st : Stack}
    (hr : ExitResult (s.exitBase c status) c st s') : RunsCur s' := by
  have hother : ∀ d, d ≠ c → ∀ p, ((s.exitBase c status).cpus d).mode.proc = some p →
      ((s.exitBase c status).cpus d).current = some p := by
    intro d hd p hp
    rw [exitBase_cpu_ne _ _ hd] at hp ⊢
    exact h d p hp
  cases hr with
  | idle hn =>
    intro d p hp
    rw [setMode_cpu] at hp ⊢
    split_ifs at hp ⊢ with hd
    · cases hp
    · exact hother d hd p hp
  | next next hn => exact runsCur_dispatched hother (dispatched_exit (exitBase_current ..) next st)

theorem runsCur_step {e : Event} (hi : Inv s) (h : RunsCur s)
    (hok : KillHasSuccessor s e) (hs : s.step e = some s') : RunsCur s' := by
  cases step_moved hi hs with
  | view _ _ hv => exact runsCur_congr h hv
  | born _ child cpu _ hb =>
    intro c p hp
    rw [hb.cpus] at hp ⊢
    exact h c p hp
  | tick c regs off _ _ hcs hr => exact runsCur_tick hi h rfl hcs.mp (hok c rfl) hr
  | exit c status p st s₁ _ hm hr hv => exact runsCur_congr (runsCur_exit h hr) hv
  | resume c next st hm =>
    have hcur := hi.leavingCur c next (by rw [hm]; rfl)
    have hown := hi.ctxOwn c next (hi.curQueued c next hcur)
    intro d p hp
    rw [exitResume_cpu] at hp ⊢
    split_ifs at hp ⊢ with hd
    · simp only [resumeMode_proc, hown] at hp
      exact hcur.trans hp
    · exact h d p hp

/-! ## 2. Every run -/

/-- Process 1, alone on the cpu, is marked by SYS_KILL; the next tick finds it in ring 3. -/
def loneKillRun : List Event :=
  [.boot 1 0 0, .tick 0 { cs := kernelCs } 0, .terminate 1, .tick 0 { cs := userCs } 0]

/-- The same with a second process in the queue. -/
def killRun : List Event :=
  [.boot 1 0 0, .boot 2 0 0, .tick 0 { cs := kernelCs } 0, .terminate 2, .tick 0 { cs := userCs } 0]

/-- **Under the condition no cpu ever is in the user context of a dead process**: not at the
    end of the tick that killed it, not after any later event. -/
theorem killed_never_resumed {n : Fin (percpuMaxCpus + 1)} {s : State}
    (h : Reaches State.step KillHasSuccessor (State.init n) s) : UserAlive s := by
  have hboth : Inv s ∧ RunsCur s :=
    h.inv (I := fun s => Inv s ∧ RunsCur s) ⟨inv_init n, runsCur_init n⟩ fun _ _ _ hi hok hs =>
      ⟨inv_step hi.1 hs, runsCur_step hi.1 hi.2 hok hs⟩
  exact hboth.2.userAlive hboth.1

theorem killed_never_resumed_killRun :
    ∃ s, Reaches State.step KillHasSuccessor (State.init 1) s ∧ s.life 2 = .destroyed ∧
      (s.cpus 0).mode = .user 1 ∧ UserAlive s := by
  obtain ⟨s, hr, hf⟩ := Reaches.of_exec_any State.step KillHasSuccessor (State.init 1) killRun
    (fun s => s.life 2 = .destroyed ∧ (s.cpus 0).mode = .user 1) (by decide)
  simp only [decide_eq_true_eq] at hf
  exact ⟨s, hr, hf.1, hf.2, killed_never_resumed (n := 1) hr⟩

theorem killed_resumed : ¬ ∀ (n : Fin (percpuMaxCpus + 1)) s,
    Reaches State.step Any (State.init n) s → UserAlive s := by
  intro h
  obtain ⟨s, hr, hf⟩ := Reaches.of_exec_any State.step Any (State.init 1) loneKillRun
    (fun s => s.life 1 = .destroyed ∧ (s.cpus 0).mode = .user 1) (by decide)
  simp only [decide_eq_true_eq] at hf
  have := (h 1 s hr 0 1 hf.2).1
  rw [hf.1] at this
  cases this

end DyntKernel.Scheduler
