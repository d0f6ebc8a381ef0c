/-
  File:      DyntKernel/Scheduler/UserRsp.lean
  Subject:   THE USER STACK POINTER of a syscall (arch/x86_64/syscall/syscall_entry.S).

  `syscall_entry` keeps the user stack pointer in `gs:16`, one slot for each cpu, and
  `scheduler_timer_tick` may switch away from a process parked inside a syscall. The slot is
  not saved with the process (`process_t.user_rsp` is never read or written), so the next
  process that enters a syscall on the same cpu overwrites it.

  * `ReturnsOwnRsp` -- every return that can happen now loads the stack pointer its process
    entered with;
  * `KeepsSlot` -- the condition on an event: a syscall entry (or the end of an execve) leaves
    every other process that is inside a syscall on this cpu with the value it had;
  * `RspInv`, `rspInv_step` -- the invariant that carries it along a run;
  * `syscall_returns_own_rsp` -- under the condition every run returns the right values;
  * `syscall_returns_foreign_rsp` -- without it, a run of two processes on one cpu does not.
-/
import DyntKernel.Scheduler.Invariant

namespace DyntKernel.Scheduler

open Library Function State

variable {s s' : State} {c : Nat} {p : ProcPtr} {o : State.Outcome}

/-- The process whose syscall a mode executes. -/
def Mode.inSyscall : Mode → Option ProcPtr
  | .syscall p _ => some p
  | _ => none

theorem Mode.proc_of_inSyscall {m : Mode} (h : m.inSyscall = some p) : m.proc = some p := by
  cases m <;> simp_all [inSyscall, proc]

theorem Mode.leaving_of_inSyscall {m : Mode} (h : m.inSyscall = some p) : m.leaving = none := by
  cases m <;> simp_all [inSyscall, leaving]

@[simp] theorem Mode.inSyscall_onStack (m : Mode) (k : Option KAddr) :
    (m.onStack k).inSyscall = m.inSyscall := by
  cases k <;> cases m <;> rfl

@[simp] theorem State.resumeMode_inSyscall (s : State) (next : ProcPtr) :
    (s.resumeMode next).inSyscall = (s.procs next).ctx.code.inSyscall := by
  unfold State.resumeMode
  split_ifs <;> simp

/-- **Every return that can happen now** loads, from `gs:16`, the stack pointer its process
    had when it entered the syscall. -/
def ReturnsOwnRsp (s : State) : Prop :=
  ∀ c p st s', (s.cpus c).mode = .syscall p st → s.step (.sysret c) = some s' →
    s.entered p = some (s.cpus c).userRsp

/-- The cpu whose `gs:16` an event writes, and the value. -/
def Event.slotWrite : Event → Option (Nat × UInt64)
  | .syscallEntry c rsp => some (c, rsp)
  | .execve c _ rsp => some (c, rsp)
  | _ => none

/-- **The condition on an event**: what it writes to `gs:16` of a cpu is, for every other
    process of this cpu that is inside a syscall, the value this process entered with. -/
def KeepsSlot (s : State) (e : Event) : Prop :=
  ∀ w ∈ e.slotWrite, ∀ q ∈ (s.rq w.1).list, (s.cpus w.1).mode.proc ≠ some q →
    (s.entered q).getD w.2 = w.2

instance (s : State) (e : Event) : Decidable (KeepsSlot s e) :=
  inferInstanceAs (Decidable (∀ w ∈ e.slotWrite, ∀ q ∈ (s.rq w.1).list,
    (s.cpus w.1).mode.proc ≠ some q → (s.entered q).getD w.2 = w.2))

/-- **The slot invariant.** `running`: the slot holds the value of the syscall the cpu is in.
    `parked`: a queued process that will be resumed inside a syscall has a recorded entry.
    `slot`: the recorded entries of a cpu's processes agree with its slot. -/
structure RspInv (s : State) : Prop where
  running : ∀ c p, (s.cpus c).mode.inSyscall = some p → s.entered p = some (s.cpus c).userRsp
  slot : ∀ c p r, p ∈ (s.rq c).list → s.entered p = some r → r = (s.cpus c).userRsp
  parked : ∀ c p, p ∈ (s.rq c).list → (s.procs p).ctx.code.inSyscall = some p →
    ((s.cpus c).current ≠ some p ∨ (s.cpus c).mode.leaving = some p) → s.entered p ≠ none

theorem rspInv_init (n : Nat) : RspInv (State.init n) := by
  constructor <;> simp [State.init, State.bootCpu, Mode.inSyscall]

/-- A process resumed inside a syscall finds its own value in the slot. -/
theorem RspInv.resume (h : RspInv s) (hq : p ∈ (s.rq c).list)
    (hx : (s.procs p).ctx.code.inSyscall = some p)
    (hpark : (s.cpus c).current ≠ some p ∨ (s.cpus c).mode.leaving = some p) :
    s.entered p = some (s.cpus c).userRsp := by
  cases he : s.entered p with
  | none => exact absurd he (h.parked c p hq hx hpark)
  | some r => rw [h.slot c p r hq he]

/-! ## 1. Preservation -/

/-- An event that touches only the pcbs, and there no saved context. -/
theorem rspInv_congr (h : RspInv s) (hq : ∀ c, (s'.rq c).list = (s.rq c).list)
    (hc : ∀ c, s'.cpus c = s.cpus c)
    (he : ∀ p, s'.entered p = s.entered p)
    (hx : ∀ p, (s'.procs p).ctx.code = (s.procs p).ctx.code) : RspInv s' := by
  constructor <;> grind [RspInv]

theorem rspInv_setProc (h : RspInv s) {f : Process → Process}
    (hf : (f (s.procs p)).ctx.code = (s.procs p).ctx.code) : RspInv (s.setProc p f) := by
  refine rspInv_congr h (fun _ => rfl) (fun _ => rfl) (fun _ => rfl) fun q => ?_
  by_cases hq : q = p
  · subst hq; simpa using hf
  · simp [hq]

theorem rspInv_kill (hi : Inv s) (h : RspInv s)
    (hc : (s.cpus c).current = some p) : RspInv (s.killCurLocked p c) := by
  obtain ⟨hmem, -, hcur, hcpu, hp, -, he⟩ := hi.culled hc
  constructor <;> grind [RspInv]

/-- A switch: the successor finds its own value in the slot, the process put back has an
    entry if it is parked inside a syscall (`hput`). -/
theorem rspInv_switchTo (hi : Inv s) (h : RspInv s) {next : ProcPtr}
    (hn : s.pickNext c (s.cpus c).current = some next)
    (hput : ∀ p, (s.cpus c).current = some p → (s.procs p).ctx.code.inSyscall = some p →
      s.entered p ≠ none) :
    RspInv (s.switchTo c (s.cpus c).current next) := by
  obtain ⟨hq, -, hne⟩ := s.pickNext_some _ _ hn
  have hd := dispatched_switchTo hi hn
  have hrsp : ∀ d, ((s.switchTo c (s.cpus c).current next).cpus d).userRsp =
      (s.cpus d).userRsp := by
    intro d
    rw [switchTo_cpu]
    split_ifs with hd
    · rw [hd]
    · rfl
  have hsys : ((s.switchTo c (s.cpus c).current next).cpus c).mode.inSyscall =
      (s.procs next).ctx.code.inSyscall := by
    rw [switchTo_cpu, if_pos rfl]
    exact s.resumeMode_inSyscall next
  have hown := hi.ctxOwn c next hq
  have hres : (s.procs next).ctx.code.inSyscall = some next →
      s.entered next = some (s.cpus c).userRsp :=
    fun hx => h.resume hq hx (Or.inl hne.symm)
  have he : ∀ q, (s.switchTo c (s.cpus c).current next).entered q = s.entered q :=
    fun q => by rw [switchTo_entered]
  have hsysNext : ∀ p, (s.procs next).ctx.code.inSyscall = some p → p = next := by
    intro p hp
    exact Option.some.inj ((Mode.proc_of_inSyscall hp).symm.trans hown)
  obtain ⟨drq, dlife, dcur, dmode, dnext, dcpu, dctx, dstate⟩ := hd
  constructor <;> grind [RspInv]

theorem rspInv_tick (hi : Inv s) (h : RspInv s) {fr : Frame} {slot : KAddr}
    (hfr : fr.code = (s.cpus c).mode)
    (hcs : fr.regs.cs = userCs → (s.cpus c).mode.isUser = true)
    (hr : TickResult s (s.tickBase c fr slot) c fr s' o) : RspInv s' := by
  obtain ⟨hib, hcpus, hq, he, hx, hx'⟩ : Saved s c (s.tickBase c fr slot) := saved_tickBase hi hfr
  generalize s.tickBase c fr slot = b at *
  have hput : ∀ p, (s.cpus c).current = some p → (b.procs p).ctx.code.inSyscall = some p →
      b.entered p ≠ none := by
    intro p hp hsys
    rw [hx p hp] at hsys
    rw [he, h.running c p hsys]
    exact Option.some_ne_none _
  have hb : RspInv b := by
    refine ⟨fun d p hp => ?_, fun d p r hp hr => ?_, fun d p hp hsys hpark => ?_⟩
    · rw [hcpus] at hp ⊢
      rw [he, h.running d p hp]
    · rw [hq] at hp
      rw [hcpus, h.slot d p r hp (by rw [← he, hr])]
    by_cases hc : (s.cpus c).current = some p
    · exact hput p hc hsys
    · rw [hx' p hc] at hsys
      rw [hq] at hp
      rw [hcpus] at hpark
      rw [he]
      exact h.parked d p hp hsys hpark
  refine (hr.rule hib (hcpus c) (fun hu => ?_) hb (fun p hp _ _ => rspInv_kill hib hb hp)
    fun x next hix hj hfrom hn => rspInv_switchTo hix hj hn fun p hp => ?_).2
  · rw [hcpus]
    exact Mode.leaving_of_isUser (hcs hu)
  · obtain ⟨rfl, -⟩ := hfrom p hp
    exact hput p (hcpus c ▸ hp)

theorem rspInv_born (hi : Inv s) (h : RspInv s) {child : ProcPtr} {cpu : Nat}
    (hb : Born s s' child cpu) : RspInv s' := by
  obtain ⟨hu, -, hq, hc, he, ho, -, -, hx, -, -, -, -⟩ := hb
  have hmode : ∀ d, (s.cpus d).mode.inSyscall ≠ some child := by
    intro d hd
    exact hi.modeBorn d child (Mode.proc_of_inSyscall hd) hu
  have hoctx : ∀ q, q ≠ child → (s'.procs q).ctx = (s.procs q).ctx := by
    intro q hne
    obtain ⟨ch, e⟩ := ho q hne
    rw [e]
  have hxc : (s'.procs child).ctx.code.inSyscall = none := by rw [hx]; rfl
  constructor <;> grind [RspInv]

/-- A cpu without a current process leaves its syscall. -/
theorem rspInv_leave {b : State} (h : RspInv b) (hcur : (b.cpus c).current = none)
    (hq : ∀ d, (s'.rq d).list = (b.rq d).list) (he : ∀ q, s'.entered q = b.entered q)
    (hx : ∀ q, (s'.procs q).ctx = (b.procs q).ctx) (hother : ∀ d, d ≠ c → s'.cpus d = b.cpus d)
    (hrsp : (s'.cpus c).userRsp = (b.cpus c).userRsp)
    (hm : (s'.cpus c).mode.inSyscall = none) : RspInv s' := by
  constructor <;> grind [RspInv]

theorem rspInv_exit {b : State} (h : RspInv b) {st : Stack}
    (hcur : (b.cpus c).current = none) (hr : ExitResult b c st s') : RspInv s' := by
  cases hr with
  | idle hn =>
    refine rspInv_leave h hcur (fun _ => rfl) (fun _ => rfl) (fun _ => rfl) (fun d hd => ?_) ?_ ?_
    · rw [setMode_cpu, if_neg hd]
    all_goals rw [setMode_cpu, if_pos rfl]
    rfl
  | next next hn =>
    refine rspInv_leave h hcur (fun _ => rfl) (fun _ => rfl)
      (dispatched_exit hcur next st).ctx (fun d hd => ?_) ?_ ?_
    · simp [setMode_cpu, State.dispatch, hd]
    · simp [setMode_cpu, State.dispatch]
    · rw [setMode_cpu, if_pos rfl]; rfl

theorem rspInv_exitBase (hi : Inv s) (h : RspInv s) (c : Nat) (status : Int32) :
    RspInv (s.exitBase c status) := by
  unfold State.exitBase
  cases hcur : (s.cpus c).current with
  | none => exact h
  | some cur =>
    exact rspInv_kill (inv_congr hi (sameView_exitStatus s cur status)) (rspInv_setProc h rfl) hcur

/-- The process of a syscall that ends leaves no entry behind: by then it is in no queue. -/
theorem rspInv_clear (h : RspInv s) (hout : ∀ c, (s.cpus c).mode.inSyscall ≠ some p)
    (hpark : ∀ c, p ∈ (s.rq c).list → (s.cpus c).current = some p ∧
      (s.cpus c).mode.leaving ≠ some p) : RspInv (s.setEntered p none) := by
  have he : ∀ q, (s.setEntered p none).entered q = if q = p then none else s.entered q :=
    fun q => by simp [update_apply]
  have hq : ∀ d, (s.setEntered p none).rq d = s.rq d := fun _ => rfl
  have hc : ∀ d, (s.setEntered p none).cpus d = s.cpus d := fun _ => rfl
  have hx : ∀ q, (s.setEntered p none).procs q = s.procs q := fun _ => rfl
  constructor <;> grind [RspInv]

/-- A cpu goes back to user mode. -/
theorem rspInv_user (h : RspInv s) (hl : (s.cpus c).mode.leaving = none)
    (p : ProcPtr) : RspInv (s.setMode c (.user p)) := by
  have hcpu : ∀ d, (s.setMode c (.user p)).cpus d =
      if d = c then { s.cpus c with mode := .user p } else s.cpus d :=
    fun d => setMode_cpu ..
  have hq : ∀ d, (s.setMode c (.user p)).rq d = s.rq d := fun _ => rfl
  have he : ∀ q, (s.setMode c (.user p)).entered q = s.entered q := fun _ => rfl
  have hx : ∀ q, (s.setMode c (.user p)).procs q = s.procs q := fun _ => rfl
  constructor <;> grind [RspInv, Mode.inSyscall, Mode.leaving]

theorem rspInv_exitResume (hi : Inv s) (h : RspInv s) {next : ProcPtr}
    {st : Stack} (hm : (s.cpus c).mode = .exiting next st) : RspInv (s.exitResume c next) := by
  have hlv : (s.cpus c).mode.leaving = some next := by rw [hm]; rfl
  have hcur := hi.leavingCur c next hlv
  have hq := hi.curQueued c next hcur
  have hres : (s.procs next).ctx.code.inSyscall = some next →
      s.entered next = some (s.cpus c).userRsp := fun hx => h.resume hq hx (Or.inr hlv)
  have hsys : ∀ p, (s.procs next).ctx.code.inSyscall = some p → p = next := by
    intro p hp
    exact Option.some.inj ((Mode.proc_of_inSyscall hp).symm.trans (hi.ctxOwn c next hq))
  obtain ⟨hx, hrq, -, he⟩ := s.exitResume_rest next c
  have hc : ∀ d, (s.exitResume c next).cpus d =
      if d = c then { s.cpus c with
        cr3 := (s.procs next).cr3, fsBase := (s.procs next).fsBase, mode := s.resumeMode next }
      else s.cpus d := fun d => s.exitResume_cpu c d next
  refine ⟨fun d p hp => ?_, fun d p r hp hr => ?_, fun d p hp hsys' hpark => ?_⟩
  · rw [hc] at hp ⊢
    split_ifs at hp ⊢ with hd
    · simp only [resumeMode_inSyscall] at hp
      obtain rfl := hsys p hp
      rw [he, hres hp]
    · rw [he]; exact h.running d p hp
  · rw [hrq] at hp
    rw [he] at hr
    rw [hc]
    split_ifs with hd
    · subst hd; exact h.slot d p r hp hr
    · exact h.slot d p r hp hr
  rw [hrq] at hp
  rw [hx] at hsys'
  rw [he]
  rw [hc] at hpark
  split_ifs at hpark with hd
  · subst hd
    refine h.parked d p hp hsys' ?_
    rcases hpark with hpark | hpark
    · exact Or.inl hpark
    · simp only [resumeMode_leaving] at hpark
      have := Option.some.inj ((Mode.proc_of_leaving hpark).symm.trans (hi.ctxOwn d next hq))
      subst this
      exact Or.inr hlv
  · exact h.parked d p hp hsys' hpark

/-- The slot of cpu `c` and the entry of the process it works for are written together. -/
theorem rspInv_write (hi : Inv s) (h : RspInv s) {rsp : UInt64} (hp : (s.cpus c).mode.proc = some p)
    (hok : ∀ q ∈ (s.rq c).list, (s.cpus c).mode.proc ≠ some q → (s.entered q).getD rsp = rsp)
    (hq : ∀ d, (s'.rq d).list = (s.rq d).list)
    (hx : ∀ q, (s'.procs q).ctx.code = (s.procs q).ctx.code)
    (he : ∀ q, s'.entered q = if q = p then some rsp else s.entered q)
    (hother : ∀ d, d ≠ c → s'.cpus d = s.cpus d) (hrsp : (s'.cpus c).userRsp = rsp)
    (hcur : (s'.cpus c).current = (s.cpus c).current)
    (hsys : (s'.cpus c).mode.inSyscall = some p) : RspInv s' := by
  have huniq : ∀ d, (s.cpus d).mode.inSyscall = some p → d = c :=
    fun d hd => hi.modeUnique d c p (Mode.proc_of_inSyscall hd) hp
  have hhome : ∀ d, p ∈ (s.rq d).list → d = c := fun d hd =>
    hi.queue_unique hd (hi.curQueued c p (hi.modeQueued c d p hp hd))
  have hlv : (s'.cpus c).mode.leaving = none := Mode.leaving_of_inSyscall hsys
  refine ⟨fun d q hd => ?_, fun d q r hd hr => ?_, fun d q hd hs hpark => ?_⟩
  · by_cases hdc : d = c
    · subst hdc
      obtain rfl : p = q := Option.some.inj (hsys.symm.trans hd)
      rw [he, if_pos rfl, hrsp]
    · rw [hother d hdc] at hd ⊢
      rw [he, if_neg (show q ≠ p from fun e => hdc (huniq d (e ▸ hd)))]
      exact h.running d q hd
  · rw [hq] at hd
    rw [he] at hr
    by_cases hdc : d = c
    · subst hdc
      rw [hrsp]
      split_ifs at hr with hqp
      · exact (Option.some.inj hr).symm
      · have := hok q hd (fun e => hqp (Option.some.inj (hp.symm.trans e)).symm)
        rw [hr] at this
        exact this
    · rw [if_neg (show q ≠ p from fun e => hdc (hhome d (e ▸ hd)))] at hr
      rw [hother d hdc]
      exact h.slot d q r hd hr
  rw [hq] at hd
  rw [hx] at hs
  rw [he]
  split_ifs with hqp
  · exact Option.some_ne_none _
  refine h.parked d q hd hs ?_
  by_cases hdc : d = c
  · subst hdc
    rw [hcur, hlv] at hpark
    exact Or.inl (hpark.resolve_right nofun)
  · rwa [hother d hdc] at hpark

theorem rspInv_step {e : Event} (hi : Inv s) (h : RspInv s) (hok : KeepsSlot s e)
    (hs : s.step e = some s') : RspInv s' := by
  cases step_cases hs with
  | born _ child cpu _ hu hw => exact rspInv_born hi h (hw.born hi hu)
  | tick c regs off _ hcs hr => exact rspInv_tick hi h rfl hcs.mp hr
  | syscallEntry c rsp p hm =>
    refine rspInv_write hi h (p := p) (by rw [hm]; rfl) (hok (c, rsp) rfl) (fun _ => rfl)
      (fun _ => rfl) (fun q => ?_) (fun d hd => update_of_ne hd ..) ?_ ?_ ?_
    · simp [update_apply]
    all_goals simp [Mode.inSyscall]
  | sysret c p st hm hb =>
    have hp : (s.cpus c).mode.proc = some p := by rw [hm]; rfl
    have hl : (s.cpus c).mode.leaving = none := by rw [hm]; rfl
    have hmode : ∀ d, ((s.setMode c (.user p)).cpus d).mode =
        if d = c then .user p else (s.cpus d).mode := by
      intro d
      rw [setMode_cpu]
      split_ifs <;> rfl
    refine rspInv_clear (rspInv_user h hl p) (fun d hd => ?_) (fun d hd => ?_)
    · rw [hmode] at hd
      split_ifs at hd with hdc
      · cases hd
      · exact hdc (hi.modeUnique d c p (Mode.proc_of_inSyscall hd) hp)
    · have hcur := hi.modeQueued c d p hp hd
      obtain rfl := hi.queue_unique hd (hi.curQueued c p hcur)
      rw [setMode_cpu, if_pos rfl]
      exact ⟨hcur, nofun⟩
  | blocking _ c b p st _ hm => exact setBlocked_rule h fun _ => rspInv_setProc h rfl
  | execve c entry rsp cur p st hm hcur =>
    have hp : (s.cpus c).mode.proc = some p := by rw [hm]; rfl
    obtain rfl : cur = p := Option.some.inj ((hi.modeCur c cur hcur).symm.trans hp)
    refine rspInv_write hi h hp (hok (c, rsp) rfl) (fun _ => rfl) (fun q => ?_) (fun q => ?_)
      (fun d hd => update_of_ne hd ..) ?_ ?_ ?_
    · by_cases hq : q = cur
      · subst hq; simp [State.sysExecve]
      · simp [State.sysExecve, hq]
    · simp [State.sysExecve, update_apply]
    all_goals simp [State.sysExecve, Mode.inSyscall, hm]
  | sysExit c status p st s₁ hm hr =>
    have hp : (s.cpus c).mode.proc = some p := by rw [hm]; rfl
    have h₁ := rspInv_exit (rspInv_exitBase hi h c status) (exitBase_current ..) hr
    refine rspInv_clear h₁ (fun d hd => ?_) (fun d hd => ?_)
    · by_cases hdc : d = c
      · subst hdc
        rcases hr.mode with e | ⟨next, e⟩ <;> rw [e] at hd <;> cases hd
      · rw [hr.cpu_ne hdc, exitBase_cpu_ne _ _ hdc] at hd
        exact hdc (hi.modeUnique d c p (Mode.proc_of_inSyscall hd) hp)
    · rw [hr.queue] at hd
      obtain ⟨hq, hne⟩ := exitBase_mem hi hd
      exact absurd (hi.modeQueued c d p hp hq) hne
  | exitResume c next st hm => exact rspInv_exitResume hi h hm
  | terminate pid => exact terminate_rule h fun _ => rspInv_setProc h rfl
  | reap c pid cur p z st hm hcur hz =>
    have hr :=
      rspInv_setProc (p := cur) (f := fun p => { p with children := p.children.erase z }) h rfl
    exact rspInv_congr hr (fun _ => rfl) (fun _ => rfl) (fun _ => rfl) (fun _ => rfl)

/-! ## 2. Every run -/

theorem rspInv_reaches {n : Nat} (h : Reaches State.step KeepsSlot (State.init n) s) :
    RspInv s := by
  have hboth : Inv s ∧ RspInv s :=
    h.inv (I := fun s => Inv s ∧ RspInv s) ⟨inv_init n, rspInv_init n⟩ fun _ _ _ hi hok hs =>
      ⟨inv_step hi.1 hs, rspInv_step hi.1 hi.2 hok hs⟩
  exact hboth.2

/-! ## 3. Two runs of one cpu -/

/-- A timer interrupt of cpu 0 that finds ring 0. -/
def kernelTick : Event := .tick 0 { cs := kernelCs } 0

/-- A timer interrupt of cpu 0 that finds ring 3. -/
def userTick : Event := .tick 0 { cs := userCs } 0

/-- Process 2 parks in a blocking syscall while process 1 runs in user mode, and is resumed. -/
def quietRun : List Event :=
  [.boot 1 0 0, .boot 2 0 0, kernelTick, .syscallEntry 0 0xAAAA, .block 0, kernelTick, userTick,
    userTick, userTick, userTick, userTick, .unblock 0]

/-- Process 2 parks in a blocking syscall, process 1 makes a syscall of its own, process 2 is
    resumed and about to return. -/
def parkedRun : List Event :=
  [.boot 1 0 0, .boot 2 0 0, kernelTick, .syscallEntry 0 0xAAAA, .block 0, kernelTick,
    .syscallEntry 0 0xBBBB, .sysret 0, userTick, userTick, userTick, userTick, userTick, .unblock 0]

/-- **Under the condition every syscall returns with its own stack pointer**, in every run of
    any number of processes on as many cpus as the tables have slots for. -/
theorem syscall_returns_own_rsp {n : Fin (percpuMaxCpus + 1)} {s : State}
    (h : Reaches State.step KeepsSlot (State.init n) s) : ReturnsOwnRsp s := by
  intro c p st _ hm _
  exact (rspInv_reaches h).running c p (by rw [hm]; rfl)

theorem syscall_returns_own_rsp_quiet : ∃ s, Reaches State.step KeepsSlot (State.init 1) s ∧
      (s.cpus 0).mode = .syscall 2 (.kernelStack 2) ∧
      (s.step (.sysret 0)).isSome ∧ ReturnsOwnRsp s := by
  obtain ⟨s, hr, hf⟩ := Reaches.of_exec_any State.step KeepsSlot (State.init 1) quietRun
    (fun s => (s.cpus 0).mode = .syscall 2 (.kernelStack 2) ∧ (s.step (.sysret 0)).isSome)
    (by decide)
  simp only [decide_eq_true_eq] at hf
  exact ⟨s, hr, hf.1, hf.2, syscall_returns_own_rsp (n := 1) hr⟩

theorem syscall_returns_foreign_rsp : ¬ ∀ (n : Fin (percpuMaxCpus + 1)) s,
    Reaches State.step Any (State.init n) s → ReturnsOwnRsp s := by
  intro h
  obtain ⟨s, hr, hf⟩ := Reaches.of_exec_any State.step Any (State.init 1) parkedRun
    (fun s => (s.cpus 0).mode = .syscall 2 (.kernelStack 2) ∧ (s.step (.sysret 0)).isSome ∧
      s.entered 2 = some 0xAAAA ∧ (s.cpus 0).userRsp = 0xBBBB) (by decide)
  simp only [decide_eq_true_eq] at hf
  obtain ⟨hm, hs, he, hu⟩ := hf
  obtain ⟨s', hs⟩ := Option.isSome_iff_exists.mp hs
  have := h 1 s hr 0 2 _ s' hm hs
  rw [he, hu] at this
  exact absurd this (by decide)

end DyntKernel.Scheduler
