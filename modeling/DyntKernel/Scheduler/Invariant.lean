/-
  File:      DyntKernel/Scheduler/Invariant.lean
  Subject:   THE QUEUE INVARIANT of the scheduler's machine: `Inv` holds at every state every
             run of the machine reaches (`inv_reaches`), with no condition on the run.

  `Inv` says who may be where: a queued process is alive, sits in the queue of its own cpu and
  nowhere else, and is running exactly if it is that cpu's current process; a cpu with a
  current process executes on its behalf; a saved context belongs to the process it is saved
  in. What it does NOT say is the converse of `modeCur`: a cpu may execute on behalf of a
  process that is no longer its current one. `modeQueued` bounds that case: such a process is
  in no queue any more.

  * `SameView`, `inv_congr` -- what `Inv` reads of a state; an event that leaves it alone
    keeps `Inv`;
  * `Culled`, `Dispatched`, `Born` -- what the functions that do change it come to, each with one
    preservation lemma (`inv_kill`, `inv_dispatched`, `inv_born`);
  * `tick_cases` -- all a tick can do, used by every later invariant of the machine.
-/
import DyntKernel.Scheduler.Machine
import Mathlib.Tactic.Tauto
import Mathlib.Tactic.SplitIfs

namespace DyntKernel.Scheduler

open Library Function State

variable {s s' b : State} {c d : Nat} {p next child z : ProcPtr} {st : Stack}
  {e : Event} {o : State.Outcome}

/-- The process a mode works for. -/
def Mode.proc : Mode → Option ProcPtr
  | .idle _ => none
  | .user p => some p
  | .syscall p _ => some p
  | .exiting next _ => some next

@[simp] theorem Mode.proc_onStack (m : Mode) (k : Option KAddr) : (m.onStack k).proc = m.proc := by
  cases k <;> cases m <;> rfl

/-- The process the tail of `scheduler_exit_current` is about to resume. -/
def Mode.leaving : Mode → Option ProcPtr
  | .exiting next _ => some next
  | _ => none

theorem Mode.proc_of_leaving {m : Mode} (h : m.leaving = some p) : m.proc = some p := by
  cases m <;> simp_all [leaving, proc]

theorem Mode.leaving_of_isUser {m : Mode} (h : m.isUser = true) : m.leaving = none := by
  cases m <;> simp_all [leaving, isUser]

@[simp] theorem Mode.leaving_onStack (m : Mode) (k : Option KAddr) :
    (m.onStack k).leaving = m.leaving := by
  cases k <;> cases m <;> rfl

/-- **The queue invariant.** -/
structure Inv (s : State) : Prop where
  alive : ∀ c p, p ∈ (s.rq c).list → s.life p = .alive
  home : ∀ c p, p ∈ (s.rq c).list → (s.procs p).cpu = c
  notZombie : ∀ c p, p ∈ (s.rq c).list → (s.procs p).state ≠ .zombie
  nodup : ∀ c, (s.rq c).list.Nodup
  curQueued : ∀ c p, (s.cpus c).current = some p → p ∈ (s.rq c).list
  curRunning : ∀ c p, (s.cpus c).current = some p → (s.procs p).state = .running
  onlyCur : ∀ c p, p ∈ (s.rq c).list → (s.procs p).state = .running → (s.cpus c).current = some p
  modeCur : ∀ c p, (s.cpus c).current = some p → (s.cpus c).mode.proc = some p
  modeBorn : ∀ c p, (s.cpus c).mode.proc = some p → s.life p ≠ .unborn
  leavingCur : ∀ c p, (s.cpus c).mode.leaving = some p → (s.cpus c).current = some p
  modeQueued : ∀ c d p, (s.cpus c).mode.proc = some p → p ∈ (s.rq d).list →
    (s.cpus c).current = some p
  modeUnique : ∀ c d p, (s.cpus c).mode.proc = some p → (s.cpus d).mode.proc = some p → c = d
  ctxOwn : ∀ c p, p ∈ (s.rq c).list → (s.procs p).ctx.code.proc = some p

theorem inv_init (n : Nat) : Inv (State.init n) := by
  constructor <;> simp [State.init, State.bootCpu, Mode.proc, Mode.leaving]

/-- A process is in at most one queue. -/
theorem Inv.queue_unique (h : Inv s) (hc : p ∈ (s.rq c).list) (hd : p ∈ (s.rq d).list) : c = d :=
  (h.home c p hc).symm.trans (h.home d p hd)

/-- A process is the current one of at most one cpu. -/
theorem Inv.cur_unique (h : Inv s)
    (hc : (s.cpus c).current = some p) (hd : (s.cpus d).current = some p) : c = d :=
  h.queue_unique (h.curQueued c p hc) (h.curQueued d p hd)

/-! ## 1. Events that leave the view of `Inv` alone -/

/-- What `Inv` reads is the same in `s` and `s'`, for the queued processes. -/
structure SameView (s s' : State) : Prop where
  queue : ∀ c, (s'.rq c).list = (s.rq c).list
  current : ∀ c, (s'.cpus c).current = (s.cpus c).current
  mode : ∀ c, (s'.cpus c).mode.proc = (s.cpus c).mode.proc
  leaving : ∀ c, (s'.cpus c).mode.leaving = (s.cpus c).mode.leaving
  born : ∀ p, s.life p ≠ .unborn → s'.life p ≠ .unborn
  life : ∀ c p, p ∈ (s.rq c).list → s'.life p = s.life p
  cpu : ∀ c p, p ∈ (s.rq c).list → (s'.procs p).cpu = (s.procs p).cpu
  state : ∀ c p, p ∈ (s.rq c).list → (s'.procs p).state = (s.procs p).state
  ctx : ∀ c p, p ∈ (s.rq c).list → (s'.procs p).ctx.code.proc = (s.procs p).ctx.code.proc

theorem inv_congr (h : Inv s) (e : SameView s s') : Inv s' := by
  obtain ⟨eq, ec, em, eg, eb, el, eu, es, ex⟩ := e
  constructor <;> grind [Inv]

/-- A rewrite of one pcb that keeps its cpu, its state and the owner of its context. -/
theorem sameView_setProc {f : Process → Process}
    (hcpu : (f (s.procs p)).cpu = (s.procs p).cpu)
    (hstate : (f (s.procs p)).state = (s.procs p).state)
    (hctx : (f (s.procs p)).ctx.code.proc = (s.procs p).ctx.code.proc) :
    SameView s (s.setProc p f) := by
  constructor <;> (intros; first | rfl | assumption | skip)
  all_goals
    rename_i c q _
    by_cases hq : q = p
    · subst hq; simpa using by assumption
    · simp [hq]

theorem sameView_setEntered (s : State) (p : ProcPtr) (r : Option UInt64) :
    SameView s (s.setEntered p r) := by
  constructor <;> (intros; first | rfl | assumption)

theorem SameView.refl (s : State) : SameView s s := by
  constructor <;> (intros; first | rfl | assumption)

theorem SameView.trans {t u : State} (h : SameView s t) (h' : SameView t u) : SameView s u := by
  obtain ⟨eq, ec, em, eg, eb, el, eu, es, ex⟩ := h
  obtain ⟨eq', ec', em', eg', eb', el', eu', es', ex'⟩ := h'
  constructor <;> grind

/-! ## 2. Spec lemmas of the functions that change the view -/

namespace State

section Spec

variable (s : State) (p q next : ProcPtr) (c d : Nat) (cur : Option ProcPtr) (o : Outcome)

theorem unlink_queue : ((s.unlink c p).rq d).list = if d = c then (s.rq c).list.erase p
    else (s.rq d).list := by
  unfold unlink
  by_cases hd : d = c
  · subst hd
    by_cases hp : p ∈ (s.rq d).list <;> simp [hp, List.erase_of_not_mem]
  · simp [hd]

theorem killCurLocked_zombie {r : ProcPtr} (h : (s.procs p).parent = some r) :
    s.killCurLocked p c = ((s.unlink c p).setCpu c fun k => { k with current := none }).setProc p
      fun p => { p with state := .zombie, terminate := false } := by
  simp [killCurLocked, unlink, h]

theorem killCurLocked_orphan (h : (s.procs p).parent = none) : s.killCurLocked p c =
      ((s.unlink c p).setCpu c fun k => { k with current := none }).processDestroy p := by
  simp [killCurLocked, unlink, h]

theorem killCurLocked_queue : ((s.killCurLocked p c).rq d).list =
    if d = c then (s.rq c).list.erase p else (s.rq d).list := by
  rw [← unlink_queue]
  cases h : (s.procs p).parent with
  | none => rw [killCurLocked_orphan _ _ _ h]; rfl
  | some r => rw [killCurLocked_zombie _ _ _ h]; rfl

theorem killCurLocked_cpu : (s.killCurLocked p c).cpus d =
    if d = c then { s.cpus c with current := none } else s.cpus d := by
  cases h : (s.procs p).parent with
  | none => rw [killCurLocked_orphan _ _ _ h]; simp [processDestroy, unlink, update_apply]
  | some r => rw [killCurLocked_zombie _ _ _ h]; simp [unlink, update_apply]

theorem killCurLocked_life : (s.killCurLocked p c).life q =
    if q = p ∧ (s.procs p).parent = none then .destroyed else s.life q := by
  cases h : (s.procs p).parent with
  | none => rw [killCurLocked_orphan _ _ _ h]; simp [processDestroy, unlink, update_apply]
  | some r => rw [killCurLocked_zombie _ _ _ h]; simp [unlink]

theorem killCurLocked_proc_ne (hq : q ≠ p) : (s.killCurLocked p c).procs q = s.procs q := by
  cases h : (s.procs p).parent with
  | none => rw [killCurLocked_orphan _ _ _ h]; rfl
  | some r => rw [killCurLocked_zombie _ _ _ h]; simp [unlink, hq]

theorem killCurLocked_zombie_state {r : ProcPtr} (h : (s.procs p).parent = some r) :
    ((s.killCurLocked p c).procs p).state = .zombie := by
  rw [killCurLocked_zombie _ _ _ h]; simp

theorem killCurLocked_proc_cpu : ((s.killCurLocked p c).procs q).cpu = (s.procs q).cpu := by
  by_cases hq : q = p
  · subst hq
    cases h : (s.procs q).parent with
    | none => rw [killCurLocked_orphan _ _ _ h]; rfl
    | some r => rw [killCurLocked_zombie _ _ _ h]; simp [unlink]
  · rw [killCurLocked_proc_ne _ _ _ _ hq]

@[simp] theorem killCurLocked_entered : (s.killCurLocked p c).entered = s.entered := by
  cases h : (s.procs p).parent with
  | none => rw [killCurLocked_orphan _ _ _ h]; rfl
  | some r => rw [killCurLocked_zombie _ _ _ h]; rfl

@[simp] theorem putBack_cpus : (s.putBack cur).cpus = s.cpus := by
  cases cur <;> rfl

@[simp] theorem putBack_rq : (s.putBack cur).rq = s.rq := by
  cases cur <;> rfl

@[simp] theorem putBack_life : (s.putBack cur).life = s.life := by
  cases cur <;> rfl

@[simp] theorem putBack_entered : (s.putBack cur).entered = s.entered := by
  cases cur <;> rfl

/-- The pcb as it stands after a switch from `cur` to `next`. -/
theorem putBack_proc : (s.putBack cur).procs q =
    if cur = some q then { s.procs q with ticks := 0, state := .ready } else s.procs q := by
  cases cur with
  | none => simp [putBack]
  | some r =>
    by_cases hq : q = r
    · subst hq; simp [putBack]
    · simp [putBack, hq, Ne.symm hq]

theorem putBack_kept :
    ∃ ticks state, (s.putBack cur).procs q = { s.procs q with ticks := ticks, state := state } := by
  rw [putBack_proc]
  split_ifs <;> exact ⟨_, _, rfl⟩

theorem switchTo_cpu : (s.switchTo c cur next).cpus d = if d = c then { s.cpus c with
        current := some next, kernelRsp := (s.procs next).kernelStackTop,
        cr3 := (s.procs next).cr3, fsBase := (s.procs next).fsBase, mode := s.resumeMode next }
    else s.cpus d := by
  obtain ⟨ticks, state, hp⟩ := s.putBack_kept next cur
  by_cases hd : d = c
  · subst hd
    cases hbl : (s.procs next).blocked <;>
      simp [switchTo, resumeOf, resumeMode, applyOutcome, loadSpace, dispatch, setMode, hp, hbl]
  · cases hbl : (s.procs next).blocked <;>
      simp [switchTo, resumeOf, applyOutcome, loadSpace, dispatch, setMode, hp, hbl, hd]

@[simp] theorem applyOutcome_procs : (s.applyOutcome c o).procs = s.procs := by
  cases o <;> rfl

@[simp] theorem applyOutcome_rq : (s.applyOutcome c o).rq = s.rq := by
  cases o <;> rfl

@[simp] theorem applyOutcome_life : (s.applyOutcome c o).life = s.life := by
  cases o <;> rfl

@[simp] theorem applyOutcome_entered : (s.applyOutcome c o).entered = s.entered := by
  cases o <;> rfl

/-- The end of an exit changes its cpu alone. -/
theorem exitResume_rest : (∀ q, (s.exitResume c next).procs q = s.procs q) ∧
    (∀ d, (s.exitResume c next).rq d = s.rq d) ∧ (∀ q, (s.exitResume c next).life q = s.life q) ∧
    ∀ q, (s.exitResume c next).entered q = s.entered q := by
  simp [exitResume, loadSpace]

theorem switchTo_proc : (s.switchTo c cur next).procs q =
    if q = next then { s.procs q with ticks := 0, state := .running }
    else if cur = some q then { s.procs q with ticks := 0, state := .ready } else s.procs q := by
  have h : (s.switchTo c cur next).procs q = Function.update (s.putBack cur).procs next
      { (s.putBack cur).procs next with ticks := 0, state := .running } q := by
    simp [switchTo, loadSpace, dispatch]
  rw [h]
  by_cases hq : q = next
  · subst hq
    simp only [update_self, if_true]
    rw [putBack_proc]
    split_ifs <;> rfl
  · simp only [update_of_ne hq, if_neg hq]
    exact putBack_proc s q cur

@[simp] theorem switchTo_rq : (s.switchTo c cur next).rq = s.rq := by
  simp [switchTo, loadSpace, dispatch]

@[simp] theorem switchTo_life : (s.switchTo c cur next).life = s.life := by
  simp [switchTo, loadSpace, dispatch]

@[simp] theorem switchTo_entered : (s.switchTo c cur next).entered = s.entered := by
  simp [switchTo, loadSpace, dispatch]

@[simp] theorem resumeMode_proc : (s.resumeMode next).proc = (s.procs next).ctx.code.proc := by
  unfold resumeMode
  split_ifs <;> simp

@[simp] theorem resumeMode_leaving :
    (s.resumeMode next).leaving = (s.procs next).ctx.code.leaving := by
  unfold resumeMode
  split_ifs <;> simp

/-- What `pick_next` returns is a ready process of the queue other than `skip`. -/
theorem pickNext_some {skip : Option ProcPtr} (h : s.pickNext c skip = some next) :
    next ∈ (s.rq c).list ∧ (s.procs next).state = .ready ∧ some next ≠ skip := by
  have h1 := List.mem_of_find?_eq_some h
  have h2 := List.find?_some h
  simp only [decide_eq_true_eq] at h2
  exact ⟨h1, h2.1, h2.2⟩

theorem pickNext_none {skip : Option ProcPtr} (h : s.pickNext c skip = none) :
    ∀ q ∈ (s.rq c).list, (s.procs q).state = .ready → some q = skip := by
  intro q hq hs
  have := List.find?_eq_none.mp h q hq
  simp only [decide_eq_true_eq, not_and, not_not] at this
  exact this hs

end Spec

end State

/-! ## 3. Preservation by kill, switch and enqueue -/

/-- `s'` is `s` with `p`, which was current on a cpu, gone from there and from its queue. -/
structure Culled (s s' : State) (p : ProcPtr) : Prop where
  queue : ∀ d q, q ∈ (s'.rq d).list ↔ q ∈ (s.rq d).list ∧ q ≠ p
  nodup : ∀ d, (s'.rq d).list.Nodup
  current : ∀ d q, (s'.cpus d).current = some q ↔ (s.cpus d).current = some q ∧ q ≠ p
  cpu : ∀ d, (s'.cpus d).mode = (s.cpus d).mode ∧ (s'.cpus d).userRsp = (s.cpus d).userRsp
  other : ∀ q, q ≠ p → s'.procs q = s.procs q
  life : ∀ q, q ≠ p → s'.life q = s.life q
  entered : ∀ q, s'.entered q = s.entered q

/-- **What a kill does** to a process that is in one queue and current on one cpu. -/
theorem culled (hc : (s.cpus c).current = some p) (hnd : ∀ d, (s.rq d).list.Nodup)
    (hqueue : ∀ d, p ∈ (s.rq d).list → d = c) (hcur : ∀ d, (s.cpus d).current = some p → d = c) :
    Culled s (s.killCurLocked p c) p where
  queue d q := by
    rw [killCurLocked_queue]
    split_ifs with hd
    · rw [hd, (hnd c).mem_erase_iff, and_comm]
    · exact (and_iff_left_of_imp fun hq (hqp : q = p) => hd (hqueue d (hqp ▸ hq))).symm
  nodup d := by
    rw [killCurLocked_queue]
    split_ifs with hd
    · exact (hnd c).erase p
    · exact hnd d
  current d q := by
    rw [killCurLocked_cpu]
    split_ifs with hd
    · subst hd
      simp only [hc, Option.some.injEq, ne_eq, false_iff, not_and, not_not]
      exact Eq.symm
    · exact (and_iff_left_of_imp fun hq (hqp : q = p) => hd (hcur d (hqp ▸ hq))).symm
  cpu d := by
    rw [killCurLocked_cpu]
    split_ifs with hd
    · rw [hd]
      exact ⟨rfl, rfl⟩
    · exact ⟨rfl, rfl⟩
  other q hq := s.killCurLocked_proc_ne p q c hq
  life q hq := by rw [killCurLocked_life, if_neg fun e => hq e.1]
  entered q := by rw [killCurLocked_entered]

theorem Inv.culled (h : Inv s) (hc : (s.cpus c).current = some p) :
    Culled s (s.killCurLocked p c) p :=
  Scheduler.culled hc h.nodup (fun _ hd => h.queue_unique hd (h.curQueued c p hc)) fun _ hd =>
  h.cur_unique hd hc

theorem inv_kill (h : Inv s)
    (hc : (s.cpus c).current = some p)
    (hl : (s.cpus c).mode.leaving = none) : Inv (s.killCurLocked p c) := by
  have hm := h.curQueued c p hc
  obtain ⟨hmem, hnd, hcur, hmode, hp, hlife, -⟩ := h.culled hc
  have hborn : (s.killCurLocked p c).life p ≠ .unborn := by
    rw [killCurLocked_life, h.alive c p hm]
    split_ifs <;> simp
  constructor <;> grind [Inv]

/-- `s'` is `s` with the cpu `c` given to `next`, executing on its behalf. -/
structure Dispatched (s s' : State) (c : Nat) (next : ProcPtr) : Prop where
  queue : ∀ d, (s'.rq d).list = (s.rq d).list
  life : ∀ q, s'.life q = s.life q
  current : ∀ d, (s'.cpus d).current = if d = c then some next else (s.cpus d).current
  mode : ∀ d, d ≠ c → (s'.cpus d).mode = (s.cpus d).mode
  modeNext : (s'.cpus c).mode.proc = some next
  cpu : ∀ q, (s'.procs q).cpu = (s.procs q).cpu
  ctx : ∀ q, (s'.procs q).ctx = (s.procs q).ctx
  state : ∀ q, (s'.procs q).state =
    if q = next then .running
    else if (s.cpus c).current = some q then .ready else (s.procs q).state

theorem inv_dispatched (h : Inv s)
    (hn : s.pickNext c (s.cpus c).current = some next) (hd : Dispatched s s' c next) : Inv s' := by
  obtain ⟨hq, hr, hne⟩ := s.pickNext_some _ _ hn
  obtain ⟨drq, dlife, dcur, dmode, dnext, dcpu, dctx, dstate⟩ := hd
  have dlv : ∀ p, (s'.cpus c).mode.leaving = some p → p = next := by
    intro p hp
    have := (Mode.proc_of_leaving hp).symm.trans dnext
    exact Option.some.inj this
  constructor <;> grind [Inv]

theorem dispatched_switchTo (h : Inv s) (hn : s.pickNext c (s.cpus c).current = some next) :
    Dispatched s (s.switchTo c (s.cpus c).current next) c next := by
  obtain ⟨hq, -, -⟩ := s.pickNext_some _ _ hn
  constructor
  · exact fun d => by rw [switchTo_rq]
  · exact fun q => by rw [switchTo_life]
  · intro d
    rw [switchTo_cpu]
    split_ifs <;> rfl
  · intro d hd
    rw [switchTo_cpu, if_neg hd]
  · rw [switchTo_cpu, if_pos rfl]
    exact (s.resumeMode_proc next).trans (h.ctxOwn c next hq)
  all_goals
    intro q
    rw [switchTo_proc]
    split_ifs <;> rfl

/-! ## 4. All a tick can do -/

/-- The state of a tick before it kills or switches: the counters, and what it saves of a
    running current process. -/
def State.tickBase (s : State) (c : Nat) (fr : Frame) (slot : KAddr) : State :=
  let s := { s with uptimeTicks := s.uptimeTicks + 1 }
  match (s.cpus c).current with
  | some cur =>
    if (s.procs cur).state = .running then (s.accountBusy c).saveCur cur fr slot
    else s.accountIdle c
  | none => s.accountIdle c

/-- A tick, from the state it has accounted and saved on. -/
theorem tick_eq (s : State) (c : Nat) (fr : Frame) (slot : KAddr) : s.schedulerTimerTick c fr slot =
    match (s.cpus c).current with
    | none => (s.tickBase c fr slot).tickSwitch c none fr
    | some cur =>
      if (s.procs cur).state = .running then
        if (s.procs cur).terminate then
          if fr.regs.cs = userCs then
            ((s.tickBase c fr slot).killCurLocked cur c).tickSwitch c none fr
          else (s.tickBase c fr slot, .same)
        else if (s.procs cur).ticks + 1 < schedQuantum ∧ !(s.procs cur).blocked then
          (s.tickBase c fr slot, .same)
        else (s.tickBase c fr slot).tickSwitch c (some cur) fr
      else (s.tickBase c fr slot).tickSwitch c (some cur) fr := by
  unfold State.schedulerTimerTick State.tickBase
  cases hcur : (s.cpus c).current with
  | none => simp only [hcur]
  | some cur =>
    simp only [hcur]
    split_ifs with hr <;> simp_all [State.saveCur, State.accountBusy]

/-- **All a tick can do** to the state `b` it has accounted and saved: nothing more; kill the
    current process, with no successor or with one; switch away from the current process. -/
inductive TickResult (s b : State) (c : Nat) (fr : Frame) : State → State.Outcome → Prop where
  | stay : TickResult s b c fr b .same
  | kill (p : ProcPtr) (hcur : (s.cpus c).current = some p) (ht : (s.procs p).terminate = true)
      (hcs : fr.regs.cs = userCs) (hn : (b.killCurLocked p c).pickNext c none = none) :
      TickResult s b c fr (b.killCurLocked p c) .same
  | killSwitch (p next : ProcPtr) (hcur : (s.cpus c).current = some p)
      (ht : (s.procs p).terminate = true) (hcs : fr.regs.cs = userCs)
      (hn : (b.killCurLocked p c).pickNext c none = some next) :
      TickResult s b c fr ((b.killCurLocked p c).switchTo c none next)
      ((b.killCurLocked p c).resumeOf next)
  | switch (next : ProcPtr)
      (hok : fr.regs.cs = userCs ∨ ∀ p, (s.cpus c).current = some p → (b.procs p).blocked = true)
      (hn : b.pickNext c (s.cpus c).current = some next) :
      TickResult s b c fr (b.switchTo c (s.cpus c).current next) (b.resumeOf next)

/-- The switch of a tick, before the frame is loaded. -/
def State.switched (b : State) (c : Nat) (cur : Option ProcPtr) (next : ProcPtr) : State :=
  ((b.putBack cur).dispatch c next).loadSpace c next

theorem resumeOf_switched (b : State) (c : Nat) (cur : Option ProcPtr) (next : ProcPtr) :
    (b.switched c cur next).resumeOf next = b.resumeOf next := by
  have h : (b.switchTo c cur next).procs = (b.switched c cur next).procs := applyOutcome_procs ..
  rw [State.resumeOf, State.resumeOf, ← h, switchTo_proc, if_pos rfl]

theorem tickSwitch_cases (b : State) (c : Nat) (cur : Option ProcPtr) (fr : Frame) :
    b.tickSwitch c cur fr = (b, .same) ∧
        ((fr.regs.cs = userCs ∨ ∀ p, cur = some p → (b.procs p).blocked = true) →
          b.pickNext c cur = none) ∨
      ∃ next, (fr.regs.cs = userCs ∨ ∀ p, cur = some p → (b.procs p).blocked = true) ∧
        b.pickNext c cur = some next ∧
        b.tickSwitch c cur fr = (b.switched c cur next, b.resumeOf next) := by
  have hmay : ¬ (fr.regs.cs ≠ userCs ∧ cur.any (fun p => !(b.procs p).blocked)) ↔
      fr.regs.cs = userCs ∨ ∀ p, cur = some p → (b.procs p).blocked = true := by
    cases cur <;> simp [or_iff_not_imp_left]
  unfold State.tickSwitch
  split_ifs with h
  · exact .inl ⟨rfl, fun hok => absurd h (hmay.mpr hok)⟩
  cases hn : b.pickNext c cur with
  | none => exact .inl ⟨rfl, fun _ => rfl⟩
  | some next =>
    simp only [if_neg (b.pickNext_some next c hn).2.2]
    exact .inr ⟨next, hmay.mp h, rfl, congrArg _ (resumeOf_switched b c cur next)⟩

theorem switched_outcome (b : State) (c : Nat) (cur : Option ProcPtr) (next : ProcPtr) :
    (b.switched c cur next).applyOutcome c (b.resumeOf next) = b.switchTo c cur next := by
  rw [← resumeOf_switched b c cur]
  rfl

theorem tick_cases (s : State) (c : Nat) (fr : Frame) (slot : KAddr) :
    TickResult s (s.tickBase c fr slot) c fr
      ((s.schedulerTimerTick c fr slot).1.applyOutcome c (s.schedulerTimerTick c fr slot).2)
      (s.schedulerTimerTick c fr slot).2 := by
  generalize hr : s.schedulerTimerTick c fr slot = r
  rw [tick_eq] at hr
  generalize s.tickBase c fr slot = b at hr ⊢
  have hsw : ∀ cur, (s.cpus c).current = cur → b.tickSwitch c cur fr = r →
      TickResult s b c fr (r.1.applyOutcome c r.2) r.2 := by
    rintro _ rfl rfl
    rcases tickSwitch_cases b c (s.cpus c).current fr with ⟨h, -⟩ | ⟨next, hok, hn, h⟩
    · rw [h]; exact .stay
    · rw [h, switched_outcome]; exact .switch next hok hn
  cases hcur : (s.cpus c).current with
  | none =>
    rw [hcur] at hr
    exact hsw none hcur hr
  | some cur =>
    rw [hcur] at hr
    dsimp only at hr
    split_ifs at hr with hrun ht hcs
    · rcases tickSwitch_cases (b.killCurLocked cur c) c none fr with ⟨h, hn⟩ | ⟨next, -, hn, h⟩
      · rw [← hr, h]; exact .kill cur hcur ht hcs (hn (.inr nofun))
      · rw [← hr, h, switched_outcome]; exact .killSwitch cur next hcur ht hcs hn
    · rw [← hr]; exact .stay
    · rw [← hr]; exact .stay
    · exact hsw _ hcur hr
    · exact hsw _ hcur hr

section Base

variable (s : State) (c d : Nat) (fr : Frame) (slot : KAddr) (q : ProcPtr)

theorem tickBase_form :
    s.tickBase c fr slot = { s with uptimeTicks := s.uptimeTicks + 1 }.accountIdle c ∨
      ∃ cur, s.tickBase c fr slot =
        ({ s with uptimeTicks := s.uptimeTicks + 1 }.accountBusy c).saveCur cur fr slot := by
  unfold State.tickBase
  cases hcur : (s.cpus c).current with
  | none => exact Or.inl (by simp only [hcur])
  | some cur =>
    simp only [hcur]
    split_ifs
    · exact Or.inr ⟨cur, rfl⟩
    · exact Or.inl rfl

@[simp] theorem tickBase_queue : ((s.tickBase c fr slot).rq d).list = (s.rq d).list := by
  rcases tickBase_form s c fr slot with e | ⟨cur, e⟩ <;> rw [e] <;> by_cases hd : d = c <;>
    simp [State.accountIdle, State.accountBusy, State.saveCur, hd]

@[simp] theorem tickBase_cpus : (s.tickBase c fr slot).cpus = s.cpus := by
  rcases tickBase_form s c fr slot with e | ⟨cur, e⟩ <;> rw [e] <;> rfl

@[simp] theorem tickBase_life : (s.tickBase c fr slot).life = s.life := by
  rcases tickBase_form s c fr slot with e | ⟨cur, e⟩ <;> rw [e] <;> rfl

@[simp] theorem tickBase_entered : (s.tickBase c fr slot).entered = s.entered := by
  rcases tickBase_form s c fr slot with e | ⟨cur, e⟩ <;> rw [e] <;> rfl

/-- A tick saves the frame into its current process and touches no other pcb. -/
theorem tickBase_proc : (s.tickBase c fr slot).procs q =
    if (s.cpus c).current = some q ∧ (s.procs q).state = .running then { s.procs q with
        ticks := (s.procs q).ticks + 1, ctx := fr
        savedKernelRsp := if (s.procs q).blocked then some slot else (s.procs q).savedKernelRsp }
    else s.procs q := by
  unfold State.tickBase
  cases hcur : (s.cpus c).current with
  | none => simp only [hcur]; simp [State.accountIdle]
  | some cur =>
    simp only [hcur]
    by_cases hq : q = cur
    · subst hq
      by_cases hr : (s.procs q).state = .running
      · simp [State.accountBusy, State.saveCur, hr]
        rfl
      · simp [State.accountIdle, hr]
    · by_cases hr : (s.procs cur).state = .running <;>
        simp [State.accountIdle, State.accountBusy, State.saveCur, hr, hq, Ne.symm hq]

end Base

theorem sameView_tickBase (h : Inv s) {fr : Frame} {slot : KAddr}
    (hfr : fr.code = (s.cpus c).mode) : SameView s (s.tickBase c fr slot) := by
  constructor
  · exact fun d => tickBase_queue ..
  · exact fun d => by rw [tickBase_cpus]
  · exact fun d => by rw [tickBase_cpus]
  · exact fun d => by rw [tickBase_cpus]
  · exact fun p hp => by rw [tickBase_life]; exact hp
  · exact fun d p _ => by rw [tickBase_life]
  · intro d p _
    rw [tickBase_proc]
    split_ifs <;> rfl
  · intro d p _
    rw [tickBase_proc]
    split_ifs <;> rfl
  intro d p hp
  rw [tickBase_proc]
  by_cases hc : (s.cpus c).current = some p ∧ (s.procs p).state = .running
  · rw [if_pos hc, h.ctxOwn d p hp]
    exact (congrArg Mode.proc hfr).trans (h.modeCur c p hc.1)
  · rw [if_neg hc]

/-- What the head of a tick leaves: the frame is saved into the current process. -/
structure Saved (s : State) (c : Nat) (b : State) : Prop where
  inv : Inv b
  cpus : ∀ d, b.cpus d = s.cpus d
  queue : ∀ d, (b.rq d).list = (s.rq d).list
  entered : ∀ q, b.entered q = s.entered q
  code : ∀ q, (s.cpus c).current = some q → (b.procs q).ctx.code = (s.cpus c).mode
  other : ∀ q, (s.cpus c).current ≠ some q → b.procs q = s.procs q

theorem saved_tickBase (h : Inv s) {fr : Frame} {slot : KAddr} (hfr : fr.code = (s.cpus c).mode) :
    Saved s c (s.tickBase c fr slot) := by
  refine ⟨inv_congr h (sameView_tickBase h hfr),
    fun d => by rw [tickBase_cpus], fun d => tickBase_queue ..,
    fun q => by rw [tickBase_entered], fun q hq => ?_, fun q hq => ?_⟩
  · rw [tickBase_proc, if_pos ⟨hq, h.curRunning c q hq⟩]
    exact hfr
  · rw [tickBase_proc, if_neg fun e => hq e.1]

/-- **The rule of a tick**: what holds when the frame is saved holds after the tick if a kill and a
    switch keep it. Only the interrupted process can be put back by a switch. -/
theorem TickResult.rule {b : State} {fr : Frame} {J : State → Prop}
    (hr : TickResult s b c fr s' o) (hi : Inv b)
    (hcpu : b.cpus c = s.cpus c)
    (hl : fr.regs.cs = userCs → (b.cpus c).mode.leaving = none) (hb : J b)
    (hkill : ∀ p, (b.cpus c).current = some p → (s.procs p).terminate = true → fr.regs.cs = userCs →
      J (b.killCurLocked p c)) (hswitch : ∀ x next, Inv x → J x →
      (∀ p, (x.cpus c).current = some p →
        x = b ∧ (fr.regs.cs = userCs ∨ (b.procs p).blocked = true)) →
      x.pickNext c (x.cpus c).current = some next → J (x.switchTo c (x.cpus c).current next)) :
        Inv s' ∧ J s' := by
  have hkilled : ∀ p, (s.cpus c).current = some p → (s.procs p).terminate = true →
      fr.regs.cs = userCs →
      Inv (b.killCurLocked p c) ∧ J (b.killCurLocked p c) := by
    intro p hp ht hu
    rw [← hcpu] at hp
    exact ⟨inv_kill hi hp (hl hu), hkill p hp ht hu⟩
  cases hr with
  | stay => exact ⟨hi, hb⟩
  | kill p hp ht hu _ => exact hkilled p hp ht hu
  | killSwitch p next hp ht hu hn =>
    obtain ⟨hk, hjk⟩ := hkilled p hp ht hu
    have hnone : ((b.killCurLocked p c).cpus c).current = none := by
      rw [killCurLocked_cpu, if_pos rfl]
    rw [← hnone] at hn ⊢
    refine ⟨inv_dispatched hk hn (dispatched_switchTo hk hn),
      hswitch _ next hk hjk (fun q hq => ?_) hn⟩
    rw [hnone] at hq
    cases hq
  | switch next hfrom hn =>
    rw [← hcpu] at hn hfrom ⊢
    exact ⟨inv_dispatched hi hn (dispatched_switchTo hi hn), hswitch b next hi hb
      (fun p hp => ⟨rfl, hfrom.imp_right fun hall => hall p hp⟩) hn⟩

theorem inv_tick (h : Inv s) {fr : Frame} {slot : KAddr}
    (hfr : fr.code = (s.cpus c).mode) (hcs : fr.regs.cs = userCs → (s.cpus c).mode.isUser = true)
    (hr : TickResult s (s.tickBase c fr slot) c fr s' o) : Inv s' := by
  have hcpu : (s.tickBase c fr slot).cpus c = s.cpus c := by rw [tickBase_cpus]
  refine (hr.rule (J := fun _ => True) (inv_congr h (sameView_tickBase h hfr)) hcpu
    (fun hu => ?_) trivial
    (fun _ _ _ _ => trivial) fun _ _ _ _ _ _ => trivial).1
  rw [hcpu]
  exact Mode.leaving_of_isUser (hcs hu)

/-! ## 5. A new process -/

/-- `s'` is `s` with the process `child` created and put at the front of the queue of `cpu`. -/
structure Born (s s' : State) (child : ProcPtr) (cpu : Nat) : Prop where
  fresh : s.life child = .unborn
  life : ∀ q, s'.life q = if q = child then .alive else s.life q
  queue : ∀ d, (s'.rq d).list = if d = cpu then child :: (s.rq d).list else (s.rq d).list
  cpus : ∀ d, s'.cpus d = s.cpus d
  entered : ∀ q, s'.entered q = if q = child then none else s.entered q
  other : ∀ q, q ≠ child → ∃ ch, s'.procs q = { s.procs q with children := ch }
  home : (s'.procs child).cpu = cpu
  ready : (s'.procs child).state = .ready
  code : (s'.procs child).ctx.code = .user child
  cr3 : (s'.procs child).cr3 = .space child
  kernelStackTop : (s'.procs child).kernelStackTop.stack = .kernelStack child
  blocked : (s'.procs child).blocked = false
  savedKernelRsp : (s'.procs child).savedKernelRsp = none

theorem inv_born (h : Inv s) {cpu : Nat} (hb : Born s s' child cpu) : Inv s' := by
  obtain ⟨hu, hl, hq, hc, -, ho, h1, h2, h3, -, -, -, -⟩ := hb
  have hother : ∀ q, q ≠ child → (s'.procs q).cpu = (s.procs q).cpu ∧
      (s'.procs q).state = (s.procs q).state ∧
      (s'.procs q).ctx = (s.procs q).ctx := by
    intro q hne
    obtain ⟨ch, e⟩ := ho q hne
    rw [e]
    exact ⟨rfl, rfl, rfl⟩
  have h3' : (s'.procs child).ctx.code.proc = some child := by rw [h3]; rfl
  constructor <;> grind [Inv]

/-- What is left to show of a created process once it is enqueued. -/
theorem born_enqueueAt {t : State} (hu : s.life child = .unborn)
    (hlife : ∀ q, t.life q = if q = child then .alive else s.life q) (hrq : t.rq = s.rq)
    (hcpus : t.cpus = s.cpus) (hent : ∀ q, t.entered q = if q = child then none else s.entered q)
    (hother : ∀ q, q ≠ child → ∃ ch, t.procs q = { s.procs q with children := ch })
    (hcode : (t.procs child).ctx.code = .user child) (hcr3 : (t.procs child).cr3 = .space child)
    (hkst : (t.procs child).kernelStackTop.stack = .kernelStack child)
    (hblk : (t.procs child).blocked = false) (hsav : (t.procs child).savedKernelRsp = none)
    (cpu : Nat) : Born s (t.enqueueAt child cpu) child cpu := by
  constructor <;>
    try simp [State.enqueueAt, State.pushFront, hcode, hcr3, hkst, hblk, hsav]
  · exact hu
  · exact hlife
  · intro d
    by_cases hd : d = cpu
    · subst hd; simp [hrq]
    · simp [hd, hrq]
  · exact fun d => by rw [hcpus]
  · exact hent
  · intro q hq
    obtain ⟨ch, e⟩ := hother q hq
    exact ⟨ch, (update_of_ne hq ..).trans e⟩

theorem born_setup (hu : s.life child = .unborn) (entry stackPtr : UInt64) (cpu : Nat) :
    Born s (((s.processCreate child).processSetup child entry stackPtr).enqueueAt child cpu)
    child cpu := by
  apply born_enqueueAt hu <;>
    simp +contextual [State.processCreate, State.processSetup, update_apply]
  exact fun q _ => ⟨_, rfl⟩

theorem born_fork (hu : s.life child = .unborn)
    (c : Nat) {parent : ProcPtr} (hne : parent ≠ child) (regs : Registers) (cpu : Nat) :
    Born s ((s.processFork c parent child regs).enqueueAt child cpu) child cpu := by
  apply born_enqueueAt hu <;>
    simp +contextual [State.processCreate, State.processFork, State.processLinkChild,
      update_apply, hne.symm]
  intro q hq
  split_ifs with hp
  · subst hp; exact ⟨_, rfl⟩
  · exact ⟨_, rfl⟩

/-! ## 6. Exit -/

/-- **All an exit can do**: park the cpu in the idle loop, or give it to a successor it has
    yet to resume. -/
inductive ExitResult (b : State) (c : Nat) (st : Stack) : State → Prop where
  | idle (hn : b.pickNext c none = none) : ExitResult b c st (b.setMode c (.idle st))
  | next (next : ProcPtr) (hn : b.pickNext c none = some next) :
      ExitResult b c st ((b.dispatch c next).setMode c (.exiting next st))

theorem exitBase_current (s : State) (c : Nat) (status : Int32) :
    ((s.exitBase c status).cpus c).current = none := by
  unfold State.exitBase
  cases hcur : (s.cpus c).current with
  | none => exact hcur
  | some cur => simp [killCurLocked_cpu]

theorem sameView_exitStatus (s : State) (p : ProcPtr) (status : Int32) :
    SameView s (s.setProc p fun p => { p with exitStatus := status }) :=
  sameView_setProc rfl rfl rfl

/-- The queues of `exitBase` hold neither the process that exited nor a new one. -/
theorem exitBase_mem (h : Inv s) {q : ProcPtr} {status : Int32}
    (hq : q ∈ ((s.exitBase c status).rq d).list) : q ∈ (s.rq d).list ∧
    (s.cpus c).current ≠ some q := by
  unfold State.exitBase at hq
  cases hcur : (s.cpus c).current with
  | none => rw [hcur] at hq; exact ⟨hq, nofun⟩
  | some cur =>
    rw [hcur] at hq
    obtain ⟨hq, hne⟩ :=
      (((inv_congr h (sameView_exitStatus s cur status)).culled hcur).queue _ _).mp hq
    exact ⟨hq, fun e => hne (Option.some.inj e).symm⟩

theorem ExitResult.queue (hr : ExitResult b c st s') (d : Nat) :
    (s'.rq d).list = (b.rq d).list := by
  cases hr <;> rfl

theorem ExitResult.cpu_ne (hr : ExitResult b c st s') (hd : d ≠ c) : s'.cpus d = b.cpus d := by
  cases hr with
  | idle hn => rw [setMode_cpu, if_neg hd]
  | next next hn => simp [setMode_cpu, State.dispatch, hd]

theorem ExitResult.mode (hr : ExitResult b c st s') :
    (s'.cpus c).mode = .idle st ∨ ∃ next, (s'.cpus c).mode = .exiting next st := by
  cases hr with
  | idle hn => exact Or.inl (by rw [setMode_cpu, if_pos rfl])
  | next next hn => exact Or.inr ⟨next, by rw [setMode_cpu, if_pos rfl]⟩

theorem exitBase_mode (s : State) (c : Nat) (status : Int32) :
    ((s.exitBase c status).cpus c).mode = (s.cpus c).mode := by
  unfold State.exitBase
  cases (s.cpus c).current with
  | none => rfl
  | some cur => simp [killCurLocked_cpu]

theorem exitBase_cpu_ne (s : State) (status : Int32) (hd : d ≠ c) :
    (s.exitBase c status).cpus d = s.cpus d := by
  unfold State.exitBase
  cases (s.cpus c).current with
  | none => rfl
  | some cur => simp only [killCurLocked_cpu, setProc_cpus, if_neg hd]

theorem inv_exitBase (h : Inv s) (hl : (s.cpus c).mode.leaving = none)
    (status : Int32) : Inv (s.exitBase c status) := by
  unfold State.exitBase
  cases hcur : (s.cpus c).current with
  | none => exact h
  | some cur => exact inv_kill (inv_congr h (sameView_exitStatus s cur status)) hcur hl

theorem dispatched_exit (hcur : (b.cpus c).current = none) (next : ProcPtr) (st : Stack) :
    Dispatched b ((b.dispatch c next).setMode c (.exiting next st)) c next := by
  have hp : ∀ q, ((b.dispatch c next).setMode c (.exiting next st)).procs q =
      if q = next then { b.procs q with ticks := 0, state := .running } else b.procs q := by
    intro q
    by_cases hq : q = next
    · subst hq; simp [State.dispatch]
    · simp [State.dispatch, hq]
  have hc : ∀ d, d ≠ c → ((b.dispatch c next).setMode c (.exiting next st)).cpus d = b.cpus d :=
    fun d hd => by simp [setMode_cpu, State.dispatch, hd]
  constructor
  · exact fun _ => rfl
  · exact fun _ => rfl
  · intro d
    by_cases hd : d = c
    · subst hd; simp [setMode_cpu, State.dispatch]
    · rw [hc d hd, if_neg hd]
  · exact fun d hd => by rw [hc d hd]
  · simp [setMode_cpu, Mode.proc]
  · exact fun q => by rw [hp]; split_ifs <;> rfl
  · exact fun q => by rw [hp]; split_ifs <;> rfl
  · intro q
    simp only [hp, hcur, reduceCtorEq, if_false]
    split_ifs <;> rfl

theorem inv_exit (h : Inv b) (hcur : (b.cpus c).current = none)
    (hr : ExitResult b c st s') : Inv s' := by
  cases hr with
  | idle hn =>
    have hc : ∀ d, ((b.setMode c (.idle st)).cpus d).current = (b.cpus d).current := by
      intro d
      rw [setMode_cpu]
      split_ifs with hd
      · rw [hd]
      · rfl
    have hm : ∀ d, ((b.setMode c (.idle st)).cpus d).mode =
        if d = c then .idle st else (b.cpus d).mode := by
      intro d
      rw [setMode_cpu]
      split_ifs <;> rfl
    have hp : ∀ q, (b.setMode c (.idle st)).procs q = b.procs q := fun _ => rfl
    have hq : ∀ d, (b.setMode c (.idle st)).rq d = b.rq d := fun _ => rfl
    have hlf : ∀ q, (b.setMode c (.idle st)).life q = b.life q := fun _ => rfl
    constructor <;> grind [Inv, Mode.proc, Mode.leaving]
  | next next hn =>
    rw [← hcur] at hn
    exact inv_dispatched h hn (dispatched_exit hcur next st)

/-! ## 7. Every event -/

/-- How `child` comes into being. -/
inductive Birth (s : State) (child : ProcPtr) (cpu : Nat) : Event → State → Prop where
  | boot (entry stackPtr : UInt64) : Birth s child cpu (.boot child entry stackPtr)
      (((s.processCreate child).processSetup child entry stackPtr).enqueueAt child cpu)
  | sysExec (c : Nat)
      (entry stackPtr : UInt64) : Birth s child cpu (.sysExec c child entry stackPtr)
      (((s.processCreate child).processSetup child entry stackPtr).enqueueAt child cpu)
  | sysFork (c : Nat) (regs : Registers) (parent : ProcPtr)
      (hcur : (s.cpus c).current = some parent) :
      Birth s child cpu (.sysFork c child regs)
      ((s.processFork c parent child regs).enqueueAt child cpu)

theorem Birth.born {cpu : Nat} (hw : Birth s child cpu e s') (h : Inv s)
    (hu : s.life child = .unborn) :
    Born s s' child cpu := by
  cases hw with
  | boot entry stackPtr => exact born_setup hu entry stackPtr cpu
  | sysExec c entry stackPtr => exact born_setup hu entry stackPtr cpu
  | sysFork c regs parent hcur =>
    refine born_fork hu c ?_ regs cpu
    rintro rfl
    rw [h.alive c parent (h.curQueued c parent hcur)] at hu
    cases hu

/-- **All an event can do.** -/
inductive Stepped (s : State) : Event → State → Prop where
  | born (e : Event) (child : ProcPtr) (cpu : Nat) (s' : State) (hu : s.life child = .unborn)
      (hw : Birth s child cpu e s') : Stepped s e s'
  | tick (c : Nat) (regs : Registers) (off : UInt64) (s' : State)
      (hcs : regs.cs = userCs ↔ (s.cpus c).mode.isUser = true)
      (hr : TickResult s (s.tickBase c ⟨regs, (s.cpus c).mode⟩ ⟨(s.cpus c).mode.frameStack c, off⟩)
        c ⟨regs, (s.cpus c).mode⟩ s' (s.schedulerTimerTick c ⟨regs, (s.cpus c).mode⟩
        ⟨(s.cpus c).mode.frameStack c, off⟩).2) : Stepped s (.tick c regs off) s'
  | syscallEntry (c : Nat) (rsp : UInt64) (p : ProcPtr) (hm : (s.cpus c).mode = .user p) :
      Stepped s (.syscallEntry c rsp) ((s.setCpu c fun k =>
        { k with userRsp := rsp, mode := .syscall p k.kernelRsp.stack }).setEntered p (some rsp))
  | sysret (c : Nat) (p : ProcPtr) (st : Stack) (hm : (s.cpus c).mode = .syscall p st)
      (hb : ∀ q, (s.cpus c).current = some q → (s.procs q).blocked = false) :
      Stepped s (.sysret c) ((s.setMode c (.user p)).setEntered p none)
  | blocking (e : Event) (c : Nat) (b : Bool) (p : ProcPtr) (st : Stack)
      (he : e = .block c ∨ e = .unblock c)
      (hm : (s.cpus c).mode = .syscall p st) : Stepped s e (s.setBlocked c b)
  | execve (c : Nat) (entry rsp : UInt64) (cur p : ProcPtr) (st : Stack)
      (hm : (s.cpus c).mode = .syscall p st) (hcur : (s.cpus c).current = some cur) :
      Stepped s (.execve c entry rsp) (s.sysExecve c cur entry rsp)
  | sysExit (c : Nat) (status : Int32) (p : ProcPtr) (st : Stack) (s' : State)
      (hm : (s.cpus c).mode = .syscall p st) (hr : ExitResult (s.exitBase c status) c st s') :
      Stepped s (.sysExit c status) (s'.setEntered p none)
  | exitResume (c : Nat) (next : ProcPtr) (st : Stack) (hm : (s.cpus c).mode = .exiting next st) :
      Stepped s (.exitResume c) (s.exitResume c next)
  | terminate (pid : UInt64) : Stepped s (.terminate pid) (s.schedulerTerminate pid).1
  | reap (c : Nat) (pid : UInt64) (cur p z : ProcPtr) (st : Stack)
      (hm : (s.cpus c).mode = .syscall p st) (hcur : (s.cpus c).current = some cur)
      (hz : s.processFindZombieChild cur pid = some z) :
      Stepped s (.reap c pid) (s.processReapChild cur z)

theorem step_cases (hs : s.step e = some s') : Stepped s e s' := by
  cases e with
  | boot child entry stackPtr =>
    simp only [State.step] at hs
    split_ifs at hs with hu
    cases hs
    exact .born _ child _ _ hu (.boot ..)
  | sysExec c child entry stackPtr =>
    simp only [State.step] at hs
    split at hs
    · split_ifs at hs with hu
      cases hs
      exact .born _ child _ _ hu (.sysExec ..)
    · cases hs
  | sysFork c child regs =>
    simp only [State.step] at hs
    split at hs
    case h_2 => cases hs
    case h_1 parent _ hcur =>
      split_ifs at hs with hu
      cases hs
      exact .born _ child _ _ hu (.sysFork c regs parent hcur)
  | tick c regs off =>
    by_cases hcs : regs.cs = if (s.cpus c).mode.isUser then userCs else kernelCs
    · simp only [State.step, if_pos hcs] at hs
      cases hs
      refine .tick c regs off _ ?_ (tick_cases ..)
      rw [hcs]
      cases (s.cpus c).mode.isUser <;> decide
    · simp only [State.step, if_neg hcs] at hs
      cases hs
  | syscallEntry c rsp =>
    simp only [State.step] at hs
    split at hs
    case h_1 p hm => cases hs; exact .syscallEntry c rsp p hm
    case h_2 => cases hs
  | sysret c =>
    simp only [State.step] at hs
    split at hs
    case h_2 => cases hs
    case h_1 p st hm =>
      split_ifs at hs with hb
      cases hs
      refine .sysret c p st hm ?_
      intro q hq
      simpa [hq] using hb
  | block c =>
    simp only [State.step] at hs
    split at hs
    case h_1 p st hm => cases hs; exact .blocking _ c true p st (.inl rfl) hm
    case h_2 => cases hs
  | unblock c =>
    simp only [State.step] at hs
    split at hs
    case h_1 p st hm => cases hs; exact .blocking _ c false p st (.inr rfl) hm
    case h_2 => cases hs
  | execve c entry rsp =>
    simp only [State.step] at hs
    split at hs
    case h_1 p st cur hm hcur => cases hs; exact .execve c entry rsp cur p st hm hcur
    case h_2 => cases hs
  | sysExit c status =>
    simp only [State.step] at hs
    split at hs
    case h_2 => cases hs
    case h_1 p st hm =>
      cases hn : (s.exitBase c status).pickNext c none with
      | none =>
        simp only [State.exitLocked, hn] at hs
        cases hs
        exact .sysExit c status p st _ hm (.idle hn)
      | some next =>
        simp only [State.exitLocked, hn] at hs
        cases hs
        exact .sysExit c status p st _ hm (.next next hn)
  | exitResume c =>
    simp only [State.step] at hs
    split at hs
    case h_1 next st hm => cases hs; exact .exitResume c next st hm
    case h_2 => cases hs
  | terminate pid => cases hs; exact .terminate pid
  | reap c pid =>
    simp only [State.step] at hs
    split at hs
    case h_2 => cases hs
    case h_1 p st cur hm hcur =>
      obtain ⟨z, hz, rfl⟩ := Option.map_eq_some_iff.mp hs
      exact .reap c pid cur p z st hm hcur hz

/-- What `block` and `unblock` keep. -/
theorem State.setBlocked_rule {J : State → Prop} {c : Nat} {b : Bool} (h : J s)
    (hp : ∀ p, J (s.setProc p fun p => { p with blocked := b })) : J (s.setBlocked c b) := by
  unfold State.setBlocked
  split
  · exact hp _
  · exact h

/-- What `terminate` keeps. -/
theorem State.terminate_rule {J : State → Prop} {pid : UInt64} (h : J s)
    (hp : ∀ p, J (s.setProc p fun p => { p with terminate := true, exitStatus := 2 })) :
    J (s.schedulerTerminate pid).1 := by
  unfold State.schedulerTerminate
  split
  · split_ifs
    · exact hp _
    · exact h
  · exact h

theorem sameView_setCpu {f : Cpu → Cpu} (hcur : (f (s.cpus c)).current = (s.cpus c).current)
    (hm : (f (s.cpus c)).mode.proc = (s.cpus c).mode.proc)
    (hl : (f (s.cpus c)).mode.leaving = (s.cpus c).mode.leaving) : SameView s (s.setCpu c f) := by
  constructor <;> (intros; first | rfl | assumption | skip)
  all_goals
    rename_i d
    by_cases hd : d = c
    · subst hd; simpa using by assumption
    · simp [hd]

/-- Freeing a pcb that is in no queue is not seen by `Inv`. -/
theorem sameView_processDestroy (hout : ∀ c, z ∉ (s.rq c).list) :
    SameView s (s.processDestroy z) := by
  constructor <;> (intros; first | rfl | skip)
  · rename_i q hq
    by_cases hqz : q = z
    · simp [State.processDestroy, hqz]
    · simpa [State.processDestroy, hqz] using hq
  · rename_i c q hq
    have hqz : q ≠ z := fun e => hout c (e ▸ hq)
    simp [State.processDestroy, hqz]

theorem State.processFindZombieChild_some {cur : ProcPtr} {pid : UInt64}
    (hz : s.processFindZombieChild cur pid = some z) :
    z ∈ (s.procs cur).children ∧ (s.procs z).state = .zombie := by
  have := List.find?_some hz
  simp only [decide_eq_true_eq] at this
  exact ⟨List.mem_of_find?_eq_some hz, this.1⟩

theorem sameView_reap (h : Inv s) {cur : ProcPtr}
    (hz : (s.procs z).state = .zombie) : SameView s (s.processReapChild cur z) :=
  (sameView_setProc (f := fun p => { p with children := p.children.erase z }) rfl rfl rfl).trans
    (sameView_processDestroy fun c hm => h.notZombie c z hm hz)

theorem State.exitResume_cpu (s : State) (c d : Nat) (next : ProcPtr) :
    (s.exitResume c next).cpus d = if d = c then
        { s.cpus c with
          cr3 := (s.procs next).cr3, fsBase := (s.procs next).fsBase, mode := s.resumeMode next }
      else s.cpus d := by
  by_cases hd : d = c
  · subst hd
    cases hb : (s.procs next).blocked <;>
      simp [exitResume, resumeOf, resumeMode, applyOutcome, loadSpace, setMode, hb]
  · cases hb : (s.procs next).blocked <;>
      simp [exitResume, resumeOf, applyOutcome, loadSpace, setMode, hb, hd]

theorem inv_exitResume (h : Inv s)
    (hm : (s.cpus c).mode = .exiting next st) : Inv (s.exitResume c next) := by
  have hcur : (s.cpus c).current = some next := h.leavingCur c next (by rw [hm]; rfl)
  have hown := h.ctxOwn c next (h.curQueued c next hcur)
  have hcurs : ∀ d, ((s.exitResume c next).cpus d).current = (s.cpus d).current := by
    intro d
    rw [exitResume_cpu]
    split_ifs with hd
    · rw [hd]
    · rfl
  have hmode : ((s.exitResume c next).cpus c).mode.proc = some next := by
    rw [exitResume_cpu, if_pos rfl]
    exact (s.resumeMode_proc next).trans hown
  have hlv : ∀ p, ((s.exitResume c next).cpus c).mode.leaving = some p → p = next := by
    intro p hp
    exact Option.some.inj ((Mode.proc_of_leaving hp).symm.trans hmode)
  have hother : ∀ d, d ≠ c → ((s.exitResume c next).cpus d).mode = (s.cpus d).mode := by
    intro d hd
    rw [exitResume_cpu, if_neg hd]
  obtain ⟨hp, hq, hlf, -⟩ := s.exitResume_rest next c
  constructor <;> grind [Inv]

/-- All an event can do to the view of `Inv`. -/
inductive Moved (s : State) : Event → State → Prop where
  | view (e : Event) (s' : State) (hv : SameView s s') : Moved s e s'
  | born (e : Event) (child : ProcPtr) (cpu : Nat) (s' : State)
      (hb : Born s s' child cpu) : Moved s e s'
  | tick (c : Nat) (regs : Registers) (off : UInt64) (s' : State) (o : Outcome)
      (hcs : regs.cs = userCs ↔ (s.cpus c).mode.isUser = true)
      (hr : TickResult s (s.tickBase c ⟨regs, (s.cpus c).mode⟩ ⟨(s.cpus c).mode.frameStack c, off⟩)
        c ⟨regs, (s.cpus c).mode⟩ s' o) : Moved s (.tick c regs off) s'
  | exit (c : Nat) (status : Int32) (p : ProcPtr) (st : Stack) (s₁ s' : State)
      (hm : (s.cpus c).mode = .syscall p st) (hr : ExitResult (s.exitBase c status) c st s₁)
      (hv : SameView s₁ s') : Moved s (.sysExit c status) s'
  | resume (c : Nat) (next : ProcPtr) (st : Stack)
      (hm : (s.cpus c).mode = .exiting next st) : Moved s (.exitResume c) (s.exitResume c next)

theorem step_moved (h : Inv s) (hs : s.step e = some s') : Moved s e s' := by
  cases step_cases hs with
  | born _ child cpu _ hu hw => exact .born _ child cpu _ (hw.born h hu)
  | tick c regs off _ hcs hr => exact .tick c regs off _ _ hcs hr
  | syscallEntry c rsp p hm =>
    refine .view _ _ ((sameView_setCpu ?_ ?_ ?_).trans (sameView_setEntered ..))
    · rfl
    · rw [hm]; rfl
    · rw [hm]; rfl
  | sysret c p st hm _ =>
    refine .view _ _ ((sameView_setCpu ?_ ?_ ?_).trans (sameView_setEntered ..))
    · rfl
    · rw [hm]; rfl
    · rw [hm]; rfl
  | blocking _ c b _ _ _ _ =>
    exact .view _ _ (setBlocked_rule (.refl s) fun _ => sameView_setProc rfl rfl rfl)
  | execve c entry rsp cur p st _ _ =>
    refine .view _ _ (((sameView_setProc ?_ ?_ ?_).trans (sameView_setCpu ?_ ?_ ?_)).trans
      (sameView_setEntered ..)) <;> rfl
  | sysExit c status p st s₁ hm hr => exact .exit c status p st s₁ _ hm hr (sameView_setEntered ..)
  | exitResume c next st hm => exact .resume c next st hm
  | terminate pid =>
    exact .view _ _ (terminate_rule (.refl s) fun _ => sameView_setProc rfl rfl rfl)
  | reap c pid cur p z st _ _ hz =>
    exact .view _ _ (sameView_reap h (processFindZombieChild_some hz).2)

theorem inv_step (h : Inv s) (hs : s.step e = some s') : Inv s' := by
  cases step_moved h hs with
  | view _ _ hv => exact inv_congr h hv
  | born _ child cpu _ hb => exact inv_born h hb
  | tick c regs off _ _ hcs hr => exact inv_tick h rfl hcs.mp hr
  | exit c status p st s₁ _ hm hr hv =>
    have hl : (s.cpus c).mode.leaving = none := by rw [hm]; rfl
    exact inv_congr (inv_exit (inv_exitBase h hl status) (exitBase_current ..) hr) hv
  | resume c next st hm => exact inv_exitResume h hm

end DyntKernel.Scheduler
