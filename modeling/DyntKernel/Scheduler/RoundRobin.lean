/-
  File:      DyntKernel/Scheduler/RoundRobin.lean
  Subject:   THE ORDER OF DISPATCHES on one cpu whose processes all stay runnable.

  `pick_next` walks the queue from its head and takes the first ready process that is not the one
  that gives the cpu up; it does not go on from there. So the first two processes of a queue
  alternate and the others wait.

  * `Steady` -- a queue of runnable processes in user mode;
  * `Run` -- the ticks of one cpu, each with the state it leaves and how it ends;
  * `Overtakes` -- one process is dispatched twice while another one stays ready;
  * `SteadyTick` -- all a tick can do to a steady queue;
  * `round_robin_iff` -- nobody is overtaken exactly if the queue has at most two processes;
  * `behind_two_starve` -- the third process and those after it are never dispatched.
-/
import DyntKernel.Scheduler.Invariant
import Mathlib.Data.List.Perm.Subperm

namespace DyntKernel.Scheduler

open State List

variable {t : List (State × Outcome)} {b : State}

/-! ## 1. Runs of ticks -/

/-- **A queue whose processes are runnable in user mode**: none is blocked or about to be killed,
    the current process is one of them and runs, the others are ready. -/
structure Steady (s : State) (c : Nat) : Prop where
  nodup : (s.rq c).list.Nodup
  runnable : ∀ p ∈ (s.rq c).list, (s.procs p).blocked = false ∧ (s.procs p).terminate = false
  state : ∀ p ∈ (s.rq c).list,
    (s.procs p).state = if (s.cpus c).current = some p then .running else .ready
  current : ∀ p, (s.cpus c).current = some p → p ∈ (s.rq c).list

/-- **The ticks of cpu `c`** from one state to another, with the state each one leaves and how it
    ends. A tick that finds a current process finds it in user mode; an idle cpu has any frame. -/
inductive Run (c : Nat) : State → List (State × Outcome) → State → Prop where
  | nil (s : State) : Run c s [] s
  | tick (s : State) (fr : Frame) (slot : KAddr) (trace : List (State × Outcome)) (s' : State)
      (huser : (s.cpus c).current.isSome = true → fr.regs.cs = userCs)
      (h : Run c (s.schedulerTimerTick c fr slot).1 trace s') :
      Run c s (s.schedulerTimerTick c fr slot :: trace) s'

/-- **A process is overtaken**: `p` is dispatched twice, and from the one to the other `q` of the
    same queue is ready and not dispatched. -/
def Overtakes (queue : List ProcPtr) (trace : List (State × Outcome)) : Prop :=
  ∃ before first between second after p q, trace = before ++ first :: between ++ second :: after ∧
    first.2 = .load p ∧ second.2 = .load p ∧ q ∈ queue ∧
    ∀ z ∈ first :: between ++ [second], (z.1.procs q).state = .ready ∧ z.2 ≠ .load q

/-- **Round-robin order**: no run of ticks overtakes a process. -/
def RoundRobin (s : State) (c : Nat) : Prop :=
  ∀ trace s', Run c s trace s' → ¬ Overtakes (s.rq c).list trace

/-! ## 2. All a tick can do to a steady queue -/

variable {s s' : State} {c : Nat} {p q : ProcPtr}

section Switched

variable (b : State) (c : Nat) (cur : Option ProcPtr) (next : ProcPtr)

theorem State.switched_rq : (b.switched c cur next).rq = b.rq := by
  simp [switched, dispatch, loadSpace]

theorem State.switched_current : ((b.switched c cur next).cpus c).current = some next := by
  simp [switched, dispatch, loadSpace]

theorem State.switched_proc (q : ProcPtr) : (b.switched c cur next).procs q =
    if q = next then { b.procs q with ticks := 0, state := .running }
    else if cur = some q then { b.procs q with ticks := 0, state := .ready } else b.procs q := by
  have h : (b.switchTo c cur next).procs = (b.switched c cur next).procs := applyOutcome_procs ..
  rw [← h, b.switchTo_proc]

end Switched

/-- **All a tick can do to a steady queue**: it is too early, there is nobody else, or the first
    other process of the queue is dispatched. -/
inductive SteadyTick (s b : State) (c : Nat) : State × Outcome → Prop where
  | early (p : ProcPtr) (hcur : (s.cpus c).current = some p)
      (hearly : (s.procs p).ticks + 1 < schedQuantum) : SteadyTick s b c (b, .same)
  | alone (hn : (s.rq c).list.find? (fun p => decide (some p ≠ (s.cpus c).current)) = none) :
      SteadyTick s b c (b, .same)
  | next (next : ProcPtr)
      (hn : (s.rq c).list.find? (fun p => decide (some p ≠ (s.cpus c).current)) = some next)
      (hdue : ∀ p, (s.cpus c).current = some p → ¬ (s.procs p).ticks + 1 < schedQuantum) :
      SteadyTick s b c (b.switched c (s.cpus c).current next, .load next)

/-- In a steady queue the first process that is not the current one is picked. -/
theorem Steady.pickNext (h : Steady s c) (hlist : (b.rq c).list = (s.rq c).list)
    (hstate : ∀ p, (b.procs p).state = (s.procs p).state) : b.pickNext c (s.cpus c).current =
      (s.rq c).list.find? fun p => decide (some p ≠ (s.cpus c).current) := by
  rw [State.pickNext, hlist, ← List.head?_filter, ← List.head?_filter]
  refine congrArg List.head? (filter_congr fun p hp => ?_)
  rw [hstate, h.state p hp]
  by_cases hcur : (s.cpus c).current = some p
  · simp [hcur]
  · simp [hcur, Ne.symm hcur]

theorem tickBase_state (s : State) (c : Nat) (fr : Frame) (slot : KAddr) (q : ProcPtr) :
    ((s.tickBase c fr slot).procs q).state = (s.procs q).state ∧
      ((s.tickBase c fr slot).procs q).blocked = (s.procs q).blocked ∧
      ((s.tickBase c fr slot).procs q).terminate = (s.procs q).terminate := by
  rw [tickBase_proc]
  split_ifs <;> exact ⟨rfl, rfl, rfl⟩

/-- **The step lemma.** -/
theorem Steady.tick (h : Steady s c) (fr : Frame) (slot : KAddr)
    (huser : (s.cpus c).current.isSome = true → fr.regs.cs = userCs) :
    SteadyTick s (s.tickBase c fr slot) c (s.schedulerTimerTick c fr slot) := by
  have hb := tickBase_state s c fr slot
  have hlist : ((s.tickBase c fr slot).rq c).list = (s.rq c).list := tickBase_queue ..
  have hpick := h.pickNext hlist fun p => (hb p).1
  -- past the quantum the tick is the switch of its base state
  have hswitch : (∀ p, (s.cpus c).current = some p → ¬ (s.procs p).ticks + 1 < schedQuantum) →
      SteadyTick s (s.tickBase c fr slot) c
        ((s.tickBase c fr slot).tickSwitch c (s.cpus c).current fr) := by
    intro hdue
    have hok : fr.regs.cs = userCs ∨ ∀ p, (s.cpus c).current = some p →
        ((s.tickBase c fr slot).procs p).blocked = true := by
      cases hcur : (s.cpus c).current with
      | none => exact .inr (by simp)
      | some p => exact .inl (huser (by rw [hcur]; rfl))
    rcases tickSwitch_cases (s.tickBase c fr slot) c (s.cpus c).current fr with
      ⟨heq, hn⟩ | ⟨next, -, hn, heq⟩
    · rw [heq]
      exact .alone (hpick.symm.trans (hn hok))
    · rw [hpick] at hn
      have hblocked := (hb next).2.1.trans (h.runnable next (mem_of_find?_eq_some hn)).1
      rw [heq, resumeOf, hblocked]
      exact .next next hn hdue
  rw [tick_eq]
  cases hcur : (s.cpus c).current with
  | none =>
    rw [hcur] at hswitch
    exact hswitch (by simp)
  | some cur =>
    have hmem := h.current cur hcur
    rw [hcur] at hswitch
    simp only [h.state cur hmem, hcur, if_true, (h.runnable cur hmem).1, (h.runnable cur hmem).2]
    by_cases hearly : (s.procs cur).ticks + 1 < schedQuantum
    · simp only [hearly]
      exact .early cur hcur hearly
    · simp only [hearly]
      exact hswitch fun p hp => Option.some.inj hp ▸ hearly

/-- What a tick leaves of a steady queue, whatever it does. -/
theorem Steady.after (h : Steady s c) {fr : Frame} {slot : KAddr} {r : State × Outcome}
    (ht : SteadyTick s (s.tickBase c fr slot) c r) : Steady r.1 c ∧
    (r.1.rq c).list = (s.rq c).list ∧
      ((s.cpus c).current.isSome = true → (r.1.cpus c).current.isSome = true) := by
  have hb := tickBase_state s c fr slot
  have hlist : ((s.tickBase c fr slot).rq c).list = (s.rq c).list := tickBase_queue ..
  have hcpus : (s.tickBase c fr slot).cpus = s.cpus := tickBase_cpus ..
  have hquiet : Steady (s.tickBase c fr slot) c := by
    refine ⟨hlist ▸ h.nodup, fun p hp => ?_, fun p hp => ?_, fun p hp => ?_⟩
    · rw [(hb p).2.1, (hb p).2.2]
      exact h.runnable p (hlist ▸ hp)
    · rw [(hb p).1, hcpus]
      exact h.state p (hlist ▸ hp)
    · rw [hlist]
      exact h.current p (hcpus ▸ hp)
  generalize s.tickBase c fr slot = b at *
  cases ht with
  | early p hcur _ => exact ⟨hquiet, hlist, fun hc => by rw [hcpus]; exact hc⟩
  | alone _ => exact ⟨hquiet, hlist, fun hc => by rw [hcpus]; exact hc⟩
  | next next hn _ =>
    have hmem : next ∈ (s.rq c).list := List.mem_of_find?_eq_some hn
    have hrq := b.switched_rq c (s.cpus c).current next
    have hcurrent := b.switched_current c (s.cpus c).current next
    have hproc := b.switched_proc c (s.cpus c).current next
    refine ⟨⟨?_, fun p hp => ?_, fun p hp => ?_, fun p hp => ?_⟩, ?_, fun _ => ?_⟩
    · rw [hrq, hlist]
      exact h.nodup
    · rw [hrq] at hp
      have hrun := hquiet.runnable p hp
      rw [hproc]
      split_ifs <;> exact hrun
    · rw [hrq] at hp
      have hstate := hquiet.state p hp
      rw [hproc, hcurrent]
      rw [hcpus] at hstate
      by_cases hpn : p = next
      · rw [if_pos hpn, if_pos (congrArg some hpn.symm)]
      · rw [if_neg hpn, if_neg fun e => hpn (Option.some.inj e).symm]
        split_ifs with hcur
        · rfl
        · rw [hstate, if_neg hcur]
    · rw [hcurrent, Option.some.injEq] at hp
      rw [hrq, hlist, ← hp]
      exact hmem
    · rw [hrq, hlist]
    · rw [hcurrent]
      rfl

/-- Who is dispatched was not the current process and is it now. -/
theorem SteadyTick.loaded {r : State × Outcome} (h : SteadyTick s b c r) (hr : r.2 = .load p) :
    p ∈ (s.rq c).list ∧ (s.cpus c).current ≠ some p ∧ (r.1.cpus c).current = some p := by
  cases h with
  | early _ _ _ => cases hr
  | alone _ => cases hr
  | next next hn _ =>
    cases hr
    have hne := List.find?_some hn
    exact ⟨List.mem_of_find?_eq_some hn,
      fun e => (of_decide_eq_true hne) e.symm, switched_current ..⟩

/-! ## 3. Two processes alternate -/

theorem Run.append {t' : List (State × Outcome)} {m : State} (h : Run c s t m)
    (h' : Run c m t' s') : Run c s (t ++ t') s' := by
  induction h with
  | nil _ => exact h'
  | tick s fr slot trace m huser _ ih => exact .tick s fr slot _ s' huser (ih h')

theorem Run.split {t' : List (State × Outcome)} (h : Run c s (t ++ t') s') :
    ∃ m, Run c s t m ∧ Run c m t' s' := by
  induction t generalizing s with
  | nil => exact ⟨s, .nil s, h⟩
  | cons x t ih =>
    cases h with
    | tick _ fr slot _ _ huser h =>
      obtain ⟨m, hm, hm'⟩ := ih h
      exact ⟨m, .tick s fr slot t m huser hm, hm'⟩

/-- **The run lemma**: the queue stays steady and the cpu busy. -/
theorem Run.steady (h : Run c s t s') (hs : Steady s c) :
    Steady s' c ∧ (s'.rq c).list = (s.rq c).list ∧
      ((s.cpus c).current.isSome = true → (s'.cpus c).current.isSome = true) := by
  induction h with
  | nil _ => exact ⟨hs, rfl, id⟩
  | tick s fr slot trace s' huser _ ih =>
    obtain ⟨hsteady, hlist, hbusy⟩ := hs.after (hs.tick fr slot huser)
    obtain ⟨hsteady', hlist', hbusy'⟩ := ih hsteady
    exact ⟨hsteady', hlist'.trans hlist, fun hc => hbusy' (hbusy hc)⟩

/-- A run ends in the state its last tick leaves. -/
theorem Run.last {x : State × Outcome} (h : Run c s (x :: t) s') : ∃ z ∈ x :: t, z.1 = s' := by
  induction t generalizing s x with
  | nil =>
    cases h with
    | tick _ fr slot _ _ _ h =>
      cases h
      exact ⟨_, mem_cons_self, rfl⟩
  | cons y t ih =>
    cases h with
    | tick _ fr slot _ _ _ h =>
      obtain ⟨z, hz, hend⟩ := ih h
      exact ⟨z, mem_cons_of_mem _ hz, hend⟩

/-- Before the second dispatch of `p` somebody else is current; with two processes that is `q`. -/
theorem not_overtaken (h : Steady s c) (hlen : (s.rq c).list.length ≤ 2) : RoundRobin s c := by
  intro trace s' hrun hover
  obtain ⟨before, first, between, second, after, p, q, htrace, hfirst, hsecond, hq, hz⟩ := hover
  rw [htrace] at hrun
  obtain ⟨w, hrun, hrun'⟩ := hrun.split
  obtain ⟨u, hbefore, hbetween⟩ := hrun.split
  obtain ⟨hu, hulist, -⟩ := hbefore.steady h
  obtain ⟨z, hmem, hzw⟩ := hbetween.last
  have hready : (w.procs q).state = .ready := by
    rw [← hzw]
    exact (hz z (mem_append_left _ hmem)).1
  -- the first dispatch makes `p` current, and the cpu stays busy
  have hfirstReady := (hz first (mem_append_left _ mem_cons_self)).1
  cases hbetween with
  | tick _ fr slot _ _ huser hbetween =>
    have htick := hu.tick fr slot huser
    obtain ⟨hsteady, hlist, -⟩ := hu.after htick
    obtain ⟨hp, -, hcurrent⟩ := htick.loaded hfirst
    have hpq : q ≠ p := fun e => by
      have hrunning := hsteady.state p (hlist ▸ hp)
      rw [if_pos hcurrent, ← e, hfirstReady] at hrunning
      cases hrunning
    obtain ⟨hw, hwlist, hbusy⟩ := hbetween.steady hsteady
    obtain ⟨r, hr⟩ := Option.isSome_iff_exists.mp (hbusy (by rw [hcurrent]; rfl))
    have hrmem := hw.current r hr
    have hqr : q ≠ r := fun e => by
      have hrunning := hw.state r hrmem
      rw [if_pos hr, ← e, hready] at hrunning
      cases hrunning
    cases hrun' with
    | tick _ fr' slot' _ _ huser' _ =>
      have hne := ((hw.tick fr' slot' huser').loaded hsecond).2.1
      have hpr : p ≠ r := fun e => hne (e ▸ hr)
      rw [hwlist, hlist, hulist] at hrmem
      rw [hulist] at hp
      have hthree : [p, q, r].Nodup := by simp [hpq.symm, hpr, hqr]
      have hsub : [p, q, r] ⊆ (s.rq c).list := by simp [hp, hq, hrmem]
      have hcard := (subperm_of_subset hthree hsub).length_le
      simp only [length_cons, length_nil] at hcard
      omega

/-! ## 4. Of three processes one is overtaken -/

/-- Ticks of a steady queue that change neither the queue nor who is current. -/
def Waits (s : State) (c : Nat) (t : List (State × Outcome)) : Prop :=
  ∀ z ∈ t, z.2 = .same ∧ Steady z.1 c ∧ (z.1.rq c).list = (s.rq c).list ∧
    (z.1.cpus c).current = (s.cpus c).current

/-- The rounds left of a quantum, counted from the tick to come. -/
def roundsLeft (s : State) (c : Nat) : Nat :=
  match (s.cpus c).current with
  | some p => schedQuantum.toNat - ((s.procs p).ticks + 1).toNat
  | none => 0

theorem roundsLeft_succ {t : UInt64} (h : t + 1 < schedQuantum) :
    schedQuantum.toNat - (t + 1 + 1).toNat + 1 = schedQuantum.toNat - (t + 1).toNat := by
  have hlt : (t + 1).toNat < 5 := h
  have hnext : (t + 1 + 1).toNat = (t + 1).toNat + 1 := by
    rw [UInt64.toNat_add]
    exact Nat.mod_eq_of_lt (by simp only [UInt64.toNat_one]; omega)
  rw [hnext]
  show 5 - _ + 1 = 5 - _
  omega

/-- A frame of user code. -/
def userFrame (p : ProcPtr) : Frame := ⟨{ cs := userCs }, .user p⟩

/-- One tick within the quantum. -/
theorem Steady.wait (h : Steady s c) (hcur : (s.cpus c).current = some p)
    (hearly : (s.procs p).ticks + 1 < schedQuantum) :
    ∃ s', Run c s [(s', .same)] s' ∧ Waits s c [(s', .same)] ∧
      roundsLeft s' c + 1 = roundsLeft s c := by
  have htick := h.tick (userFrame p) ⟨.boot c, 0⟩ fun _ => rfl
  have hrun := Run.tick (c := c) s (userFrame p) ⟨.boot c, 0⟩ [] _ (fun _ => rfl) (.nil _)
  obtain ⟨hsteady, hlist, -⟩ := h.after htick
  have hrunning : (s.procs p).state = .running := by
    rw [h.state p (h.current p hcur), if_pos hcur]
  have hticks : ((s.tickBase c (userFrame p) ⟨.boot c, 0⟩).procs p).ticks =
      (s.procs p).ticks + 1 := by rw [tickBase_proc, if_pos ⟨hcur, hrunning⟩]
  have hcpus : (s.tickBase c (userFrame p) ⟨.boot c, 0⟩).cpus = s.cpus := tickBase_cpus ..
  generalize s.schedulerTimerTick c (userFrame p) ⟨.boot c, 0⟩ = r at *
  generalize s.tickBase c (userFrame p) ⟨.boot c, 0⟩ = b at *
  have hr : r = (b, .same) := by
    cases htick with
    | early _ _ _ => rfl
    | alone _ => rfl
    | next _ _ hdue => exact absurd hearly (hdue p hcur)
  subst hr
  refine ⟨b, hrun, fun z hz => ?_, ?_⟩
  · rw [mem_singleton.mp hz]
    exact ⟨rfl, hsteady, hlist, by rw [hcpus]⟩
  · simp only [roundsLeft, hcpus, hcur, hticks]
    exact roundsLeft_succ hearly

/-- The tick that ends the quantum. -/
theorem Steady.dispatchNow {next : ProcPtr} (h : Steady s c)
    (hdue : ∀ p, (s.cpus c).current = some p → ¬ (s.procs p).ticks + 1 < schedQuantum)
    (hn : (s.rq c).list.find? (fun p => decide (some p ≠ (s.cpus c).current)) = some next) :
    ∃ s', Run c s [(s', .load next)] s' ∧ Steady s' c ∧ (s'.rq c).list = (s.rq c).list ∧
      (s'.cpus c).current = some next := by
  have htick := h.tick (userFrame 0) ⟨.boot c, 0⟩ fun _ => rfl
  have hrun := Run.tick (c := c) s (userFrame 0) ⟨.boot c, 0⟩ [] _ (fun _ => rfl) (.nil _)
  obtain ⟨hsteady, hlist, -⟩ := h.after htick
  generalize s.schedulerTimerTick c (userFrame 0) ⟨.boot c, 0⟩ = r at *
  have hr : r.2 = .load next := by
    cases htick with
    | early p hcur hearly => exact absurd hearly (hdue p hcur)
    | alone hnone => rw [hn] at hnone; cases hnone
    | next n hsome _ =>
      rw [hn] at hsome
      cases hsome
      rfl
  have hr' : r = (r.1, .load next) := Prod.ext rfl hr
  rw [hr'] at hrun
  exact ⟨r.1, hrun, hsteady, hlist, (htick.loaded hr).2.2⟩

/-- **The next dispatch comes**: the first process of the queue that is not current. -/
theorem Steady.nextDispatch {n : Nat} {next : ProcPtr} (h : Steady s c) (hleft : roundsLeft s c ≤ n)
    (hn : (s.rq c).list.find? (fun p => decide (some p ≠ (s.cpus c).current)) = some next) :
    ∃ t s', Run c s (t ++ [(s', .load next)]) s' ∧ Waits s c t ∧ Steady s' c ∧
      (s'.rq c).list = (s.rq c).list ∧ (s'.cpus c).current = some next := by
  induction n generalizing s with
  | zero =>
    have hdue : ∀ p, (s.cpus c).current = some p → ¬ (s.procs p).ticks + 1 < schedQuantum :=
      fun p hp hlt => by
        obtain ⟨_, _, _, hless⟩ := h.wait hp hlt
        omega
    obtain ⟨s', hrun, hs', hlist, hcur⟩ := h.dispatchNow hdue hn
    exact ⟨[], s', hrun, fun z hz => absurd hz not_mem_nil, hs', hlist, hcur⟩
  | succ n ih =>
    by_cases hearly : ∃ p, (s.cpus c).current = some p ∧ (s.procs p).ticks + 1 < schedQuantum
    · obtain ⟨p, hcur, hearly⟩ := hearly
      obtain ⟨m, hrun, hwaits, hless⟩ := h.wait hcur hearly
      obtain ⟨hm, hmlist, hmcur⟩ : Steady m c ∧ (m.rq c).list = (s.rq c).list ∧
          (m.cpus c).current = (s.cpus c).current := (hwaits _ mem_cons_self).2
      rw [← hmlist, ← hmcur] at hn
      obtain ⟨t, s', hrun', hwaits', hs', hlist', hcur'⟩ := ih hm (by omega) hn
      refine ⟨(m, .same) :: t, s', hrun.append hrun', fun z hz => ?_, hs',
        hlist'.trans hmlist, hcur'⟩
      cases mem_cons.mp hz with
      | inl hz => exact hwaits z (mem_singleton.mpr hz)
      | inr hz =>
        obtain ⟨hsame, hz', hzlist, hzcur⟩ := hwaits' z hz
        exact ⟨hsame, hz', hzlist.trans hmlist, hzcur.trans hmcur⟩
    · obtain ⟨s', hrun, hs', hlist, hcur⟩ :=
        h.dispatchNow (fun p hp hlt => hearly ⟨p, hp, hlt⟩) hn
      exact ⟨[], s', hrun, fun z hz => absurd hz not_mem_nil, hs', hlist, hcur⟩

/-- Of the first two processes of a queue the one that is picked. -/
def alternate (a b : ProcPtr) (cur : Option ProcPtr) : ProcPtr := if cur = some a then b else a

theorem find_alternate {a b : ProcPtr} {rest : List ProcPtr} (hab : a ≠ b) (cur : Option ProcPtr) :
    (a :: b :: rest).find? (fun p => decide (some p ≠ cur)) = some (alternate a b cur) := by
  rw [alternate]
  by_cases hcur : cur = some a
  · simp [hcur, hab.symm]
  · simp [hcur, Ne.symm hcur]

/-- While the first two processes alternate, the third one is ready. -/
theorem Waits.ready (h : Waits s c t) (hq : q ∈ (s.rq c).list)
    (hcur : (s.cpus c).current ≠ some q) :
    ∀ z ∈ t, (z.1.procs q).state = .ready ∧ z.2 ≠ .load q := by
  intro z hz
  obtain ⟨hsame, hsteady, hlist, hzcur⟩ := h z hz
  refine ⟨?_, fun e => ?_⟩
  · rw [hsteady.state q (hlist ▸ hq), hzcur, if_neg hcur]
  · rw [hsame] at e
    cases e

/-- **With three processes the first two are dispatched in turn.** -/
theorem overtaken_of_three (h : Steady s c) (hlen : 2 < (s.rq c).list.length) :
    ¬ RoundRobin s c := by
  obtain ⟨a, b, d, rest, hlist⟩ : ∃ a b d rest, (s.rq c).list = a :: b :: d :: rest := by
    match hl : (s.rq c).list, hlen with
    | a :: b :: d :: rest, _ => exact ⟨a, b, d, rest, rfl⟩
  have hnodup := h.nodup
  rw [hlist] at hnodup
  obtain ⟨hab, had, hbd⟩ : a ≠ b ∧ a ≠ d ∧ b ≠ d := by
    simp only [nodup_cons, mem_cons, not_or] at hnodup
    exact ⟨hnodup.1.1, hnodup.1.2.1, hnodup.2.1.1⟩
  have halt : ∀ cur, alternate a b cur ≠ d := fun cur => by
    rw [alternate]
    split_ifs
    · exact hbd
    · exact had
  -- three dispatches in a row, the third one of the process of the first
  have hgo : ∀ u, Steady u c → (u.rq c).list = a :: b :: d :: rest → ∃ t u',
      Run c u (t ++ [(u', .load (alternate a b (u.cpus c).current))]) u' ∧ Waits u c t ∧
        Steady u' c ∧ (u'.rq c).list = (u.rq c).list ∧
        (u'.cpus c).current = some (alternate a b (u.cpus c).current) := fun u hu hul =>
    hu.nextDispatch (Nat.le_refl _) (by rw [hul]; exact find_alternate hab _)
  obtain ⟨t₀, s₀, hrun₀, -, hs₀, hl₀, hc₀⟩ := hgo s h hlist
  obtain ⟨t₁, s₁, hrun₁, hw₁, hs₁, hl₁, hc₁⟩ := hgo s₀ hs₀ (hl₀.trans hlist)
  obtain ⟨t₂, s₂, hrun₂, hw₂, hs₂, hl₂, hc₂⟩ := hgo s₁ hs₁ (hl₁.trans (hl₀.trans hlist))
  have hback : alternate a b (s₁.cpus c).current = alternate a b (s.cpus c).current := by
    rw [hc₁, hc₀]
    simp only [alternate, Option.some.injEq]
    split_ifs <;> simp_all
  have hd : ∀ u : State, (u.rq c).list = a :: b :: d :: rest → d ∈ (u.rq c).list := fun u hul => by
    rw [hul]
    simp
  have hready : ∀ u next, Steady u c → (u.rq c).list = a :: b :: d :: rest →
      (u.cpus c).current = some next → next ≠ d →
        (u.procs d).state = .ready ∧ Outcome.load next ≠ .load d := by
    intro u next hu hul hcur hne
    refine ⟨?_, fun e => hne (Outcome.load.inj e)⟩
    rw [hu.state d (hd u hul), hcur, if_neg fun e => hne (Option.some.inj e)]
  rw [hback] at hrun₂ hc₂
  have hw₁' := hw₁.ready (hd s₀ (hl₀.trans hlist)) (by
    rw [hc₀]
    exact fun e => halt _ (Option.some.inj e))
  have hw₂' := hw₂.ready (hd s₁ (hl₁.trans (hl₀.trans hlist))) (by
    rw [hc₁]
    exact fun e => halt _ (Option.some.inj e))
  intro hrr
  refine hrr _ _ ((hrun₀.append hrun₁).append hrun₂) ⟨t₀,
    (s₀, .load (alternate a b (s.cpus c).current)),
    t₁ ++ (s₁, .load (alternate a b (s₀.cpus c).current)) :: t₂,
    (s₂, .load (alternate a b (s.cpus c).current)), [],
    alternate a b (s.cpus c).current, d, ?_, rfl, rfl, hd s hlist, fun z hz => ?_⟩
  · simp
  simp only [mem_append, mem_cons, not_mem_nil, or_false] at hz
  rcases hz with (hz | hz | hz | hz) | hz
  · rw [hz]
    exact hready s₀ _ hs₀ (hl₀.trans hlist) hc₀ (halt _)
  · exact hw₁' z hz
  · rw [hz]
    exact hready s₁ _ hs₁ (hl₁.trans (hl₀.trans hlist)) hc₁ (halt _)
  · exact hw₂' z hz
  · rw [hz]
    exact hready s₂ _ hs₂ (hl₂.trans (hl₁.trans (hl₀.trans hlist))) hc₂ (halt _)

/-- **Round-robin order holds exactly for queues of at most two processes.** -/
theorem round_robin_iff (h : Steady s c) : RoundRobin s c ↔ (s.rq c).list.length ≤ 2 := by
  refine ⟨fun hrr => ?_, not_overtaken h⟩
  by_contra hlen
  exact overtaken_of_three h (Nat.lt_of_not_le hlen) hrr

/-- The machine after `n` processes have been started on cpu 0. -/
def started (n : Nat) : State :=
  (List.range n).foldl (fun s p => (s.processCreate p).schedulerEnqueueOn p 0) (State.init 1)

theorem round_robin_two : Steady (started 2) 0 ∧ RoundRobin (started 2) 0 := by
  have h : Steady (started 2) 0 :=
    ⟨by decide, by decide, by decide, fun p hp => by cases hp⟩
  exact ⟨h, (round_robin_iff h).mpr (by decide)⟩

theorem third_process_overtaken : Steady (started 3) 0 ∧ ¬ RoundRobin (started 3) 0 := by
  have h : Steady (started 3) 0 :=
    ⟨by decide, by decide, by decide, fun p hp => by cases hp⟩
  exact ⟨h, overtaken_of_three h (by decide)⟩

/-- **The others starve**: no run of ticks dispatches a process behind the first two. -/
theorem behind_two_starve {a d : ProcPtr} {rest : List ProcPtr}
    (hrun : Run c s t s') (h : Steady s c)
    (hlist : (s.rq c).list = a :: d :: rest) (hq : q ∈ rest) (hcur : (s.cpus c).current ≠ some q) :
    ∀ z ∈ t, (z.1.procs q).state = .ready ∧ z.2 ≠ .load q := by
  obtain ⟨⟨had, haq⟩, hdq⟩ : (a ≠ d ∧ a ≠ q) ∧ d ≠ q := by
    have hnodup := h.nodup
    rw [hlist] at hnodup
    grind
  induction hrun with
  | nil _ => simp
  | tick s fr slot trace s' huser _ ih =>
    have htick := h.tick fr slot huser
    obtain ⟨hsteady, hsame, -⟩ := h.after htick
    have hcpus : (s.tickBase c fr slot).cpus = s.cpus := tickBase_cpus ..
    generalize s.tickBase c fr slot = b at *
    generalize s.schedulerTimerTick c fr slot = r at *
    have hnext : (r.1.cpus c).current ≠ some q ∧ r.2 ≠ .load q := by
      cases htick with
      | early _ _ _ | alone _ => exact ⟨hcpus ▸ hcur, by simp⟩
      | next next hn _ =>
        rw [hlist, find_alternate had, alternate] at hn
        rw [switched_current]
        grind
    refine forall_mem_cons.mpr ⟨⟨?_, hnext.2⟩, ih hsteady (hsame.trans hlist) hnext.1⟩
    rw [hsteady.state q (by simp [hsame, hlist, hq]), if_neg hnext.1]

theorem behind_two_starve_started : ∃ t s', Run 0 (started 3) t s' ∧ t ≠ [] ∧
    ∀ z ∈ t, (z.1.procs 0).state = .ready ∧ z.2 ≠ .load 0 := by
  have hrun := Run.tick (c := 0) (started 3) (userFrame 0) ⟨.boot 0, 0⟩ [] _ (fun _ => rfl) (.nil _)
  have hlist : ((started 3).rq 0).list = [2, 1, 0] := by decide
  refine ⟨_, _, hrun, by simp, behind_two_starve hrun ?_ hlist (by simp) (by decide)⟩
  exact ⟨by decide, by decide, by decide, fun p hp => by cases hp⟩

end DyntKernel.Scheduler
