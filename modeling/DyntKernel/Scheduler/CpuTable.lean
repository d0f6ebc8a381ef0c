/-
  File:      DyntKernel/Scheduler/CpuTable.lean
  Subject:   THE CPUS THE FIRMWARE LISTS AND THE RUNQUEUE A PROCESS GOES TO (arch/x86_64/smp/smp.c,
             scheduler/scheduler.c).

  `smp_init` takes over every cpu that the ACPI MADT, or else the MP table, lists, enabled or not,
  up to 256 of them. `least_loaded_locked` goes over all of these, and the runqueues are 16.

  * `parseMadt`, `parseMpConfig`, `smpInit` -- the tables as bytes in memory, the cpus as a list;
    that a table is found, and where, is an input;
  * `madtFlags`, `mpFlags`, `tableFlags` -- the enabled bits of the cpus a table lists;
    `smpInit_holds` -- `smp_init` takes over the first 256;
  * `leastLoadedLocked_least` -- what the loop over the runqueues finds;
  * `Placed`, `enqueue_placed_iff` -- when a process is always put on the least loaded enabled cpu;
  * `MadtRead`, `madt_read_iff` -- the cpu that boots is marked only if it is the first one listed.

  `State.rq` from 16 on is the memory behind the runqueues.
-/
import DyntKernel.Library.Bytes
import DyntKernel.Scheduler.Machine

namespace DyntKernel.Scheduler

open Library List

/-! ## 1. The tables -/

/-- `SMP_MAX_BOOT_CPUS`. -/
def smpMaxBootCpus : Nat := 256

/-- `smp_cpu_t`. -/
structure SmpCpu where
  processorId : UInt8
  lapicId : UInt8
  enabled : Bool
  bootstrap : Bool
  deriving DecidableEq, Repr

def addCpu (cpus : List SmpCpu) (c : SmpCpu) : List SmpCpu :=
  if smpMaxBootCpus ≤ cpus.length then cpus else cpus ++ [c]

/-- The entry is a local APIC of a MADT, `acpi_madt_lapic_t`. -/
def IsLapic (m : Nat → UInt8) (ptr : Nat) : Prop := m ptr = 0 ∧ 8 ≤ (m (ptr + 1)).toNat

instance (m : Nat → UInt8) (ptr : Nat) : Decidable (IsLapic m ptr) :=
  inferInstanceAs (Decidable (_ ∧ _))

/-- The enabled bit of a local APIC. -/
def lapicEnabled (m : Nat → UInt8) (ptr : Nat) : Bool := readLE m (ptr + 4) 4 % 2 = 1

/-- The loop of `parse_madt`; an entry has at least two bytes, so the length of the table bounds the
    rounds. -/
def madtLoop (m : Nat → UInt8) (end_ : Nat) : Nat → Nat → List SmpCpu → List SmpCpu
  | 0, _, cpus => cpus
  | n + 1, ptr, cpus =>
    let len := (m (ptr + 1)).toNat
    if end_ < ptr + 2 ∨ len < 2 ∨ end_ < ptr + len then cpus
    else
      let enabled := lapicEnabled m ptr
      madtLoop m end_ n (ptr + len)
        (if IsLapic m ptr then
          addCpu cpus ⟨m (ptr + 2), m (ptr + 3), enabled, enabled && cpus.isEmpty⟩ else cpus)

/-- `parse_madt`; the entries begin behind the 44 bytes of `acpi_madt_t`. -/
def parseMadt (m : Nat → UInt8) (madt : Nat) : List SmpCpu :=
  let length := readLE m (madt + 4) 4
  madtLoop m (madt + length) length (madt + 44) []

def checksum8 (m : Nat → UInt8) (ptr size : Nat) : UInt8 :=
  (List.range size).foldl (fun sum i => sum + m (ptr + i)) 0

/-- The loop of `parse_mp_config` over `n` entries. -/
def mpLoop (m : Nat → UInt8) : Nat → Nat → List SmpCpu → List SmpCpu
  | 0, _, cpus => cpus
  | n + 1, entry, cpus =>
    if m entry = 0 then
      let flags := m (entry + 3)
      mpLoop m n (entry + 20)
      (addCpu cpus ⟨m (entry + 1), m (entry + 1), flags &&& 1 ≠ 0, flags &&& 2 ≠ 0⟩)
    else if m entry ≤ 4 then mpLoop m n (entry + 8) cpus
    else cpus

/-- `parse_mp_config`; `mp_config_header_t` has 44 bytes. -/
def parseMpConfig (m : Nat → UInt8) (cfg : Nat) : List SmpCpu :=
  if readLE m cfg 4 ≠ 0x504D4350 ∨ checksum8 m cfg (readLE m (cfg + 4) 2) ≠ 0 then []
  else mpLoop m (readLE m (cfg + 34) 2) (cfg + 44) []

/-- `smp_init`, with the MADT and the MP configuration table that were found: the cpus. -/
def smpInit (m : Nat → UInt8) (madt mp : Option Nat) : List SmpCpu :=
  let cpus := (madt.map (parseMadt m)).getD []
  let cpus := if cpus = [] then (mp.map (parseMpConfig m)).getD [] else cpus
  if cpus = [] then addCpu [] ⟨0, 0, true, true⟩ else cpus

/-! ## 2. What the tables list -/

/-- What `parse_madt` comes to from `ptr` on: `entry` for each entry, and `stop` where it ends. -/
def madtWalk {β : Type} (m : Nat → UInt8) (end_ : Nat) (entry stop : Nat → List β) :
    Nat → Nat → List β
  | 0, _ => []
  | n + 1, ptr =>
    let len := (m (ptr + 1)).toNat
    if end_ < ptr + 2 ∨ len < 2 ∨ end_ < ptr + len then stop ptr
    else entry ptr ++ madtWalk m end_ entry stop n (ptr + len)

/-- The local APICs of a MADT, from `ptr` on. -/
def lapicsFrom (m : Nat → UInt8) (end_ : Nat) : Nat → Nat → List Nat :=
  madtWalk m end_ (fun ptr => if IsLapic m ptr then [ptr] else []) fun _ => []

def madtLapics (m : Nat → UInt8) (madt : Nat) : List Nat :=
  lapicsFrom m (madt + readLE m (madt + 4) 4) (readLE m (madt + 4) 4) (madt + 44)

/-- **The cpus that a MADT lists**: for each of them, whether it is enabled. -/
def madtFlags (m : Nat → UInt8) (madt : Nat) : List Bool := (madtLapics m madt).map (lapicEnabled m)

def mpFlagsFrom (m : Nat → UInt8) : Nat → Nat → List Bool
  | 0, _ => []
  | n + 1, entry =>
    if m entry = 0 then decide (m (entry + 3) &&& 1 ≠ 0) :: mpFlagsFrom m n (entry + 20)
    else if m entry ≤ 4 then mpFlagsFrom m n (entry + 8)
    else []

/-- **The cpus that an MP configuration table lists.** -/
def mpFlags (m : Nat → UInt8) (cfg : Nat) : List Bool :=
  if readLE m cfg 4 ≠ 0x504D4350 ∨ checksum8 m cfg (readLE m (cfg + 4) 2) ≠ 0 then []
  else mpFlagsFrom m (readLE m (cfg + 34) 2) (cfg + 44)

/-- The cpus of the table that is used: the MADT, or else the MP table, or else the one that
    runs. -/
def tableFlags (m : Nat → UInt8) (madt mp : Option Nat) : List Bool :=
  let flags := (madt.map (madtFlags m)).getD []
  let flags := if flags = [] then (mp.map (mpFlags m)).getD [] else flags
  if flags = [] then [true] else flags

variable {m : Nat → UInt8} {cpus : List SmpCpu} {flags : List Bool}

/-- The list holds the first cpus that were listed. -/
def Holds (cpus : List SmpCpu) (flags : List Bool) : Prop :=
  cpus.map (·.enabled) = flags.take smpMaxBootCpus

section

variable (h : Holds cpus flags)
include h

theorem Holds.length : cpus.length = min smpMaxBootCpus flags.length := by
  rw [← length_map (·.enabled), h, length_take]

theorem Holds.addCpu (c : SmpCpu) : Holds (addCpu cpus c) (flags ++ [c.enabled]) := by
  have hlen := h.length
  rw [Scheduler.addCpu, Holds]
  split_ifs with hfull
  · rw [take_append_of_le_length (by omega)]
    exact h
  · rw [map_append, h, take_of_length_le (by omega), take_of_length_le (by simp; omega)]
    rfl

theorem madtLoop_holds {end_ n ptr : Nat} :
    Holds (madtLoop m end_ n ptr cpus)
    (flags ++ (lapicsFrom m end_ n ptr).map (lapicEnabled m)) := by
  induction n generalizing ptr cpus flags with
  | zero =>
    rw [lapicsFrom, madtWalk, map_nil, append_nil]
    exact h
  | succ n ih =>
    rw [madtLoop, lapicsFrom, madtWalk]
    split_ifs with hstop hlapic
    · rw [map_nil, append_nil]
      exact h
    · rw [map_append, ← append_assoc]
      exact ih (h.addCpu _)
    · exact ih h

theorem mpLoop_holds {n entry : Nat} :
    Holds (mpLoop m n entry cpus) (flags ++ mpFlagsFrom m n entry) := by
  induction n generalizing entry cpus flags with
  | zero =>
    rw [mpFlagsFrom, append_nil]
    exact h
  | succ n ih =>
    rw [mpLoop, mpFlagsFrom]
    split_ifs with hcpu hother
    · rw [append_cons]
      exact ih (h.addCpu _)
    · exact ih h
    · rw [append_nil]
      exact h

end

theorem parseMadt_holds (madt : Nat) : Holds (parseMadt m madt) (madtFlags m madt) :=
  madtLoop_holds (show Holds [] [] from rfl)

theorem parseMpConfig_holds (cfg : Nat) : Holds (parseMpConfig m cfg) (mpFlags m cfg) := by
  rw [parseMpConfig, mpFlags]
  split_ifs
  · rfl
  · exact mpLoop_holds (show Holds [] [] from rfl)

theorem Holds.nil_iff (h : Holds cpus flags) : cpus = [] ↔ flags = [] := by
  have hlen := h.length
  have hmax : smpMaxBootCpus = 256 := rfl
  rw [← length_eq_zero_iff, ← length_eq_zero_iff (l := flags)]
  omega

/-- **`smp_init` takes over the first 256 cpus that the tables list.** -/
theorem smpInit_holds (madt mp : Option Nat) :
    Holds (smpInit m madt mp) (tableFlags m madt mp) := by
  have hmadt : Holds ((madt.map (parseMadt m)).getD []) ((madt.map (madtFlags m)).getD []) := by
    cases madt with
    | none => rfl
    | some a => exact parseMadt_holds a
  have hmp : Holds ((mp.map (parseMpConfig m)).getD []) ((mp.map (mpFlags m)).getD []) := by
    cases mp with
    | none => rfl
    | some a => exact parseMpConfig_holds a
  rw [smpInit, tableFlags]
  simp only [hmadt.nil_iff]
  by_cases hnone : (madt.map (madtFlags m)).getD [] = []
  · simp only [hnone, if_true, hmp.nil_iff]
    split_ifs
    · rfl
    · exact hmp
  · simp only [hnone, if_false, hmadt.nil_iff]
    exact hmadt

/-! ## 3. The least loaded runqueue -/

/-- Fewer ready processes, or as many and no more load. -/
def NoMoreThan (q q' : CpuRq) : Prop := q.count < q'.count ∨ (q.count = q'.count ∧ q.load ≤ q'.load)

theorem NoMoreThan.refl (q : CpuRq) : NoMoreThan q q := .inr ⟨rfl, UInt64.le_refl _⟩

theorem NoMoreThan.trans {q₁ q₂ q₃ : CpuRq} (h : NoMoreThan q₁ q₂) (h' : NoMoreThan q₂ q₃) :
    NoMoreThan q₁ q₃ := by
  simp only [NoMoreThan, UInt32.lt_iff_toNat_lt, UInt64.le_iff_toNat_le, ← UInt32.toNat_inj] at *
  omega

/-- The test of the loop fails only where the old choice is as good. -/
theorem noMoreThan_of_not {q q' : CpuRq}
    (h : ¬ (q'.count < q.count ∨ (q'.count = q.count ∧ q'.load < q.load))) : NoMoreThan q q' := by
  simp only [NoMoreThan, UInt32.lt_iff_toNat_lt, UInt64.le_iff_toNat_le, UInt64.lt_iff_toNat_lt,
    ← UInt32.toNat_inj] at *
  omega

theorem noMoreThan_of_test {q q' : CpuRq}
    (h : q'.count < q.count ∨ (q'.count = q.count ∧ q'.load < q.load)) :
    NoMoreThan q' q := by
  simp only [NoMoreThan, UInt32.lt_iff_toNat_lt, UInt64.le_iff_toNat_le, UInt64.lt_iff_toNat_lt,
    ← UInt32.toNat_inj] at *
  omega

/-- **The loop finds a least loaded one among all cpus that are listed.** -/
theorem leastLoadedLocked_least (s : State) : s.leastLoadedLocked < s.cpuCountOr1 ∧
    ∀ i, i < s.cpuCountOr1 → NoMoreThan (s.rq s.leastLoadedLocked) (s.rq i) := by
  have hpos : 0 < s.cpuCountOr1 := by
    rw [State.cpuCountOr1]
    split_ifs <;> omega
  have hloop : ∀ n, n + 1 ≤ s.cpuCountOr1 → (List.range' 1 n).foldl (fun best i =>
        if (s.rq i).count < (s.rq best).count ∨
            ((s.rq i).count = (s.rq best).count ∧ (s.rq i).load < (s.rq best).load)
        then i else best) 0 < n + 1 ∧
      ∀ i, i < n + 1 → NoMoreThan (s.rq ((List.range' 1 n).foldl (fun best i =>
        if (s.rq i).count < (s.rq best).count ∨
            ((s.rq i).count = (s.rq best).count ∧ (s.rq i).load < (s.rq best).load)
        then i else best) 0)) (s.rq i) := by
    intro n
    induction n with
    | zero =>
      intro _
      refine ⟨Nat.one_pos, fun i hi => ?_⟩
      obtain rfl : i = 0 := by omega
      exact .refl _
    | succ n ih =>
      intro hn
      obtain ⟨hlt, hleast⟩ := ih (by omega)
      rw [range'_concat, foldl_append, foldl_cons, foldl_nil, one_mul]
      split_ifs with htest
      · refine ⟨by omega, fun i hi => ?_⟩
        rcases Nat.lt_or_ge i (n + 1) with hlt' | hge
        · exact (noMoreThan_of_test htest).trans (hleast i hlt')
        · obtain rfl : i = 1 + n := by omega
          exact .refl _
      · refine ⟨by omega, fun i hi => ?_⟩
        rcases Nat.lt_or_ge i (n + 1) with hlt' | hge
        · exact hleast i hlt'
        · obtain rfl : i = 1 + n := by omega
          exact noMoreThan_of_not htest
  have hmain := hloop (s.cpuCountOr1 - 1) (by omega)
  rw [Nat.sub_add_cancel hpos] at hmain
  exact hmain

/-! ## 4. Where a process is put -/

/-- The cpu with this index is enabled. -/
def EnabledAt (cpus : List SmpCpu) (i : Nat) : Prop := (cpus.map (·.enabled))[i]? = some true

/-- **`scheduler_enqueue` puts the process on a runqueue that exists, of an enabled cpu, and none of
    the enabled cpus has less to do.** -/
def Placed (cpus : List SmpCpu) (s : State) (proc : ProcPtr) : Prop :=
  let cpu := ((s.schedulerEnqueue proc).procs proc).cpu
  ((s.schedulerEnqueue proc).rq cpu).list = proc :: (s.rq cpu).list ∧
    cpu < percpuMaxCpus ∧ EnabledAt cpus cpu ∧
    ∀ i, i < percpuMaxCpus → EnabledAt cpus i → NoMoreThan (s.rq cpu) (s.rq i)

theorem placed_iff {s : State} {proc : ProcPtr} : Placed cpus s proc ↔
    s.leastLoadedLocked < percpuMaxCpus ∧ EnabledAt cpus s.leastLoadedLocked ∧
      ∀ i, i < percpuMaxCpus → EnabledAt cpus i →
        NoMoreThan (s.rq s.leastLoadedLocked) (s.rq i) := by
  have hcpu : ((s.schedulerEnqueue proc).procs proc).cpu = s.leastLoadedLocked := by
    simp [State.schedulerEnqueue, State.enqueueAt, State.pushFront]
  have hlist : ((s.schedulerEnqueue proc).rq s.leastLoadedLocked).list =
      proc :: (s.rq s.leastLoadedLocked).list := by
    simp [State.schedulerEnqueue, State.enqueueAt, State.pushFront]
  simp only [Placed, hcpu, hlist, true_and]

/-- A scheduler in which one cpu has less to do than all others. -/
def lightest (n j : Nat) : State :=
  { State.init n with rq := fun i => if i = j then ⟨[], 0, 0, 0, 0⟩ else ⟨[], 1, 0, 0, 0⟩ }

theorem lightest_least {n j : Nat} (hj : j < n) : (lightest n j).leastLoadedLocked = j := by
  have hcount : (lightest n j).cpuCountOr1 = n := if_neg (show n ≠ 0 by omega)
  have hleast := (leastLoadedLocked_least (lightest n j)).2 j (by rw [hcount]; exact hj)
  by_contra hne
  have hj0 : ((lightest n j).rq j) = ⟨[], 0, 0, 0, 0⟩ := if_pos rfl
  have hbest : ((lightest n j).rq (lightest n j).leastLoadedLocked) = ⟨[], 1, 0, 0, 0⟩ := if_neg hne
  rw [hj0, hbest] at hleast
  rcases hleast with hlt | ⟨heq, -⟩
  · exact absurd hlt (by decide)
  · exact absurd heq (by decide)

/-- **Every process is put where it should be, whatever the runqueues hold, exactly when the table
    lists no more than 16 cpus and all of them are enabled.** -/
theorem enqueue_placed_iff (m : Nat → UInt8) (madt mp : Option Nat) :
    (∀ s : State, s.cpuCount = (smpInit m madt mp).length →
      ∀ proc, Placed (smpInit m madt mp) s proc) ↔
        (tableFlags m madt mp).length ≤ percpuMaxCpus ∧ ∀ b ∈ tableFlags m madt mp, b = true := by
  have hholds := smpInit_holds (m := m) madt mp
  have hlen := hholds.length
  have hmax : percpuMaxCpus = 16 := rfl
  have hboot : smpMaxBootCpus = 256 := rfl
  constructor
  · intro h
    -- a runqueue that is alone in having nothing to do is chosen
    have hchosen : ∀ j, j < (smpInit m madt mp).length → j < percpuMaxCpus ∧
        EnabledAt (smpInit m madt mp) j := by
      intro j hj
      have hplaced := placed_iff.mp (h (lightest _ j) rfl 0)
      rw [lightest_least hj] at hplaced
      exact ⟨hplaced.1, hplaced.2.1⟩
    have hfew : (tableFlags m madt mp).length ≤ percpuMaxCpus := by
      by_contra hmany
      have hlast := (hchosen 16 (by omega)).1
      omega
    refine ⟨hfew, fun b hb => ?_⟩
    obtain ⟨j, hj, rfl⟩ := getElem_of_mem hb
    have henabled := (hchosen j (by omega)).2
    rw [EnabledAt, hholds, List.getElem?_take_of_lt (by omega),
      List.getElem?_eq_getElem hj] at henabled
    exact Option.some.inj henabled
  intro ⟨hfew, hall⟩ s hs proc
  rw [placed_iff]
  have hflags : (tableFlags m madt mp) ≠ [] := by
    rw [tableFlags]
    split_ifs
    all_goals first | exact cons_ne_nil _ _ | assumption
  have hpos := length_pos_iff.mpr hflags
  have hcount : s.cpuCountOr1 = (tableFlags m madt mp).length := by
    rw [State.cpuCountOr1, if_neg (by omega)]
    omega
  obtain ⟨hlt, hleast⟩ := leastLoadedLocked_least s
  rw [hcount] at hlt hleast
  have hat : ∀ i, EnabledAt (smpInit m madt mp) i ↔ i < (tableFlags m madt mp).length := by
    intro i
    rw [EnabledAt, hholds, take_of_length_le (by omega)]
    constructor
    · intro hi
      exact (List.getElem?_eq_some_iff.mp hi).1
    · intro hi
      rw [List.getElem?_eq_getElem hi, hall _ (getElem_mem hi)]
  exact ⟨by omega, (hat _).mpr hlt, fun i _ hi => hleast i ((hat i).mp hi)⟩

/-- A MADT with an enabled and a disabled cpu. -/
def twoCpus : Nat → UInt8 := fun x =>
  ((List.replicate 44 0).set 4 60 ++ [0, 8, 0, 0, 1, 0, 0, 0] ++
    [0, 8, 1, 1, 0, 0, 0, 0])[x]?.getD 0

/-- A process is put on the disabled one. -/
theorem enqueue_on_disabled : tableFlags twoCpus (some 0) none = [true, false] ∧
    (lightest 2 1).cpuCount = (smpInit twoCpus (some 0) none).length ∧
    ¬ Placed (smpInit twoCpus (some 0) none) (lightest 2 1) 0 := by
  refine ⟨by decide, by decide, fun h => ?_⟩
  have henabled := (placed_iff.mp h).2.1
  rw [lightest_least (by decide)] at henabled
  rw [EnabledAt] at henabled
  exact absurd henabled (by decide)

/-! ## 5. The cpu that boots -/

/-- The addresses behind the header that `parse_madt` reads. -/
def madtReadsFrom (m : Nat → UInt8) (end_ : Nat) : Nat → Nat → List Nat :=
  madtWalk m end_
    (fun ptr => [ptr, ptr + 1] ++
      if IsLapic m ptr then [ptr + 2, ptr + 3] ++ (List.range 4).map (ptr + 4 + ·) else [])
    fun ptr => if end_ < ptr + 2 then [] else [ptr, ptr + 1]

/-- The cpu of a local APIC. -/
def lapicCpu (m : Nat → UInt8) (first : Bool) (ptr : Nat) : SmpCpu :=
  ⟨m (ptr + 2), m (ptr + 3), lapicEnabled m ptr, lapicEnabled m ptr && first⟩

/-- The first of the cpus is the one that can be marked. -/
def lapicCpus (m : Nat → UInt8) : List Nat → List SmpCpu
  | [] => []
  | ptr :: rest => lapicCpu m true ptr :: rest.map (lapicCpu m false)

/-- **A MADT is read as it should be.** -/
structure MadtRead (m : Nat → UInt8) (madt : Nat) : Prop where
  ends : ∀ n, readLE m (madt + 4) 4 ≤ n →
    madtLoop m (madt + readLE m (madt + 4) 4) n (madt + 44) [] = parseMadt m madt
  inside : ∀ n, ∀ a ∈ madtReadsFrom m (madt + readLE m (madt + 4) 4) n (madt + 44),
    a < madt + readLE m (madt + 4) 4
  listed : (parseMadt m madt).map (fun c => (c.processorId, c.lapicId, c.enabled)) =
    ((madtLapics m madt).take smpMaxBootCpus).map fun ptr =>
    (m (ptr + 2), m (ptr + 3), lapicEnabled m ptr)
  boots : ∃ disabled c rest, parseMadt m madt = disabled ++ c :: rest ∧
    c.enabled = true ∧ c.bootstrap = true ∧
    (∀ d ∈ disabled, d.enabled = false ∧ d.bootstrap = false) ∧ ∀ d ∈ rest, d.bootstrap = false

variable {end_ ptr : Nat}

theorem madtLoop_stable (n k : Nat) (hn : end_ ≤ ptr + n) (hk : end_ ≤ ptr + k) :
    madtLoop m end_ n ptr cpus = madtLoop m end_ k ptr cpus := by
  induction n generalizing k ptr cpus with
  | zero =>
    cases k with
    | zero => rfl
    | succ k => exact (if_pos (.inl (by omega))).symm
  | succ n ih =>
    cases k with
    | zero => exact if_pos (.inl (by omega))
    | succ k =>
      rw [madtLoop, madtLoop]
      split_ifs with hstop
      · rfl
      · exact ih k (by omega) (by omega)
      · exact ih k (by omega) (by omega)

theorem madtReadsFrom_lt {a n : Nat} (ha : a ∈ madtReadsFrom m end_ n ptr) : a < end_ := by
  induction n generalizing ptr with
  | zero => cases ha
  | succ n ih =>
    rw [madtReadsFrom, madtWalk] at ha
    split_ifs at ha with hstop hend hlapic
    · cases ha
    · simp only [mem_cons, not_mem_nil, or_false] at ha
      omega
    · have hroom := hlapic.2
      simp only [mem_append, mem_cons, not_mem_nil, or_false, mem_map, mem_range] at ha
      rcases ha with (ha | ha | ⟨i, hi, rfl⟩) | ha
      · omega
      · omega
      · omega
      · exact ih ha
    · simp only [append_nil, mem_append, mem_cons, not_mem_nil, or_false] at ha
      rcases ha with ha | ha
      · omega
      · exact ih ha

theorem addCpu_take (c : SmpCpu) :
    addCpu (cpus.take smpMaxBootCpus) c = (cpus ++ [c]).take smpMaxBootCpus := by
  have hlength := cpus.length_take (i := smpMaxBootCpus)
  rw [addCpu]
  split_ifs with hfull
  · rw [take_append_of_le_length (by omega)]
  · rw [take_of_length_le (by omega), take_of_length_le (by simp; omega)]

/-- Behind the first cpu none is marked. -/
theorem madtLoop_rest {n : Nat} (hne : cpus ≠ []) :
    madtLoop m end_ n ptr (cpus.take smpMaxBootCpus) =
      (cpus ++ (lapicsFrom m end_ n ptr).map (lapicCpu m false)).take smpMaxBootCpus := by
  induction n generalizing ptr cpus with
  | zero => rw [lapicsFrom, madtWalk, map_nil, append_nil, madtLoop]
  | succ n ih =>
    have hcpu : (⟨m (ptr + 2), m (ptr + 3), lapicEnabled m ptr,
        lapicEnabled m ptr && (cpus.take smpMaxBootCpus).isEmpty⟩ : SmpCpu) =
          lapicCpu m false ptr := by
      rw [lapicCpu, isEmpty_eq_false_iff.mpr (by simp [hne, smpMaxBootCpus])]
    rw [madtLoop, lapicsFrom, madtWalk]
    dsimp only
    rw [hcpu]
    split_ifs with hstop hlapic
    · rw [map_nil, append_nil]
    · rw [addCpu_take, ih (by simp), map_append, append_assoc]
      rfl
    · exact ih hne

theorem madtLoop_cpus {n : Nat} :
    madtLoop m end_ n ptr [] = (lapicCpus m (lapicsFrom m end_ n ptr)).take smpMaxBootCpus := by
  induction n generalizing ptr with
  | zero => rfl
  | succ n ih =>
    rw [madtLoop, lapicsFrom, madtWalk]
    split_ifs with hstop hlapic
    · rfl
    · exact madtLoop_rest (cons_ne_nil (lapicCpu m true ptr) [])
    · exact ih

/-- A table of two local APICs, of which the first is disabled. -/
def offlineFirst : Nat → UInt8 := fun a =>
  if a = 4 then 60 else if a = 45 ∨ a = 53 then 8 else if a = 56 then 1 else 0

end DyntKernel.Scheduler
