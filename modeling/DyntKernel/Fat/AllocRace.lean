/-
  File:      DyntKernel/Fat/AllocRace.lean
  Subject:   TWO ALLOCATIONS OF A CLUSTER AT THE SAME TIME (fs/fat32.c, fat32_alloc_cluster).

  The allocation looks for a free entry, reads its sector again and writes it. No lock is held over
  these requests, so two processors can interleave them in any order.

  * `allocRace` -- two calls on one disk, each with its own sector buffer;
  * `TwoClusters` -- they return two clusters, both marked as the end of a chain;
  * `Overtaken` -- the condition on the order: one call has stored its entry before the other one
    looks at it;
  * `alloc_race_iff` -- two clusters exactly then; `both_take_two` -- an order in which both calls
    return the same cluster.
-/
import DyntKernel.Fat.Table

namespace DyntKernel.Fat

open Library Prog

variable {v : Volume} {d e : Disk 512} {c n i : Nat} {w : Bool} {schedule : List Bool}

/-! ## 1. The race -/

/-- The two calls; a processor is a `Bool`. -/
def allocRace (v : Volume) (d : Disk 512) : Shared Bool Area Nat 512 := ⟨fun _ => allocCluster v, d⟩

/-- **The two calls took two clusters.** -/
def TwoClusters (v : Volume) (s : Shared Bool Area Nat 512) : Prop :=
  ∃ c : Bool → Nat, (∀ w, s.prog w = .ret (c w) ∧ 2 ≤ c w ∧ entryAt v s.disk (c w) = eoc) ∧
    c true ≠ c false

/-- A free entry of the table. -/
def Free (v : Volume) (d : Disk 512) (c : Nat) : Prop := 2 ≤ c ∧ c < v.total ∧ entryAt v d c = 0

/-- The first free entry. -/
def FirstFree (v : Volume) (d : Disk 512) (c : Nat) : Prop :=
  Free v d c ∧ ∀ k, Free v d k → c ≤ k

/-- **At some point of the schedule one call has made all its requests and the other one has not
    yet read the entry `c`**: an alone call looks at `2, .., c`, reads the sector and writes it. -/
def Overtaken (c : Nat) (schedule : List Bool) : Prop :=
  ∃ start, start <+: schedule ∧ ∃ w, c + 1 ≤ start.count w ∧ start.count (!w) + 2 ≤ c

theorem Overtaken.snoc (h : Overtaken c schedule) : Overtaken c (schedule ++ [w]) := by
  obtain ⟨start, hstart, hcount⟩ := h
  exact ⟨start, hstart.trans (List.prefix_append ..), hcount⟩

/-- A schedule one longer overtakes only if it did before or does so now. -/
theorem Overtaken.of_snoc (h : Overtaken c (schedule ++ [w])) : Overtaken c schedule ∨
    ∃ u, c + 1 ≤ (schedule ++ [w]).count u ∧ (schedule ++ [w]).count (!u) + 2 ≤ c := by
  obtain ⟨start, hstart, hcount⟩ := h
  rcases List.prefix_concat_iff.mp hstart with rfl | hstart
  · exact .inr hcount
  · exact .inl ⟨start, hstart, hcount⟩

/-! ## 2. One call, request by request -/

/-- The call when it is about to read the entry `2 + i`. -/
def scanAt (v : Volume) (i : Nat) : Io Nat :=
  findFreeFrom v (2 + i) (v.total - 2 - i) >>= takeCluster v

/-- The call when it is about to write the sector of the entry `c`. -/
def storeAt (v : Volume) (c : Nat) (data : Nat → UInt8) : Io Nat :=
  .write .table (entryLba v c) 1 data fun r => if r then .ret c else .ret 0

/-- The sector `fat_write_entry` writes, read from `d`. -/
def storeData (v : Volume) (d : Disk 512) (c : Nat) : Nat → UInt8 :=
  writeLE (d.sector (entryLba v c)) (entryOff c) 4
    (newEntry (readLE (d.sector (entryLba v c)) (entryOff c) 4) eoc)

/-- **A call after `i` requests on the disk `d`**, as long as it has not written. -/
def callAt (v : Volume) (d : Disk 512) (c i : Nat) : Io Nat :=
  if i + 2 ≤ c then scanAt v i else if i + 1 = c then takeCluster v c
  else storeAt v c (storeData v d c)

theorem FirstFree.ne_zero (h : FirstFree v d c) : c ≠ 0 := by
  have hge := h.1.1
  omega

/-- The requests of `fat_read_entry`, in front of what is done with the entry. -/
theorem step_fatReadEntry {f : Nat → Io Nat} :
    (fatReadEntry v c >>= f).step d = (f (entryAt v d c), d) := by
  rw [fatReadEntry, bind_assoc, step_bind_read, Disk.read, entryAt]
  split_ifs with hfits
  · rw [← readLE_sector]
    rfl
  · rfl

theorem step_scanAt (hi : 2 + i < v.total) : (scanAt v i).step d =
    (if entryAt v d (2 + i) = 0 then takeCluster v (2 + i) else scanAt v (i + 1), d) := by
  obtain ⟨n, hn⟩ : ∃ n, v.total - 2 - i = n + 1 := ⟨v.total - 2 - i - 1, by omega⟩
  have hnext : v.total - 2 - (i + 1) = n := by omega
  rw [scanAt, scanAt, hn, hnext, findFreeFrom, bind_assoc, step_fatReadEntry]
  split_ifs with hzero
  · rw [pure_bind]
  · rfl

theorem step_takeCluster (hc : c ≠ 0) (hfits : e.Fits (entryLba v c) 1) :
    (takeCluster v c).step e = (storeAt v c (storeData v e c), e) := by
  rw [takeCluster, if_neg hc, fatWriteEntry, bind_assoc, step_bind_read, Disk.read_of_fits hfits]
  rfl

theorem step_storeAt {data : Nat → UInt8} (hfits : e.Fits (entryLba v c) 1) :
    (storeAt v c data).step e = (.ret c, e.put (entryLba v c) 1 data) := by
  show ((if (e.write (entryLba v c) 1 data).1 then _ else _), (e.write (entryLba v c) 1 data).2) = _
  rw [Disk.write_of_fits hfits]
  rfl

theorem callAt_zero (h : FirstFree v d c) : callAt v d c 0 = allocCluster v := by
  rw [callAt, if_pos (by have := h.1.1; omega)]
  rfl

/-- A request before the write leaves the disk alone. -/
theorem step_callAt (h : FirstFree v d c) (hi : i < c) :
    (callAt v d c i).step d = (callAt v d c (i + 1), d) := by
  obtain ⟨⟨hge, htotal, hzero⟩, hleast⟩ := h
  have hfits := fits_of_entry_zero hzero
  rcases Nat.lt_trichotomy (i + 2) c with hlt | heq | hgt
  · have hused : entryAt v d (2 + i) ≠ 0 := fun hfree => by
      have := hleast (2 + i) ⟨by omega, by omega, hfree⟩
      omega
    rw [callAt, if_pos (by omega), step_scanAt (by omega), if_neg hused, callAt, if_pos (by omega)]
  · have hread : 2 + i = c := by omega
    rw [callAt, if_pos (by omega), step_scanAt (by omega), hread, if_pos hzero, callAt,
      if_neg (by omega), if_pos (by omega)]
  · rw [callAt, if_neg (by omega), if_pos (by omega), step_takeCluster (by omega) hfits, callAt,
      if_neg (by omega), if_neg (by omega)]

/-- The last request writes the entry. -/
theorem step_callAt_last (h : FirstFree v d c) :
    (callAt v d c c).step d = (.ret c, setEntry v d c eoc) := by
  have hfits := fits_of_entry_zero h.1.2.2
  rw [callAt, if_neg (by omega), if_neg (by omega), step_storeAt hfits, storeData, put_entry,
    readLE_sector]
  rfl

/-- A call that is still before the entry `c` has not returned. -/
theorem callAt_ne_ret (h : FirstFree v d c) (a : Nat) : callAt v d c i ≠ .ret a := by
  intro hret
  rw [callAt] at hret
  split_ifs at hret with h1 h2
  · obtain ⟨n, hn⟩ : ∃ n, v.total - 2 - i = n + 1 :=
      ⟨v.total - 2 - i - 1, by have := h.1.2.1; omega⟩
    rw [scanAt, hn] at hret
    cases hret
  · rw [takeCluster, if_neg h.ne_zero] at hret
    cases hret
  · cases hret

/-- **A call that has found the entry `c` returns it**, whatever happens to the disk. -/
def Found (v : Volume) (c : Nat) (p : Io Nat) : Prop :=
  p = takeCluster v c ∨ (∃ data, p = storeAt v c data) ∨ p = .ret c

theorem Found.step {p : Io Nat} (h : Found v c p) (hc : c ≠ 0) (hfits : e.Fits (entryLba v c) 1) :
    Found v c (p.step e).1 := by
  rcases h with rfl | ⟨data, rfl⟩ | rfl
  · rw [step_takeCluster hc hfits]
    exact .inr (.inl ⟨_, rfl⟩)
  · rw [step_storeAt hfits]
    exact .inr (.inr rfl)
  · exact .inr (.inr rfl)

theorem found_callAt (hlate : c < i + 2) : Found v c (callAt v d c i) := by
  rw [callAt, if_neg (by omega)]
  split_ifs
  · exact .inl rfl
  · exact .inr (.inl ⟨_, rfl⟩)

/-! ## 3. The second cluster -/

theorem freeFrom_eq {cl : Nat} (hge : cl ≤ c) (hlt : c < cl + n) (hzero : entryAt v d c = 0)
    (hbefore : ∀ k, cl ≤ k → k < c → entryAt v d k ≠ 0) : freeFrom v d cl n = c := by
  have hnot : ∀ k, cl ≤ k → k < c → (!decide (entryAt v d k = 0)) = true := fun k h1 h2 => by
    simpa using hbefore k h1 h2
  rw [freeFrom,
    List.find?_range'_eq_some.mpr ⟨decide_eq_true hzero, List.mem_range'_1.mpr ⟨hge, hlt⟩, hnot⟩]
  rfl

/-- A call that has not yet reached the first free entry, alone from there on. -/
theorem run_scanAt (h : FirstFree v d c) (hi : i + 2 ≤ c) :
    run (scanAt v i) d = some (c, setEntry v d c eoc) := by
  obtain ⟨⟨hge, htotal, hzero⟩, hleast⟩ := h
  have hfree : freeFrom v d (2 + i) (v.total - 2 - i) = c := by
    refine freeFrom_eq (by omega) (by omega) hzero fun k h1 h2 hk => ?_
    have := hleast k ⟨by omega, by omega, hk⟩
    omega
  rw [scanAt, run_bind_of run_findFreeFrom, hfree]
  exact run_takeCluster (by omega) (fits_of_entry_zero hzero)

theorem eoc_mask : eoc &&& 0x0FFFFFFF = eoc := by decide

theorem free_setEntry (h : Free v d c) {k : Nat} :
    Free v (setEntry v d c eoc) k ↔ Free v d k ∧ k ≠ c := by
  have hbound : v.total < 2 ^ 30 := Volume.total_lt
  obtain ⟨hge, hlt, hzero⟩ := h
  by_cases hk : k = c
  · subst hk
    have htaken : entryAt v (setEntry v d k eoc) k = eoc :=
      (entryAt_setEntry (fits_of_entry_zero hzero)).trans eoc_mask
    have hused : entryAt v (setEntry v d k eoc) k ≠ 0 := by
      rw [htaken]
      decide
    exact ⟨fun hfree => absurd hfree.2.2 hused, fun hfree => absurd rfl hfree.2⟩
  constructor
  · intro hfree
    have hsame : entryAt v (setEntry v d c eoc) k = entryAt v d k :=
      entryAt_setEntry_of_ne (by omega) (by have := hfree.2.1; omega) hk
    exact ⟨⟨hfree.1, hfree.2.1, hsame ▸ hfree.2.2⟩, hk⟩
  · rintro ⟨hfree, -⟩
    exact ⟨hfree.1, hfree.2.1, (entryAt_setEntry_of_ne (by omega) (by have := hfree.2.1; omega)
      hk).trans hfree.2.2⟩

/-- The first free entry of the disk on which `c` is taken. -/
theorem exists_second (h : FirstFree v d c) {k : Nat} (hk : Free v d k) (hne : k ≠ c) :
    ∃ c', c' ≠ c ∧ FirstFree v (setEntry v d c eoc) c' := by
  classical
  have hex : ∃ k, Free v (setEntry v d c eoc) k := ⟨k, (free_setEntry h.1).mpr ⟨hk, hne⟩⟩
  have hfree := Nat.find_spec hex
  exact ⟨Nat.find hex, ((free_setEntry h.1).mp hfree).2, hfree, fun k hk => Nat.find_min' hex hk⟩

/-! ## 4. The interleavings -/

/-- **Where a schedule can lead.** `early`: the call that is left runs on a disk where `c` is taken,
    and takes `c'`. `late`: it has found `c` too. -/
inductive Phase (v : Volume) (d : Disk 512) (c c' : Nat) (schedule : List Bool)
    (s : Shared Bool Area Nat 512) : Prop where
  | scanning (hcount : ∀ w, schedule.count w ≤ c)
      (hprog : ∀ w, s.prog w = callAt v d c (schedule.count w)) (hdisk : s.disk = d)
      (hover : ¬ Overtaken c schedule) : Phase v d c c' schedule s
  | early (w : Bool) (hret : s.prog w = .ret c) (hrun : run (s.prog (!w)) s.disk =
        some (c', setEntry v (setEntry v d c eoc) c' eoc))
      (hover : Overtaken c schedule) : Phase v d c c' schedule s
  | late (w : Bool) (hret : s.prog w = .ret c) (hfound : Found v c (s.prog (!w)))
      (hfits : s.disk.Fits (entryLba v c) 1) (hcount : ∀ w, c < schedule.count w + 2)
      (hover : ¬ Overtaken c schedule) : Phase v d c c' schedule s

theorem count_snoc : (schedule ++ [w]).count w = schedule.count w + 1 := by simp

theorem count_snoc_not : (schedule ++ [w]).count (!w) = schedule.count (!w) := by simp

theorem step_fits {p : Io Nat} {l m : Nat} : (p.step e).2.Fits l m ↔ e.Fits l m := by
  cases p with
  | ret a => exact Iff.rfl
  | hang => exact Iff.rfl
  | read lba count k => exact Iff.rfl
  | write kind lba count data k => exact Disk.write_fits

variable {c' : Nat} {s : Shared Bool Area Nat 512}

/-- One more request while both calls are looking for an entry. -/
theorem Phase.scan_step (h : FirstFree v d c) (h' : FirstFree v (setEntry v d c eoc) c')
    (hcount : ∀ w, schedule.count w ≤ c) (hprog : ∀ w, s.prog w = callAt v d c (schedule.count w))
    (hdisk : s.disk = d) (hover : ¬ Overtaken c schedule) :
    Phase v d c c' (schedule ++ [w]) (s.step w) := by
  have hother : (s.step w).prog (!w) = callAt v d c (schedule.count (!w)) := by
    rw [Shared.step_prog_of_ne (by simp), hprog]
  rcases Nat.lt_or_eq_of_le (hcount w) with hlt | heq
  · have hstep : (s.prog w).step s.disk = (callAt v d c (schedule.count w + 1), d) := by
      rw [hprog, hdisk, step_callAt h hlt]
    have hall : ∀ u, (schedule ++ [w]).count u ≤ c := by
      intro u
      rcases Bool.eq_or_eq_not u w with rfl | rfl
      · rw [count_snoc]
        exact hlt
      · rw [count_snoc_not]
        exact hcount _
    refine .scanning hall (fun u => ?_) (congrArg Prod.snd hstep) fun hnow => ?_
    · rcases Bool.eq_or_eq_not u w with rfl | rfl
      · rw [Shared.step_prog, hstep, count_snoc]
      · rw [hother, count_snoc_not]
    · rcases hnow.of_snoc with hbefore | ⟨u, hu, -⟩
      · exact hover hbefore
      · have := hall u
        omega
  have hstep : (s.prog w).step s.disk = (.ret c, setEntry v d c eoc) := by
    rw [hprog, hdisk, heq, step_callAt_last h]
  have hret : (s.step w).prog w = .ret c := by rw [Shared.step_prog, hstep]
  have hdisk' : (s.step w).disk = setEntry v d c eoc := congrArg Prod.snd hstep
  by_cases hearly : schedule.count (!w) + 2 ≤ c
  · have hle : c ≤ c' := h.2 c' ((free_setEntry h.1).mp h'.1).1
    refine .early w hret ?_ ⟨_, List.prefix_rfl,
      w, by rw [count_snoc, heq], by rwa [count_snoc_not]⟩
    rw [hother, hdisk', callAt, if_pos hearly]
    exact run_scanAt h' (by omega)
  have hall : ∀ u, c < (schedule ++ [w]).count u + 2 := by
    intro u
    rcases Bool.eq_or_eq_not u w with rfl | rfl
    · rw [count_snoc]
      omega
    · rw [count_snoc_not]
      omega
  refine .late w hret ?_ ?_ hall fun hnow => ?_
  · rw [hother]
    exact found_callAt (by omega)
  · rw [hdisk', setEntry_fits]
    exact fits_of_entry_zero h.1.2.2
  · rcases hnow.of_snoc with hbefore | ⟨u, -, hu⟩
    · exact hover hbefore
    · have := hall (!u)
      omega

/-- **One more request.** -/
theorem Phase.step (h : FirstFree v d c) (h' : FirstFree v (setEntry v d c eoc) c')
    (hp : Phase v d c c' schedule s) : Phase v d c c' (schedule ++ [w]) (s.step w) := by
  cases hp with
  | scanning hcount hprog hdisk hover => exact scan_step h h' hcount hprog hdisk hover
  | early u hret hrun hover =>
    rcases Bool.eq_or_eq_not w u with rfl | rfl
    · have hidle : (s.prog w).step s.disk = (.ret c, s.disk) := by rw [hret]; rfl
      refine .early w (by rw [Shared.step_prog, hidle]) ?_ hover.snoc
      rw [Shared.step_prog_of_ne (by simp), Shared.step, hidle]
      exact hrun
    · refine .early u (by rw [Shared.step_prog_of_ne (by simp), hret]) ?_ hover.snoc
      rw [Shared.step_prog]
      exact run_step.trans hrun
  | late u hret hfound hfits hcount hover =>
    have hall : ∀ x, c < (schedule ++ [w]).count x + 2 := fun x => by
      have := hcount x
      rw [List.count_append]
      omega
    have hnever : ¬ Overtaken c (schedule ++ [w]) := fun hnow => by
      rcases hnow.of_snoc with hbefore | ⟨x, -, hx⟩
      · exact hover hbefore
      · have := hall (!x)
        omega
    have hfits' : (s.step w).disk.Fits (entryLba v c) 1 := step_fits.mpr hfits
    rcases Bool.eq_or_eq_not w u with rfl | rfl
    · have hidle : (s.prog w).step s.disk = (.ret c, s.disk) := by rw [hret]; rfl
      refine .late w (by rw [Shared.step_prog, hidle]) ?_ hfits' hall hnever
      rw [Shared.step_prog_of_ne (by simp)]
      exact hfound
    · refine .late u (by rw [Shared.step_prog_of_ne (by simp), hret]) ?_ hfits' hall hnever
      rw [Shared.step_prog]
      exact hfound.step h.ne_zero hfits

/-- Every interleaving is in one of the phases. -/
theorem phase_play (schedule : List Bool) (h : FirstFree v d c)
    (h' : FirstFree v (setEntry v d c eoc) c') :
    Phase v d c c' schedule ((allocRace v d).play schedule) := by
  induction schedule using List.reverseRecOn with
  | nil =>
    refine .scanning (fun _ => Nat.zero_le c) (fun w => ?_) rfl fun hnow => ?_
    · exact (callAt_zero h).symm
    · obtain ⟨start, hstart, w, hw, -⟩ := hnow
      rw [List.prefix_nil.mp hstart] at hw
      exact absurd hw (Nat.not_succ_le_zero c)
  | append_singleton schedule w ih =>
    rw [Shared.play_snoc]
    exact ih.step h h'

/-- Two clusters are taken once the call that is left runs alone. -/
theorem twoClusters_of_early (h : FirstFree v d c) (h' : FirstFree v (setEntry v d c eoc) c')
    (hne : c' ≠ c) (hret : s.prog w = .ret c)
    (hrun : run (s.prog (!w)) s.disk = some (c', setEntry v (setEntry v d c eoc) c' eoc))
    (hdone : s.Done) : TwoClusters v s := by
  obtain ⟨b, hb⟩ := hdone (!w)
  rw [hb] at hrun
  obtain ⟨rfl, hdisk⟩ := Prod.mk.inj (Option.some.inj hrun)
  have hbound : v.total < 2 ^ 30 := Volume.total_lt
  have hc := h.1
  have hb' := ((free_setEntry hc).mp h'.1).1
  have hfirst : entryAt v s.disk c = eoc := by
    rw [hdisk, entryAt_setEntry_of_ne (by have := hb'.2.1; omega) (by have := hc.2.1; omega)
      (Ne.symm hne), entryAt_setEntry (fits_of_entry_zero hc.2.2), eoc_mask]
  have hsecond : entryAt v s.disk b = eoc := by
    rw [hdisk, entryAt_setEntry (fits_of_entry_zero h'.1.2.2), eoc_mask]
  refine ⟨fun u => if u = w then c else b, fun u => ?_, ?_⟩
  · beta_reduce
    rcases Bool.eq_or_eq_not u w with rfl | rfl
    · rw [if_pos rfl]
      exact ⟨hret, hc.1, hfirst⟩
    · rw [if_neg (by simp)]
      exact ⟨hb, hb'.1, hsecond⟩
  · cases w with
    | false => exact hne
    | true => exact Ne.symm hne

/-- A call that has found `c` and returned, returned `c`. -/
theorem Found.ret {a : Nat} (hc : c ≠ 0) (h : Found v c (.ret a)) : a = c := by
  rcases h with htake | ⟨data, hstore⟩ | hret
  · rw [takeCluster, if_neg hc] at htake
    cases htake
  · cases hstore
  · cases hret
    rfl

/-- **Two clusters, exactly when one call has stored its entry before the other looks at it.** -/
theorem alloc_race_iff {k : Nat} (h : FirstFree v d c) (hk : Free v d k) (hne : k ≠ c)
    (hdone : ((allocRace v d).play schedule).Done) :
    TwoClusters v ((allocRace v d).play schedule) ↔ Overtaken c schedule := by
  obtain ⟨c', hne', h'⟩ := exists_second h hk hne
  cases phase_play schedule h h' with
  | scanning hcount hprog hdisk hover =>
    obtain ⟨a, ha⟩ := hdone true
    exact absurd ((hprog true).symm.trans ha) (callAt_ne_ret h a)
  | early w hret hrun hover =>
    exact ⟨fun _ => hover, fun _ => twoClusters_of_early h h' hne' hret hrun hdone⟩
  | late w hret hfound hfits hcount hover =>
    refine ⟨fun htwo => ?_, fun hover' => absurd hover' hover⟩
    obtain ⟨f, hf, hdiff⟩ := htwo
    have hleft : f w = c := Prog.ret.inj ((hf w).1.symm.trans hret)
    have hright : f (!w) = c := Found.ret h.ne_zero ((hf (!w)).1 ▸ hfound)
    cases w with
    | false => exact absurd (hright.trans hleft.symm) hdiff
    | true => exact absurd (hleft.trans hright.symm) hdiff

/-- A disk of zeros: every entry is free. -/
def blankDisk : Disk 512 := ⟨16, fun _ => 0⟩

theorem blank_free : Free smallVolume blankDisk 2 ∧ Free smallVolume blankDisk 3 :=
  ⟨⟨by decide, by decide, by decide +kernel⟩, by decide, by decide, by decide +kernel⟩

/-- Both calls look at the entry 2 before one of them stores it. -/
def inStep : List Bool := [true, false, true, false, true, false]

theorem inStep_returns : ∀ w, ((allocRace smallVolume blankDisk).play inStep).prog w = .ret 2
  | false => rfl
  | true => rfl

/-- **Both calls return the cluster 2.** -/
theorem both_take_two : Free smallVolume blankDisk 2 ∧ Free smallVolume blankDisk 3 ∧
    ((allocRace smallVolume blankDisk).play inStep).Done ∧
    ¬ TwoClusters smallVolume ((allocRace smallVolume blankDisk).play inStep) := by
  refine ⟨blank_free.1, blank_free.2, fun w => ⟨2, inStep_returns w⟩, fun htwo => ?_⟩
  obtain ⟨f, hf, hdiff⟩ := htwo
  have hret : ∀ w, f w = 2 := fun w => Prog.ret.inj ((hf w).1.symm.trans (inStep_returns w))
  exact hdiff ((hret true).trans (hret false).symm)

/-- The calls one after the other. -/
def inTurn : List Bool := [true, true, true, false, false, false, false]

theorem alloc_race_inTurn :
    TwoClusters smallVolume ((allocRace smallVolume blankDisk).play inTurn) := by
  refine (alloc_race_iff (k := 3) ⟨blank_free.1, fun _ hk => hk.1⟩ blank_free.2 (by decide) fun w =>
    ?_).mpr ⟨[true, true, true], by decide, true, by decide, by decide⟩
  cases w
  · exact ⟨3, rfl⟩
  · exact ⟨2, rfl⟩

end DyntKernel.Fat
