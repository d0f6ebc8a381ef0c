/-
  File:      DyntKernel/Fat/NameSets.lean
  Subject:   WHICH LONG NAMES A DIRECTORY SHOWS (fs/fat32.c, lfn_add_part, lfn_assemble,
             read_directory).

  The scan collects the parts of long names it comes to and gives the text they spell to the next
  8.3 entry. It looks neither at the checksums nor at the sequence numbers, and in a cluster without
  an end mark it starts again with the parts of the end of the cluster.

  * `partsAt` -- the parts in front of an entry, as they stand in the directory;
  * `CompleteSet` -- parts with the numbers 1 to n that carry the checksum of the entry;
  * `kept`, `spelled` -- the bytes that become a name: the parts since the last full lot of 21, and
    their characters in the order of their numbers;
  * `WellNamed` -- an entry shows its short name, unless its parts are such a set;
  * `CleanNames` -- the condition on the bytes of the directory; `long_names_iff` -- every call of
    the callback gets a well-named entry, exactly then.
-/
import DyntKernel.Fat.Scan
import DyntKernel.Fat.SlotWrites

namespace DyntKernel.Fat

open Library Prog List

/-! ## 1. The parts in front of an entry -/

/-- The entry holds a part of a long name. -/
def IsPart (e : Nat → UInt8) : Prop := e 0 ≠ 0x00 ∧ e 0 ≠ 0xE5 ∧ e 11 &&& attrLfn = attrLfn

instance (e : Nat → UInt8) : Decidable (IsPart e) := inferInstanceAs (Decidable (_ ∧ _ ∧ _))

/-- **The parts directly in front of the entry `i`**, in the order of the directory; those in front
    of the first entry are `before`. -/
def partsAt (before : List (Nat → UInt8)) (buf : Nat → UInt8) : Nat → List (Nat → UInt8)
  | 0 => before
  | i + 1 => if IsPart (slotAt buf i) then partsAt before buf i ++ [slotAt buf i] else []

/-- **A complete set of parts for the entry `e`.** -/
structure CompleteSet (parts : List (Nat → UInt8)) (e : Nat → UInt8) : Prop where
  nonempty : parts ≠ []
  numbers : (parts.map fun p => (p 0 &&& 0x3F).toNat).Perm (List.range' 1 parts.length)
  checksum : ∀ p ∈ parts, p 13 = lfnChecksum ((List.range 11).map e)

/-- The character `i` of a part ends its text. -/
def EndsText (p : Nat → UInt8) (i : Nat) : Prop :=
  (p (partOffset i) = 0 ∧ p (partOffset i + 1) = 0) ∨
    (p (partOffset i) = 0xFF ∧ p (partOffset i + 1) = 0xFF)

instance (p : Nat → UInt8) (i : Nat) : Decidable (EndsText p i) :=
  inferInstanceAs (Decidable (_ ∨ _))

/-- The text of a part: its 13 characters up to the first one that ends it. -/
def partText (p : Nat → UInt8) : List UInt8 :=
  ((List.range 13).takeWhile fun i => ¬ EndsText p i).map fun i =>
    if p (partOffset i + 1) = 0 then p (partOffset i) else '?'.toUInt8

/-- The parts since the last full lot of 21, at which `lfn_add_part` starts again with none. -/
def kept (parts : List (Nat → UInt8)) : List (Nat → UInt8) := parts.drop (21 * (parts.length / 21))

/-- **The text that the bytes of some parts spell**, in the order of their numbers. -/
def spelled (parts : List (Nat → UInt8)) : List UInt8 :=
  (List.range' 1 parts.length).flatMap fun n =>
    ((parts.find? fun p => (p 0 &&& 0x3F).toNat = n).map partText).getD []

/-- What the scan has collected of some parts. -/
def collect (parts : List (Nat → UInt8)) : LfnAcc := parts.foldl lfnAddPart []

variable {v : Volume} {d : Disk 512} {buf e : Nat → UInt8} {c i k n : Nat} {acc : LfnAcc} {s : Slot}
  {before before' parts : List (Nat → UInt8)}

theorem collect_snoc : collect (parts ++ [e]) = lfnAddPart (collect parts) e := by
  rw [collect, foldl_append]
  rfl

theorem kept_length : (kept parts).length = parts.length % 21 := by
  rw [kept, length_drop]
  omega

theorem kept_snoc : kept (parts ++ [e]) = if parts.length % 21 = 20 then []
    else kept parts ++ [e] := by
  rw [kept, length_append, length_singleton]
  split_ifs with hfull
  · exact drop_eq_nil_of_le (by rw [length_append, length_singleton]; omega)
  · rw [show (parts.length + 1) / 21 = parts.length / 21 by omega,
      drop_append_of_le_length (by omega)]
    rfl

theorem lfnParseChars_takeWhile (p : Nat → UInt8) (is : List Nat) :
    lfnParseChars p is = (is.takeWhile fun i => ¬ EndsText p i).map fun i =>
      if p (partOffset i + 1) = 0 then p (partOffset i) else '?'.toUInt8 := by
  induction is with
  | nil => rfl
  | cons i is ih =>
    by_cases hend : EndsText p i
    · rw [takeWhile_cons_of_neg (by simpa using hend)]
      exact if_pos hend
    · rw [takeWhile_cons_of_pos (by simpa using hend), map_cons, ← ih]
      exact if_neg hend

/-- The scan keeps the numbers and the texts of the parts since the last full lot. -/
theorem collect_eq : collect parts = (kept parts).map fun p => (p 0 &&& 0x3F, partText p) := by
  induction parts using List.reverseRecOn with
  | nil => rfl
  | append_singleton parts e ih =>
    have hmax : lfnMaxParts = 20 := rfl
    rw [collect_snoc, ih, lfnAddPart, length_map, kept_length, kept_snoc]
    split_ifs with hge heq heq
    · rfl
    · omega
    · omega
    · rw [map_append, lfnParsePart, lfnParseChars_takeWhile]
      rfl

/-- The loop of `lfn_assemble` joins the texts, cut at the size of the name. -/
theorem foldl_lfnJoin (a : LfnAcc) (m : Nat) (ns : List Nat) (out : List UInt8) :
    ns.foldl (lfnJoin a (m + 1)) (out.take m) = (out ++ ns.flatMap fun n =>
      ((a.find? fun part => part.1.toNat = n).map Prod.snd).getD []).take m := by
  induction ns generalizing out with
  | nil => rw [foldl_nil, flatMap_nil, append_nil]
  | cons n ns ih =>
    have hround : lfnJoin a (m + 1) (out.take m) n =
        (out ++ ((a.find? fun part => part.1.toNat = n).map Prod.snd).getD []).take m := by
      rw [lfnJoin, take_append]
      cases a.find? fun part => part.1.toNat = n with
      | none => simp
      | some part =>
        simp only [Option.map_some, Option.getD_some, length_take]
        rw [show m + 1 - 1 - min m out.length = m - out.length by omega]
    rw [foldl_cons, hround, ih, flatMap_cons, append_assoc]

theorem lfnAssemble_collect :
    lfnAssemble (collect parts) nameMax = (spelled (kept parts)).take (nameMax - 1) := by
  have hjoin :=
    foldl_lfnJoin (collect parts) (nameMax - 1) (List.range' 1 (collect parts).length) []
  rw [take_nil, nil_append] at hjoin
  rw [lfnAssemble, spelled]
  refine hjoin.trans ?_
  simp only [collect_eq, length_map, find?_map, Option.map_map]
  rfl

theorem shortField_length (start n : Nat) : (shortField e start n).length ≤ n := by
  rw [shortField, length_map]
  refine (takeWhile_sublist _).length_le.trans ?_
  rw [length_map, length_range']

theorem buildShortName_length : (buildShortName e).length ≤ 12 := by
  refine (takeWhile_sublist _).length_le.trans ?_
  have hbase := shortField_length (e := e) 0 8
  have hext := shortField_length (e := e) 8 3
  rw [length_append]
  split_ifs
  · rw [length_cons]
    omega
  · rw [length_nil]
    omega

/-- The name an entry gets is its short name when no parts are left, or when they spell it. -/
theorem slotName_short_iff : slotName (collect parts) e = buildShortName e ↔
    parts.length % 21 = 0 ∨ spelled (kept parts) = buildShortName e := by
  have hshort := buildShortName_length (e := e)
  have htake : (spelled (kept parts)).take (nameMax - 1) = buildShortName e ↔
      spelled (kept parts) = buildShortName e := by
    have hmax : nameMax = 256 := rfl
    -- A text that is cut is longer than any short name.
    refine ⟨fun h => ?_, fun h => by rw [h, take_of_length_le (by omega)]⟩
    have hlen := congrArg length h
    rw [length_take] at hlen
    rw [← h, take_of_length_le (by omega)]
  rw [slotName, lfnAssemble_collect, collect_eq, length_map, kept_length]
  split_ifs with hpos
  · rw [htake]
    exact ⟨.inr, fun h => h.resolve_left (by omega)⟩
  · exact ⟨fun _ => .inl (by omega), fun _ => rfl⟩

theorem partsAt_one (h : IsPart (slotAt buf 0)) : partsAt [] buf 1 = [slotAt buf 0] := if_pos h

/-- What stands in front of the cluster does not matter behind an entry that is no part. -/
theorem partsAt_congr (h : ∃ k, k < n ∧ ¬ IsPart (slotAt buf k)) :
    partsAt before buf n = partsAt before' buf n := by
  induction n with
  | zero =>
    omega
  | succ n ih =>
    rw [partsAt, partsAt]
    by_cases hpart : IsPart (slotAt buf n)
    · obtain ⟨k, hk, hnot⟩ := h
      have hne : k ≠ n := fun heq => hnot (heq ▸ hpart)
      rw [if_pos hpart, if_pos hpart, ih ⟨k, by omega, hnot⟩]
    · rw [if_neg hpart, if_neg hpart]

theorem collect_partsAt_of_part (h : IsPart (slotAt buf i)) :
    collect (partsAt before buf (i + 1)) =
      lfnAddPart (collect (partsAt before buf i)) (slotAt buf i) := by
  rw [partsAt, if_pos h, collect_snoc]

theorem collect_partsAt_of_not (before : List (Nat → UInt8)) (h : ¬ IsPart (slotAt buf i)) :
    collect (partsAt before buf (i + 1)) = [] := by
  rw [partsAt, if_neg h]
  rfl

/-! ## 2. The entries of a cluster -/

/-- No end mark stands in front of the entry `i`. -/
def Reached (buf : Nat → UInt8) (i : Nat) : Prop := ∀ k, k < i → buf (k * 32) ≠ 0x00

/-- The entry `k` as the callback gets it. -/
def shownSlot (c : Nat) (before : List (Nat → UInt8)) (buf : Nat → UInt8) (k : Nat) : Slot :=
  ⟨c, k * 32, slotAt buf k, slotName (collect (partsAt before buf k)) (slotAt buf k)⟩

/-- **The entries of a cluster, with their names.** -/
theorem mem_clusterSlots_iff (hi : Reached buf i) :
    s ∈ (clusterSlots c buf i n (collect (partsAt before buf i))).1 ↔
      ∃ k, i ≤ k ∧ k < i + n ∧ Reached buf k ∧ Live (slotAt buf k) ∧
        s = shownSlot c before buf k := by
  induction n generalizing i with
  | zero =>
    refine ⟨fun hs => absurd hs not_mem_nil, ?_⟩
    rintro ⟨k, hge, hlt, -⟩
    omega
  | succ n ih =>
    -- behind an entry that is not live, with the parts the scan then has
    have hlater (hused : buf (i * 32) ≠ 0x00) (hdead : ¬ Live (slotAt buf i)) :
        (∃ k, i + 1 ≤ k ∧ k < i + 1 + n ∧ Reached buf k ∧ Live (slotAt buf k) ∧
          s = shownSlot c before buf k) ↔
        ∃ k, i ≤ k ∧ k < i + (n + 1) ∧ Reached buf k ∧ Live (slotAt buf k) ∧
          s = shownSlot c before buf k := by
      constructor
      · intro ⟨k, hge, hlt, hrest⟩
        exact ⟨k, by omega, by omega, hrest⟩
      · intro ⟨k, hge, hlt, hreach, hlive, hs⟩
        have hne : k ≠ i := fun heq => hdead (heq ▸ hlive)
        exact ⟨k, by omega, by omega, hreach, hlive, hs⟩
    have hnext (hused : buf (i * 32) ≠ 0x00) : Reached buf (i + 1) := by
      intro k hk
      rcases Nat.lt_succ_iff_lt_or_eq.mp hk with hlt | rfl
      · exact hi k hlt
      · exact hused
    rw [clusterSlots]
    split_ifs with hend hdel hlfn
    · refine ⟨fun hs => absurd hs not_mem_nil, ?_⟩
      rintro ⟨k, hge, -, hreach, hlive, -⟩
      rcases Nat.eq_or_lt_of_le hge with rfl | hgt
      · exact absurd hend hlive.1
      · exact absurd hend (hreach i hgt)
    · rw [← collect_partsAt_of_not before fun hpart => hpart.2.1 hdel, ih (hnext hend),
        hlater hend fun hlive => hlive.2.1 hdel]
    · have hparts : lfnAddPart (collect (partsAt before buf i)) (fun j => buf (i * 32 + j)) =
          collect (partsAt before buf (i + 1)) := (collect_partsAt_of_part ⟨hend, hdel, hlfn⟩).symm
      rw [hparts, ih (hnext hend), hlater hend fun hlive => hlive.2.2 hlfn]
    have hlive : Live (slotAt buf i) := ⟨hend, hdel, hlfn⟩
    simp only [mem_cons]
    rw [← collect_partsAt_of_not before fun hpart => hlfn hpart.2.2, ih (hnext hend)]
    constructor
    · rintro (rfl | ⟨k, hge, hlt, hrest⟩)
      · exact ⟨i, Nat.le_refl i, by omega, hi, hlive, rfl⟩
      · exact ⟨k, by omega, by omega, hrest⟩
    · intro ⟨k, hge, hlt, hreach, hlive', hs⟩
      rcases Nat.eq_or_lt_of_le hge with rfl | hgt
      · exact .inl hs
      · exact .inr ⟨k, hgt, by omega, hreach, hlive', hs⟩

/-- The parts at the end of a cluster without an end mark. -/
theorem clusterSlots_rest {acc' : LfnAcc}
    (h : (clusterSlots c buf i n (collect (partsAt before buf i))).2 = some acc') :
    acc' = collect (partsAt before buf (i + n)) := by
  induction n generalizing i with
  | zero => exact (Option.some.inj h).symm
  | succ n ih =>
    rw [clusterSlots] at h
    rw [← Nat.succ_add_eq_add_succ]
    split_ifs at h with hend hdel hlfn
    · rw [← collect_partsAt_of_not before fun hpart => hpart.2.1 hdel] at h
      exact ih h
    · have hparts : lfnAddPart (collect (partsAt before buf i)) (fun j => buf (i * 32 + j)) =
          collect (partsAt before buf (i + 1)) := (collect_partsAt_of_part ⟨hend, hdel, hlfn⟩).symm
      rw [hparts] at h
      exact ih h
    · rw [← collect_partsAt_of_not before fun hpart => hlfn hpart.2.2] at h
      exact ih h

/-! ## 3. Names that are right -/

/-- **The entry shows its short name, unless the parts in front of it are a complete set.** -/
def WellNamed (buf : Nat → UInt8) (s : Slot) : Prop :=
  CompleteSet (partsAt [] buf (s.offset / 32)) s.entry ∨ s.name = buildShortName s.entry

/-- The parts `collected` when the scan comes to the entry `i` do no harm: those in front of it are
    a complete set, or none are left of the last lot, or their bytes spell the short name itself. -/
def NameOk (buf : Nat → UInt8) (collected : List (Nat → UInt8)) (i : Nat) : Prop :=
  CompleteSet (partsAt [] buf i) (slotAt buf i) ∨ collected.length % 21 = 0 ∨
    spelled (kept collected) = buildShortName (slotAt buf i)

/-- The names of one round of the scan. -/
def RoundOk (v : Volume) (buf : Nat → UInt8) (before : List (Nat → UInt8)) : Prop :=
  ∀ i, i < v.slots → Reached buf i → Live (slotAt buf i) → NameOk buf (partsAt before buf i) i

/-- **The condition on the bytes of a directory**: the parts in front of every entry do no harm, and
    if there is no end mark, those at the end of the cluster do none in front of the first entry. -/
def CleanNames (v : Volume) (buf : Nat → UInt8) : Prop :=
  RoundOk v buf [] ∧ (Reached buf v.slots → RoundOk v buf (partsAt [] buf v.slots))

theorem wellNamed_shownSlot : WellNamed buf (shownSlot c before buf k) ↔
    NameOk buf (partsAt before buf k) k := by
  have hk : k * 32 / 32 = k := Nat.mul_div_cancel k (by decide)
  rw [WellNamed, NameOk, shownSlot, hk, slotName_short_iff]

/-- The entries of one round are well named. -/
theorem roundOk_iff (v : Volume) (buf : Nat → UInt8) (c : Nat) : RoundOk v buf before ↔
    ∀ s ∈ (clusterSlots c buf 0 v.slots (collect before)).1, WellNamed buf s := by
  have hzero : Reached buf 0 := fun k hk => absurd hk (Nat.not_lt_zero k)
  have hmem (s : Slot) : s ∈ (clusterSlots c buf 0 v.slots (collect before)).1 ↔ _ :=
    mem_clusterSlots_iff hzero
  constructor
  · intro h s hs
    obtain ⟨k, -, hlt, hreach, hlive, rfl⟩ := (hmem s).mp hs
    exact wellNamed_shownSlot.mpr (h k (by omega) hreach hlive)
  · intro h i hi hreach hlive
    exact wellNamed_shownSlot.mp
      (h _ ((hmem _).mpr ⟨i, Nat.zero_le i, by omega, hreach, hlive, rfl⟩))

/-- Every later round is like the second one. -/
theorem CleanNames.later (h : CleanNames v buf) (hend : Reached buf v.slots) :
    RoundOk v buf (partsAt before buf v.slots) := by
  intro i hi hreach hlive
  have hsame : partsAt before buf v.slots = partsAt [] buf v.slots :=
    partsAt_congr ⟨i, hi, fun hpart => hlive.2.2 hpart.2.2⟩
  rw [hsame]
  exact h.2 hend i hi hreach hlive

/-! ## 4. All calls of the callback -/

section Calls

variable {σ : Type} {visit : Slot → σ → Bool × σ} {u : σ} {tr : List Slot} {fuel : Nat}

/-- Every call of the callback gets a well-named entry, whatever the callback does. -/
def ShowsRightNames (v : Volume) (d : Disk 512) (dir : Nat) : Prop :=
  ∀ (σ : Type) (visit : Slot → σ → Bool × σ) (u : σ) fuel r d',
    run (readDirectory v fuel dir (recorded visit) (u, [])) d = some (r, d') →
      ∀ s ∈ r.2.2, WellNamed (clusterBytes v d dir) s

/-- A callback that looks for something. -/
def seeks (f : Slot → Bool) (s : Slot) (u : Unit) : Bool × Unit := (f s, u)

/-- It is called on what it finds. -/
theorem visitAll_seeks {f : Slot → Bool} {l : List Slot}
    (h : ∃ s ∈ l, f s = true) (tr : List Slot) :
    (visitAll (recorded (seeks f)) l ((), tr)).1 = true ∧
      ∃ s ∈ (visitAll (recorded (seeks f)) l ((), tr)).2.2, f s = true := by
  induction l generalizing tr with
  | nil =>
    obtain ⟨s, hs, -⟩ := h
    cases hs
  | cons s l ih =>
    cases hs : f s with
    | true =>
      rw [visitAll_cons_of_true (show (recorded (seeks f) s ((), tr)).1 = true from hs)]
      exact ⟨rfl, s, mem_append_right tr (mem_singleton_self s), hs⟩
    | false =>
      rw [visitAll_cons_of_false (show (recorded (seeks f) s ((), tr)).1 = false from hs)]
      obtain ⟨t, ht, hf⟩ := h
      have htl : t ∈ l := (mem_cons.mp ht).resolve_left fun heq => by
        rw [heq, hs] at hf
        cases hf
      exact ih ⟨t, htl, hf⟩ (tr ++ [s])

theorem visitAll_seeks_none {f : Slot → Bool} {l : List Slot}
    (h : ∀ s ∈ l, f s = false) (tr : List Slot) :
    (visitAll (recorded (seeks f)) l ((), tr)).1 = false := by
  rw [visitAll_recorded_fst]
  induction l with
  | nil => rfl
  | cons s l ih =>
    rw [visitAll_cons_of_false (show (seeks f s ()).1 = false from h s mem_cons_self)]
    exact ih fun x hx => h x (mem_cons_of_mem s hx)

variable (hvalid : clusterValid c = true) (hfits : d.Fits (clusterToLba v c) v.sectorsPerCluster)

include hvalid hfits

/-- A run of the scan calls the callback on well-named entries. -/
theorem calls_wellNamed (h : CleanNames v (clusterBytes v d c))
    (hround : RoundOk v (clusterBytes v d c) before)
    {r : Bool × σ × List Slot} {d' : Disk 512}
    (hrun : run (readDirectoryLoop v c (recorded visit) fuel (collect before) (u, tr)) d =
      some (r, d')) :
    ∃ t, r.2.2 = tr ++ t ∧ ∀ s ∈ t, WellNamed (clusterBytes v d c) s := by
  induction fuel generalizing before u tr with
  | zero => cases hrun
  | succ fuel ih =>
    obtain ⟨t, htr, hmem, -⟩ := visitAll_record visit (diskSlots v d c (collect before)).1 u tr
    have hnamed : ∀ s ∈ t, WellNamed (clusterBytes v d c) s := fun s hs =>
      (roundOk_iff v _ c).mp hround s (hmem s hs)
    rw [run_round hvalid hfits] at hrun
    generalize hw :
      visitAll (recorded visit) (diskSlots v d c (collect before)).1 (u, tr) = w at hrun htr
    obtain ⟨found, u', tr'⟩ := w
    obtain rfl : tr' = tr ++ t := htr
    split_ifs at hrun with hfound
    · cases hrun
      exact ⟨t, rfl, hnamed⟩
    cases hrest : (diskSlots v d c (collect before)).2 with
    | none =>
      rw [hrest] at hrun
      cases hrun
      exact ⟨t, rfl, hnamed⟩
    | some acc =>
      have hend : Reached (clusterBytes v d c) v.slots := fun k hk hzero => by
        rw [diskSlots_end.mpr ⟨k, hk, hzero⟩] at hrest
        cases hrest
      obtain rfl : acc = collect (partsAt before _ (0 + v.slots)) := clusterSlots_rest hrest
      rw [hrest] at hrun
      rw [Nat.zero_add] at hrun
      obtain ⟨t', htr', hnamed'⟩ := ih (h.later hend) hrun
      refine ⟨t ++ t', by rw [htr', append_assoc], fun s hs => ?_⟩
      rcases mem_append.mp hs with hs | hs
      · exact hnamed s hs
      · exact hnamed' s hs

/-- A round that is not well named can be seen by a callback that looks for it. -/
theorem roundOk_of_calls (hshows : ShowsRightNames v d c)
    (hpass : ∀ (f : Slot → Bool), (∀ s, f s = true → ¬ WellNamed (clusterBytes v d c) s) →
      ∃ fuel tr,
      run (readDirectory v fuel c (recorded (seeks f)) ((), [])) d =
        run (readDirectoryLoop v c (recorded (seeks f)) 1 (collect before) ((), tr)) d) :
    RoundOk v (clusterBytes v d c) before := by
  classical
  rw [roundOk_iff v _ c]
  by_contra hnot
  simp only [not_forall] at hnot
  obtain ⟨s, hs, hbad⟩ := hnot
  obtain ⟨fuel, tr, hrun⟩ :=
    hpass (fun s => decide (¬ WellNamed (clusterBytes v d c) s)) fun s hs => by
    simpa using hs
  obtain ⟨hfound, t, ht, hft⟩ := visitAll_seeks (l := (diskSlots v d c (collect before)).1)
    (f := fun s => decide (¬ WellNamed (clusterBytes v d c) s)) ⟨s, hs, decide_eq_true hbad⟩ tr
  rw [run_round hvalid hfits, if_pos hfound] at hrun
  exact absurd (hshows Unit _ () fuel _ d hrun t ht) (by simpa using hft)

/-- The first round is seen by a callback that looks for entries without a right name, and the
    second one too when the first one has none and no end mark. -/
theorem cleanNames_of_shows (hshows : ShowsRightNames v d c) :
    CleanNames v (clusterBytes v d c) := by
  have hfirst : RoundOk v (clusterBytes v d c) [] :=
    roundOk_of_calls hvalid hfits hshows fun f _ => ⟨1, [], rfl⟩
  refine ⟨hfirst, fun hend => roundOk_of_calls hvalid hfits hshows fun f hf => ?_⟩
  have hquiet : (visitAll (recorded (seeks f)) (diskSlots v d c []).1 ((), [])).1 = false :=
    visitAll_seeks_none (fun s hs => Bool.eq_false_iff.mpr fun hfs =>
      hf s hfs ((roundOk_iff v _ c).mp hfirst s hs)) []
  cases hrest : (diskSlots v d c []).2 with
  | none =>
    obtain ⟨k, hk, hzero⟩ := diskSlots_end.mp hrest
    exact absurd hzero (hend k hk)
  | some acc =>
    have hacc : acc = collect (partsAt [] _ (0 + v.slots)) := clusterSlots_rest hrest
    rw [Nat.zero_add] at hacc
    refine ⟨2, (visitAll (recorded (seeks f)) (diskSlots v d c []).1 ((), [])).2.2, ?_⟩
    rw [readDirectory, run_round hvalid hfits, hquiet, hrest, if_neg Bool.false_ne_true, hacc]
    rfl

/-- **Every call of the callback gets a well-named entry, exactly when the bytes of the directory
    are clean.** -/
theorem long_names_iff : ShowsRightNames v d c ↔ CleanNames v (clusterBytes v d c) := by
  refine ⟨cleanNames_of_shows hvalid hfits, fun h σ visit u fuel r d' hrun s hs => ?_⟩
  obtain ⟨t, htr, hnamed⟩ := calls_wellNamed hvalid hfits h h.1 hrun
  rw [nil_append] at htr
  exact hnamed s (htr ▸ hs)

end Calls

/-- A directory with one part, the letter X with the given checksum, and the entry A behind it. -/
def oneNameDisk (checksum : UInt8) : Disk 512 :=
  ⟨16, fun x =>
    if x = 1024 then 0x41 else if x = 1025 then 0x58 else if x = 1035 then attrLfn
    else if x = 1037 then checksum
    else if x = 1056 then 0x41 else if 1056 < x ∧ x < 1067 then 0x20
    else if x = 1067 then 0x20 else 0⟩

theorem oneNameDisk_fits (checksum : UInt8) :
    (oneNameDisk checksum).Fits (clusterToLba smallVolume 2) smallVolume.sectorsPerCluster :=
  ⟨by decide, (by decide : clusterToLba smallVolume 2 < 16),
    (by decide : 1 ≤ 16 - clusterToLba smallVolume 2)⟩

/-- **A part with another checksum** names the entry behind it. -/
theorem foreign_part_shown : ¬ ShowsRightNames smallVolume (oneNameDisk 0) 2 := by
  intro hshows
  have hclean := (cleanNames_of_shows rfl (oneNameDisk_fits 0) hshows).1 1 (by decide)
    (by intro k hk; rw [Nat.lt_one_iff.mp hk]; decide +kernel) (by decide +kernel)
  rcases hclean with hset | hlen | htext
  · rw [partsAt_one (by decide +kernel)] at hset
    exact absurd (hset.checksum _ (mem_singleton_self _)) (by decide +kernel)
  · exact absurd hlen (by decide +kernel)
  · exact absurd htext (by decide +kernel)

/-- The checksum of A. -/
theorem right_part_shown : ShowsRightNames smallVolume (oneNameDisk 0x80) 2 := by
  refine (long_names_iff rfl (oneNameDisk_fits 0x80)).mpr
    ⟨fun i hi hreach hlive => ?_, fun hend => ?_⟩
  · have hlt : i < 3 := by
      by_contra hge
      exact hreach 2 (by omega) (by decide +kernel)
    obtain rfl | rfl | rfl : i = 0 ∨ i = 1 ∨ i = 2 := by omega
    · exact absurd hlive (by decide +kernel)
    · refine .inl ?_
      rw [partsAt_one (by decide +kernel)]
      exact ⟨cons_ne_nil _ _, by decide +kernel, fun p hp => by
        rw [mem_singleton.mp hp]; decide +kernel⟩
    · exact absurd hlive (by decide +kernel)
  · exact absurd (by decide +kernel) (hend 2 (by decide))

end DyntKernel.Fat
