/-
  File:      DyntKernel/Fat/SlotWrites.lean
  Subject:   WHAT A WRITE OF A DIRECTORY ENTRY CHANGES (fs/fat32.c, write_dir_entry_at,
             create_dir_entries, mark_entry_deleted).

  Each of them writes a whole cluster back. In terms of the entries of 32 bytes it changes one
  entry, and entries around it that are free or hold parts of a long name.

  * `KeepsOthers` -- the live entries besides one are the same;
  * `Stamped` -- an entry as `write_dir_entry_at` leaves it, `Stamped.live`, `Stamped.firstCluster`;
  * `findRun_spec` -- a run of free entries;
  * `Item`, `ItemSet` -- what a live entry says, and the change of one of them;
  * `does_writeDirEntryAt`, `does_createDirEntries` -- the routines.
-/
import DyntKernel.Fat.Image

namespace DyntKernel.Fat

open Library Prog List Function

variable {v : Volume} {m : Image} {N c i k n x off first size : Nat} {b buf e : Nat → UInt8}
  {short name : List UInt8} {isDir : Bool}

/-! ## 1. Buffers -/

/-- The entry `k` of the bytes of a cluster. -/
def slotAt (b : Nat → UInt8) (k : Nat) : Nat → UInt8 := fun j => b (k * 32 + j)

/-- **The entries besides `i` are the same**, or they are not live before and after. -/
def KeepsOthers (v : Volume) (i : Nat) (b b' : Nat → UInt8) : Prop :=
  ∀ k, k < v.slots → k ≠ i → (∀ j, j < 32 → slotAt b' k j = slotAt b k j) ∨
    ¬ Live (slotAt b k) ∧ ¬ Live (slotAt b' k)

theorem not_live_of_lfn (h : e 11 = attrLfn) : ¬ Live e :=
  fun hlive => hlive.2.2 (by rw [h]; decide)

theorem not_live_of_free (h : e 0 = 0x00 ∨ e 0 = 0xE5) : ¬ Live e := by
  intro hlive
  rcases h with h | h
  · exact hlive.1 h
  · exact hlive.2.1 h

/-! ## 2. Short names -/

/-- A character of a short name is none of the marks of an entry. -/
theorem validShortChar_marks {ch : UInt8} (h : validShortChar ch = true) :
    ch ≠ 0x00 ∧ ch ≠ 0xE5 ∧ ch ≠ '.'.toUInt8 := by
  refine ⟨?_, ?_, ?_⟩
  all_goals
    intro heq
    subst heq
    revert h
    decide

theorem padField_length {l : List UInt8} (h : l.length ≤ n) : (padField n l).length = n := by
  rw [padField, length_append, length_replicate]
  omega

/-- What `encode_short_name` returns: eleven bytes, and the first one is a character. -/
theorem encodeShortName_spec (h : encodeShortName name = some short) :
    short.length = 11 ∧ validShortChar (short.getD 0 0) = true := by
  rw [encodeShortName] at h
  generalize hbase : (name.take (min 8 ((lastDot name).getD 8))).map upper = base at h
  generalize hext :
    (((lastDot name).elim [] fun i => name.drop (i + 1)).take 3).map upper = ext at h
  have hbaseLen : base.length ≤ 8 := by
    rw [← hbase, length_map, length_take]
    omega
  have hextLen : ext.length ≤ 3 := by
    rw [← hext, length_map, length_take]
    omega
  split_ifs at h with hdot hvalid hempty hextValid
  cases h
  refine ⟨?_, ?_⟩
  · rw [length_append, padField_length hbaseLen, padField_length hextLen]
  · cases base with
    | nil => exact absurd rfl hempty
    | cons ch base =>
      rw [all_cons, Bool.and_eq_true] at hvalid
      exact hvalid.1

/-! ## 3. An entry that is written -/

theorem putBytes_of_out (h : x < off ∨ off + short.length ≤ x) : putBytes buf off short x = buf x :=
  blit_of_out h

theorem stampEntry_of_out (h : x < off + 11 ∨ off + 32 ≤ x) :
    stampEntry buf off first size isDir x = buf x := by
  simp only [stampEntry, writeLE]
  rw [blit_of_out (by omega), blit_of_out (by omega), blit_of_out (by omega),
    update_of_ne (by omega)]

/-- **An entry as `write_dir_entry_at` leaves it.** -/
structure Stamped (short : List UInt8) (first size : Nat) (isDir : Bool)
    (e : Nat → UInt8) : Prop where
  name : ∀ j, j < 11 → e j = short.getD j 0
  attr : e 11 = if isDir then attrDirectory else 0x20
  high : readLE e 20 2 = first / 2 ^ 16 % 2 ^ 16
  low : readLE e 26 2 = first % 2 ^ 16
  length : readLE e 28 4 = size % 2 ^ 32

theorem stamped_slot (hlen : short.length = 11) :
    Stamped short first size isDir
    (slotAt (stampEntry (putBytes buf (i * 32) short) (i * 32) first size isDir) i) := by
  have hread (a w : Nat) (bs : Nat → UInt8) : readLE (slotAt bs i) a w = readLE bs (i * 32 + a) w :=
    readLE_congr fun j _ => by rw [slotAt, Nat.add_assoc]
  refine ⟨fun j hj => ?_, ?_, ?_, ?_, ?_⟩
  · rw [slotAt, stampEntry_of_out (.inl (by omega)), putBytes, blit_of_in (by omega)]
  · simp only [slotAt, stampEntry, writeLE]
    rw [blit_of_out (by omega), blit_of_out (by omega), blit_of_out (by omega), update_self]
  · simp only [hread, stampEntry]
    rw [writeLE, readLE_blit_of_disjoint (by omega), writeLE, readLE_blit_of_disjoint (by omega),
      readLE_writeLE, Nat.shiftRight_eq_div_pow]
    rfl
  · simp only [hread, stampEntry]
    rw [writeLE, readLE_blit_of_disjoint (by omega), readLE_writeLE]
    rfl
  · simp only [hread, stampEntry]
    exact readLE_writeLE

namespace Stamped

variable (h : Stamped short first size isDir e)

include h

theorem first_byte (hshort : encodeShortName name = some short) :
    e 0 ≠ 0x00 ∧ e 0 ≠ 0xE5 ∧ e 0 ≠ '.'.toUInt8 := by
  rw [h.name 0 (by decide)]
  exact validShortChar_marks (encodeShortName_spec hshort).2

theorem live (hshort : encodeShortName name = some short) : Live e := by
  obtain ⟨hzero, hdel, -⟩ := h.first_byte hshort
  refine ⟨hzero, hdel, ?_⟩
  rw [h.attr]
  cases isDir
  · decide
  · decide

theorem dirent_isDir : (makeDirent e name).isDir = isDir := by
  simp only [makeDirent, h.attr]
  cases isDir
  · decide
  · decide

theorem firstCluster (hfirst : first < 2 ^ 32) : (makeDirent e name).firstCluster = first := by
  simp only [makeDirent, h.high, h.low]
  rw [← Nat.shiftLeft_add_eq_or_of_lt (Nat.mod_lt _ (by decide)), Nat.shiftLeft_eq]
  omega

end Stamped

/-! ## 4. Free entries -/

/-- **The run of free entries that is found.** -/
theorem findRun_spec {slots run : Nat} (hrun : run < slots) (hle : run ≤ i)
    (hfree : ∀ k, i - run ≤ k → k < i → buf (k * 32) = 0x00 ∨ buf (k * 32) = 0xE5)
    (h : findRun buf slots i n run = some off) : ∃ i₀, off = i₀ * 32 ∧ i₀ + slots ≤ i + n ∧
      ∀ k, i₀ ≤ k → k < i₀ + slots → buf (k * 32) = 0x00 ∨ buf (k * 32) = 0xE5 := by
  induction n generalizing i run with
  | zero => cases h
  | succ n ih =>
    rw [findRun] at h
    split_ifs at h with hhere hlast
    · cases h
      refine ⟨i - (slots - 1), rfl, by omega, fun k hge hlt => ?_⟩
      by_cases hk : k = i
      · exact hk ▸ hhere
      · exact hfree k (by omega) (by omega)
    · have hfree' : ∀ k, i + 1 - (run + 1) ≤ k → k < i + 1 → buf (k * 32) = 0x00 ∨
          buf (k * 32) = 0xE5 := by
        intro k hge hlt
        by_cases hk : k = i
        · exact hk ▸ hhere
        · exact hfree k (by omega) (by omega)
      obtain ⟨i₀, hoff, hend, hall⟩ := ih (by omega) (by omega) hfree' h
      exact ⟨i₀, hoff, by omega, hall⟩
    · obtain ⟨i₀, hoff, hend, hall⟩ := ih (by omega) (Nat.zero_le _) (fun k hge hlt => by omega) h
      exact ⟨i₀, hoff, by omega, hall⟩

/-! ## 5. Parts of long names -/

theorem lfnFillPart_attr {nm : Nat → UInt8} {cs : Nat} {seq checksum : UInt8} {setFirst : Bool} :
    lfnFillPart nm cs seq setFirst checksum 11 = attrLfn := by
  have hoff : ∀ k, k < 13 → partOffset k ≠ 11 ∧ partOffset k + 1 ≠ 11 := by decide
  have hloop : ∀ (e : Nat → UInt8) k, k ≤ 13 →
      (List.range k).foldl (lfnFillChar nm cs) e 11 = e 11 := by
    intro e k hk
    induction k with
    | zero => rfl
    | succ k ih =>
      obtain ⟨hne, hne'⟩ := hoff k (by omega)
      rw [range_succ, foldl_append, foldl_cons, foldl_nil, lfnFillChar_eq (by omega),
        update_of_ne (Ne.symm hne'), update_of_ne (Ne.symm hne), ih (by omega)]
  rw [lfnFillPart, hloop _ 13 (Nat.le_refl _), update_of_ne (by decide),
    update_of_ne (by decide), update_of_ne (by decide), update_self]

theorem lfnWriteLoop_below {nm buf' : Nat → UInt8} {len parts p : Nat} {checksum : UInt8}
    (h : lfnWriteLoop nm len parts off checksum buf p n = some buf') (hx : x < off - (p + n) * 32) :
    buf' x = buf x := by
  induction n generalizing buf p with
  | zero =>
    cases h
    rfl
  | succ n ih =>
    rw [lfnWriteLoop] at h
    split_ifs at h with hroom
    rw [ih h (by omega), blit_of_out (by omega)]

/-- The parts of a long name stand in the `parts` entries in front of the entry `i`. -/
theorem lfnWriteParts_slots (nm buf : Nat → UInt8) {len : Nat} (checksum : UInt8)
    (hfit : lfnParts len ≤ i) :
    ∃ buf', lfnWriteParts nm len (i * 32) checksum buf = some buf' ∧
      (∀ k, i - lfnParts len ≤ k → k < i → slotAt buf' k 11 = attrLfn) ∧
      ∀ k, k < i - lfnParts len ∨ i ≤ k → ∀ j, j < 32 → slotAt buf' k j = slotAt buf k j := by
  obtain ⟨buf', hrun, hslots, habove⟩ : ∃ buf',
    lfnWriteLoop nm len (lfnParts len) (i * 32) checksum buf 0
      (lfnParts len) = some buf' ∧ _ := lfnWriteLoop_slots (by omega)
  refine ⟨buf', hrun, fun k hge hlt => ?_, fun k hk j hj => ?_⟩
  · have hpart := hslots (i - 1 - k) (Nat.zero_le _) (by omega) 11 (by decide)
    rw [lfnFillPart_attr, show i * 32 - (i - 1 - k + 1) * 32 = k * 32 by omega] at hpart
    exact hpart
  · rcases hk with hk | hk
    · have hbelow : k * 32 + j < i * 32 - (0 + lfnParts len) * 32 := by omega
      show buf' (k * 32 + j) = buf (k * 32 + j)
      exact lfnWriteLoop_below hrun hbelow
    · exact habove _ (by omega)

/-! ## 6. Deleted entries -/

/-- `mark_entry_deleted` marks parts of long names only, besides its own entry. -/
theorem markParts_kept (buf : Nat → UInt8) (i k : Nat) (hn : n ≤ i) :
    (∀ j, j < 32 → slotAt (markParts buf n (i * 32)) k j = slotAt buf k j) ∨
    slotAt buf k 11 = attrLfn ∧ slotAt (markParts buf n (i * 32)) k 0 = 0xE5 := by
  induction n generalizing buf i with
  | zero => exact .inl fun _ _ => rfl
  | succ n ih =>
    have hoff : i * 32 - 32 = (i - 1) * 32 := by omega
    rw [markParts, hoff]
    split_ifs with hlfn
    · have hattr : slotAt (Function.update buf ((i - 1) * 32) 0xE5) k 11 = slotAt buf k 11 :=
        update_of_ne (by omega) ..
      rcases ih (Function.update buf ((i - 1) * 32) 0xE5) (i - 1) (by omega) with
        hsame | ⟨hpart, hdel⟩
      · by_cases hk : k = i - 1
        · subst hk
          refine .inr ⟨hlfn, ?_⟩
          rw [hsame 0 (by decide)]
          exact update_self ..
        · refine .inl fun j hj => ?_
          rw [hsame j hj]
          exact update_of_ne (by omega) ..
      · exact .inr ⟨hattr ▸ hpart, hdel⟩
    · exact .inl fun _ _ => rfl

theorem marked_keepsOthers {buf' : Nat → UInt8}
    (hbuf : ∀ j, j < v.bytesPerCluster → buf' j = buf j) :
    ¬ Live (slotAt (markParts (Function.update buf' (i * 32) 0xE5) (i * 32 / 32) (i * 32)) i) ∧
    KeepsOthers v i buf
    (markParts (Function.update buf' (i * 32) 0xE5) (i * 32 / 32) (i * 32)) := by
  have hn : i * 32 / 32 ≤ i := by omega
  refine ⟨?_, fun k hk hne => ?_⟩
  · rcases markParts_kept (Function.update buf' (i * 32) 0xE5) i i hn with hsame | ⟨-, hdel⟩
    · refine not_live_of_free (.inr ?_)
      rw [hsame 0 (by decide)]
      exact update_self ..
    · exact not_live_of_free (.inr hdel)
  have hold : ∀ j, j < 32 → slotAt (Function.update buf' (i * 32) 0xE5) k j = slotAt buf k j := by
    intro j hj
    have hout : k * 32 + j ≠ i * 32 := by omega
    rw [slotAt, update_of_ne hout, hbuf _ (slot_inside hk hj)]
    rfl
  rcases markParts_kept (Function.update buf' (i * 32) 0xE5) i k hn with hsame | ⟨hpart, hdel⟩
  · exact .inl fun j hj => (hsame j hj).trans (hold j hj)
  · rw [hold 11 (by decide)] at hpart
    exact .inr ⟨not_live_of_lfn hpart, not_live_of_free (.inr hdel)⟩

/-! ## 7. Items -/

/-- **What a live entry says.** -/
structure Item where
  short : List UInt8
  isDir : Bool
  first : Nat
  size : Nat
  deriving DecidableEq

/-- The entries `.` and `..`. -/
def Item.Dot (it : Item) : Prop := it.short.head? = some '.'.toUInt8

instance (e : Nat → UInt8) : Decidable (Live e) := inferInstanceAs (Decidable (_ ∧ _ ∧ _))

def itemOf (e : Nat → UInt8) : Option Item :=
  if Live e then
    some ⟨(List.range 11).map e, (makeDirent e []).isDir, (makeDirent e []).firstCluster,
      (makeDirent e []).size⟩
  else none

/-- The entry `i` of the cluster `c`, if it is live. -/
def Image.item (m : Image) (c i : Nat) : Option Item := itemOf (m.entry c i)

theorem itemOf_congr {e' : Nat → UInt8} (h : ∀ j, j < 32 → e j = e' j) : itemOf e = itemOf e' := by
  have hread (a w : Nat) (hw : a + w ≤ 32) : readLE e a w = readLE e' a w :=
    readLE_congr fun j hj => h (a + j) (by omega)
  have hmap : (List.range 11).map e = (List.range 11).map e' :=
    map_congr_left fun j hj => h j (by rw [mem_range] at hj; omega)
  have hdirent : makeDirent e [] = makeDirent e' [] := by
    simp only [makeDirent, h 11 (by decide), hread 28 4 (by decide), hread 20 2 (by decide),
      hread 26 2 (by decide)]
  by_cases hlive : Live e
  · rw [itemOf, itemOf, if_pos hlive, if_pos ((Live.congr h).mp hlive), hmap, hdirent]
  · rw [itemOf, itemOf, if_neg hlive, if_neg ((Live.congr h).not.mp hlive)]

theorem Image.item_congr {m' : Image} (h : m'.data x = m.data x) : m'.item x k = m.item x k :=
  congrArg itemOf (funext fun j => congrFun h (k * 32 + j))

theorem itemOf_of_not_live (h : ¬ Live e) : itemOf e = none := if_neg h

theorem Stamped.item (h : Stamped short first size isDir e)
    (hshort : encodeShortName name = some short)
    (hfirst : first < 2 ^ 32) :
    itemOf e = some ⟨short, isDir, first, if isDir then 0 else size % 2 ^ 32⟩ := by
  have hlen := (encodeShortName_spec hshort).1
  have hname : (List.range 11).map e = short := by
    refine ext_getElem (by rw [length_map, length_range, hlen]) fun j hj hj' => ?_
    rw [length_map, length_range] at hj
    rw [getElem_map, getElem_range, h.name j hj, getD_eq_getElem _ _ hj']
  have hsize : (makeDirent e []).size = if isDir then 0 else size % 2 ^ 32 := by
    have hdir : (makeDirent e []).isDir = isDir := h.dirent_isDir
    rw [← h.length, ← hdir]
    rfl
  rw [itemOf, if_pos (h.live hshort), hname, h.dirent_isDir, h.firstCluster hfirst, hsize]

/-- **The disk's entry `i` of the cluster `c` becomes `it`**, and no other entry changes. -/
structure ItemSet (v : Volume) (m : Image) (c i : Nat) (it : Option Item) (m' : Image) : Prop where
  table : m'.table = m.table
  data : ∀ x, x ≠ c → m'.data x = m.data x
  here : i < v.slots → m'.item c i = it
  others : ∀ k, k < v.slots → k ≠ i → m'.item c k = m.item c k

theorem itemSet_of_keeps {it : Option Item} (hkeep : KeepsOthers v i (m.data c) b)
    (hit : i < v.slots → itemOf (slotAt b i) = it) : ItemSet v m c i it (m.setData c b) := by
  have hslot : ∀ k, (m.setData c b).item c k = itemOf (slotAt b k) := by
    intro k
    refine congrArg itemOf (funext fun j => ?_)
    exact congrFun Image.setData_self (k * 32 + j)
  refine ⟨rfl, fun x hx => Image.setData_of_ne hx, fun hi =>
    (hslot i).trans (hit hi), fun k hk hne => ?_⟩
  rw [hslot]
  rcases hkeep k hk hne with hsame | ⟨hold, hnew⟩
  · exact itemOf_congr hsame
  · rw [itemOf_of_not_live hnew]
    exact (itemOf_of_not_live hold).symm

/-! ## 8. The routines -/

section Routines

variable (hv : v.Sized) (hge : 2 ≤ c) (hc : c < v.total) (hh : v.Holds N c)

/-- The entry `i` is written with the 8.3 form of the name. -/
def EntryWritten (v : Volume) (m : Image) (c i : Nat) (name : List UInt8) (first size : Nat)
    (isDir : Bool) (m' : Image) : Prop :=
  ∃ short, encodeShortName name = some short ∧
    ItemSet v m c i (some ⟨short, isDir, first, if isDir then 0 else size % 2 ^ 32⟩) m'

theorem entryWritten_of_stamped (hfirst : first < 2 ^ 32)
    (hshort : encodeShortName name = some short)
    (hkeep : KeepsOthers v i (m.data c) b) (hst : Stamped short first size isDir (slotAt b i)) :
    EntryWritten v m c i name first size isDir (m.setData c b) :=
  ⟨short, hshort, itemSet_of_keeps hkeep fun _ => hst.item hshort hfirst⟩

include hv hge hc hh

/-- **`write_dir_entry_at`**: the entry is written, or the name has no 8.3 form and nothing is. -/
theorem does_writeDirEntryAt (hfirst : first < 2 ^ 32) :
    Does v N (writeDirEntryAt v c (i * 32) name first size isDir) m (fun ok m' =>
      (ok = false ∧ encodeShortName name = none ∧ m' = m) ∨
        ok = true ∧ EntryWritten v m c i name first size isDir m') := by
  rw [writeDirEntryAt]
  refine Does.readCluster hge hc hh fun buf hbuf => ?_
  cases hshort : encodeShortName name with
  | none => exact Does.pure (.inl ⟨rfl, rfl, rfl⟩)
  | some short =>
    have hlen := (encodeShortName_spec hshort).1
    refine (does_writeCluster hv hge hc hh).mono ?_
    intro ok m' hpost
    refine .inr ⟨hpost.1,
      hpost.2 ▸ entryWritten_of_stamped hfirst hshort (fun k hk hne => .inl fun j hj => ?_)
      (stamped_slot hlen)⟩
    rw [slotAt, stampEntry_of_out (by omega), putBytes_of_out (by omega),
      hbuf _ (slot_inside hk hj)]
    rfl

/-- **`create_dir_entries`**, into free entries. -/
theorem does_createDirEntries {rest : Nat → UInt8} (hfirst : first < 2 ^ 32)
    (hparts : lfnPartsFor name ≤ i)
    (hfree : ∀ k, i - lfnPartsFor name ≤ k → k < i → k < v.slots → m.item c k = none) :
    Does v N (createDirEntries v c (i * 32) name rest first size isDir) m (fun ok m' =>
      (ok = false ∧ encodeShortName name = none ∧ m' = m) ∨
        ok = true ∧ EntryWritten v m c i name first size isDir m') := by
  rw [createDirEntries]
  split_ifs with hzero
  · exact does_writeDirEntryAt hv hge hc hh hfirst
  refine Does.readCluster hge hc hh fun buf hbuf => ?_
  obtain ⟨short, hshort⟩ : ∃ short, encodeShortName name = some short := by
    cases hname : encodeShortName name with
    | none =>
      rw [lfnPartsFor, hname] at hzero
      exact absurd rfl hzero
    | some short => exact ⟨short, rfl⟩
  have hcount : lfnPartsFor name = lfnParts name.length := by
    rw [lfnPartsFor, hshort] at hzero ⊢
    rw [if_neg (by simp)] at hzero ⊢
    split_ifs at hzero ⊢ with hexact
    · exact absurd rfl hzero
    · rfl
  have hlen := (encodeShortName_spec hshort).1
  rw [hcount] at hparts hfree
  obtain ⟨buf', hrun, hparts', hothers⟩ := lfnWriteParts_slots (cstr name rest) buf
    (lfnChecksum ((encodeShortName name).getD [])) hparts
  dsimp only
  rw [hrun, hshort]
  refine (does_writeCluster hv hge hc hh).mono ?_
  intro ok m' hpost
  refine .inr ⟨hpost.1,
    hpost.2 ▸ entryWritten_of_stamped hfirst hshort (fun k hk hne => ?_) (stamped_slot hlen)⟩
  have hout : ∀ j, j < 32 →
      slotAt (stampEntry (putBytes buf' (i * 32) short) (i * 32) first size isDir) k j =
        slotAt buf' k j := by
    intro j hj
    rw [slotAt, stampEntry_of_out (by omega), putBytes_of_out (by omega)]
    rfl
  by_cases hpart : i - lfnParts name.length ≤ k ∧ k < i
  · have hdead : ¬ Live (m.entry c k) := fun hlive => by
      have hnone := hfree k hpart.1 hpart.2 hk
      rw [Image.item, itemOf, if_pos hlive] at hnone
      cases hnone
    refine .inr ⟨hdead, not_live_of_lfn ?_⟩
    rw [show (some short).getD [] = short from rfl, hout 11 (by decide)]
    exact hparts' k hpart.1 hpart.2
  · refine .inl fun j hj => ?_
    rw [show (some short).getD [] = short from rfl, hout j hj, hothers k (by omega) j hj, slotAt,
      hbuf _ (slot_inside hk hj)]
    rfl

end Routines

end DyntKernel.Fat
