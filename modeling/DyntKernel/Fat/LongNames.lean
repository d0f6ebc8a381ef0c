/-
  File:      DyntKernel/Fat/LongNames.lean
  Subject:   LONG FILE NAMES in directory entries (fs/fat32.c, LFN support and LFN creation).

  A long name is cut into parts of 13 characters, one directory entry for each, directly above the
  8.3 entry of the file. The encoder counts the parts from the end of the name, the decoder joins
  them by their sequence numbers.

  * `lfnFillPart`, `lfnWriteParts` -- the encoder, on the buffer of a directory cluster;
  * `lfnParsePart`, `lfnAddPart`, `lfnAssemble` -- the decoder;
  * `lfnWriteParts_decodes` -- a name of whole parts comes back; `whole_of_lfnInside` -- for any
    other one characters outside of it are read.
-/
import DyntKernel.Library.Bytes
import Mathlib.Logic.Function.Basic
import Mathlib.Data.List.Basic

namespace DyntKernel.Fat

open Library List Function

/-! ## 1. The encoder -/

/-- `FAT32_DIR_ATTR_LFN`. -/
def attrLfn : UInt8 := 0x0F

/-- `LFN_MAX_PARTS`. -/
def lfnMaxParts : Nat := 20

/-- The memory at a C string: its characters, the NUL, and whatever follows. -/
def cstr (s : List UInt8) (rest : Nat → UInt8) : Nat → UInt8 :=
  fun i => if i = s.length then 0 else s[i]?.getD (rest i)

/-- `char_offsets` of `lfn_fill_part`. -/
def charOffsets : List Nat := [1, 3, 5, 7, 9, 14, 16, 18, 20, 22, 24, 28, 30]

/-- The index of the name that `lfn_fill_part` reads for its character `i`, in 32 bits. -/
def charIndex (charStart i : Nat) : Nat := (charStart + i) % 2 ^ 32

/-- One round of the loop of `lfn_fill_part`. -/
def lfnFillChar (name : Nat → UInt8) (charStart : Nat) (e : Nat → UInt8) (i : Nat) : Nat → UInt8 :=
  let c := name (charIndex charStart i)
  let off := charOffsets[i]?.getD 0
  if c = 0 then Function.update (Function.update e off 0) (off + 1) 0
  else Function.update (Function.update e off c) (off + 1) 0

def lfnFillPart (name : Nat → UInt8) (charStart : Nat) (seq : UInt8) (setFirst : Bool)
    (checksum : UInt8) : Nat → UInt8 :=
  let e : Nat → UInt8 := fun _ => 0xFF
  let e := Function.update e 0 (if setFirst then seq ||| 0x40 else seq)
  let e := Function.update e 11 attrLfn
  let e := Function.update e 13 checksum
  let e := Function.update e 26 0
  let e := Function.update e 27 0
  (List.range 13).foldl (lfnFillChar name charStart) e

/-- `ceil(len / 13)`, as `lfn_parts_for` computes it. -/
def lfnParts (len : Nat) : Nat := (len + 12) / 13

/-- `char_start` of the part `p`, counted from the end of the name, in 32 bits. -/
def charStart (len p : Nat) : Nat := (len + 2 ^ 32 - (p + 1) * 13) % 2 ^ 32

/-- The loop of `create_dir_entries` from the part `p` on; `none` when a part has no slot. -/
def lfnWriteLoop (name : Nat → UInt8) (len parts offset : Nat) (checksum : UInt8)
    (buf : Nat → UInt8) (p : Nat) : Nat → Option (Nat → UInt8)
  | 0 => some buf
  | n + 1 =>
    if offset < (p + 1) * 32 then none
    else
      lfnWriteLoop name len parts offset checksum (blit buf (offset - (p + 1) * 32) 32
          (lfnFillPart name (charStart len p) (UInt8.ofNat (parts - p)) (p = 0) checksum)) (p + 1) n

/-- The parts of a name, above the 8.3 slot at `offset`. -/
def lfnWriteParts (name : Nat → UInt8) (len offset : Nat) (checksum : UInt8) (buf : Nat → UInt8) :
    Option (Nat → UInt8) :=
  lfnWriteLoop name len (lfnParts len) offset checksum buf 0 (lfnParts len)

/-! ## 2. The decoder -/

/-- The offset of the character `i` in an entry, as `lfn_parse_part` computes it. -/
def partOffset (i : Nat) : Nat :=
  if i < 5 then 1 + 2 * i else if i < 11 then 14 + 2 * (i - 5) else 28 + 2 * (i - 11)

/-- The loop of `lfn_parse_part` over the characters `is`. -/
def lfnParseChars (e : Nat → UInt8) : List Nat → List UInt8
  | [] => []
  | i :: is =>
    let lo := e (partOffset i)
    let hi := e (partOffset i + 1)
    if (lo = 0 ∧ hi = 0) ∨ (lo = 0xFF ∧ hi = 0xFF) then []
    else (if hi = 0 then lo else '?'.toUInt8) :: lfnParseChars e is

def lfnParsePart (e : Nat → UInt8) : List UInt8 := lfnParseChars e (List.range 13)

/-- `lfn_acc_t`: the parts read so far, with their sequence numbers. -/
abbrev LfnAcc := List (UInt8 × List UInt8)

def lfnAddPart (a : LfnAcc) (e : Nat → UInt8) : LfnAcc :=
  if lfnMaxParts ≤ a.length then [] else a ++ [(e 0 &&& 0x3F, lfnParsePart e)]

/-- One round of the outer loop of `lfn_assemble`: `out` are the characters written so far. -/
def lfnJoin (a : LfnAcc) (outSize : Nat) (out : List UInt8) (s : Nat) : List UInt8 :=
  match a.find? (fun part => part.1.toNat = s) with
  | none => out
  | some part => out ++ part.2.take (outSize - 1 - out.length)

def lfnAssemble (a : LfnAcc) (outSize : Nat) : List UInt8 :=
  (List.range' 1 a.length).foldl (lfnJoin a outSize) []

/-- The decoder on the `n` entries from `offset` on, in the order of the directory. -/
def lfnReadParts (buf : Nat → UInt8) (offset n : Nat) : LfnAcc :=
  (List.range n).foldl (fun a i => lfnAddPart a fun j => buf (offset + 32 * i + j)) []

/-! ## 3. One part -/

variable {name e : Nat → UInt8} {cs k n x : Nat} {seq checksum : UInt8} {first : Bool}
  {s : List UInt8} {rest buf buf' : Nat → UInt8} {offset parts len p : Nat}

theorem charOffsets_eq : ∀ i, i < 13 → charOffsets[i]?.getD 0 = partOffset i := by decide

/-- The characters of an entry do not overlap. -/
theorem partOffset_sep : ∀ k, k < 13 → ∀ i, i < k → partOffset i + 1 < partOffset k := by decide

theorem lfnFillChar_eq (hk : k < 13) : lfnFillChar name cs e k =
    Function.update (Function.update e (partOffset k) (name (charIndex cs k)))
    (partOffset k + 1) 0 := by
  rw [lfnFillChar, charOffsets_eq k hk]
  split_ifs with hc
  · rw [hc]
  · rfl

/-- The loop of `lfn_fill_part`, up to the character `k`. -/
theorem fill_loop (hk : k ≤ 13) :
    (∀ i, i < k →
      (List.range k).foldl (lfnFillChar name cs) e (partOffset i) = name (charIndex cs i) ∧
      (List.range k).foldl (lfnFillChar name cs) e (partOffset i + 1) = 0) ∧
    ((List.range k).foldl (lfnFillChar name cs) e) 0 = e 0 := by
  induction k with
  | zero => exact ⟨fun i hi => absurd hi (Nat.not_lt_zero i), rfl⟩
  | succ k ih =>
    obtain ⟨hchars, hzero⟩ := ih (by omega)
    rw [range_succ, foldl_append, foldl_cons, foldl_nil, lfnFillChar_eq (by omega)]
    refine ⟨fun i hi => ?_, ?_⟩
    · rcases Nat.lt_succ_iff_lt_or_eq.mp hi with hlt | rfl
      · have hsep := partOffset_sep k (by omega) i hlt
        rw [update_of_ne (by omega), update_of_ne (by omega),
          update_of_ne (by omega), update_of_ne (by omega)]
        exact hchars i hlt
      · rw [update_of_ne (by omega), update_self, update_self]
        exact ⟨rfl, rfl⟩
    · have hpos : 0 < partOffset k := by
        rw [partOffset]
        split_ifs <;> omega
      rw [update_of_ne (by omega), update_of_ne (by omega), hzero]

theorem lfnFillPart_char {i : Nat} (hi : i < 13) :
    lfnFillPart name cs seq first checksum (partOffset i) = name (charIndex cs i) :=
  ((fill_loop (Nat.le_refl 13)).1 i hi).1

theorem lfnFillPart_high {i : Nat} (hi : i < 13) :
    lfnFillPart name cs seq first checksum (partOffset i + 1) = 0 :=
  ((fill_loop (Nat.le_refl 13)).1 i hi).2

theorem lfnFillPart_seq : lfnFillPart name cs seq first checksum 0 =
    if first then seq ||| 0x40 else seq := by
  refine (fill_loop (Nat.le_refl 13)).2.trans ?_
  simp

/-- Characters other than NUL are all read back. -/
theorem lfnParseChars_eq {c : Nat → UInt8} {is : List Nat}
    (hlo : ∀ i ∈ is, e (partOffset i) = c i) (hhi : ∀ i ∈ is, e (partOffset i + 1) = 0)
    (hc : ∀ i ∈ is, c i ≠ 0) : lfnParseChars e is = is.map c := by
  induction is with
  | nil => rfl
  | cons i is ih =>
    have hrest := ih (fun j hj => hlo j (mem_cons_of_mem i hj))
      (fun j hj => hhi j (mem_cons_of_mem i hj)) fun j hj => hc j (mem_cons_of_mem i hj)
    have hi := hc i mem_cons_self
    rw [lfnParseChars, hlo i mem_cons_self, hhi i mem_cons_self, hrest]
    simp [hi]

theorem lfnParsePart_fill (hname : ∀ i, i < 13 → name (charIndex cs i) ≠ 0)
    (he : ∀ j, j < 32 → e j = lfnFillPart name cs seq first checksum j) :
    lfnParsePart e = (List.range 13).map fun i => name (charIndex cs i) := by
  have hlt : ∀ i, i < 13 → partOffset i + 1 < 32 := by decide
  refine lfnParseChars_eq (fun i hi => ?_) (fun i hi => ?_) fun i hi => ?_
  · rw [mem_range] at hi
    rw [he _ (by have := hlt i hi; omega), lfnFillPart_char hi]
  · rw [mem_range] at hi
    rw [he _ (hlt i hi), lfnFillPart_high hi]
  · exact hname i (mem_range.mp hi)

theorem seq_mask : ∀ v, v < 64 → ∀ first : Bool,
    (if first then UInt8.ofNat v ||| 0x40 else UInt8.ofNat v) &&& 0x3F = UInt8.ofNat v := by
  decide

/-! ## 4. All parts -/

/-- The slots the loop has written, and the part of the buffer it leaves alone. -/
theorem lfnWriteLoop_slots (hfit : (p + n) * 32 ≤ offset) :
    ∃ buf', lfnWriteLoop name len parts offset checksum buf p n = some buf' ∧
      (∀ q, p ≤ q → q < p + n → ∀ j, j < 32 → buf' (offset - (q + 1) * 32 + j) =
        lfnFillPart name (charStart len q) (UInt8.ofNat (parts - q)) (q = 0) checksum j) ∧
      ∀ x, offset - p * 32 ≤ x → buf' x = buf x := by
  induction n generalizing buf p with
  | zero => exact ⟨buf, rfl, fun q hq hlt => absurd hlt (by omega), fun _ _ => rfl⟩
  | succ n ih =>
    rw [lfnWriteLoop, if_neg (by omega)]
    generalize hone : blit buf (offset - (p + 1) * 32) 32
      (lfnFillPart name (charStart len p) (UInt8.ofNat (parts - p)) (p = 0) checksum) = buf₁
    obtain ⟨buf', heq, hslots, hkeep⟩ := ih (p := p + 1) (by omega)
    refine ⟨buf', heq, fun q hpq hq j hj => ?_, fun x hx => ?_⟩
    · rcases Nat.eq_or_lt_of_le hpq with rfl | hlt
      · rw [hkeep _ (by omega), ← hone, blit_of_in hj]
      · exact hslots q hlt (by omega) j hj
    · rw [hkeep x (by omega), ← hone, blit_of_out (by omega)]

/-- The decoder collects the entries one after the other. -/
theorem lfnReadParts_eq {f : Nat → UInt8 × List UInt8} (hn : n ≤ lfnMaxParts)
    (hf : ∀ i, i < n → (buf (offset + 32 * i) &&& 0x3F,
      lfnParsePart fun j => buf (offset + 32 * i + j)) = f i) :
    lfnReadParts buf offset n = (List.range n).map f := by
  induction n with
  | zero => rfl
  | succ n ih =>
    have hprev : lfnReadParts buf offset n = (List.range n).map f :=
      ih (by omega) fun i hi => hf i (by omega)
    rw [lfnReadParts, range_succ, foldl_append, ← lfnReadParts, hprev, map_append,
      foldl_cons, foldl_nil, lfnAddPart, if_neg (by rw [length_map, length_range]; omega),
      map_singleton]
    exact congrArg (fun part => (List.range n).map f ++ [part]) (hf n (by omega))

theorem find_part {g : Nat → List UInt8} {i : Nat} (hn : n < 256) (hi : i < n) :
    ((List.range n).map fun j => (UInt8.ofNat (j + 1), g j)).find?
      (fun part => part.1.toNat = i + 1) = some (UInt8.ofNat (i + 1), g i) := by
  have hval : ∀ j, j < n → (UInt8.ofNat (j + 1)).toNat = j + 1 := fun j hj =>
    UInt8.toNat_ofNat_of_lt' (by rw [UInt8.size]; omega)
  rw [List.find?_map, List.find?_range_eq_some.mpr]
  · rfl
  · refine ⟨decide_eq_true (hval i hi), mem_range.mpr hi, fun j hj => ?_⟩
    have hne : (UInt8.ofNat (j + 1)).toNat ≠ i + 1 := by
      rw [hval j (by omega)]
      omega
    exact (Bool.not_eq_true' _).mpr (decide_eq_false hne)

/-- Numbered parts are joined in the order of their numbers. -/
theorem lfnAssemble_eq {g : Nat → List UInt8} {outSize : Nat} (hn : n < 256)
    (hlen : ∀ i, i < n → (g i).length = 13) (hsize : 13 * n < outSize) :
    lfnAssemble ((List.range n).map fun j => (UInt8.ofNat (j + 1), g j)) outSize =
      ((List.range n).map g).flatten := by
  have hjoin : ∀ k, k ≤ n →
      (List.range' 1 k).foldl (lfnJoin ((List.range n).map fun j => (UInt8.ofNat (j + 1), g j))
        outSize) [] = ((List.range k).map g).flatten ∧
      ((List.range k).map g).flatten.length = 13 * k := by
    intro k
    induction k with
    | zero => exact fun _ => ⟨rfl, rfl⟩
    | succ k ih =>
      intro hk
      obtain ⟨heq, hsum⟩ := ih (by omega)
      have hlast : ((List.range (k + 1)).map g).flatten =
          ((List.range k).map g).flatten ++ g k := by
        rw [range_succ, map_append, flatten_append, map_singleton, flatten_singleton]
      refine ⟨?_, by rw [hlast, length_append, hsum, hlen k (by omega)]; omega⟩
      rw [range'_1_concat, foldl_append, heq, foldl_cons, foldl_nil, hlast,
        lfnJoin, Nat.add_comm 1 k, find_part hn (by omega)]
      dsimp only
      rw [take_of_length_le (by rw [hlen k (by omega), hsum]; omega)]
  rw [lfnAssemble, length_map, length_range]
  exact (hjoin n (Nat.le_refl n)).1

theorem flatten_chunks (s : List UInt8) (n : Nat) :
    ((List.range n).map fun i => (s.drop (13 * i)).take 13).flatten = s.take (13 * n) := by
  induction n with
  | zero => rfl
  | succ n ih =>
    rw [range_succ, map_append, flatten_append, ih, map_singleton,
      flatten_singleton, Nat.mul_succ, take_add]

/-! ## 5. Whole names -/

theorem cstr_char {i : Nat} (hi : i < s.length) : cstr s rest i = s[i] := by
  rw [cstr, if_neg (by omega), List.getElem?_eq_getElem hi, Option.getD_some]

/-- A chunk of a name, as the encoder reads it. -/
theorem chunk_eq {i : Nat} (hi : 13 * i + 13 ≤ s.length) (hs : s.length < 2 ^ 32) :
    ((List.range 13).map fun j => cstr s rest (charIndex (13 * i) j)) =
      (s.drop (13 * i)).take 13 := by
  refine ext_getElem ?_ fun j hj hj' => ?_
  · rw [length_map, length_range, length_take, length_drop]
    omega
  · rw [length_map, length_range] at hj
    rw [getElem_map, getElem_range, getElem_take, getElem_drop, charIndex,
      Nat.mod_eq_of_lt (by omega), cstr_char (by omega)]

/-- `char_start` of the part whose sequence number is `i + 1`, of a name of whole parts. -/
theorem charStart_eq {i : Nat} (hlen : len = 13 * n) (hi : i < n) (hn : n < 2 ^ 20) :
    charStart len (n - 1 - i) = 13 * i := by
  have hmul : (n - 1 - i + 1) * 13 = 13 * n - 13 * i := by omega
  rw [charStart, hmul, hlen, show 13 * n + 2 ^ 32 - (13 * n - 13 * i) = 13 * i + 2 ^ 32 by omega,
    Nat.add_mod_right, Nat.mod_eq_of_lt (by omega)]

/-- **No character outside the name and its NUL is read.** -/
def LfnInside (len : Nat) : Prop :=
  ∀ p, p < lfnParts len → ∀ i, i < 13 → charIndex (charStart len p) i ≤ len

/-- **The parts of a name of whole parts decode to it**, in any buffer that holds them. -/
theorem lfnWriteParts_decodes (hs : s.length = 13 * n) (hn : n ≤ 19) (hchars : ∀ c ∈ s, c ≠ 0)
    (hfit : n * 32 ≤ offset) : ∃ buf',
    lfnWriteParts (cstr s rest) s.length offset checksum buf = some buf' ∧
      ∀ b : Nat → UInt8, (∀ x, offset - n * 32 ≤ x → x < offset → b x = buf' x) →
        lfnAssemble (lfnReadParts b (offset - n * 32) n) 256 = s := by
  have hparts : lfnParts s.length = n := by rw [lfnParts, hs]; omega
  rw [lfnWriteParts, hparts]
  obtain ⟨buf', heq, hslots, -⟩ : ∃ buf',
    lfnWriteLoop (cstr s rest) s.length n offset checksum buf 0 n
      = some buf' ∧ _ := lfnWriteLoop_slots (by omega)
  refine ⟨buf', heq, fun b hb => ?_⟩
  -- the entry `i` of the directory holds the part `n - 1 - i`, whose number is `i + 1`
  have hentry : ∀ i, i < n → (b (offset - n * 32 + 32 * i) &&& 0x3F,
      lfnParsePart fun j => b (offset - n * 32 + 32 * i + j)) =
        (UInt8.ofNat (i + 1), (s.drop (13 * i)).take 13) := by
    intro i hi
    have hslot : ∀ j, j < 32 → b (offset - n * 32 + 32 * i + j) =
        lfnFillPart (cstr s rest) (13 * i) (UInt8.ofNat (i + 1)) (n - 1 - i = 0) checksum j := by
      intro j hj
      have hq := hslots (n - 1 - i) (by omega) (by omega) j hj
      rw [charStart_eq hs hi (by omega), show n - (n - 1 - i) = i + 1 by omega,
        show offset - (n - 1 - i + 1) * 32 = offset - n * 32 + 32 * i by omega] at hq
      rw [hb _ (by omega) (by omega), hq]
    have hseq := hslot 0 (by omega)
    rw [Nat.add_zero, lfnFillPart_seq] at hseq
    rw [hseq, seq_mask (i + 1) (by omega), lfnParsePart_fill (fun j hj => ?_) hslot,
      chunk_eq (by omega) (by omega)]
    rw [charIndex, Nat.mod_eq_of_lt (by omega), cstr_char (by omega)]
    exact hchars _ (getElem_mem _)
  rw [lfnReadParts_eq (by rw [lfnMaxParts]; omega) hentry,
    lfnAssemble_eq (by omega) (fun i hi => ?_) (by omega), flatten_chunks, ← hs, take_length]
  rw [length_take, length_drop]
  omega

/-- The first part of a name that is not made of whole parts starts below the name. -/
theorem whole_of_lfnInside (hpos : 1 ≤ len) (hmax : len ≤ 255) (h : LfnInside len) :
    len % 13 = 0 := by
  by_contra hne
  have hlast := h (lfnParts len - 1) (by rw [lfnParts]; omega) 0 (by omega)
  have hsum : (lfnParts len - 1 + 1) * 13 = len / 13 * 13 + 13 := by
    rw [lfnParts]
    omega
  rw [charIndex, charStart, hsum] at hlast
  omega

/-- A name of whole parts is not left. -/
theorem lfnInside_of_whole (hs : s.length = 13 * n) (hn : n ≤ 19) : LfnInside s.length := by
  have hparts : lfnParts s.length = n := by rw [lfnParts, hs]; omega
  intro p hp i hi
  rw [hparts] at hp
  have hstart := charStart_eq (i := n - 1 - p) hs (by omega) (by omega)
  rw [show n - 1 - (n - 1 - p) = p by omega] at hstart
  rw [hstart, charIndex, Nat.mod_eq_of_lt (by omega)]
  omega

end DyntKernel.Fat
