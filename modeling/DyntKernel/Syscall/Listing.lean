/-
  File:      DyntKernel/Syscall/Listing.lean
  Subject:   SYS_LIST_DIR AND SYS_PS (arch/x86_64/syscall/syscall_dispatch.c): a text in a buffer of
             the caller.

  The room that is left is computed in 32 bits, from a length that is one too small already.

  * `listLine`, `psLine` -- the lines of both texts;
  * `TextBuf`, `sysListDir`, `sysPs` -- what is stored, by its distance from the buffer, and
    returned;
  * `text_given_iff` -- when all of it is in the buffer, and the length is returned.
-/
import DyntKernel.Mem.Syscalls

namespace DyntKernel.Syscall

open Mem

/-! ## 1. The lines -/

/-- The decimal digits, the last `n` of them at most. -/
def digits : Nat → Nat → List UInt8
  | 0, _ => []
  | n + 1, v => (if v / 10 = 0 then [] else digits n (v / 10)) ++ [0x30 + .ofNat (v % 10)]

def padTo (n : Nat) (line : List UInt8) : List UInt8 :=
  line ++ List.replicate (n - line.length) 0x20

/-- The line of `list_append`. -/
def listLine (name : List UInt8) (size : UInt32) (isDir : Bool) : List UInt8 :=
  padTo 48 (name.take 64 ++ if isDir then [0x2F] else []) ++ digits 16 size.toNat ++ [0x0A]

/-- The line of `ps_append`. -/
def psLine (pid : UInt64) (name state : List UInt8) (cpu : UInt32) : List UInt8 :=
  let line := padTo 16 (padTo 8 (digits 8 pid.toNat) ++ digits 8 cpu.toNat)
  padTo 28 (line ++ state.take 12) ++ name.take 32 ++ [0x0A]

/-! ## 2. The buffer -/

/-- `list_buf_t` and `ps_buf_t`, with what was stored. -/
structure TextBuf where
  size : Nat
  used : Nat
  stores : List (Nat × UInt8)

namespace TextBuf

/-- `size - 1`, of which the loops take care that it is not exceeded. -/
def room (t : TextBuf) : Nat := (t.size + 2 ^ 32 - 1) % 2 ^ 32

def put (t : TextBuf) (c : UInt8) : TextBuf :=
  if t.used < t.room then ⟨t.size, t.used + 1, t.stores ++ [(t.used, c)]⟩ else t

/-- What is returned, and the stores with the last one. -/
def finish (t : TextBuf) : Int × List (Nat × UInt8) :=
  (Int.bmod t.used (2 ^ 32), t.stores ++ [(t.used, 0)])

theorem put_all (cs : List UInt8) {t : TextBuf} (hroom : t.used ≤ t.room)
    (hold : ∀ w ∈ t.stores, w.1 < t.used) :
    (cs.foldl put t).used = min (t.used + cs.length) t.room ∧
      ∀ w ∈ (cs.foldl put t).stores, w.1 < (cs.foldl put t).used := by
  induction cs generalizing t with
  | nil => exact ⟨(Nat.min_eq_left hroom).symm, hold⟩
  | cons c cs ih =>
    rw [List.foldl_cons, put, List.length_cons]
    split_ifs with hlt
    · obtain ⟨hused, hall⟩ :=
        ih (t := ⟨t.size, t.used + 1, t.stores ++ [(t.used, c)]⟩) hlt fun w hw => by
        rcases List.mem_append.mp hw with hw | hw
        · exact Nat.lt_succ_of_lt (hold w hw)
        · rw [List.mem_singleton.mp hw]
          exact Nat.lt_succ_self _
      refine ⟨hused.trans ?_, hall⟩
      change min (t.used + 1 + cs.length) t.room = _
      rw [Nat.add_right_comm, Nat.add_assoc]
    · obtain ⟨hused, hall⟩ := ih hroom hold
      exact ⟨hused.trans (by omega), hall⟩

end TextBuf

/-- Both calls, with the lines. -/
def giveText (lines : List (List UInt8)) (len : Nat) : Int × List (Nat × UInt8) :=
  let t : TextBuf := ⟨(if 0 < len then len - 1 else 0) % 2 ^ 32, 0, []⟩
  (lines.foldl (fun t line => line.foldl TextBuf.put t) t).finish

/-- `sys_list_dir`, with what `vfs_list_dir` reports. -/
def sysListDir (entries : List (List UInt8 × UInt32 × Bool)) (path buf len : Nat) :
    Int × List (Nat × UInt8) :=
  if userPtrOk path 1 ∧ userPtrOk buf len then
    giveText (entries.map fun e => listLine e.1 e.2.1 e.2.2) len
  else (-1, [])

/-- `sys_ps`, with what `scheduler_list` reports. -/
def sysPs (procs : List (UInt64 × List UInt8 × List UInt8 × UInt32)) (buf len : Nat) :
    Int × List (Nat × UInt8) :=
  if userPtrOk buf len then
    giveText (procs.map fun p => psLine p.1 p.2.1 p.2.2.1 p.2.2.2) len else (-1, [])

/-! ## 3. What the caller gets -/

/-- **The stores are in the buffer, the last one is the NUL behind the text, and the length is
    returned.** -/
structure TextGiven (r : Int × List (Nat × UInt8)) (len : Nat) : Prop where
  inside : ∀ w ∈ r.2, w.1 < len
  ends : 0 < len → ∃ n, r.2.getLast? = some (n, 0) ∧ n < len ∧ r.1 = n

/-- **The condition** on the length of the buffer and of the text. -/
def TextFits (len total : Nat) : Prop :=
  2 ≤ len ∧ (total < 2 ^ 31 ∨ (len - 2) % 2 ^ 32 < 2 ^ 31) ∨ len = 1 ∧ total = 0

theorem giveText_iff (lines : List (List UInt8)) (len : Nat) :
    TextGiven (giveText lines len) len ↔ TextFits len lines.flatten.length := by
  rw [giveText, ← List.foldl_flatten]
  obtain ⟨hused, hall⟩ := TextBuf.put_all lines.flatten
    (t := ⟨(if 0 < len then len - 1 else 0) % 2 ^ 32, 0, []⟩) (Nat.zero_le _) (by simp)
  generalize lines.flatten.foldl TextBuf.put _ = t at hused hall
  rw [TextBuf.room, Nat.zero_add] at hused
  dsimp only at hused
  have hret : Int.bmod t.used (2 ^ 32) = t.used ↔ t.used < 2 ^ 31 := by
    simp only [Int.bmod]
    omega
  unfold TextBuf.finish
  generalize Int.bmod t.used (2 ^ 32) = r at hret ⊢
  have hgiven : TextGiven (r, t.stores ++ [(t.used, 0)]) len ↔ t.used < len ∧ t.used < 2 ^ 31 := by
    constructor
    · intro h
      have hlt : t.used < len := h.inside (t.used, 0) (by simp)
      obtain ⟨n, hlast, -, hn⟩ := h.ends (by omega)
      rw [List.getLast?_concat] at hlast
      cases hlast
      exact ⟨hlt, hret.mp hn⟩
    intro h
    refine ⟨fun w hw => ?_, fun _ => ⟨t.used, List.getLast?_concat, h.1, hret.mpr h.2⟩⟩
    rcases List.mem_append.mp hw with hw | hw
    · exact (hall w hw).trans h.1
    · rw [List.mem_singleton.mp hw]
      exact h.1
  rw [hgiven, TextFits]
  split_ifs at hused <;> omega

/-- **Both calls give the text exactly on this condition.** -/
theorem text_given_iff {path buf len : Nat} (hpath : userPtrOk path 1 = true)
    (hbuf : userPtrOk buf len = true)
    (entries : List (List UInt8 × UInt32 × Bool))
    (procs : List (UInt64 × List UInt8 × List UInt8 × UInt32)) :
    (TextGiven (sysListDir entries path buf len) len ↔
      TextFits len (entries.map fun e => listLine e.1 e.2.1 e.2.2).flatten.length) ∧
    (TextGiven (sysPs procs buf len) len ↔
      TextFits len (procs.map fun p => psLine p.1 p.2.1 p.2.2.1 p.2.2.2).flatten.length) := by
  rw [sysListDir, if_pos ⟨hpath, hbuf⟩, sysPs, if_pos hbuf]
  exact ⟨giveText_iff _ _, giveText_iff _ _⟩

theorem text_given_page :
    TextGiven (sysListDir [([0x41], 5, true)] 0x40000000 0x40001000 4096) 4096 :=
  ((text_given_iff rfl rfl _ []).1).mpr (.inl ⟨by decide, .inr (by decide)⟩)

/-- **`ps(buf, 1)`** writes the whole line behind a buffer of one byte. -/
theorem text_outside : ¬ ∀ (path buf len : Nat) (entries : List (List UInt8 × UInt32 × Bool))
    (procs : List (UInt64 × List UInt8 × List UInt8 × UInt32)), userPtrOk path 1 = true →
    userPtrOk buf len = true →
    TextGiven (sysListDir entries path buf len) len ∧ TextGiven (sysPs procs buf len) len := by
  intro hall
  have h := (hall 0x40000000 0x40001000 1 [] [(1, [0x61], [0x62], 0)] rfl rfl).2.inside
  revert h
  decide +kernel

end DyntKernel.Syscall
