/-
  File:      DyntKernel/Tty/Read.lean
  Subject:   SYS_READ ON A TERMINAL IN CANONICAL MODE (arch/x86_64/syscall/syscall_dispatch.c).

  A call returns when a line is finished, and consumes all of it, whatever its buffer takes. Nothing
  comes in while the calls are made.

  * `Keyboard.sysRead`, `Keyboard.reads` -- one call, and calls in a row;
  * `Delivers` -- nothing of the line is lost, and nothing outside of the buffers is written;
  * `reads_deliver_iff` -- exactly when the first buffer, its length taken as an `int`, is longer
    than the line.
-/
import DyntKernel.Mem.Syscalls
import DyntKernel.Tty.Lines

namespace DyntKernel.Tty

open Mem List

/-- What a call returns: the addresses it has stored to, the characters the caller gets. -/
structure TtyRead where
  rax : Int
  stores : List Int
  bytes : List UInt8
  kb : Keyboard

/-- What `tty_getline` leaves; a zero is stored behind the characters. -/
def TtyRead.gotLine (buf : Nat) (r : Int × Option (List UInt8) × Keyboard) : TtyRead :=
  ⟨r.1, (List.range r.1.toNat).map (fun i : Nat => (buf : Int) + i) ++
    [buf + r.1], r.2.1.getD [], r.2.2⟩

namespace Keyboard

variable {t : Keyboard} {vt : UInt8} {r : TtyRead}

def ttyLineReady (t : Keyboard) (vt : UInt8) : Bool := vt.toNat < ttyVtMax ∧ (t.vts vt.toNat).ready

def ttySigintConsume (t : Keyboard) (vt : UInt8) : Bool × Keyboard :=
  if vt.toNat < ttyVtMax ∧ (t.vts vt.toNat).sigint then
    (true, t.setVt vt.toNat fun x => { x with sigint := false })
  else (false, t)

/-- `SYS_READ` of descriptor 0; `none` if it waits. The length becomes an `int`. -/
def sysRead (t : Keyboard) (vt : UInt8) (buf len : Nat) : Option TtyRead :=
  if len = 0 then some ⟨0, [], [], t⟩
  else if userPtrOk buf len = false then some ⟨-1, [], [], t⟩
  else if t.ttyLineReady vt then some (.gotLine buf (t.ttyGetline vt (Int.bmod len (2 ^ 32))))
  else if (t.ttySigintConsume vt).1 then some ⟨-4, [], [], (t.ttySigintConsume vt).2⟩
  else none

/-- Calls in a row, each with its buffer; those behind a call that waits are not made. -/
def reads (vt : UInt8) : List (Nat × Nat) → Keyboard → List TtyRead × Keyboard
  | [], t => ([], t)
  | c :: calls, t =>
    match t.sysRead vt c.1 c.2 with
    | none => ([], t)
    | some r => (r :: (reads vt calls r.kb).1, (reads vt calls r.kb).2)

/-- No line, nor a part of one. -/
def Idle (t : Keyboard) (vt : UInt8) : Prop :=
  (t.vts vt.toNat).ready = false ∧ (t.vts vt.toNat).len = 0

theorem Idle.sysRead {buf len : Nat} (h : t.Idle vt) (hr : t.sysRead vt buf len = some r) :
    r.stores = [] ∧ r.bytes = [] ∧ r.kb.Idle vt := by
  have hready : ¬ t.ttyLineReady vt = true := by simp [ttyLineReady, h.1]
  rw [Keyboard.sysRead, if_neg hready] at hr
  split_ifs at hr
  · obtain rfl := Option.some.inj hr
    exact ⟨rfl, rfl, h⟩
  · obtain rfl := Option.some.inj hr
    exact ⟨rfl, rfl, h⟩
  obtain rfl := Option.some.inj hr
  refine ⟨rfl, rfl, ?_⟩
  rw [ttySigintConsume]
  split_ifs
  · simpa only [Idle, setVt, Function.update_self] using h
  · exact h

/-- Later calls get nothing. -/
theorem Idle.reads (calls : List (Nat × Nat)) (h : t.Idle vt) :
    (∀ r ∈ (t.reads vt calls).1, r.stores = [] ∧ r.bytes = []) ∧ (t.reads vt calls).2.Idle vt := by
  induction calls generalizing t with
  | nil => exact ⟨fun r hr => absurd hr not_mem_nil, h⟩
  | cons c calls ih =>
    rw [Keyboard.reads]
    cases hrun : t.sysRead vt c.1 c.2 with
    | none => exact ⟨fun r hr => absurd hr not_mem_nil, h⟩
    | some r =>
      obtain ⟨hstores, hbytes, hidle⟩ := h.sysRead hrun
      obtain ⟨hrest, hend⟩ := ih hidle
      exact ⟨forall_mem_cons.mpr ⟨⟨hstores, hbytes⟩, hrest⟩, hend⟩

end Keyboard

/-- **Nothing of the line is lost**: the calls have returned it up to what still waits, and each of
    them has stored to its own buffer only. -/
structure Delivers (t : Keyboard) (vt : UInt8) (calls : List (Nat × Nat))
    (line : List UInt8) : Prop where
  inside : ∀ x ∈ calls.zip (t.reads vt calls).1, ∀ a ∈ x.2.stores, (x.1.1 : Int) ≤ a ∧
    a < x.1.1 + x.1.2
  whole : (t.reads vt calls).1.flatMap TtyRead.bytes ++
    ((t.reads vt calls).2.vts vt.toNat).content = line

/-- **The line is delivered exactly if it is shorter than the first buffer**, the length of which is
    taken as an `int`. -/
theorem reads_deliver_iff {t : Keyboard} {vt : UInt8} {inputs : List Input} {buf len : Nat}
    {calls : List (Nat × Nat)} (hvt : vt.toNat < ttyVtMax) (hshows : (t.vts vt.toNat).Shows inputs)
    (hfin : Finished inputs) (hlen : 1 ≤ len) (hok : userPtrOk buf len = true) :
    Delivers t vt ((buf, len) :: calls) (typed inputs) ↔
      ((typed inputs).length : Int) < Int.bmod len (2 ^ 32) := by
  obtain ⟨n, hn⟩ : ∃ n, n = min (Int.bmod len (2 ^ 32) - 1) ((typed inputs).length : Int) :=
    ⟨_, rfl⟩
  have hline : t.ttyLineReady vt = true := by
    simp [Keyboard.ttyLineReady, hvt, hshows.ready.mpr hfin]
  -- the first call gets what its buffer takes but for one, and the line is gone
  have hrun : t.sysRead vt buf len =
      some (.gotLine buf (t.ttyGetline vt (Int.bmod len (2 ^ 32)))) := by
    rw [Keyboard.sysRead, if_neg (by omega), if_neg (by simp [hok]), if_pos hline]
  rw [Session.ttyGetline_finished hvt hshows hfin hn] at hrun
  generalize hkb : (t.setVt vt.toNat fun x => { x with len := 0, ready := false }) = kb at hrun
  have hidle : kb.Idle vt := by simp [← hkb, Keyboard.Idle, Keyboard.setVt]
  obtain ⟨hrest, hend⟩ := hidle.reads calls
  have hreads : t.reads vt ((buf, len) :: calls) =
      (.gotLine buf (n, some ((typed inputs).take n.toNat), kb) :: (kb.reads vt calls).1,
        (kb.reads vt calls).2) := by
    rw [Keyboard.reads, hrun]
    rfl
  have hwhole : (t.reads vt ((buf, len) :: calls)).1.flatMap TtyRead.bytes ++
      ((t.reads vt ((buf, len) :: calls)).2.vts vt.toNat).content =
        (typed inputs).take n.toNat := by
    rw [hreads, flatMap_cons, flatMap_eq_nil_iff.mpr fun x hx =>
      (hrest x hx).2, VtTty.content, hend.2]
    simp [TtyRead.gotLine]
  constructor
  · intro h
    have hlast :=
      h.inside _ (by rw [hreads]; exact mem_cons_self) (buf + n) (by simp [TtyRead.gotLine])
    have htake := congrArg List.length (hwhole.symm.trans h.whole)
    rw [length_take] at htake
    dsimp only at hlast
    omega
  intro hlt
  have hle : Int.bmod len (2 ^ 32) ≤ len := by
    simp only [Int.bmod]
    omega
  refine ⟨fun x hx a ha => ?_, hwhole.trans (take_of_length_le (by omega))⟩
  rw [hreads, zip_cons_cons] at hx
  rcases mem_cons.mp hx with rfl | hx
  · dsimp only at ha ⊢
    rw [TtyRead.gotLine, mem_append, mem_map, mem_singleton] at ha
    rcases ha with ⟨i, hi, rfl⟩ | rfl
    · have hi := mem_range.mp hi
      omega
    · omega
  · rw [(hrest x.2 (of_mem_zip hx).2).1] at ha
    cases ha

/-- The line "a" on the first terminal. -/
def lineOfTwo : Keyboard := ((Keyboard.start fun _ => 3).ttyInputChar 0x61).ttyInputChar 0x0A

theorem lineOfTwo_shows : (lineOfTwo.vts 0).Shows [.byte 0x61, .byte 0x0A] := ⟨by decide, by decide⟩

theorem reads_deliver_eight :
    Delivers lineOfTwo 0 [(0x40000000, 8), (0x40000000, 8)] [0x61, 0x0A] :=
  have hvt : (0 : UInt8).toNat < ttyVtMax := by decide
  (reads_deliver_iff hvt lineOfTwo_shows rfl (by decide) rfl).mpr (by decide)

/-- **`read(0, buf, 1)`** gets nothing of the line, and the next call waits for another one. -/
theorem reads_lose_line :
    ¬ ∀ (t : Keyboard) (vt : UInt8) (inputs : List Input) (calls : List (Nat × Nat)),
    vt.toNat < ttyVtMax → (t.vts vt.toNat).Shows inputs → Finished inputs → calls ≠ [] →
    (∀ c ∈ calls, 1 ≤ c.2 ∧ userPtrOk c.1 c.2 = true) → Delivers t vt calls (typed inputs) := by
  intro hall
  have h :=
    hall lineOfTwo 0 _ [(0x40000000, 1), (0x40000000, 8)] (by decide) lineOfTwo_shows (by decide)
    (by decide) (by decide)
  have hlost := h.whole
  revert hlost
  decide

end DyntKernel.Tty
