/-
  File:      DyntKernel/Library/BlockIo.lean
  Subject:   PROGRAMS THAT READ AND WRITE A BLOCK DEVICE, one request at a time.

  A program is the tree of its requests: the device answers a request and the program goes on with
  the answer. Its own buffers are values of the program, so two programs share the device only.

  * `Disk b` -- a device of sectors of `b` bytes, `read` and `write` with the range check;
  * `Prog κ α`, its monad -- the programs; a write carries a mark `κ` that says what is written;
  * `run`, `run_bind` -- a program alone on the device, from the first request to its result;
  * `Safe W p Q d` -- every write of `p` meets `W`, and its result meets `Q`; one rule for each way
    to build a program;
  * `Shared`, `play` -- programs on one device, interleaved request by request;
  * `runFaulty`, `ReadOnly` -- a program on a device that refuses some of its writes.
-/
import DyntKernel.Library.Bytes
import Mathlib.Data.List.Induction
import Mathlib.Logic.Function.Basic

namespace Library

variable {lba count : Nat}

/-! ## 1. The device -/

/-- A device of sectors of `b` bytes. -/
structure Disk (b : Nat) where
  sectorCount : Nat
  bytes : Nat → UInt8

namespace Disk

variable {b : Nat}

/-- The sectors of a request exist, and there is one. -/
def Fits (d : Disk b) (lba count : Nat) : Prop :=
  count ≠ 0 ∧ lba < d.sectorCount ∧ count ≤ d.sectorCount - lba

instance (d : Disk b) (lba count : Nat) : Decidable (d.Fits lba count) :=
  inferInstanceAs (Decidable (_ ∧ _ ∧ _))

/-- The bytes from the sector `lba` on. -/
def sector (d : Disk b) (lba : Nat) : Nat → UInt8 := fun j => d.bytes (lba * b + j)

def read (d : Disk b) (lba count : Nat) : Option (Nat → UInt8) :=
  if d.Fits lba count then some (d.sector lba) else none

def put (d : Disk b) (lba count : Nat) (data : Nat → UInt8) : Disk b :=
  { d with bytes := blit d.bytes (lba * b) (count * b) data }

def write (d : Disk b) (lba count : Nat) (data : Nat → UInt8) : Bool × Disk b :=
  if d.Fits lba count then (true, d.put lba count data) else (false, d)

variable {d : Disk b} {lba count l c : Nat} {data : Nat → UInt8}

theorem read_of_fits (h : d.Fits lba count) : d.read lba count = some (d.sector lba) := if_pos h

theorem read_of_not_fits (h : ¬ d.Fits lba count) : d.read lba count = none := if_neg h

theorem write_of_fits (h : d.Fits lba count) :
    d.write lba count data = (true, d.put lba count data) :=
  if_pos h

theorem write_of_not_fits (h : ¬ d.Fits lba count) : d.write lba count data = (false, d) := if_neg h

@[simp] theorem put_sectorCount : (d.put lba count data).sectorCount = d.sectorCount := rfl

@[simp] theorem put_fits : (d.put lba count data).Fits l c ↔ d.Fits l c := Iff.rfl

theorem write_fits : (d.write lba count data).2.Fits l c ↔ d.Fits l c := by
  rw [write]
  split_ifs
  · exact put_fits
  · exact Iff.rfl

/-- The bytes that are written. -/
theorem put_sector {j : Nat} (hj : j < count * b) : (d.put lba count data).sector lba j = data j :=
  blit_of_in hj

/-- The bytes of `m` other sectors. -/
theorem put_sector_of_apart {j m : Nat} (hl : l + m ≤ lba ∨ lba + count ≤ l) (hj : j < m * b) :
    (d.put lba count data).sector l j = d.sector l j := by
  refine blit_of_out ?_
  rcases hl with hl | hl
  · left
    calc l * b + j < (l + m) * b := by rw [Nat.add_mul]; omega
      _ ≤ lba * b := Nat.mul_le_mul_right b hl
  · right
    calc lba * b + count * b = (lba + count) * b := by ring
      _ ≤ l * b := Nat.mul_le_mul_right b hl
      _ ≤ l * b + j := by omega

end Disk

/-! ## 2. Programs -/

/-- **A program.** `hang` stands for a loop that is not left: it has no result. -/
inductive Prog (κ α : Type) : Type
  | ret (a : α)
  | hang
  | read (lba count : Nat) (k : Option (Nat → UInt8) → Prog κ α)
  | write (kind : κ) (lba count : Nat) (data : Nat → UInt8) (k : Bool → Prog κ α)

namespace Prog

variable {κ α β : Type} {b : Nat}

def bind : Prog κ α → (α → Prog κ β) → Prog κ β
  | .ret a, f => f a
  | .hang, _ => .hang
  | .read lba count k, f => .read lba count fun r => bind (k r) f
  | .write kind lba count data k, f => .write kind lba count data fun r => bind (k r) f

instance : Monad (Prog κ) where
  pure := .ret
  bind := bind

theorem bind_ret (p : Prog κ α) : bind p .ret = p := by
  induction p with
  | ret a => rfl
  | hang => rfl
  | read lba count k ih => exact congrArg (read lba count) (funext ih)
  | write kind lba count data k ih => exact congrArg (write kind lba count data) (funext ih)

theorem bind_bind {γ : Type} (p : Prog κ α) (f : α → Prog κ β) (g : β → Prog κ γ) :
    bind (bind p f) g = bind p fun a => bind (f a) g := by
  induction p with
  | ret a => rfl
  | hang => rfl
  | read lba count k ih => exact congrArg (read lba count) (funext ih)
  | write kind lba count data k ih => exact congrArg (write kind lba count data) (funext ih)

instance : LawfulMonad (Prog κ) := LawfulMonad.mk' (Prog κ) bind_ret (fun _ _ => rfl) bind_bind

/-- A single request. -/
def blockRead (lba count : Nat) : Prog κ (Option (Nat → UInt8)) := .read lba count .ret

def blockWrite (kind : κ) (lba count : Nat) (data : Nat → UInt8) : Prog κ Bool :=
  .write kind lba count data .ret

/-- The result of a program that is alone on the device, and the device after it. -/
def run : Prog κ α → Disk b → Option (α × Disk b)
  | .ret a, d => some (a, d)
  | .hang, _ => none
  | .read lba count k, d => run (k (d.read lba count)) d
  | .write _ lba count data k, d =>
    run (k (d.write lba count data).1) (d.write lba count data).2

variable {p : Prog κ α} {f : α → Prog κ β} {d : Disk b}

@[simp] theorem run_pure {a : α} : run (Pure.pure a : Prog κ α) d = some (a, d) := rfl

/-- The device stays as large as it is. -/
theorem run_sectorCount {a : α} {d' : Disk b} (h : run p d = some (a, d')) :
    d'.sectorCount = d.sectorCount := by
  induction p generalizing d with
  | ret c =>
    cases h
    rfl
  | hang => cases h
  | read lba count k ih => exact ih _ h
  | write kind lba count data k ih =>
    refine (ih _ h).trans ?_
    rw [Disk.write]
    split_ifs
    · rfl
    · rfl

theorem run_bind : run (p >>= f) d = (run p d).bind fun r => run (f r.1) r.2 := by
  show run (bind p f) d = _
  induction p generalizing d with
  | ret a => rfl
  | hang => rfl
  | read lba count k ih => exact ih _
  | write kind lba count data k ih => exact ih _

theorem run_bind_of {a : α} {d' : Disk b} (h : run p d = some (a, d')) :
    run (p >>= f) d = run (f a) d' := by
  rw [run_bind, h, Option.bind_some]

@[simp] theorem run_blockRead :
    run (blockRead lba count : Prog κ _) d = some (d.read lba count, d) := rfl

@[simp] theorem run_blockWrite {kind : κ} {data : Nat → UInt8} :
    run (blockWrite kind lba count data) d =
      some ((d.write lba count data).1, (d.write lba count data).2) := rfl

/-! ## 3. What a program writes -/

/-- **Every write the device takes meets `W`, and a result meets `Q`.** -/
def Safe (W : κ × Nat × Nat → Prop) : Prog κ α → (α → Disk b → Prop) → Disk b → Prop
  | .ret a, Q, d => Q a d
  | .hang, _, _ => True
  | .read lba count k, Q, d => Safe W (k (d.read lba count)) Q d
  | .write kind lba count data k, Q, d =>
    (d.Fits lba count → W (kind, lba, count)) ∧
      Safe W (k (d.write lba count data).1) Q (d.write lba count data).2

section Safe

variable {W : κ × Nat × Nat → Prop} {Q Q' : α → Disk b → Prop}

theorem Safe.run {a : α} {d' : Disk b} (h : Safe W p Q d)
    (hrun : p.run d = some (a, d')) : Q a d' := by
  induction p generalizing d with
  | ret c =>
    cases hrun
    exact h
  | hang => cases hrun
  | read lba count k ih => exact ih _ h hrun
  | write kind lba count data k ih => exact ih _ h.2 hrun

/-- What is known about the result of a program without a bound on its writes. -/
theorem Safe.of_run {a : α} {d' : Disk b} (hW : ∀ w, W w) (hrun : p.run d = some (a, d'))
    (hQ : Q a d') : Safe W p Q d := by
  induction p generalizing d with
  | ret c =>
    cases hrun
    exact hQ
  | hang => exact trivial
  | read lba count k ih => exact ih _ hrun
  | write kind lba count data k ih => exact ⟨fun _ => hW _, ih _ hrun⟩

/-- Every program is safe if nothing is asked of it. -/
theorem Safe.of_true (hW : ∀ w, W w) : Safe W p (fun _ _ => True) d := by
  induction p generalizing d with
  | ret a => exact trivial
  | hang => exact trivial
  | read lba count k ih => exact ih _
  | write kind lba count data k ih => exact ⟨fun _ => hW _, ih _⟩

theorem Safe.mono (h : Safe W p Q d) (hQ : ∀ a d', Q a d' → Q' a d') : Safe W p Q' d := by
  induction p generalizing d with
  | ret a => exact hQ a d h
  | hang => exact trivial
  | read lba count k ih => exact ih _ h
  | write kind lba count data k ih => exact ⟨h.1, ih _ h.2⟩

theorem Safe.bind {R : β → Disk b → Prop} (hp : Safe W p Q d)
    (hf : ∀ a d', Q a d' → Safe W (f a) R d') : Safe W (p >>= f) R d := by
  show Safe W (Prog.bind p f) R d
  induction p generalizing d with
  | ret a => exact hf a d hp
  | hang => exact trivial
  | read lba count k ih => exact ih _ hp
  | write kind lba count data k ih => exact ⟨hp.1, ih _ hp.2⟩

/-- A read, in front of what is done with the answer. -/
theorem Safe.bind_read {f : Option (Nat → UInt8) → Prog κ α}
    (h : Safe W (f (d.read lba count)) Q d) : Safe W (blockRead lba count >>= f) Q d := h

theorem Safe.write {kind : κ} {data : Nat → UInt8} {Q : Bool → Disk b → Prop}
    (hW : d.Fits lba count → W (kind, lba, count))
    (h : Q (d.write lba count data).1 (d.write lba count data).2) :
    Safe W (blockWrite kind lba count data) Q d := ⟨hW, h⟩

end Safe

/-! ## 4. Programs that share the device -/

/-- The next request of a program. -/
def step : Prog κ α → Disk b → Prog κ α × Disk b
  | .ret a, d => (.ret a, d)
  | .hang, d => (.hang, d)
  | .read lba count k, d => (k (d.read lba count), d)
  | .write _ lba count data k, d => (k (d.write lba count data).1, (d.write lba count data).2)

theorem step_bind_read {f : Option (Nat → UInt8) → Prog κ α} :
    (blockRead lba count >>= f).step d = (f (d.read lba count), d) := rfl

theorem run_step : run (p.step d).1 (p.step d).2 = run p d := by
  cases p <;> rfl

end Prog

/-- Programs, by their names `ι`, and the device they share. -/
structure Shared (ι κ α : Type) (b : Nat) where
  prog : ι → Prog κ α
  disk : Disk b

namespace Shared

variable {ι κ α : Type} {b : Nat} [DecidableEq ι]

/-- The next request comes from the program `i`. -/
def step (s : Shared ι κ α b) (i : ι) : Shared ι κ α b :=
  ⟨Function.update s.prog i ((s.prog i).step s.disk).1, ((s.prog i).step s.disk).2⟩

/-- An interleaving: the programs in the order of their requests. -/
def play (s : Shared ι κ α b) (schedule : List ι) : Shared ι κ α b := schedule.foldl step s

/-- All programs have returned. -/
def Done (s : Shared ι κ α b) : Prop := ∀ i, ∃ a, s.prog i = .ret a

variable {s : Shared ι κ α b} {i j : ι} {schedule : List ι}

theorem step_prog : (s.step i).prog i = ((s.prog i).step s.disk).1 := Function.update_self ..

theorem step_prog_of_ne (h : j ≠ i) : (s.step i).prog j = s.prog j := Function.update_of_ne h ..

theorem play_snoc : s.play (schedule ++ [i]) = (s.play schedule).step i := by
  rw [play, List.foldl_append]
  rfl

end Shared

/-! ## 5. A device that refuses writes -/

namespace Prog

variable {κ α β : Type} {b : Nat}

/-- The next write is taken: what the list says, and true behind its end. -/
def took (faults : List Bool) : Bool := faults.headD true

/-- **A program on a device that refuses some writes.** The list says for one write after the other
    other whether the device takes it; a write it refuses changes nothing. With what is left of
    the list. -/
def runFaulty : List Bool → Prog κ α → Disk b → Option ((α × Disk b) × List Bool)
  | faults, .ret a, d => some ((a, d), faults)
  | _, .hang, _ => none
  | faults, .read lba count k, d => runFaulty faults (k (d.read lba count)) d
  | faults, .write _ lba count data k, d =>
    if took faults then
      runFaulty faults.tail (k (d.write lba count data).1) (d.write lba count data).2
    else runFaulty faults.tail (k false) d

variable {p : Prog κ α} {f : α → Prog κ β} {d : Disk b} {faults : List Bool}

/-- The device takes everything. -/
theorem runFaulty_nil {r : α × Disk b} {rest : List Bool} :
    runFaulty [] p d = some (r, rest) ↔ run p d = some r ∧ rest = [] := by
  induction p generalizing d with
  | ret a => simp [runFaulty, run, eq_comm]
  | hang => simp [runFaulty, run]
  | read lba count k ih => exact ih _
  | write kind lba count data k ih => exact ih _

/-- What a device does that takes all writes of a run, whatever it refuses later. -/
theorem runFaulty_replicate {a : α} {d' : Disk b} (h : run p d = some (a, d')) :
    ∃ k, ∀ rest, runFaulty (List.replicate k true ++ rest) p d = some ((a, d'), rest) := by
  induction p generalizing d with
  | ret c =>
    cases h
    exact ⟨0, fun _ => rfl⟩
  | hang => cases h
  | read lba count k ih => exact ih _ h
  | write kind lba count data k ih =>
    obtain ⟨n, hn⟩ := ih _ h
    exact ⟨n + 1, hn⟩

theorem runFaulty_bind : runFaulty faults (p >>= f) d =
    (runFaulty faults p d).bind fun r => runFaulty r.2 (f r.1.1) r.1.2 := by
  show runFaulty faults (bind p f) d = _
  induction p generalizing d faults with
  | ret a => rfl
  | hang => rfl
  | read lba count k ih => exact ih _
  | write kind lba count data k ih =>
    rw [bind, runFaulty, runFaulty]
    split_ifs
    · exact ih _
    · exact ih _

theorem runFaulty_bind_of {a : α} {d' : Disk b} {rest : List Bool}
    (h : runFaulty faults p d = some ((a, d'), rest)) :
    runFaulty faults (p >>= f) d = runFaulty rest (f a) d' := by
  rw [runFaulty_bind, h, Option.bind_some]

theorem runFaulty_blockRead {f : Option (Nat → UInt8) → Prog κ α} :
    runFaulty faults (blockRead lba count >>= f) d = runFaulty faults (f (d.read lba count)) d :=
  rfl

theorem runFaulty_blockWrite {kind : κ} {data : Nat → UInt8} (hfits : d.Fits lba count) :
    runFaulty faults (blockWrite kind lba count data) d =
      some ((took faults, if took faults then d.put lba count data else d), faults.tail) := by
  show (if took faults then runFaulty faults.tail (ret (d.write _ _ _).1) (d.write _ _ _).2
    else runFaulty faults.tail (ret false) d) = _
  cases took faults with
  | false => rfl
  | true =>
    rw [Disk.write_of_fits hfits]
    rfl

/-- A write to sectors that the device does not have. -/
theorem runFaulty_blockWrite_off {kind : κ} {data : Nat → UInt8} (hfits : ¬ d.Fits lba count) :
    runFaulty faults (blockWrite kind lba count data) d = some ((false, d), faults.tail) := by
  show (if took faults then runFaulty faults.tail (ret (d.write _ _ _).1) (d.write _ _ _).2
    else runFaulty faults.tail (ret false) d) = _
  rw [Disk.write_of_not_fits hfits, ite_self]
  rfl

@[simp] theorem runFaulty_pure {a : α} :
    runFaulty faults (Pure.pure a : Prog κ α) d = some ((a, d), faults) := rfl

/-- The program writes nothing. -/
def ReadOnly : Prog κ α → Prop
  | .ret _ => True
  | .hang => True
  | .read _ _ k => ∀ r, ReadOnly (k r)
  | .write _ _ _ _ _ => False

theorem ReadOnly.bind (hp : p.ReadOnly) (hf : ∀ a, (f a).ReadOnly) : (p >>= f).ReadOnly := by
  show (Prog.bind p f).ReadOnly
  induction p with
  | ret a => exact hf a
  | hang => exact trivial
  | read lba count k ih => exact fun r => ih r (hp r)
  | write kind lba count data k ih => exact hp.elim

theorem ReadOnly.pure {a : α} : (Pure.pure a : Prog κ α).ReadOnly := trivial

theorem ReadOnly.blockRead : (blockRead lba count : Prog κ _).ReadOnly := fun _ => trivial

/-- **What only reads does not meet a fault**, and leaves the device as it is. -/
theorem ReadOnly.runFaulty_bind (hp : p.ReadOnly) {a : α} {d' : Disk b}
    (h : run p d = some (a, d')) :
    runFaulty faults (p >>= f) d = runFaulty faults (f a) d' := by
  refine runFaulty_bind_of ?_
  induction p with
  | ret c =>
    cases h
    rfl
  | hang => cases h
  | read lba count k ih => exact ih _ (hp _) h
  | write kind lba count data k ih => exact hp.elim

theorem ReadOnly.disk (hp : p.ReadOnly) {a : α} {d' : Disk b}
    (h : run p d = some (a, d')) : d' = d := by
  induction p with
  | ret c =>
    cases h
    rfl
  | hang => cases h
  | read lba count k ih => exact ih _ (hp _) h
  | write kind lba count data k ih => exact hp.elim

/-- A program that only reads at first. -/
theorem ReadOnly.run_bind (hp : p.ReadOnly) {r : β × Disk b} (h : run (p >>= f) d = some r) :
    ∃ a, run p d = some (a, d) ∧ run (f a) d = some r := by
  rw [Prog.run_bind] at h
  obtain ⟨⟨a, d'⟩, hrun, hrest⟩ := Option.bind_eq_some_iff.mp h
  obtain rfl := hp.disk hrun
  exact ⟨a, hrun, hrest⟩

/-- What a program finds, as far as it was evaluated. -/
theorem ReadOnly.found {γ β : Type} {p : Prog κ (Option γ)} (hp : p.ReadOnly) {f : γ → β} {x : β}
    (h : (run p d).map (fun r => r.1.map f) = some (some x)) : ∃ a,
    run p d = some (some a, d) ∧ f a = x := by
  obtain ⟨⟨r, d'⟩, hrun, hr⟩ := Option.map_eq_some_iff.mp h
  obtain ⟨a, rfl, ha⟩ := Option.map_eq_some_iff.mp hr
  obtain rfl := hp.disk hrun
  exact ⟨a, hrun, ha⟩

end Prog

end Library
