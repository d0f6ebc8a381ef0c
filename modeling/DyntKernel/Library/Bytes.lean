/-
  File:      DyntKernel/Library/Bytes.lean
  Subject:   A MEMORY OF BYTES: block stores and little-endian words.

  * `blit` -- store a block of bytes; every other store is one;
  * `readLE`, `writeLE` -- a word of `n` bytes, least significant byte first;
  * `readLE_writeLE`, `readLE_blit_of_disjoint`, `readLE_lt` -- what is read after a store.
-/
import Mathlib.Tactic.Ring
import Mathlib.Algebra.Order.Ring.Nat

namespace Library

/-- Store the bytes `data 0`, `data 1`, .. `data (n - 1)` from the address `a` on. -/
def blit (m : Nat → UInt8) (a n : Nat) (data : Nat → UInt8) : Nat → UInt8 :=
  fun x => if a ≤ x ∧ x < a + n then data (x - a) else m x

/-- The number in the `n` bytes from `a`, least significant byte first. -/
def readLE (m : Nat → UInt8) : Nat → Nat → Nat
  | _, 0 => 0
  | a, n + 1 => (m a).toNat + 256 * readLE m (a + 1) n

/-- Store the low `n` bytes of `v`, least significant byte first. -/
def writeLE (m : Nat → UInt8) (a n v : Nat) : Nat → UInt8 :=
  blit m a n fun j => UInt8.ofNat (v / 256 ^ j)

variable {m m' : Nat → UInt8} {a b n k v x : Nat} {data : Nat → UInt8}

theorem blit_of_out (h : x < a ∨ a + n ≤ x) : blit m a n data x = m x :=
  if_neg (by omega)

/-- The second of two copies to one place is the one that stays. -/
theorem blit_blit {data' : Nat → UInt8} : blit (blit m a n data) a n data' = blit m a n data' := by
  funext x
  simp only [blit]
  split_ifs <;> rfl

theorem blit_of_in (h : k < n) : blit m a n data (a + k) = data k := by
  rw [blit, if_pos (by omega), Nat.add_sub_cancel_left]

theorem readLE_congr (h : ∀ j, j < n → m (a + j) = m' (b + j)) : readLE m a n = readLE m' b n := by
  induction n generalizing a b with
  | zero => rfl
  | succ n ih =>
    have hhead : m a = m' b := h 0 (by omega)
    have htail : readLE m (a + 1) n = readLE m' (b + 1) n := by
      refine ih fun j hj => ?_
      have hj' := h (j + 1) (by omega)
      rwa [show a + (j + 1) = a + 1 + j by omega, show b + (j + 1) = b + 1 + j by omega] at hj'
    rw [readLE, readLE, hhead, htail]

theorem readLE_lt : readLE m a n < 256 ^ n := by
  induction n generalizing a with
  | zero => exact Nat.one_pos
  | succ n ih =>
    have hbyte : (m a).toNat < 256 := (m a).toNat_lt
    have htail : readLE m (a + 1) n < 256 ^ n := ih
    rw [readLE, Nat.pow_succ]
    omega

theorem readLE_blit_of_disjoint (h : b + k ≤ a ∨ a + n ≤ b) :
    readLE (blit m a n data) b k = readLE m b k :=
  readLE_congr fun j hj => blit_of_out (by omega)

theorem readLE_blit_of_within (h : b + k ≤ n) :
    readLE (blit m a n data) (a + b) k = readLE data b k := by
  refine readLE_congr fun j hj => ?_
  rw [Nat.add_assoc]
  exact blit_of_in (by omega)

theorem readLE_zero : readLE (fun _ => 0) b k = 0 := by
  induction k generalizing b with
  | zero => rfl
  | succ k ih => rw [readLE, ih]; rfl

/-- The bytes of a number read back as that number, cut to the width of the word. -/
theorem readLE_bytes (h : ∀ j, j < n → m (a + j) = UInt8.ofNat (v / 256 ^ j)) :
    readLE m a n = v % 256 ^ n := by
  induction n generalizing a v with
  | zero => rw [readLE, Nat.pow_zero, Nat.mod_one]
  | succ n ih =>
    have hhead : (m a).toNat = v % 256 := by
      have h0 := h 0 (by omega)
      rw [Nat.add_zero, Nat.pow_zero, Nat.div_one] at h0
      rw [h0, UInt8.toNat_ofNat']
    have htail : readLE m (a + 1) n = v / 256 % 256 ^ n := by
      refine ih fun j hj => ?_
      have hj' := h (j + 1) (by omega)
      rwa [show a + (j + 1) = a + 1 + j by omega, Nat.pow_succ', ← Nat.div_div_eq_div_mul] at hj'
    rw [readLE, hhead, htail, Nat.pow_succ', Nat.mod_mul]

theorem readLE_writeLE : readLE (writeLE m a n v) a n = v % 256 ^ n :=
  readLE_bytes fun _ hj => blit_of_in hj

end Library
