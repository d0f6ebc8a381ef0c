/-
  File:      DyntKernel/Library/Traced.lean
  Subject:   COMPUTATIONS THAT RECORD WHAT THEY READ of a buffer.

  A traced computation is its result together with the ranges of the buffer it read. What is read
  depends on what was read before, so the trace of a sequence is that of its first part and then
  that of the rest at the first part's result.

  * `Traced`, `Traced.read` -- the monad and its one operation;
  * `allOf`, `anyOf` -- conjunction and disjunction that stop at the first value that decides them;
  * `Inside`, `inside_bind`, `inside_allOf` -- every byte that is read lies below a bound.
-/
import DyntKernel.Library.Bytes

namespace Library

/-- A result, and the ranges of a buffer that were read for it: an offset and a number of bytes
    each. -/
structure Traced (α : Type) where
  val : α
  reads : List (Nat × Nat)

namespace Traced

variable {α β : Type} {p : Traced α} {f : α → Traced β} {size off n : Nat}

instance : Monad Traced where
  pure a := ⟨a, []⟩
  bind p f := ⟨(f p.val).val, p.reads ++ (f p.val).reads⟩

/-- A little-endian word of `n` bytes. -/
def read (m : Nat → UInt8) (off n : Nat) : Traced Nat := ⟨readLE m off n, [(off, n)]⟩

@[simp] theorem val_pure {a : α} : (pure a : Traced α).val = a := rfl

@[simp] theorem val_bind : (p >>= f).val = (f p.val).val := rfl

@[simp] theorem val_ite {c : Prop} [Decidable c] {q : Traced α} :
    (if c then p else q).val = if c then p.val else q.val := apply_ite val c p q

/-! ## 1. Conditions -/

/-- `a && b && ..`: what stands behind the first value that is false is not read. -/
def allOf : List (Traced Bool) → Traced Bool
  | [] => pure true
  | p :: ps => do if ← p then allOf ps else pure false

/-- `a || b || ..`. -/
def anyOf : List (Traced Bool) → Traced Bool
  | [] => pure false
  | p :: ps => do if ← p then pure true else anyOf ps

@[simp] theorem val_allOf {ps : List (Traced Bool)} : (allOf ps).val = ps.all (·.val) := by
  induction ps with
  | nil => rfl
  | cons p ps ih => rw [allOf, val_bind, val_ite, ih, List.all_cons]; cases p.val <;> rfl

@[simp] theorem val_anyOf {ps : List (Traced Bool)} : (anyOf ps).val = ps.any (·.val) := by
  induction ps with
  | nil => rfl
  | cons p ps ih => rw [anyOf, val_bind, val_ite, ih, List.any_cons]; cases p.val <;> rfl

/-! ## 2. A bound on what is read -/

/-- **Every byte that is read lies below `size`.** -/
def Inside (size : Nat) (p : Traced α) : Prop := ∀ r ∈ p.reads, ∀ j, j < r.2 → r.1 + j < size

@[simp] theorem inside_pure {a : α} : Inside size (pure a : Traced α) :=
  fun _ h => absurd h List.not_mem_nil

@[simp] theorem inside_bind : Inside size (p >>= f) ↔ Inside size p ∧ Inside size (f p.val) :=
  List.forall_mem_append

/-- A computation that reads alike wherever it reads inside is the same. -/
theorem bind_congr_inside {p' : Traced α} {f' : α → Traced β} (h : Inside size (p >>= f))
    (hp : Inside size p → p' = p) (hf : Inside size (f p.val) → f' p.val = f p.val) :
    p' >>= f' = p >>= f := by
  obtain ⟨hfirst, hrest⟩ := inside_bind.mp h
  rw [hp hfirst]
  show (⟨(f' p.val).val, p.reads ++ (f' p.val).reads⟩ : Traced β) = _
  rw [hf hrest]
  rfl

theorem inside_read {m : Nat → UInt8} (hn : 0 < n) :
    Inside size (read m off n) ↔ off + n ≤ size := by
  have hiff : Inside size (read m off n) ↔ ∀ j, j < n → off + j < size := List.forall_mem_singleton
  rw [hiff]
  constructor
  · intro h
    have := h (n - 1) (by omega)
    omega
  · intro h j hj
    omega

theorem inside_ite {c : Prop} [Decidable c] {q : Traced α} :
    Inside size (if c then p else q) ↔ (c → Inside size p) ∧ (¬ c → Inside size q) := by
  by_cases h : c
  · simp [h]
  · simp [h]

theorem inside_allOf {ps : List (Traced Bool)} (h : ∀ p ∈ ps, Inside size p) :
    Inside size (allOf ps) := by
  induction ps with
  | nil => exact inside_pure
  | cons p ps ih =>
    obtain ⟨hp, hps⟩ := List.forall_mem_cons.mp h
    rw [allOf, inside_bind, inside_ite]
    exact ⟨hp, fun _ => ih hps, fun _ => inside_pure⟩

theorem inside_anyOf {ps : List (Traced Bool)} (h : ∀ p ∈ ps, Inside size p) :
    Inside size (anyOf ps) := by
  induction ps with
  | nil => exact inside_pure
  | cons p ps ih =>
    obtain ⟨hp, hps⟩ := List.forall_mem_cons.mp h
    rw [anyOf, inside_bind, inside_ite]
    exact ⟨hp, fun _ => inside_pure, fun _ => ih hps⟩

end Traced

end Library
