/-
  File:      DyntKernel/Library/Loop.lean
  Subject:   LOOPS WITH AN EARLY RETURN over a state, and bounds on their rounds.

  * `runWhile` -- run a body over a list until it fails; the state of the failing round is kept;
  * `runWhile_inv`, `foldl_inv` -- what every round keeps, the loop keeps;
  * `Stable` -- a result that a bound on the rounds gave is given by every larger bound.
-/
import Mathlib.Data.List.Basic

namespace Library

variable {α σ : Type*}

/-- `for (a in l) if (!body(a)) return false; return true;` -/
def runWhile (body : α → σ → Bool × σ) : List α → σ → Bool × σ
  | [], s => (true, s)
  | a :: l, s => if (body a s).1 then runWhile body l (body a s).2 else body a s

theorem runWhile_inv {body : α → σ → Bool × σ} {l : List α} {I : σ → Prop}
    (hbody : ∀ a ∈ l, ∀ s, I s → I (body a s).2) {s : σ} (hs : I s) : I (runWhile body l s).2 := by
  induction l generalizing s with
  | nil => exact hs
  | cons a l ih =>
    have hfirst : I (body a s).2 := hbody a (by simp) s hs
    rw [runWhile]
    by_cases hok : (body a s).1 = true
    · rw [if_pos hok]
      exact ih (fun b hb => hbody b (by simp [hb])) hfirst
    · rw [if_neg hok]
      exact hfirst

theorem foldl_inv {body : σ → α → σ} {l : List α} {I : σ → Prop}
    (hbody : ∀ a ∈ l, ∀ s, I s → I (body s a)) {s : σ} (hs : I s) : I (l.foldl body s) := by
  induction l generalizing s with
  | nil => exact hs
  | cons a l ih => exact ih (fun b hb => hbody b (by simp [hb])) (hbody a (by simp) s hs)

section Bounds

variable {β γ : Type*}

/-- **A larger bound on the rounds gives the same result**, once there is one. -/
def Stable (f : Nat → Option β) : Prop := ∀ n n' r, n ≤ n' → f n = some r → f n' = some r

theorem Stable.const (r : Option β) : Stable fun _ => r := fun _ _ _ _ h => h

theorem Stable.bind {f : Nat → Option β} {g : β → Nat → Option γ} (hf : Stable f)
    (hg : ∀ b, Stable (g b)) :
    Stable fun n => (f n).bind fun b => g b n := by
  intro n n' r hle h
  obtain ⟨b, hb, hr⟩ := Option.bind_eq_some_iff.mp h
  exact Option.bind_eq_some_iff.mpr ⟨b, hf n n' b hle hb, hg b n n' r hle hr⟩

theorem Stable.map {f : Nat → Option β} (g : β → γ) (hf : Stable f) :
    Stable fun n => (f n).map g := by
  intro n n' r hle h
  obtain ⟨b, hb, hr⟩ := Option.map_eq_some_iff.mp h
  exact Option.map_eq_some_iff.mpr ⟨b, hf n n' b hle hb, hr⟩

theorem Stable.ite {f g : Nat → Option β} (c : Prop) [Decidable c] (hf : Stable f) (hg : Stable g) :
    Stable fun n => if c then f n else g n := by
  by_cases hc : c
  · simpa only [if_pos hc] using hf
  · simpa only [if_neg hc] using hg

/-- Two bounds that are large enough give one result. -/
theorem Stable.eq {f : Nat → Option β} (hf : Stable f) {n n' : Nat} {r r' : β} (h : f n = some r)
    (h' : f n' = some r') : r = r' :=
  Option.some.inj ((hf n _ r (Nat.le_max_left n n') h).symm.trans
    (hf n' _ r' (Nat.le_max_right n n') h'))

end Bounds

end Library
