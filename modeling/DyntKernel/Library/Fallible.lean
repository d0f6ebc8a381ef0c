/-
  File:      DyntKernel/Library/Fallible.lean
  Subject:   COMPUTATIONS OVER A STATE THAT MAY FAIL, and rules of pre- and postconditions for them.

  A failing computation keeps the state it failed in: what it did before is not undone.

  * `Fallible σ α`, its monad, `state`, `edit`, `ensure` -- the computations;
  * `Triple P x Q E` -- from a state with `P`, `x` returns a value with `Q` or fails with `E`;
  * `Triple.bind`, `Triple.ensure`, `Triple.forM` -- one rule for each way to build one; the rule
    of the loop has an invariant over the elements already done.
-/
import Mathlib.Data.List.Basic

namespace Library

/-- A computation over the state `σ`. -/
def Fallible (σ α : Type) : Type := σ → Option α × σ

namespace Fallible

variable {σ α β : Type}

instance : Monad (Fallible σ) where
  pure a := fun s => (some a, s)
  bind x f := fun s =>
    match x s with
    | (some a, s') => f a s'
    | (none, s') => (none, s')

/-- Read the state. -/
def state : Fallible σ σ := fun s => (some s, s)

/-- Change the state. -/
def edit (f : σ → σ) : Fallible σ Unit := fun s => (some (), f s)

/-- Fail unless the condition holds. -/
def ensure (c : Prop) [Decidable c] : Fallible σ Unit := fun s => (if c then some () else none, s)

theorem bind_some {x : Fallible σ α} {f : α → Fallible σ β} {s s' : σ} {a : α}
    (h : x s = (some a, s')) : (x >>= f) s = f a s' := by
  show (match x s with | (some a, s') => f a s' | (none, s') => (none, s')) = _
  rw [h]

theorem bind_none {x : Fallible σ α} {f : α → Fallible σ β} {s s' : σ}
    (h : x s = (none, s')) : (x >>= f) s = (none, s') := by
  show (match x s with | (some a, s') => f a s' | (none, s') => (none, s')) = _
  rw [h]

end Fallible

open Fallible

variable {σ α β : Type}

/-- **From a state with `P` the computation returns with `Q` or fails with `E`.** -/
def Triple (P : σ → Prop) (x : Fallible σ α) (Q : α → σ → Prop) (E : σ → Prop) : Prop :=
  ∀ s, P s → (∃ a s', x s = (some a, s') ∧ Q a s') ∨ (∃ s', x s = (none, s') ∧ E s')

namespace Triple

variable {P P' : σ → Prop} {x : Fallible σ α} {Q Q' : α → σ → Prop} {E : σ → Prop}

theorem conseq (h : Triple P x Q E) (hP : ∀ s, P' s → P s) (hQ : ∀ a s, Q a s → Q' a s) :
    Triple P' x Q' E := by
  intro s hs
  rcases h s (hP s hs) with ⟨a, s', heq, ha⟩ | hfail
  · exact .inl ⟨a, s', heq, hQ a s' ha⟩
  · exact .inr hfail

theorem pure {a : α} (h : ∀ s, P s → Q a s) : Triple P (Pure.pure a) Q E :=
  fun s hs => .inl ⟨a, s, rfl, h s hs⟩

theorem bind {R : α → σ → Prop} {f : α → Fallible σ β} {Q : β → σ → Prop} (hx : Triple P x R E)
    (hf : ∀ a, Triple (R a) (f a) Q E) : Triple P (x >>= f) Q E := by
  intro s hs
  rcases hx s hs with ⟨a, s', heq, ha⟩ | ⟨s', heq, he⟩
  · rw [bind_some heq]
    exact hf a s' ha
  · exact .inr ⟨s', bind_none heq, he⟩

theorem edit {g : σ → σ} {Q : Unit → σ → Prop} (h : ∀ s, P s → Q () (g s)) :
    Triple P (Fallible.edit g) Q E :=
  fun s hs => .inl ⟨(), g s, rfl, h s hs⟩

theorem ensure {c : Prop} [Decidable c] {Q : Unit → σ → Prop} (h : c → ∀ s, P s → Q () s)
    (he : ¬ c → ∀ s, P s → E s) : Triple P (Fallible.ensure c) Q E := by
  intro s hs
  by_cases hc : c
  · exact .inl ⟨(), s, by simp [Fallible.ensure, hc], h hc s hs⟩
  · exact .inr ⟨s, by simp [Fallible.ensure, hc], he hc s hs⟩

/-- **The loop**, with an invariant over the elements already done. -/
theorem forM {l : List α} {body : α → Fallible σ Unit} {J : List α → σ → Prop}
    (hbody : ∀ a ∈ l, ∀ done, Triple (J done) (body a) (fun _ => J (done ++ [a])) E) :
    Triple (J []) (l.forM body) (fun _ => J l) E := by
  have hrun : ∀ todo done, (∀ a ∈ todo, a ∈ l) →
      Triple (J done) (todo.forM body) (fun _ => J (done ++ todo)) E := by
    intro todo
    induction todo with
    | nil =>
      intro done _
      refine Triple.pure fun s hs => ?_
      rw [List.append_nil]
      exact hs
    | cons a todo ih =>
      intro done hsub
      refine Triple.bind (hbody a (hsub a (by simp)) done) fun _ => ?_
      have htail := ih (done ++ [a]) fun b hb => hsub b (by simp [hb])
      rwa [List.append_assoc, List.singleton_append] at htail
  exact hrun l [] fun a ha => ha

end Triple

end Library
