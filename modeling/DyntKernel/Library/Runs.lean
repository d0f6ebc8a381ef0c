/-
  File:      DyntKernel/Library/Runs.lean
  Subject:   RUNS OF A STEP FUNCTION whose steps may be guarded.

  A system is a partial step function `step : σ → ε → Option σ` over events `ε` (`none`: the
  event cannot happen in this state). This file fixes what a run is and how an invariant is
  carried along one:

  * `Reaches step ok s0 s` -- `s` is reached from `s0` by steps each of which met `ok`, a
    condition on the state before the step and the event;
  * `Reaches.inv` -- the invariant rule: what holds at the start and survives every step that
    meets `ok` holds at every state reached;
  * `exec`, `Reaches.of_exec` -- runs given by an explicit list of events, evaluated;
  * `prefixes_iff` -- what holds after every prefix of a list of events.
-/
import Mathlib.Data.List.Induction
import Mathlib.Tactic.SplitIfs

namespace Library

variable {σ ε : Type*}

/-- **The states reached from `s0`** by steps whose state before and event meet `ok`. -/
inductive Reaches (step : σ → ε → Option σ) (ok : σ → ε → Prop) (s0 : σ) : σ → Prop where
  | start : Reaches step ok s0 s0
  | step (s s' : σ) (e : ε) (h : Reaches step ok s0 s) (hok : ok s e)
      (hs : step s e = some s') : Reaches step ok s0 s'

/-- The guard of a run without a condition. -/
def Any (_ : σ) (_ : ε) : Prop := True

instance (s : σ) (e : ε) : Decidable (Any s e) := .isTrue trivial

section Rules

variable {step : σ → ε → Option σ} {ok : σ → ε → Prop} {s0 s : σ}

/-- **The invariant rule.** -/
theorem Reaches.inv {I : σ → Prop} (h0 : I s0)
    (hstep : ∀ s s' e, I s → ok s e → step s e = some s' → I s')
    (h : Reaches step ok s0 s) : I s := by
  induction h with
  | start => exact h0
  | step s s' e _ hok hs ih => exact hstep s s' e ih hok hs

end Rules

/-- The state after a list of events, if each of them can happen and meets `ok`. -/
def exec (step : σ → ε → Option σ) (ok : σ → ε → Prop) [∀ s e, Decidable (ok s e)] :
    σ → List ε → Option σ
  | s, [] => some s
  | s, e :: es => if ok s e then (step s e).bind fun s' => exec step ok s' es else none

/-- **An evaluated list of events is a run.** -/
theorem Reaches.of_exec {step : σ → ε → Option σ} {ok : σ → ε → Prop}
    [∀ s e, Decidable (ok s e)] {s0 : σ} :
    ∀ {es : List ε} {s s' : σ}, Reaches step ok s0 s → exec step ok s es = some s' →
      Reaches step ok s0 s'
  | [], _, _, h, he => by cases he; exact h
  | e :: es, s, s', h, he => by
    simp only [exec] at he
    split_ifs at he with hok
    obtain ⟨t, ht, he⟩ := Option.bind_eq_some_iff.mp he
    exact Reaches.of_exec (.step s t e h hok ht) he

/-- A run found by evaluation, with what was evaluated of its last state. -/
theorem Reaches.of_exec_any (step : σ → ε → Option σ) (ok : σ → ε → Prop)
    [∀ s e, Decidable (ok s e)] (s0 : σ) (es : List ε) (f : σ → Bool)
    (h : (exec step ok s0 es).any f = true) : ∃ s, Reaches step ok s0 s ∧ f s = true := by
  cases hs : exec step ok s0 es with
  | none => rw [hs] at h; cases h
  | some s => rw [hs] at h; exact ⟨s, Reaches.of_exec .start hs, h⟩

/-- **Along a list of events**: a property that every event keeps exactly under `C` holds after
    every prefix if and only if every event meets `C`. -/
theorem prefixes_iff {P : List ε → Prop} {C : List ε → ε → Prop} (h0 : P [])
    (hstep : ∀ done e, P done → (P (done ++ [e]) ↔ C done e)) (es : List ε) :
    (∀ done rest, es = done ++ rest → P done) ↔ ∀ done e rest, es = done ++ e :: rest →
    C done e := by
  constructor
  · intro hall done e rest hes
    exact (hstep done e (hall done _ hes)).mp
      (hall (done ++ [e]) rest (by rw [hes, List.append_assoc]; rfl))
  intro hmeets done
  induction done using List.reverseRecOn with
  | nil => exact fun _ _ => h0
  | append_singleton done e ih =>
    intro rest hes
    rw [List.append_assoc] at hes
    exact (hstep done e (ih _ hes)).mpr (hmeets done e rest hes)

end Library
