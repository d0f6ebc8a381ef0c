/-
  File:      DyntKernel/Library/Radix.lean
  Subject:   FORESTS OF TABLES IN A MEMORY: radix trees whose nodes are rows of one memory.

  A memory `mem : N → I → E` has rows `N` of entries `E`; `child k e` is the row an entry `e` of a
  table at depth `k` refers to, if it refers to one. `walk` follows a path of indices.

  * `walk_append`, `walk_congr` -- a walk reads only the entries on its path;
  * `trail` -- the entries themselves;
  * `Forest` -- from the given roots, along the visible paths, no row is reached twice: neither
    from two roots nor along two paths;
  * `forest_congr`, `forest_clear`, `forest_link`, `forest_addRoot`, `forest_mono` -- what
    one write, and one new or dropped root, does to a forest.
-/
import Mathlib.Data.List.Basic
import Mathlib.Data.List.Infix

namespace Library

open List

variable {N I E : Type*} (child : Nat → E → Option N)

/-- The row reached from the table `t` at depth `k` along a path. -/
def walk (mem : N → I → E) : Nat → N → List I → Option N
  | _, t, [] => some t
  | k, t, i :: p => (child k (mem t i)).bind fun t' => walk mem (k + 1) t' p

variable {child} {mem mem' : N → I → E}

theorem walk_append (k : Nat) (t : N) (p q : List I) : walk child mem k t (p ++ q) =
      (walk child mem k t p).bind fun t' => walk child mem (k + p.length) t' q := by
  induction p generalizing k t with
  | nil => rfl
  | cons i p ih =>
    simp only [cons_append, walk, Option.bind_assoc, length_cons]
    refine congrArg _ (funext fun t' => ?_)
    rw [ih, Nat.add_assoc, Nat.add_comm 1]

theorem walk_snoc (k : Nat) (t : N) (p : List I) (i : I) : walk child mem k t (p ++ [i]) =
      (walk child mem k t p).bind fun t' => child (k + p.length) (mem t' i) := by
  rw [walk_append]
  refine congrArg _ (funext fun t' => ?_)
  simp [walk]

/-- A reached path has every prefix reached. -/
theorem walk_prefix {k : Nat} {t f : N} {p q : List I} (h : walk child mem k t (p ++ q) = some f) :
    ∃ t', walk child mem k t p = some t' ∧ walk child mem (k + p.length) t' q = some f := by
  rw [walk_append] at h
  exact Option.bind_eq_some_iff.mp h

/-- **A walk reads only the entries on its path.** -/
theorem walk_congr {k : Nat} {t : N} {p : List I}
    (h : ∀ q i rest t', p = q ++ i :: rest → walk child mem k t q = some t' →
      mem' t' i = mem t' i) :
    walk child mem' k t p = walk child mem k t p := by
  induction p generalizing k t with
  | nil => rfl
  | cons i p ih =>
    have h0 : mem' t i = mem t i := h [] i p t rfl rfl
    simp only [walk, h0]
    cases hc : child k (mem t i) with
    | none => rfl
    | some t' =>
      refine ih fun q j rest u hp hu => h (i :: q) j rest u (by rw [hp]; rfl) ?_
      simpa only [walk, hc, Option.bind_some] using hu

/-- Below depth `d` nothing is reached. -/
theorem walk_of_deep {d : Nat} (hdeep : ∀ k e, d ≤ k → child k e = none) {k : Nat} (hk : k ≤ d)
    {t : N} {p : List I} (hp : d < k + p.length) : walk child mem k t p = none := by
  induction p generalizing k t with
  | nil =>
    rw [length_nil] at hp
    omega
  | cons i p ih =>
    rw [length_cons] at hp
    rw [walk]
    rcases Nat.lt_or_eq_of_le hk with hlt | rfl
    · cases child k (mem t i) with
      | none => rfl
      | some t' => exact ih (by omega) (by omega)
    · rw [hdeep k _ (Nat.le_refl k)]
      rfl

variable (child)

/-- The entries read on the way along a path, up to the first that refers to no row. -/
def trail (mem : N → I → E) : Nat → N → List I → List E
  | _, _, [] => []
  | k, t, i :: p =>
    mem t i :: (child k (mem t i)).elim [] fun t' => trail mem (k + 1) t' p

variable {child}

theorem trail_append {k : Nat} {t t' : N} {p q : List I} (h : walk child mem k t p = some t') :
    trail child mem k t (p ++ q) = trail child mem k t p ++
    trail child mem (k + p.length) t' q := by
  induction p generalizing k t with
  | nil =>
    cases h
    rfl
  | cons i p ih =>
    obtain ⟨u, hu, hw⟩ := Option.bind_eq_some_iff.mp h
    rw [cons_append, trail, trail, hu, Option.elim_some, Option.elim_some, ih hw,
      cons_append, length_cons, Nat.add_assoc, Nat.add_comm 1]

theorem trail_single (k : Nat) (t : N) (i : I) : trail child mem k t [i] = [mem t i] := by
  rw [trail]
  cases child k (mem t i) <;> rfl

theorem length_trail {k : Nat} {t t' : N} {p : List I} (h : walk child mem k t p = some t') :
    (trail child mem k t p).length = p.length := by
  induction p generalizing k t with
  | nil => rfl
  | cons i p ih =>
    obtain ⟨u, hu, hw⟩ := Option.bind_eq_some_iff.mp h
    rw [trail, hu, Option.elim_some, length_cons, length_cons, ih hw]

/-- **A trail is read from the entries on its path.** -/
theorem trail_congr {k : Nat} {t : N} {p : List I}
    (h : ∀ q i rest t', p = q ++ i :: rest → walk child mem k t q = some t' →
      mem' t' i = mem t' i) :
    trail child mem' k t p = trail child mem k t p := by
  induction p generalizing k t with
  | nil => rfl
  | cons i p ih =>
    have h0 : mem' t i = mem t i := h [] i p t rfl rfl
    rw [trail, trail, h0]
    cases hc : child k (mem t i) with
    | none => rfl
    | some t' =>
      rw [Option.elim_some, Option.elim_some, ih]
      refine fun q j rest u hp hu => h (i :: q) j rest u (by rw [hp]; rfl) ?_
      simpa only [walk, hc, Option.bind_some] using hu

variable (child)

/-- **A forest**: along visible paths no row is reached twice from the roots. -/
structure Forest (mem : N → I → E) (roots : N → Prop) (visible : List I → Prop) : Prop where
  inj : ∀ r r' p p' f, roots r → roots r' → visible p → visible p' →
    walk child mem 0 r p = some f → walk child mem 0 r' p' = some f → r = r' ∧ p = p'

/-- The rows of a forest. -/
def Reached (mem : N → I → E) (roots : N → Prop) (visible : List I → Prop) (f : N) : Prop :=
  ∃ r p, roots r ∧ visible p ∧ walk child mem 0 r p = some f

variable {child} {roots : N → Prop} {visible : List I → Prop}

/-- Two memories with the same walks hold the same forests. -/
theorem forest_congr (h : Forest child mem roots visible)
    (hw : ∀ r, roots r → ∀ p, visible p → walk child mem' 0 r p = walk child mem 0 r p) :
    Forest child mem' roots visible := by
  refine ⟨fun r r' p p' f hr hr' hp hp' hwalk hwalk' => ?_⟩
  rw [hw r hr p hp] at hwalk
  rw [hw r' hr' p' hp'] at hwalk'
  exact h.inj r r' p p' f hr hr' hp hp' hwalk hwalk'

theorem reached_congr
    (hw : ∀ r, roots r → ∀ p, visible p → walk child mem' 0 r p = walk child mem 0 r p) {f : N} :
    Reached child mem' roots visible f ↔ Reached child mem roots visible f := by
  constructor
  · rintro ⟨r, p, hr, hp, hwalk⟩
    exact ⟨r, p, hr, hp, by rw [← hw r hr p hp]; exact hwalk⟩
  · rintro ⟨r, p, hr, hp, hwalk⟩
    exact ⟨r, p, hr, hp, by rw [hw r hr p hp]; exact hwalk⟩

section Writes

variable (hpre : ∀ p q, visible (p ++ q) → visible p)
include hpre

/-- A write to rows outside the forest changes no walk in it. -/
theorem walk_write_fresh (hm : ∀ t i, Reached child mem roots visible t → mem' t i = mem t i)
    {r : N} (hr : roots r) {p : List I} (hp : visible p) :
    walk child mem' 0 r p = walk child mem 0 r p := by
  refine walk_congr fun q i rest t hq ht => hm t i ⟨r, q, hr, ?_, ht⟩
  rw [hq] at hp
  exact hpre q _ hp

/-- A write to the rows at depth `d`, below which nothing is reached, changes no walk. -/
theorem walk_write_leaf {d : Nat} (hdeep : ∀ k e, d ≤ k → child k e = none) {r : N}
    (hm : ∀ q t i, visible q → q.length < d → walk child mem 0 r q = some t → mem' t i = mem t i)
    {p : List I} (hp : visible p) : walk child mem' 0 r p = walk child mem 0 r p := by
  rcases Nat.lt_or_ge d p.length with hlong | hshort
  · rw [walk_of_deep hdeep (Nat.zero_le d) (by omega),
      walk_of_deep hdeep (Nat.zero_le d) (by omega)]
  · refine walk_congr fun q i rest t hq ht => hm q t i ?_ ?_ ht
    · rw [hq] at hp
      exact hpre q _ hp
    · rw [hq, length_append, length_cons] at hshort
      omega

variable (h : Forest child mem roots visible) {r₀ t₀ : N} {p₀ : List I} {i₀ : I}
  (hr₀ : roots r₀) (hp₀ : visible p₀) (hw₀ : walk child mem 0 r₀ p₀ = some t₀)
  (hm : ∀ t i, t ≠ t₀ ∨ i ≠ i₀ → mem' t i = mem t i)
include h hr₀ hp₀ hw₀ hm

/-- A write to one entry is seen only by the walks through it. -/
theorem walk_write_ne {r : N} (hr : roots r) {p : List I} (hp : visible p)
    (hne : ¬ (r = r₀ ∧ p₀ ++ [i₀] <+: p)) : walk child mem' 0 r p = walk child mem 0 r p := by
  refine walk_congr fun q i rest t hq ht => hm t i ?_
  by_contra hcon
  push Not at hcon
  obtain ⟨rfl, rfl⟩ := hcon
  have hqv : visible q := by rw [hq] at hp; exact hpre q _ hp
  obtain ⟨rfl, rfl⟩ := h.inj r r₀ q p₀ t hr hr₀ hqv hp₀ ht hw₀
  exact hne ⟨rfl, by rw [hq]; exact ⟨rest, by simp⟩⟩

omit hpre in
/-- So is it by the trails, which may be longer than the visible paths. -/
theorem trail_write_ne {r : N} (hr : roots r) {p : List I}
    (hp : ∀ q i rest, p = q ++ i :: rest → visible q) (hne : ¬ (r = r₀ ∧ p₀ ++ [i₀] <+: p)) :
    trail child mem' 0 r p = trail child mem 0 r p := by
  refine trail_congr fun q i rest t hq ht => hm t i ?_
  by_contra hcon
  push Not at hcon
  obtain ⟨rfl, rfl⟩ := hcon
  obtain ⟨rfl, rfl⟩ := h.inj r r₀ q p₀ t hr hr₀ (hp q i rest hq) hp₀ ht hw₀
  exact hne ⟨rfl, by rw [hq]; exact ⟨rest, by simp⟩⟩

theorem walk_write_eq (q : List I) : walk child mem' 0 r₀ (p₀ ++ i₀ :: q) =
      (child p₀.length (mem' t₀ i₀)).bind fun t' => walk child mem' (p₀.length + 1) t' q := by
  have hp : walk child mem' 0 r₀ p₀ = some t₀ := by
    rw [walk_write_ne hpre h hr₀ hp₀ hw₀ hm hr₀ hp₀, hw₀]
    rintro ⟨-, hle⟩
    have hlen := hle.length_le
    rw [length_append, length_singleton] at hlen
    omega
  rw [walk_append, hp]
  simp [walk]

/-- Clearing an entry drops what was below it. -/
theorem walk_clear (hc : child p₀.length (mem' t₀ i₀) = none) {r f : N} (hr : roots r)
    {p : List I} (hp : visible p) (hw : walk child mem' 0 r p = some f) :
    walk child mem 0 r p = some f := by
  by_cases hcase : r = r₀ ∧ p₀ ++ [i₀] <+: p
  · obtain ⟨rfl, q, rfl⟩ := hcase
    rw [append_assoc, singleton_append, walk_write_eq hpre h hr₀ hp₀ hw₀ hm, hc] at hw
    cases hw
  · rw [← walk_write_ne hpre h hr₀ hp₀ hw₀ hm hr hp hcase]
    exact hw

theorem forest_clear (hc : child p₀.length (mem' t₀ i₀) = none) : Forest child mem' roots visible :=
  ⟨fun r r' p p' f hr hr' hp hp' hw hw' => h.inj r r' p p' f hr hr' hp hp'
    (walk_clear hpre h hr₀ hp₀ hw₀ hm hc hr hp hw)
    (walk_clear hpre h hr₀ hp₀ hw₀ hm hc hr' hp' hw')⟩

/-- Linking a row from outside the forest adds that row and nothing else. -/
theorem walk_link {f₀ : N} (hc : child p₀.length (mem' t₀ i₀) = some f₀)
    (hleaf : ∀ j, visible (p₀ ++ [i₀, j]) → child (p₀.length + 1) (mem' f₀ j) = none)
    {r f : N} (hr : roots r) {p : List I} (hp : visible p) (hw : walk child mem' 0 r p = some f) :
    (r = r₀ ∧ p = p₀ ++ [i₀] ∧ f = f₀) ∨ walk child mem 0 r p = some f := by
  by_cases hcase : r = r₀ ∧ p₀ ++ [i₀] <+: p
  · obtain ⟨rfl, q, rfl⟩ := hcase
    rw [append_assoc, singleton_append, walk_write_eq hpre h hr₀ hp₀ hw₀ hm,
      hc, Option.bind_some] at hw
    cases q with
    | nil =>
      simp only [walk, Option.some.injEq] at hw
      exact .inl ⟨rfl, by simp, hw.symm⟩
    | cons j q =>
      have hv : visible (p₀ ++ [i₀, j]) := by
        refine hpre _ q ?_
        simpa using hp
      simp only [walk, hleaf j hv, Option.bind_none] at hw
      cases hw
  · rw [walk_write_ne hpre h hr₀ hp₀ hw₀ hm hr hp hcase] at hw
    exact .inr hw

theorem forest_link {f₀ : N} (hc : child p₀.length (mem' t₀ i₀) = some f₀)
    (hfresh : ¬ Reached child mem roots visible f₀)
    (hleaf : ∀ j, visible (p₀ ++ [i₀, j]) → child (p₀.length + 1) (mem' f₀ j) = none) :
    Forest child mem' roots visible := by
  refine ⟨fun r r' p p' f hr hr' hp hp' hw hw' => ?_⟩
  -- a row that is not `f₀` was reached before, and `f₀` is reached along the new entry alone
  rcases walk_link hpre h hr₀ hp₀ hw₀ hm hc hleaf hr hp hw with ⟨rfl, rfl, rfl⟩ | hold
  · rcases walk_link hpre h hr₀ hp₀ hw₀ hm hc hleaf hr' hp' hw' with ⟨rfl, rfl, -⟩ | hold'
    · exact ⟨rfl, rfl⟩
    · exact absurd ⟨r', p', hr', hp', hold'⟩ hfresh
  · rcases walk_link hpre h hr₀ hp₀ hw₀ hm hc hleaf hr' hp' hw' with ⟨rfl, rfl, rfl⟩ | hold'
    · exact absurd ⟨r, p, hr, hp, hold⟩ hfresh
    · exact h.inj r r' p p' f hr hr' hp hp' hold hold'

end Writes

/-- A new root all of whose rows are new and reached once. -/
theorem forest_addRoot (h : Forest child mem roots visible) {r₀ : N}
    (hfresh : ∀ p f, visible p → walk child mem 0 r₀ p = some f →
      ¬ Reached child mem roots visible f)
    (honce : ∀ p p' f, visible p → visible p' → walk child mem 0 r₀ p = some f →
      walk child mem 0 r₀ p' = some f → p = p') :
    Forest child mem (fun r => r = r₀ ∨ roots r) visible := by
  refine ⟨fun r r' p p' f hr hr' hp hp' hw hw' => ?_⟩
  rcases hr with rfl | hr
  · rcases hr' with rfl | hr'
    · exact ⟨rfl, honce p p' f hp hp' hw hw'⟩
    · exact absurd ⟨r', p', hr', hp', hw'⟩ (hfresh p f hp hw)
  · rcases hr' with rfl | hr'
    · exact absurd ⟨r, p, hr, hp, hw⟩ (hfresh p' f hp' hw')
    · exact h.inj r r' p p' f hr hr' hp hp' hw hw'

theorem forest_mono (h : Forest child mem roots visible) {roots' : N → Prop}
    (hsub : ∀ r, roots' r → roots r) : Forest child mem roots' visible :=
  ⟨fun r r' p p' f hr hr' => h.inj r r' p p' f (hsub r hr) (hsub r' hr')⟩

end Library
