/-
  File:      DyntKernel/Library/DoubleList.lean
  Subject:   DOUBLY LINKED LISTS in memory: a head and the fields `next` and `prev` of each cell.

  The head is the link of `none`, so that taking out and putting in is one statement for the first
  cell and for the others. The fields after a change are described cell by cell: only those of the
  cells of the list matter.

  * `DList next prev b l` -- from the link of `b` on, `next` runs through the cells `l` and ends,
    and `prev` leads back, in the end to `b`;
  * `DList.unlink`, `DList.insertFirst`, `DList.insertAfter` -- a cell less, and a cell more;
  * `advance`, `Linked.advance` -- the loop that goes on while the next cell has a property.
-/
import DyntKernel.Library.LinkedList
import DyntKernel.Library.Loop

namespace Library

open List

variable {α : Type*}

/-! ## 1. Lists -/

/-- **The cells `l` are linked in both directions**, from the link of `b` on. -/
def DList (next : Option α → Option α) (prev : α → Option α) : Option α → List α → Prop
  | b, [] => next b = none
  | b, a :: l => next b = some a ∧ prev a = b ∧ DList next prev (some a) l

variable {next next' : Option α → Option α} {prev prev' : α → Option α}
  {b : Option α} {l l₁ l₂ : List α}
  {a c x : α}

/-- Only the fields of the cells matter. -/
theorem DList.congr (h : DList next prev b l) (hb : next' b = next b)
    (hcells : ∀ a ∈ l, next' (some a) = next (some a) ∧ prev' a = prev a) :
    DList next' prev' b l := by
  induction l generalizing b with
  | nil => exact hb.trans h
  | cons a l ih =>
    obtain ⟨hnext, hprev, hrest⟩ := h
    have ha := hcells a mem_cons_self
    exact ⟨hb.trans hnext, ha.2.trans hprev, ih hrest ha.1 fun c hc =>
      hcells c (mem_cons_of_mem a hc)⟩

theorem DList.linked (h : DList next prev b l) : Linked (fun a => next (some a)) (next b) l := by
  induction l generalizing b with
  | nil => exact h
  | cons a l ih => exact ⟨h.1, ih h.2.2⟩

section

variable (h : DList next prev b (l₁ ++ x :: l₂))
include h

/-- The cell behind `x`. -/
theorem DList.next_eq : next (some x) = l₂.head? := by
  induction l₁ generalizing b with
  | nil =>
    cases l₂ with
    | nil => exact h.2.2
    | cons y l₃ => exact h.2.2.1
  | cons a l₁ ih => exact ih h.2.2

/-- The cell in front of `x`. -/
theorem DList.prev_eq : prev x = l₁.getLast?.or b := by
  induction l₁ generalizing b with
  | nil => exact h.2.1
  | cons a l₁ ih =>
    rw [ih h.2.2, List.getLast?_cons]
    cases l₁.getLast? <;> rfl

theorem DList.next_mem (hc : next (some x) = some c) : c ∈ l₂ :=
  List.mem_of_mem_head? (h.next_eq.symm.trans hc)

theorem DList.prev_mem (hl : l₁ ≠ []) : ∃ c ∈ l₁, prev x = some c := by
  refine ⟨l₁.getLast hl, getLast_mem hl, ?_⟩
  rw [h.prev_eq, List.getLast?_eq_some_getLast hl, Option.some_or]

/-! ## 2. A cell less -/

/-- **A cell is taken out**: the link in front of it leads past it, and the link back. -/
theorem DList.unlink (hnd : (l₁ ++ x :: l₂).Nodup) (hb : ∀ c ∈ l₁ ++ x :: l₂, b ≠ some c)
    (hnext : ∀ p, p ≠ prev x → (p = b ∨ ∃ c ∈ l₁ ++ l₂, p = some c) → next' p = next p)
    (hlink : next' (prev x) = next (some x))
    (hprev : ∀ c ∈ l₁ ++ l₂, next (some x) ≠ some c → prev' c = prev c)
    (hback : ∀ c, next (some x) = some c → prev' c = prev x) : DList next' prev' b (l₁ ++ l₂) := by
  induction l₁ generalizing b with
  | nil =>
    obtain ⟨-, hxb, hrest⟩ := h
    rw [hxb] at hnext hlink hback
    cases l₂ with
    | nil => exact hlink.trans hrest
    | cons y l₃ =>
      obtain ⟨hy, -, hrest⟩ := hrest
      rw [nil_append, nodup_cons, nodup_cons] at hnd
      refine ⟨hlink.trans hy, hback y hy, hrest.congr ?_ fun c hc => ⟨?_, ?_⟩⟩
      · refine hnext _ (hb y (by simp)).symm (.inr ⟨y, ?_, rfl⟩)
        exact mem_cons_self
      · refine hnext _ (hb c (by simp [hc])).symm (.inr ⟨c, ?_, rfl⟩)
        exact mem_cons_of_mem y hc
      · refine hprev c (mem_cons_of_mem y hc) ?_
        rw [hy]
        exact fun e => hnd.2.1 (Option.some.inj e ▸ hc)
  | cons a l₁ ih =>
    obtain ⟨d, hd, hxd⟩ := h.prev_mem (cons_ne_nil a l₁)
    obtain ⟨hba, hab, hrest⟩ := h
    rw [cons_append, nodup_cons] at hnd
    refine ⟨?_, ?_, ih hrest hnd.2 ?_ ?_ fun c hc => hprev c (mem_cons_of_mem a hc)⟩
    · rw [hnext b ?_ (.inl rfl), hba]
      rw [hxd]
      exact hb d (mem_append_left _ hd)
    · rw [hprev a mem_cons_self ?_, hab]
      exact fun e => hnd.1 (by simp [hrest.next_mem e])
    · exact fun c hc e => hnd.1 (Option.some.inj e ▸ hc)
    intro p hp hmem
    refine hnext p hp (.inr ?_)
    cases hmem with
    | inl hpa => exact ⟨a, mem_cons_self, hpa⟩
    | inr hc =>
      obtain ⟨c, hc, hpc⟩ := hc
      exact ⟨c, mem_cons_of_mem a hc, hpc⟩

end

/-! ## 3. A cell more -/

/-- **A new cell at the link of `b`.** -/
theorem DList.insertFirst (h : DList next prev b l) (hnd : l.Nodup) (hlink : next' b = some x)
    (hx : next' (some x) = next b) (hxprev : prev' x = b)
    (hnext : ∀ c ∈ l, next' (some c) = next (some c))
    (hprev : ∀ c ∈ l, next b ≠ some c → prev' c = prev c)
    (hback : ∀ c, next b = some c → prev' c = some x) : DList next' prev' b (x :: l) := by
  refine ⟨hlink, hxprev, ?_⟩
  cases l with
  | nil => exact hx.trans h
  | cons y l =>
    obtain ⟨hy, -, hrest⟩ := h
    rw [nodup_cons] at hnd
    refine ⟨hx.trans hy, hback y hy, hrest.congr (hnext y mem_cons_self) fun c hc => ⟨?_, ?_⟩⟩
    · exact hnext c (mem_cons_of_mem y hc)
    · refine hprev c (mem_cons_of_mem y hc) ?_
      rw [hy]
      exact fun e => hnd.1 (Option.some.inj e ▸ hc)

/-- **A new cell behind `a`.** -/
theorem DList.insertAfter (h : DList next prev b (l₁ ++ a :: l₂)) (hnd : (l₁ ++ a :: l₂).Nodup)
    (hb : next' b = next b) (hlink : next' (some a) = some x) (hx : next' (some x) = next (some a))
    (hxprev : prev' x = some a) (hnext : ∀ c ∈ l₁ ++ l₂, next' (some c) = next (some c))
    (hprev : ∀ c ∈ l₁ ++ a :: l₂, next (some a) ≠ some c → prev' c = prev c)
    (hback : ∀ c, next (some a) = some c → prev' c = some x) :
    DList next' prev' b (l₁ ++ a :: x :: l₂) := by
  induction l₁ generalizing b with
  | nil =>
    have hfirst : DList next prev b ([] ++ a :: l₂) := h
    have hself : next (some a) ≠ some a := fun e => (nodup_cons.mp hnd).1 (hfirst.next_mem e)
    obtain ⟨hba, hab, hrest⟩ := h
    refine ⟨hb.trans hba, (hprev a (by simp) hself).trans hab, ?_⟩
    exact hrest.insertFirst (nodup_cons.mp hnd).2 hlink hx hxprev hnext
      (fun c hc => hprev c (by simp [hc])) hback
  | cons y l₁ ih =>
    obtain ⟨hby, hyb, hrest⟩ := h
    rw [cons_append, nodup_cons] at hnd
    have hself : next (some a) ≠ some y := fun e => hnd.1 (by simp [hrest.next_mem e])
    refine ⟨hb.trans hby, (hprev y (by simp) hself).trans hyb, ih hrest hnd.2 ?_ ?_ ?_⟩
    · exact hnext y (by simp)
    · exact fun c hc => hnext c (mem_cons_of_mem y hc)
    · exact fun c hc => hprev c (mem_cons_of_mem y hc)

/-! ## 4. Going on while the next cell has a property -/

/-- `while (cur->next && P(cur->next)) cur = cur->next;` -/
def advance (next : α → Option α) (P : α → Bool) : Nat → α → Option α
  | 0, _ => none
  | n + 1, cur =>
    match next cur with
    | none => some cur
    | some c => if P c then advance next P n c else some cur

theorem scan_stable (next : α → Option α) (P : α → Bool) (h : Option α) :
    Stable fun n => scan next P n h := by
  intro n n' r hle hrun
  induction n generalizing n' h with
  | zero => cases hrun
  | succ n ih =>
    obtain ⟨k, rfl⟩ := Nat.exists_eq_add_of_lt hle
    cases h with
    | none => exact hrun
    | some a =>
      simp only [scan] at hrun ⊢
      split_ifs at hrun ⊢ with hP
      · exact hrun
      · exact ih _ _ (Nat.le_add_right n k) hrun

theorem advance_stable (next : α → Option α) (P : α → Bool) (a : α) :
    Stable fun n => advance next P n a := by
  intro n n' r hle hrun
  induction n generalizing n' a with
  | zero => cases hrun
  | succ n ih =>
    obtain ⟨k, rfl⟩ := Nat.exists_eq_add_of_lt hle
    simp only [Library.advance] at hrun ⊢
    cases hnext : next a with
    | none => simpa only [hnext] using hrun
    | some c =>
      simp only [hnext] at hrun ⊢
      split_ifs at hrun ⊢ with hP
      · exact ih _ _ (Nat.le_add_right n k) hrun
      · exact hrun

/-- **The loop stops at a cell** in front of one without the property, or at the last one. -/
theorem Linked.advance {next : α → Option α} {P : α → Bool} {n : Nat} (h : Linked next (next a) l)
    (hn : l.length < n) :
    ∃ l₁ c l₂, a :: l = l₁ ++ c :: l₂ ∧ Library.advance next P n a = some c ∧
      (l₁ ≠ [] → P c = true) ∧
      ∀ d ∈ l₂.head?, P d = false := by
  induction l generalizing a n with
  | nil =>
    obtain ⟨n, rfl⟩ := Nat.exists_eq_add_of_lt hn
    have hend : next a = none := h
    exact ⟨[], a, [], rfl, by simp [Library.advance, hend], by simp, by simp⟩
  | cons c l ih =>
    cases n with
    | zero => exact absurd hn (Nat.not_lt_zero _)
    | succ n =>
      obtain ⟨hc, hrest⟩ := h
      cases hP : P c with
      | false =>
        refine ⟨[], a, c :: l, rfl, ?_, by simp, by simpa using hP⟩
        simp [Library.advance, hc, hP]
      | true =>
        obtain ⟨l₁, d, l₂, heq, hrun, hd, hl₂⟩ := ih hrest (Nat.lt_of_succ_lt_succ hn)
        refine ⟨a :: l₁, d, l₂, by rw [heq]; rfl, ?_, fun _ => ?_, hl₂⟩
        · simp [Library.advance, hc, hP, hrun]
        · cases l₁ with
          | nil => cases heq; exact hP
          | cons f l₁ => exact hd (cons_ne_nil f l₁)

end Library
