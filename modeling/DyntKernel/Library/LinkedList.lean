/-
  File:      DyntKernel/Library/LinkedList.lean
  Subject:   SINGLY LINKED LISTS in memory: a head and a `next` field per cell.

  The loops over such a list need not end on arbitrary memory, so they take a bound on their rounds
  (`none`: the bound was too small); on the memory of a list every large enough bound gives the
  result.

  * `Linked next h l` -- from `h` the fields `next` run through the cells `l` and end;
  * `Linked.push` -- a new cell in front;
  * `Links.unlink`, `Linked.unlink` -- the loop over the address of a link that takes a cell out;
  * `scan`, `Linked.scan` -- the search from the head to the end;
  * `pick`, `Linked.pick` -- the search that goes once around and wraps to the head.
-/
import Mathlib.Logic.Function.Basic
import Mathlib.Data.List.Basic

namespace Library

open List Function

variable {α : Type*}

/-! ## 1. Cells in a row -/

/-- **The cells `l` are linked from `h` through `next`.** -/
def Linked (next : α → Option α) : Option α → List α → Prop
  | h, [] => h = none
  | h, a :: l => h = some a ∧ Linked next (next a) l

variable {next next' : α → Option α} {h : Option α} {l : List α} {a : α}

/-- Only the fields of the cells matter. -/
theorem Linked.congr (hl : Linked next h l) (heq : ∀ b ∈ l, next' b = next b) :
    Linked next' h l := by
  induction l generalizing h with
  | nil => exact hl
  | cons b l ih =>
    refine ⟨hl.1, ?_⟩
    rw [heq b mem_cons_self]
    exact ih hl.2 fun c hc => heq c (mem_cons_of_mem b hc)

theorem Linked.unique {l' : List α} (hl : Linked next h l) (hl' : Linked next h l') : l = l' := by
  induction l generalizing h l' with
  | nil =>
    cases l' with
    | nil => rfl
    | cons => cases (show h = none from hl).symm.trans hl'.1
  | cons a l ih =>
    cases l' with
    | nil => cases (show h = none from hl').symm.trans hl.1
    | cons a' l' =>
      cases hl.1.symm.trans hl'.1
      rw [ih hl.2 hl'.2]

theorem Linked.push [DecidableEq α] (hl : Linked next h l) (ha : a ∉ l) :
    Linked (Function.update next a h) (some a) (a :: l) := by
  refine ⟨rfl, ?_⟩
  rw [update_self]
  refine hl.congr fun b hb => update_of_ne ?_ _ _
  rintro rfl
  exact ha hb

/-! ## 2. Taking a cell out -/

structure Links (α : Type*) where
  head : Option α
  next : α → Option α

namespace Links

/-- The link at an address: the head, or the field of a cell. -/
def read (L : Links α) : Option α → Option α
  | none => L.head
  | some b => L.next b

def write [DecidableEq α] (L : Links α) (link v : Option α) : Links α :=
  match link with
  | none => { L with head := v }
  | some b => { L with next := Function.update L.next b v }

/-- `while (*link) { if (*link == a) { *link = a->next; return; } link = &(*link)->next; }`; the
    second result tells whether the cell was found. -/
def unlink [DecidableEq α] (a : α) (L : Links α) : Nat → Option α → Option (Links α × Bool)
  | 0, _ => none
  | n + 1, link =>
    match L.read link with
    | none => some (L, false)
    | some b => if b = a then some (L.write link (L.next a), true) else unlink a L n (some b)

variable [DecidableEq α] {L : Links α} {link v : Option α}

theorem read_write_self : (L.write link v).read link = v := by
  cases link with
  | none => rfl
  | some b => exact update_self ..

theorem write_next_of_ne {b : α} (hb : link ≠ some b) : (L.write link v).next b = L.next b := by
  cases link with
  | none => rfl
  | some c => exact update_of_ne (fun hbc => hb (by rw [hbc])) _ _

/-- The loop from a link on: behind it lie the cells `l`. -/
theorem unlink_from {n : Nat} (link : Option α) (hl : Linked L.next (L.read link) l) (hnd : l.Nodup)
    (hlink : ∀ b, link = some b → b ∉ l) : (L.unlink a n link = none ∧ n ≤ l.length) ∨
    ∃ L' : Links α, L.unlink a n link = some (L', decide (a ∈ l)) ∧
      Linked L'.next (L'.read link) (l.erase a) ∧ (link ≠ none → L'.head = L.head) ∧
      ∀ b, b ∉ l → link ≠ some b → L'.next b = L.next b := by
  induction l generalizing link n with
  | nil =>
    cases n with
    | zero => exact .inl ⟨rfl, Nat.le_refl 0⟩
    | succ n =>
      have hend : L.read link = none := hl
      exact .inr ⟨L, by simp [unlink, hend], hl, fun _ => rfl, fun _ _ _ => rfl⟩
  | cons b l ih =>
    cases n with
    | zero => exact .inl ⟨rfl, Nat.zero_le _⟩
    | succ n =>
    have hread : L.read link = some b := hl.1
    rw [nodup_cons] at hnd
    by_cases hba : b = a
    · refine .inr ⟨L.write link (L.next a), ?_, ?_, ?_, fun c _ hc => write_next_of_ne hc⟩
      · simp [unlink, hread, hba]
      · rw [hba, erase_cons_head, read_write_self]
        refine (hba ▸ hl.2).congr fun c hc => write_next_of_ne ?_
        exact fun heq => hlink c heq (mem_cons_of_mem b hc)
      · intro hne
        cases link with
        | none => exact absurd rfl hne
        | some c => rfl
    rcases ih (n := n) (some b) hl.2 hnd.2 (fun c hc => Option.some.inj hc ▸ hnd.1) with
      ⟨hnone, hle⟩ | ⟨L', heq, hlinked, hhead, hkeep⟩
    · exact .inl ⟨by simp only [unlink, hread, if_neg hba, hnone], Nat.succ_le_succ hle⟩
    have hlink' : L'.read link = some b := by
      rw [← hread]
      cases link with
      | none => exact hhead (by simp)
      | some c =>
        have hc := hlink c rfl
        rw [mem_cons, not_or] at hc
        exact hkeep c hc.2 (fun heq => hc.1 (Option.some.inj heq).symm)
    refine .inr ⟨L', ?_, ?_, fun _ => hhead (by simp), fun c hc hne => ?_⟩
    · simp only [unlink, hread, if_neg hba, heq, mem_cons, Ne.symm hba, false_or]
    · rw [erase_cons_tail (by simpa using hba)]
      exact ⟨hlink', hlinked⟩
    · rw [mem_cons, not_or] at hc
      exact hkeep c hc.2 (fun heq => hc.1 (Option.some.inj heq).symm)

end Links

/-- **The loop takes the cell out**, if it is there, and touches only cells of the list. -/
theorem Linked.unlink [DecidableEq α] {L : Links α} {n : Nat} (hl : Linked L.next L.head l)
    (hnd : l.Nodup) : (L.unlink a n none = none ∧ n ≤ l.length) ∨
    ∃ L' : Links α, L.unlink a n none = some (L', decide (a ∈ l)) ∧
      Linked L'.next L'.head (l.erase a) ∧ ∀ b, b ∉ l → L'.next b = L.next b := by
  rcases Links.unlink_from (a := a) (L := L) (n := n) none hl hnd
    (fun b hb => by cases hb) with hnone | ⟨L', heq, hlinked, -, hkeep⟩
  · exact .inl hnone
  · exact .inr ⟨L', heq, hlinked, fun b hb => hkeep b hb (by simp)⟩

/-! ## 3. Searching -/

/-- `for (p = h; p; p = p->next) if (P(p)) return p; return 0;` -/
def scan (next : α → Option α) (P : α → Bool) : Nat → Option α → Option (Option α)
  | 0, _ => none
  | _ + 1, none => some none
  | n + 1, some p => if P p then some (some p) else scan next P n (next p)

theorem Linked.scan {P : α → Bool} {n : Nat} (hl : Linked next h l) :
    (Library.scan next P n h = none ∧ n ≤ l.length) ∨
    Library.scan next P n h = some (l.find? P) := by
  induction l generalizing h n with
  | nil =>
    cases n with
    | zero => exact .inl ⟨rfl, Nat.le_refl 0⟩
    | succ n =>
      rw [show h = none from hl]
      exact .inr rfl
  | cons b l ih =>
    cases n with
    | zero => exact .inl ⟨rfl, Nat.zero_le _⟩
    | succ n =>
      rw [hl.1, Library.scan, List.find?_cons]
      cases P b with
      | true => exact .inr rfl
      | false => exact (ih hl.2).imp_left fun hrest => ⟨hrest.1, Nat.succ_le_succ hrest.2⟩

/-- `do { if (P(p)) return p; p = p->next ? p->next : start; } while (p != start); return 0;` -/
def pick [DecidableEq α] (next : α → Option α) (start : α) (P : α → Bool) :
    Nat → α → Option (Option α)
  | 0, _ => none
  | n + 1, p =>
    if P p then some (some p)
    else if (next p).getD start = start then some none
    else pick next start P n ((next p).getD start)

/-- From the cell `a` on, with the start behind the walk. -/
theorem pick_from [DecidableEq α] {start : α} {P : α → Bool} {n : Nat}
    (hl : Linked next (next a) l)
    (hstart : start ∉ l) : (pick next start P n a = none ∧ n ≤ l.length) ∨
      pick next start P n a = some ((a :: l).find? P) := by
  induction l generalizing a n with
  | nil =>
    cases n with
    | zero => exact .inl ⟨rfl, Nat.le_refl 0⟩
    | succ n =>
      have hend : next a = none := hl
      right
      cases hP : P a <;> simp [pick, hP, hend]
  | cons b l ih =>
    cases n with
    | zero => exact .inl ⟨rfl, Nat.zero_le _⟩
    | succ n =>
      rw [mem_cons, not_or] at hstart
      have hnext : (next a).getD start = b := by rw [hl.1, Option.getD_some]
      rw [pick, hnext, if_neg (Ne.symm hstart.1), List.find?_cons (a := a)]
      cases P a with
      | true => exact .inr rfl
      | false =>
        exact (ih hl.2 hstart.2).imp_left fun hrest => ⟨hrest.1, Nat.succ_le_succ hrest.2⟩

/-- **The walk once around** finds what a search of the list finds. -/
theorem Linked.pick [DecidableEq α] {P : α → Bool} {n : Nat} (hl : Linked next (some a) l)
    (hnd : l.Nodup) : (Library.pick next a P n a = none ∧ n ≤ l.length) ∨
      Library.pick next a P n a = some (l.find? P) := by
  cases l with
  | nil => cases hl
  | cons b l =>
    obtain ⟨hb, hl⟩ := hl
    cases hb
    refine (pick_from hl (nodup_cons.mp hnd).1).imp_left fun hrest => ⟨hrest.1, ?_⟩
    exact Nat.le_succ_of_le hrest.2

end Library
