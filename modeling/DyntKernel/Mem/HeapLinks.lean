/-
  File:      DyntKernel/Mem/HeapLinks.lean
  Subject:   THE LIST OF THE HEAP IN MEMORY: what the stores into headers do to the links.

  Headers of different blocks do not overlap (`Sep`), so a store into one leaves the others as they
  are.

  * `header_setHeader`, `block_edit` -- what is read of a header after a store;
  * `Header.Same` -- two headers that differ in the links only;
  * `Chained s l` -- the blocks `l` are the list of the heap;
  * `Chained.unlink`, `Chained.linkFirst`, `Chained.linkIn` -- a block less, and a block more.
-/
import DyntKernel.Mem.Kheap
import Mathlib.Data.List.Pairwise

namespace DyntKernel.Mem.Heap

open Library List Kheap

variable {m : Nat → UInt8} {s : Kheap} {a b c p v x : UInt64} {f g : Header → Header}
  {l l₁ l₂ : List UInt64}

/-! ## 1. Headers -/

/-- The headers at the two addresses do not overlap. -/
def HeadersApart (a b : UInt64) : Prop := a.toNat + 48 ≤ b.toNat ∨ b.toNat + 48 ≤ a.toNat

instance : Std.Symm HeadersApart := ⟨fun _ _ h => h.symm⟩

theorem field_setHeader {h : Header} {i : Nat} (hi : i < 6) :
    UInt64.ofNat (readLE (setHeader m b h) (b.toNat + 8 * i) 8) = h.word i := by
  have hbytes : ∀ j, j < 8 → setHeader m b h (b.toNat + 8 * i + j) =
      UInt8.ofNat ((h.word i).toNat / 256 ^ j) := by
    intro j hj
    have hdiv : (8 * i + j) / 8 = i := by omega
    have hmod : (8 * i + j) % 8 = j := by omega
    rw [setHeader, Nat.add_assoc, blit_of_in (by omega), hdiv, hmod]
  have hlt : (h.word i).toNat < 256 ^ 8 := (h.word i).toNat_lt
  rw [readLE_bytes hbytes, Nat.mod_eq_of_lt hlt, UInt64.ofNat_toNat]

theorem header_setHeader (m : Nat → UInt8) (b : UInt64) (h : Header) :
    header (setHeader m b h) b = h := by
  simp only [header, field_setHeader (by decide : (0 : Nat) < 6),
    field_setHeader (by decide : 1 < 6),
    field_setHeader (by decide : 2 < 6), field_setHeader (by decide : 3 < 6),
    field_setHeader (by decide : 4 < 6), field_setHeader (by decide : 5 < 6), Header.word]

/-- Only the 48 bytes count. -/
theorem header_congr {m' : Nat → UInt8} (h : ∀ k, k < 48 → m' (b.toNat + k) = m (b.toNat + k)) :
    header m' b = header m b := by
  have hfield : ∀ i, i < 6 → readLE m' (b.toNat + 8 * i) 8 = readLE m (b.toNat + 8 * i) 8 := by
    intro i hi
    refine readLE_congr fun j hj => ?_
    rw [Nat.add_assoc]
    exact h _ (by omega)
  simp only [header, hfield 0 (by decide), hfield 1 (by decide), hfield 2 (by decide),
    hfield 3 (by decide), hfield 4 (by decide), hfield 5 (by decide)]

/-- A store elsewhere. -/
theorem header_blit {n : Nat} {k : Nat} {data : Nat → UInt8}
    (h : b.toNat + 48 ≤ k ∨ k + n ≤ b.toNat) :
    header (blit m k n data) b = header m b :=
  header_congr fun j hj => blit_of_out (by omega)

namespace Kheap

@[simp] theorem edit_head : (s.edit b f).head = s.head := rfl
@[simp] theorem edit_regions : (s.edit b f).regions = s.regions := rfl

theorem next_none : s.next none = ptr s.head := rfl
theorem next_some : s.next (some b) = ptr (s.block b).next := rfl

theorem block_eq : s.block b = header s.mem b := by rw [block]

@[simp] theorem block_edit_self : (s.edit b f).block b = f (s.block b) := by
  rw [block_eq, edit, header_setHeader]

theorem edit_edit : (s.edit b f).edit b g = s.edit b fun h => g (f h) := by
  rw [edit, block_edit_self]
  simp only [edit, setHeader, blit_blit]

theorem block_edit_of_apart (h : HeadersApart c b) : (s.edit b f).block c = s.block c := by
  rw [block_eq, block_eq, edit, setHeader, header_blit h]

/-- Only the memory counts. -/
theorem block_congr {s' : Kheap} (h : s'.mem = s.mem) : s'.block b = s.block b := by
  rw [block_eq, block_eq, h]

@[simp] theorem setPrev_head : (s.setPrev p v).head = s.head := by
  rw [setPrev]
  split_ifs <;> rfl

/-- The regions and the counter are the same. -/
def SameRest (s s' : Kheap) : Prop := s'.regions = s.regions ∧ s'.allocatedBytes = s.allocatedBytes

theorem setPrev_rest : SameRest s (s.setPrev p v) := by
  rw [setPrev]
  split_ifs <;> exact ⟨rfl, rfl⟩

theorem block_setPrev_of_apart (h : p ≠ 0 → HeadersApart c p) :
    (s.setPrev p v).block c = s.block c := by
  rw [setPrev]
  split_ifs with hp
  · exact block_edit_of_apart (h hp)
  · rfl

theorem block_setPrev_self (hp : p ≠ 0) :
    (s.setPrev p v).block p = { s.block p with prev := v } := by
  rw [setPrev, if_pos hp, block_edit_self]

end Kheap

/-- All but the links. -/
structure Header.Same (h h' : Header) : Prop where
  magic : h.magic = h'.magic
  size : h.size = h'.size
  pad : h.pad = h'.pad
  flags : h.flags = h'.flags

namespace Header.Same

variable {h h' h'' : Header}

@[refl] theorem refl : Same h h := ⟨rfl, rfl, rfl, rfl⟩

theorem blockFree (hs : Same h h') : h.blockFree = h'.blockFree := by
  rw [Header.blockFree, Header.blockFree, hs.flags]

end Header.Same

/-! ## 2. The list -/

/-- **The blocks `l` are the list of the heap**, in the order of their addresses. -/
structure Chained (s : Kheap) (l : List UInt64) : Prop where
  links : DList s.next s.prev none l
  sep : l.Pairwise fun a b => a.toNat + 48 ≤ b.toNat
  pos : ∀ b ∈ l, b ≠ 0

theorem ptr_eq_some : ptr p = some b ↔ p = b ∧ p ≠ 0 := by
  rw [ptr]
  split_ifs with hp
  · simp [hp]
  · simp [hp]

theorem ptr_eq_none : ptr p = none ↔ p = 0 := by
  rw [ptr]
  split_ifs with hp <;> simp [hp]

theorem ptr_of_ne (hp : p ≠ 0) : ptr p = some p := if_neg hp

namespace Chained

theorem nodup (h : Chained s l) : l.Nodup := by
  refine h.sep.imp fun {a b} hab => ?_
  rintro rfl
  omega

theorem apart (h : Chained s l) (ha : a ∈ l) (hb : b ∈ l) (hne : a ≠ b) : HeadersApart a b := by
  have hor : l.Pairwise HeadersApart := h.sep.imp .inl
  exact hor.forall ha hb hne

/-- A change that leaves the links of the list as they are. -/
theorem congr {s' : Kheap} (h : Chained s l) (hhead : s'.head = s.head)
    (hlinks : ∀ b ∈ l, (s'.block b).next = (s.block b).next ∧
      (s'.block b).prev = (s.block b).prev) :
    Chained s' l := by
  refine ⟨h.links.congr ?_ fun b hb => ?_, h.sep, h.pos⟩
  · rw [Kheap.next, Kheap.next, hhead]
  · obtain ⟨hnext, hprev⟩ := hlinks b hb
    exact ⟨by rw [Kheap.next, Kheap.next, hnext], by rw [Kheap.prev, Kheap.prev, hprev]⟩

section

variable (h : Chained s (l₁ ++ x :: l₂))
include h

/-- The next block of the list is the one behind, the previous one that in front. -/
theorem next_head (hne : (s.block x).next ≠ 0) :
    l₂.head? = some (s.block x).next := h.links.next_eq.symm.trans (ptr_of_ne hne)

theorem prev_last (hne : (s.block x).prev ≠ 0) : l₁.getLast? = some (s.block x).prev := by
  have hprev := h.links.prev_eq
  rw [Option.or_none] at hprev
  exact hprev.symm.trans (ptr_of_ne hne)

theorem next_mem (hne : (s.block x).next ≠ 0) : (s.block x).next ∈ l₂ :=
  List.mem_of_mem_head? (h.next_head hne)

theorem prev_mem (hne : (s.block x).prev ≠ 0) : (s.block x).prev ∈ l₁ :=
  List.mem_of_mem_getLast? (h.prev_last hne)

end

/-! ## 3. A block less -/

theorem unlink_head :
    (s.unlink x).head = if (s.block x).prev = 0 then (s.block x).next else s.head := by
  simp only [Kheap.unlink, setPrev_head]
  by_cases hp : (s.block x).prev = 0
  · rw [if_neg (not_not.mpr hp), if_pos hp]
  · rw [if_pos hp, if_neg hp, edit_head]

theorem unlink_rest : SameRest s (s.unlink x) := by
  rw [SameRest, Kheap.unlink, setPrev_rest.1, setPrev_rest.2]
  split_ifs <;> exact ⟨rfl, rfl⟩

/-- The header of a block after `unlink`. -/
theorem unlink_block (h : Chained s (l₁ ++ x :: l₂)) (hc : c ∈ l₁ ++ x :: l₂) :
    (s.unlink x).block c =
    { s.block c with
      next := if c = (s.block x).prev then (s.block x).next else (s.block c).next
      prev := if c = (s.block x).next then (s.block x).prev else (s.block c).prev } := by
  have hc0 : c ≠ 0 := h.pos c hc
  have hprev : (s.block x).prev ≠ 0 → (s.block x).prev ∈ l₁ ++ x :: l₂ := fun hne =>
    mem_append_left _ (h.prev_mem hne)
  have hnext : (s.block x).next ≠ 0 → (s.block x).next ∈ l₁ ++ x :: l₂ := fun hne =>
    mem_append_right _ (mem_cons_of_mem x (h.next_mem hne))
  have hfirst :
      (if (s.block x).prev ≠ 0 then s.edit (s.block x).prev fun p =>
        { p with next := (s.block x).next }
      else { s with head := (s.block x).next }).block c =
      { s.block c with next :=
        if c = (s.block x).prev then (s.block x).next else (s.block c).next } := by
    split_ifs with hp hcp hcp
    · rw [← hcp, block_edit_self]
    · exact block_edit_of_apart (h.apart hc (hprev hp) hcp)
    · exact absurd (hcp.trans (not_not.mp hp)) hc0
    · exact block_congr rfl
  rw [Kheap.unlink]
  by_cases hcn : c = (s.block x).next
  · have hn : (s.block x).next ≠ 0 := hcn ▸ hc0
    rw [← hcn] at hn ⊢
    rw [block_setPrev_self hn, if_pos rfl]
    rw [← hcn] at hfirst
    rw [hfirst]
  · rw [block_setPrev_of_apart fun hn => h.apart hc (hnext hn) hcn, if_neg hcn, hfirst]

theorem unlink_same (h : Chained s (l₁ ++ x :: l₂)) (hc : c ∈ l₁ ++ x :: l₂) :
    ((s.unlink x).block c).Same (s.block c) := by
  rw [unlink_block h hc]
  exact ⟨rfl, rfl, rfl, rfl⟩

/-- **`unlink` takes a block out.** -/
theorem unlink (h : Chained s (l₁ ++ x :: l₂)) : Chained (s.unlink x) (l₁ ++ l₂) := by
  have hsub : (l₁ ++ l₂).Sublist (l₁ ++ x :: l₂) := (sublist_cons_self x l₂).append_left l₁
  have hlinks : ∀ c ∈ l₁ ++ l₂, (s.unlink x).next (some c) =
        (if c = (s.block x).prev then s.next (some x) else s.next (some c)) ∧
      (s.unlink x).prev c = if c = (s.block x).next then s.prev x else s.prev c := by
    intro c hc
    rw [Kheap.next, Kheap.prev, unlink_block h (hsub.subset hc)]
    constructor <;> split_ifs <;> rfl
  refine ⟨h.links.unlink h.nodup (fun _ _ => nofun) ?_ ?_ ?_ ?_, h.sep.sublist hsub,
    fun b hb => h.pos b (hsub.subset hb)⟩
  · intro q hq hmem
    cases hmem with
    | inl hnone =>
      have hp : (s.block x).prev ≠ 0 := fun e => hq (hnone.trans (ptr_eq_none.mpr e).symm)
      rw [hnone, Kheap.next, Kheap.next, unlink_head, if_neg hp]
    | inr hcell =>
      obtain ⟨c, hc, rfl⟩ := hcell
      rw [(hlinks c hc).1, if_neg]
      exact fun e => hq (ptr_eq_some.mpr ⟨e.symm, e ▸ h.pos c (hsub.subset hc)⟩).symm
  · by_cases hp : (s.block x).prev = 0
    · rw [Kheap.prev, ptr_eq_none.mpr hp, Kheap.next, unlink_head, if_pos hp]
      rfl
    · rw [Kheap.prev, ptr_of_ne hp, (hlinks _ (mem_append_left _ (h.prev_mem hp))).1, if_pos rfl]
  · intro c hc hne
    rw [(hlinks c hc).2, if_neg]
    exact fun e => hne (ptr_eq_some.mpr ⟨e.symm, e ▸ h.pos c (hsub.subset hc)⟩)
  · intro c hc
    obtain ⟨hcn, hn⟩ := ptr_eq_some.mp hc
    rw [(hlinks c (mem_append_right _ (hcn ▸ h.next_mem hn))).2, if_pos hcn.symm]

/-! ## 4. A block more -/

end Chained

namespace Kheap

variable (s)

/-- The block `x` is put in front of all others. -/
def linkFirst (x : UInt64) : Kheap :=
  { (s.edit x fun h => { h with next := s.head, prev := 0 }).setPrev s.head x with head := x }

/-- The block `x` is put behind `a`, and fields of both are set. -/
def linkIn (a x : UInt64) (f g : Header → Header) : Kheap :=
  ((s.edit x fun h => { f h with next := (s.block a).next, prev := a }).setPrev
    (s.block a).next x).edit a
    fun h => { g h with next := x }

end Kheap

theorem Kheap.linkFirst_rest : SameRest s (s.linkFirst x) := setPrev_rest (s := s.edit x _)

theorem Kheap.linkIn_rest : SameRest s (s.linkIn a x f g) := setPrev_rest (s := s.edit x _)

namespace Chained

/-- The head is the first block. -/
theorem head_eq (h : Chained s l) : l.head? = ptr s.head := by
  cases l with
  | nil => exact h.links.symm
  | cons y l => exact h.links.1.symm

/-- **A block in front of all others.** -/
theorem linkFirst (h : Chained s l) (hx : x ≠ 0) (hfirst : ∀ a ∈ l, x.toNat + 48 ≤ a.toNat) :
    Chained (s.linkFirst x) (x :: l) ∧ ((s.linkFirst x).block x).Same (s.block x) ∧
      ∀ c ∈ l, ((s.linkFirst x).block c).Same (s.block c) := by
  have hhead : s.head ≠ 0 → s.head ∈ l := fun hne =>
    List.mem_of_mem_head? (h.head_eq.trans (ptr_of_ne hne))
  have hxhead : s.head ≠ 0 → HeadersApart x s.head := fun hne => .inl (hfirst _ (hhead hne))
  have hblockx : (s.linkFirst x).block x = { s.block x with next := s.head, prev := 0 } := by
    have hset : (s.linkFirst x).block x =
        ((s.edit x fun h => { h with next := s.head, prev := 0 }).setPrev s.head x).block x :=
      block_congr rfl
    rw [hset, block_setPrev_of_apart hxhead, block_edit_self]
  have hblock : ∀ c ∈ l, (s.linkFirst x).block c =
      { s.block c with prev := if c = s.head then x else (s.block c).prev } := by
    intro c hc
    have hset : (s.linkFirst x).block c =
        ((s.edit x fun h => { h with next := s.head, prev := 0 }).setPrev s.head x).block c :=
      block_congr rfl
    have hcx : HeadersApart c x := .inr (hfirst c hc)
    rw [hset]
    by_cases hch : c = s.head
    · subst hch
      rw [block_setPrev_self (h.pos _ hc), block_edit_of_apart hcx, if_pos rfl]
    · rw [block_setPrev_of_apart fun hne => h.apart hc (hhead hne) hch,
        block_edit_of_apart hcx, if_neg hch]
  refine ⟨⟨h.links.insertFirst h.nodup ?_ ?_ ?_ ?_ ?_ ?_, ?_, ?_⟩, ?_, fun c hc => ?_⟩
  · exact ptr_of_ne hx
  · rw [next_some, hblockx, next_none]
  · rw [Kheap.prev, hblockx]
    rfl
  · intro c hc
    rw [next_some, hblock c hc, next_some]
  · intro c hc hne
    rw [Kheap.prev, hblock c hc, if_neg]
    · rfl
    · exact fun e => hne (ptr_eq_some.mpr ⟨e.symm, e ▸ h.pos c hc⟩)
  · intro c hc
    obtain ⟨hch, hne⟩ := ptr_eq_some.mp hc
    rw [Kheap.prev, hblock c (hch ▸ hhead hne), if_pos hch.symm, ptr_of_ne hx]
  · exact pairwise_cons.mpr ⟨hfirst, h.sep⟩
  · intro b hb
    cases mem_cons.mp hb with
    | inl hbx => rw [hbx]; exact hx
    | inr hb => exact h.pos b hb
  · rw [hblockx]
    exact ⟨rfl, rfl, rfl, rfl⟩
  · rw [hblock c hc]
    exact ⟨rfl, rfl, rfl, rfl⟩

section LinkIn

variable (h : Chained s (l₁ ++ a :: l₂)) (hax : ∀ c ∈ l₁ ++ a :: l₂, HeadersApart c x)

include h hax

theorem linkIn_block_new : (s.linkIn a x f g).block x =
    { f (s.block x) with next := (s.block a).next, prev := a } := by
  have hnext : (s.block a).next ≠ 0 → HeadersApart x (s.block a).next := fun hne =>
    (hax _ (by simp [h.next_mem hne])).symm
  rw [Kheap.linkIn, block_edit_of_apart (hax a (by simp)).symm,
    block_setPrev_of_apart hnext, block_edit_self]

theorem linkIn_block_at : (s.linkIn a x f g).block a = { g (s.block a) with next := x } := by
  have hnext : (s.block a).next ≠ 0 → HeadersApart a (s.block a).next := by
    intro hne
    have hmem := h.next_mem hne
    have hnd := h.nodup
    rw [nodup_append, nodup_cons] at hnd
    exact h.apart (by simp) (by simp [hmem]) fun e => hnd.2.1.1 (e ▸ hmem)
  rw [Kheap.linkIn, block_edit_self, block_setPrev_of_apart hnext,
    block_edit_of_apart (hax a (by simp))]

theorem linkIn_block_of_mem (hc : c ∈ l₁ ++ l₂) : (s.linkIn a x f g).block c =
    { s.block c with prev := if c = (s.block a).next then x else (s.block c).prev } := by
  have hc' : c ∈ l₁ ++ a :: l₂ := ((sublist_cons_self a l₂).append_left l₁).subset hc
  have hca : c ≠ a := by
    intro e
    have hnd := h.nodup
    rw [nodup_append, nodup_cons] at hnd
    cases mem_append.mp hc with
    | inl hc => exact hnd.2.2 c hc a (by simp) e
    | inr hc => exact hnd.2.1.1 (e ▸ hc)
  rw [Kheap.linkIn, block_edit_of_apart (h.apart hc' (by simp) hca)]
  by_cases hcn : c = (s.block a).next
  · rw [← hcn, block_setPrev_self (h.pos c hc'), block_edit_of_apart (hax c hc'), if_pos rfl]
  · rw [block_setPrev_of_apart fun hne => h.apart hc' (by simp [h.next_mem hne]) hcn,
      block_edit_of_apart (hax c hc'), if_neg hcn]

end LinkIn

/-- **A block behind another one.** -/
theorem linkIn (h : Chained s (l₁ ++ a :: l₂)) (hx : x ≠ 0) (hg : ∀ h, (g h).prev = h.prev)
    (hsep : (l₁ ++ a :: x :: l₂).Pairwise fun a b => a.toNat + 48 ≤ b.toNat) :
    Chained (s.linkIn a x f g) (l₁ ++ a :: x :: l₂) ∧
    ((s.linkIn a x f g).block x).Same (f (s.block x)) ∧
      ((s.linkIn a x f g).block a).Same (g (s.block a)) ∧
      ∀ c ∈ l₁ ++ l₂, ((s.linkIn a x f g).block c).Same (s.block c) := by
  have hax : ∀ c ∈ l₁ ++ a :: l₂, HeadersApart c x := by
    intro c hc
    simp only [pairwise_append, pairwise_cons, mem_cons] at hsep
    rw [mem_append, mem_cons] at hc
    rcases hc with hc | hc | hc
    · exact .inl (hsep.2.2 c hc x (.inr (.inl rfl)))
    · rw [hc]
      exact .inl (hsep.2.1.1 x (.inl rfl))
    · exact .inr (hsep.2.1.2.1 c hc)
  have hnew := linkIn_block_new (f := f) (g := g) h hax
  have hat := linkIn_block_at (f := f) (g := g) h hax
  have hblock := fun c => linkIn_block_of_mem (c := c) (f := f) (g := g) h hax
  refine ⟨⟨h.links.insertAfter h.nodup ?_ ?_ ?_ ?_ ?_ ?_ ?_, hsep, ?_⟩, ?_, ?_, fun c hc => ?_⟩
  · rw [next_none, next_none, Kheap.linkIn, edit_head, setPrev_head, edit_head]
  · rw [next_some, hat, ptr_of_ne hx]
  · rw [next_some, hnew, next_some]
  · rw [Kheap.prev, hnew, ptr_of_ne (h.pos a (by simp))]
  · intro c hc
    rw [next_some, hblock c hc, next_some]
  · intro c hc hne
    have hcn : c ≠ (s.block a).next := fun e => hne (ptr_eq_some.mpr ⟨e.symm, e ▸ h.pos c hc⟩)
    by_cases hca : c = a
    · rw [hca, Kheap.prev, hat, Kheap.prev, hg]
    · have hc' : c ∈ l₁ ++ l₂ := by
        rw [mem_append, mem_cons] at hc
        exact mem_append.mpr (hc.imp_right fun hc => hc.resolve_left hca)
      rw [Kheap.prev, hblock c hc', if_neg hcn, Kheap.prev]
  · intro c hc
    obtain ⟨hcn, hne⟩ := ptr_eq_some.mp hc
    rw [Kheap.prev, hblock c (mem_append_right _ (hcn ▸ h.next_mem hne)),
      if_pos hcn.symm, ptr_of_ne hx]
  · intro b hb
    by_cases hbx : b = x
    · rw [hbx]
      exact hx
    · rw [mem_append, mem_cons, mem_cons] at hb
      refine h.pos b (mem_append.mpr (hb.imp_right fun hb => mem_cons.mpr ?_))
      exact hb.imp_right fun hb => hb.resolve_left hbx
  · rw [hnew]
    exact ⟨rfl, rfl, rfl, rfl⟩
  · rw [hat]
    exact ⟨rfl, rfl, rfl, rfl⟩
  · rw [hblock c hc]
    exact ⟨rfl, rfl, rfl, rfl⟩

end Chained

end DyntKernel.Mem.Heap
