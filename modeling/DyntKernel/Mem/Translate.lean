/-
  File:      DyntKernel/Mem/Translate.lean
  Subject:   paging_map AND paging_unmap AS EDITS OF A TRANSLATION.

  * `trailOf`, `mappedTrail`, `translate_mapped` -- `paging_translate` reads the trail of an
    address;
  * `userMapped` -- whether user mode may use the translation;
  * `Proper`, `Spare` -- a page-table tree, and an allocator that hands out none of its tables;
  * `MapCorrect` -- `paging_map` changes one page, or none, and `paging_unmap` takes it back;
  * `map_correct_iff` -- it does so for every tree, as long as the flags leave the frame alone.
-/
import DyntKernel.Mem.Spaces

namespace DyntKernel.Mem

open Library List

/-! ## 1. Translations are read from trails -/

/-- The entries `paging_translate` reads for an address. -/
def trailOf (m : Phys) (r a : Nat) : List Nat := trail child (entry m) 0 r (pathOf a)

/-- What `paging_translate` makes of them. -/
def decode (es : List Nat) (a : Nat) : Nat :=
  match es with
  | [_, _, e] => if present e ∧ large e then largeFrame e * 4096 + a % 0x200000 else 0
  | [_, _, _, e] => if present e then entryFrame e * 4096 + a % 4096 else 0
  | _ => 0

theorem translate_eq (m : Phys) (r a : Nat) : pagingTranslate m r a = decode (trailOf m r a) a := by
  rw [pagingTranslate, trailOf, pathOf, trail]
  by_cases h₀ : present (entry m r (pml4Idx a)) = true
  swap
  · simp [child, h₀, decode]
  generalize hpdpt : entryFrame (entry m r (pml4Idx a)) = pdpt
  rw [show child 0 (entry m r (pml4Idx a)) = some pdpt by simp [child, h₀, hpdpt], Option.elim_some,
    trail]
  by_cases h₁ : present (entry m pdpt (pdptIdx a)) = true
  swap
  · simp [child, h₀, h₁, decode]
  generalize hpd : entryFrame (entry m pdpt (pdptIdx a)) = pd
  rw [show child 1 (entry m pdpt (pdptIdx a)) = some pd by simp [child, h₁, hpd], Option.elim_some,
    trail]
  by_cases h₂ : present (entry m pd (pdIdx a)) = true
  swap
  · simp [child, h₀, h₁, h₂, hpd, decode]
  by_cases hl : large (entry m pd (pdIdx a)) = true
  · simp [child, h₀, h₁, h₂, hl, hpd, decode]
  by_cases h₃ : present (entry m (entryFrame (entry m pd (pdIdx a))) (ptIdx a)) = true
  · simp [child, h₀, h₁, h₂, h₃, hl, hpd, decode, trail]
  · simp [child, h₀, h₁, h₂, h₃, hl, hpd, decode, trail]

/-- An absent entry ends a trail that translates to nothing. -/
theorem decode_absent (es : List Nat) {e : Nat} (he : present e = false) (a : Nat) :
    decode (es ++ [e]) a = 0 := by
  rcases es with _ | ⟨_, _ | ⟨_, _ | ⟨_, _ | ⟨_, _ | _⟩⟩⟩⟩
  · rfl
  · rfl
  · simp [decode, he]
  · simp [decode, he]
  · rfl
  · rfl

theorem decode_leaf {es : List Nat} (hlen : es.length = 3) {e : Nat} (he : present e = true)
    (a : Nat) : decode (es ++ [e]) a = entryFrame e * 4096 + a % 4096 := by
  obtain ⟨x, y, z, rfl⟩ := length_eq_three.mp hlen
  simp [decode, he]

/-- The trail ends at an absent entry. -/
theorem trail_absent {m : Phys} {r t : Nat} {q rest : List (Fin 512)} {i : Fin 512}
    (hw : walkFrom m r q = some t) (he : present (entry m t i) = false) :
    trail child (entry m) 0 r (q ++ i :: rest) = trail child (entry m) 0 r q ++ [entry m t i] := by
  rw [trail_append hw, trail, child_of_not_present he]
  rfl

/-- The trail of an address that is mapped: its last entry is present. -/
def mappedTrail (m : Phys) (r a : Nat) : Option (List Nat) :=
  if (trailOf m r a).getLast?.any present then some (trailOf m r a) else none

/-- **What `paging_translate` returns is decided by the mapped trail.** -/
theorem translate_mapped (m : Phys) (r a : Nat) :
    pagingTranslate m r a = (mappedTrail m r a).elim 0 (decode · a) := by
  rw [translate_eq, mappedTrail]
  generalize trailOf m r a = es
  by_cases h : es.getLast?.any present = true
  · rw [if_pos h, Option.elim_some]
  rw [if_neg h, Option.elim_none]
  rcases eq_nil_or_concat es with rfl | ⟨es, e, rfl⟩
  · rfl
  · rw [concat_eq_append] at h ⊢
    exact decode_absent es (by simpa using h) a

theorem mappedTrail_absent {m : Phys} {r t a : Nat} {q rest : List (Fin 512)} {i : Fin 512}
    (hpath : pathOf a = q ++ i :: rest) (hw : walkFrom m r q = some t)
    (he : present (entry m t i) = false) : mappedTrail m r a = none := by
  rw [mappedTrail, trailOf, hpath, trail_absent hw he]
  simp [he]

/-- **User mode may use the translation**: every entry on the trail has the user bit. -/
def userMapped (m : Phys) (r a : Nat) : Bool := (mappedTrail m r a).any fun es => es.all user

/-! ## 2. Page-table trees -/

/-- A path to a table. -/
def Short (p : List (Fin 512)) : Prop := p.length < 4

/-- **A proper page-table tree**: no table is reached along two paths. -/
def Proper (m : Phys) (r : Nat) : Prop := Forest child (entry m) (· = r) Short

/-- The tables of the space with the root `r`. -/
def IsTable (m : Phys) (r t : Nat) : Prop := Reached child (entry m) (· = r) Short t

/-- The frames the allocator has left are none of the tables. -/
def Spare (s : Mm) (r : Nat) : Prop :=
  ∀ f, s.pmm.free f = true → f < pmmMaxFrames ∧ ¬ IsTable s.mem r f

variable {s s' s'' : Mm} {m m' : Phys} {r t f a vaddr : Nat}
  {p q rest : List (Fin 512)} {i : Fin 512}

theorem short_of_append (p q : List (Fin 512)) (h : Short (p ++ q)) : Short p := by
  rw [Short, length_append] at h
  exact Nat.lt_of_le_of_lt (Nat.le_add_right _ _) h

theorem short_three (i j k : Fin 512) : Short [i, j, k] := Nat.lt_succ_self 3

theorem short_of_pathOf (h : pathOf a = q ++ i :: rest) : Short q := by
  have hlen := congrArg List.length h
  rw [length_append, length_cons, show (pathOf a).length = 4 from rfl] at hlen
  rw [Short]
  omega

/-- A write to frames that are no tables. -/
theorem trailOf_outside (h : ∀ t i, IsTable m r t → entry m' t i = entry m t i) (a : Nat) :
    trailOf m' r a = trailOf m r a :=
  trail_congr fun q i _ t hpath hw => h t i ⟨r, q, rfl, short_of_pathOf hpath, hw⟩

theorem proper_outside (hp : Proper m r) (h : ∀ t i, IsTable m r t → entry m' t i = entry m t i) :
    Proper m' r ∧ (∀ t, IsTable m' r t ↔ IsTable m r t) ∧
      ∀ q, Short q → walkFrom m' r q = walkFrom m r q := by
  have hwalk : ∀ r', r' = r → ∀ q, Short q → walkFrom m' r' q = walkFrom m r' q :=
    fun r' hr' q hq => walk_write_fresh short_of_append h hr' hq
  exact ⟨forest_congr hp hwalk, fun t => reached_congr hwalk, hwalk r rfl⟩

/-- A write to one entry leaves the addresses of other paths alone. -/
theorem trailOf_write_ne (hp : Proper m r) (hq : Short q) (hw : walkFrom m r q = some t)
    (hm : ∀ t' i', t' ≠ t ∨ i' ≠ i → entry m' t' i' = entry m t' i')
    (hne : ¬ q ++ [i] <+: pathOf a) : trailOf m' r a = trailOf m r a :=
  trail_write_ne hp rfl hq hw hm rfl (fun _ _ _ hpath => short_of_pathOf hpath) fun h => hne h.2

/-- **Nothing is moved**: the tree is still proper and maps what it mapped. -/
structure Unmoved (r : Nat) (s s' : Mm) : Prop where
  proper : Proper s'.mem r
  spare : Spare s' r
  same : ∀ a, mappedTrail s'.mem r a = mappedTrail s.mem r a

theorem Unmoved.trans (h : Unmoved r s s') (h' : Unmoved r s' s'') : Unmoved r s s'' :=
  ⟨h'.proper, h'.spare, fun a => (h'.same a).trans (h.same a)⟩

theorem Unmoved.translate (h : Unmoved r s s') (a : Nat) :
    pagingTranslate s'.mem r a = pagingTranslate s.mem r a := by
  rw [translate_mapped, h.same, translate_mapped]

section

variable (hp : Proper s.mem r) (hs : Spare s r)
include hp hs

/-- A step that takes frames and writes to no table. -/
theorem Unmoved.outside (hfree : ∀ f, s'.pmm.free f = true → s.pmm.free f = true)
    (hm : ∀ t i, IsTable s.mem r t → entry s'.mem t i = entry s.mem t i) : Unmoved r s s' := by
  obtain ⟨hproper, htables, -⟩ := proper_outside hp hm
  refine ⟨hproper, fun f hf => ?_, fun a => by rw [mappedTrail, mappedTrail, trailOf_outside hm a]⟩
  obtain ⟨hlt, hno⟩ := hs f (hfree f hf)
  exact ⟨hlt, fun ht => hno ((htables f).mp ht)⟩

theorem Unmoved.alloc : Unmoved r s s.alloc.2 :=
  Unmoved.outside hp hs (alloc_frees s) fun _ _ _ => rfl

/-- Clearing a frame that is no table. -/
theorem Unmoved.zeroPage (hf : f ≠ 0) (hno : ¬ IsTable s.mem r f) :
    Unmoved r s (s.zeroPage f) ∧ (∀ t, IsTable (s.zeroPage f).mem r t ↔ IsTable s.mem r t) ∧
      (∀ t i, IsTable s.mem r t → entry (s.zeroPage f).mem t i = entry s.mem t i) ∧
      (∀ q, Short q → walkFrom (s.zeroPage f).mem r q = walkFrom s.mem r q) ∧
      ∀ j, entry (s.zeroPage f).mem f j = 0 := by
  have hrow : ∀ t i, IsTable s.mem r t → entry (s.zeroPage f).mem t i = entry s.mem t i := by
    intro t i ht
    rw [Mm.zeroPage, if_neg hf]
    refine entry_blit_of_ne (f := f) ?_ (by omega) (by omega) i
    rintro rfl
    exact hno ht
  obtain ⟨-, htables, hwalk⟩ := proper_outside hp hrow
  refine ⟨Unmoved.outside hp hs (fun g hg => by rwa [zeroPage_pmm] at hg) hrow, htables, hrow,
    hwalk,
    fun j => ?_⟩
  rw [Mm.zeroPage, if_neg hf]
  exact entry_zero j

/-- **Linking an empty table** into an absent entry: the addresses behind it have no translation
    before or after. -/
theorem Unmoved.link (hq : q.length < 3)
    (hw : walkFrom s.mem r q = some t) (hold : present (entry s.mem t i) = false)
    (hlt : f < pmmMaxFrames) (hno : ¬ IsTable s.mem r f) (htaken : s.pmm.free f = false)
    (hz : ∀ j, entry s.mem f j = 0) : Unmoved r s (s.store t i (tableEntry f)) ∧
      walkFrom (s.store t i (tableEntry f)).mem r (q ++ [i]) = some f ∧
      ∀ j, entry (s.store t i (tableEntry f)).mem f j = 0 := by
  have hqs : Short q := by rw [Short]; omega
  have hm : ∀ t' i', t' ≠ t ∨ i' ≠ i →
      entry (s.store t i (tableEntry f)).mem t' i' = entry s.mem t' i' :=
    fun _ _ => entry_store_of_ne
  have hft : f ≠ t := by
    rintro rfl
    exact hno ⟨r, q, rfl, hqs, hw⟩
  have hz' : ∀ j, entry (s.store t i (tableEntry f)).mem f j = 0 :=
    fun j => (hm f j (.inl hft)).trans (hz j)
  have hc : child q.length (entry (s.store t i (tableEntry f)).mem t i) = some f := by
    rw [entry_store_self, tableEntry_mod hlt]
    exact child_table hq f
  have hleaf : ∀ j, Short (q ++ [i, j]) →
      child (q.length + 1) (entry (s.store t i (tableEntry f)).mem f j) = none :=
    fun j _ => by rw [hz' j]; exact child_zero _
  have hw' : walkFrom (s.store t i (tableEntry f)).mem r (q ++ [i]) = some f := by
    rw [walkFrom, walk_write_eq short_of_append hp rfl hqs hw hm, hc]
    rfl
  refine ⟨⟨forest_link short_of_append hp rfl hqs hw hm hc hno hleaf, fun g hg => ?_, fun a => ?_⟩,
    hw', hz'⟩
  · obtain ⟨hglt, hgno⟩ := hs g hg
    refine ⟨hglt, fun ht => ?_⟩
    obtain ⟨r', p', rfl, hp', hw'⟩ := ht
    rcases walk_link short_of_append hp rfl hqs hw hm hc hleaf rfl hp' hw' with ⟨-, -, rfl⟩ | hw'
    · rw [show s.pmm.free g = true from hg] at htaken
      cases htaken
    · exact hgno ⟨r', p', rfl, hp', hw'⟩
  by_cases hpre : q ++ [i] <+: pathOf a
  · obtain ⟨rest, hrest⟩ := hpre
    rw [mappedTrail_absent (q := q) (by rw [← hrest, append_assoc]; rfl) hw hold]
    have hlen := congrArg List.length hrest
    rw [length_append, length_append, length_singleton,
      show (pathOf a).length = 4 from rfl] at hlen
    rcases rest with _ | ⟨j, rest⟩
    · simp only [length_nil] at hlen
      omega
    · exact mappedTrail_absent hrest.symm hw' (by rw [hz' j]; rfl)
  · rw [mappedTrail, mappedTrail, trailOf_write_ne hp hqs hw hm hpre]

/-- **A new table** moves nothing. -/
theorem newTable_unmoved (hq : q.length < 3)
    (hw : walkFrom s.mem r q = some t) (hold : present (entry s.mem t i) = false) :
    (∃ s', s.newTable t i = (none, s') ∧ Unmoved r s s') ∨
    ∃ f s', s.newTable t i = (some f, s') ∧ Unmoved r s s' ∧
      walkFrom s'.mem r (q ++ [i]) = some f ∧ ∀ j, entry s'.mem f j = 0 := by
  have halloc := Unmoved.alloc hp hs
  by_cases hzero : s.alloc.1 = 0
  · exact .inl ⟨s.alloc.2, by rw [Mm.newTable, if_pos hzero], halloc⟩
  refine .inr ⟨s.alloc.1, _, by rw [Mm.newTable, if_neg hzero], ?_⟩
  obtain ⟨hfree, htaken⟩ := alloc_obtained hzero
  obtain ⟨hlt, hno⟩ := hs _ hfree
  have hqs : Short q := by rw [Short]; omega
  obtain ⟨hclear, htables, hrow, hwalk, hz⟩ := Unmoved.zeroPage halloc.proper halloc.spare hzero hno
  obtain ⟨hlink, hw', hz'⟩ := Unmoved.link hclear.proper hclear.spare hq ((hwalk q hqs).trans hw)
    (by rw [hrow t i ⟨r, q, rfl, hqs, hw⟩]; exact hold) hlt (fun ht => hno ((htables _).mp ht))
    (by rw [zeroPage_pmm]; exact htaken) hz
  exact ⟨(halloc.trans hclear).trans hlink, hw', hz'⟩

/-! ## 3. One page -/

/-- **What `paging_map` does**: it fails and moves nothing, or it fills an absent entry of the page
    table of the address. -/
theorem pagingMap_unmoved (vaddr phys flags : Nat) :
    (∃ s', s.pagingMap r vaddr phys flags = (false, s') ∧ Unmoved r s s') ∨
    ∃ s' pt, s.pagingMap r vaddr phys flags =
        (true, s'.store pt (ptIdx vaddr) (leafEntry phys flags)) ∧ Unmoved r s s' ∧
      pagingUserBase ≤ vaddr ∧
      walkFrom s'.mem r [pml4Idx vaddr, pdptIdx vaddr, pdIdx vaddr] = some pt ∧
      present (entry s'.mem pt (ptIdx vaddr)) = false := by
  refine pagingMap_rule r vaddr phys flags (J := Unmoved r s) (fun s₁ q i t h₁ _ hq hw hold =>
    ?_) ⟨hp, hs, fun _ => rfl⟩
  rcases newTable_unmoved h₁.proper h₁.spare hq hw hold with ⟨s', heq, h'⟩ | ⟨f, s', heq, h', hnew⟩
  · exact .inl ⟨s', heq, h₁.trans h'⟩
  · exact .inr ⟨f, s', heq, h₁.trans h', hnew⟩

end

/-- The addresses of one page, compared on the bits 12 to 47. -/
def SamePage (a b : Nat) : Prop := a / 4096 % 2 ^ 36 = b / 4096 % 2 ^ 36

theorem pathOf_eq_iff {a b : Nat} : pathOf a = pathOf b ↔ SamePage a b := by
  simp only [pathOf, List.cons.injEq, and_true, Fin.ext_iff, pml4Idx, pdptIdx, pdIdx, ptIdx,
    Fin.val_ofNat, SamePage]
  omega

/-- A filled entry of a page table ends the trails of its page. -/
theorem trailOf_leaf (hw : walkFrom m r [pml4Idx a, pdptIdx a, pdIdx a] = some t) :
    ∃ es, es.length = 3 ∧ trailOf m r a = es ++ [entry m t (ptIdx a)] := by
  have hpath : pathOf a = [pml4Idx a, pdptIdx a, pdIdx a] ++ [ptIdx a] := rfl
  refine ⟨_, length_trail hw, ?_⟩
  rw [trailOf, hpath, trail_append hw, trail_single]

theorem translate_leaf (hw : walkFrom m r [pml4Idx a, pdptIdx a, pdIdx a] = some t)
    (he : present (entry m t (ptIdx a)) = true) :
    pagingTranslate m r a = entryFrame (entry m t (ptIdx a)) * 4096 + a % 4096 := by
  obtain ⟨es, hlen, htrail⟩ := trailOf_leaf hw
  rw [translate_eq, htrail]
  exact decode_leaf hlen he a

theorem child_some {k e t : Nat} (h : child k e = some t) (hk : k < 3) :
    present e = true ∧ entryFrame e = t ∧ (k = 2 → large e = false) := by
  have hp : present e = true := by
    by_contra hno
    rw [child, if_pos hno] at h
    cases h
  rw [child, if_neg (not_not.mpr hp)] at h
  split_ifs at h with h₁ h₂ h₃
  · exact ⟨hp, Option.some.inj h, fun h₂ => absurd h₁ (by omega)⟩
  · exact ⟨hp, Option.some.inj h, fun _ => by simpa using h₃⟩
  · omega

theorem walk_two {j : Fin 512} (hw : walkFrom m r [i, j] = some t) :
    ∃ u, child 0 (entry m r i) = some u ∧ child 1 (entry m u j) = some t := by
  simp only [walkFrom, walk, Option.bind_eq_some_iff, Nat.zero_add, Option.some.injEq,
    exists_eq_right] at hw
  exact hw

theorem walk_three {j k : Fin 512} (hw : walkFrom m r [i, j, k] = some t) :
    ∃ u, walkFrom m r [i, j] = some u ∧ child 2 (entry m u k) = some t := by
  have hsnoc : [i, j, k] = [i, j] ++ [k] := rfl
  rw [hsnoc, walkFrom, walk_snoc, Option.bind_eq_some_iff] at hw
  exact hw

/-- `paging_unmap` of a page with an entry. -/
theorem pagingUnmap_leaf (hlow : pagingUserBase ≤ a)
    (hw : walkFrom s.mem r [pml4Idx a, pdptIdx a, pdIdx a] = some t)
    (he : present (entry s.mem t (ptIdx a)) = true) :
    s.pagingUnmap r a = (s.release (entryFrame (entry s.mem t (ptIdx a)))).store t (ptIdx a) 0 := by
  obtain ⟨pd, hw, hpt⟩ := walk_three hw
  obtain ⟨pdpt, hpdpt, hpd⟩ := walk_two hw
  obtain ⟨hp₀, rfl, -⟩ := child_some hpdpt (by decide)
  obtain ⟨hp₁, rfl, -⟩ := child_some hpd (by decide)
  obtain ⟨hp₂, rfl, hlarge⟩ := child_some hpt (by decide)
  simp [Mm.pagingUnmap, Nat.not_lt.mpr hlow, hp₀, hp₁, hp₂, hlarge, he]

section Leaf

variable (hp : Proper s.mem r)
  (hw : walkFrom s.mem r [pml4Idx vaddr, pdptIdx vaddr, pdIdx vaddr] = some t) (e : Nat)
include hp hw

/-- Filling or clearing an entry of a page table keeps every table. -/
theorem proper_leaf : Proper (s.store t (ptIdx vaddr) e).mem r ∧
    walkFrom (s.store t (ptIdx vaddr) e).mem r [pml4Idx vaddr, pdptIdx vaddr,
      pdIdx vaddr] = some t := by
  have hwalk : ∀ r', r' = r → ∀ q, Short q →
      walkFrom (s.store t (ptIdx vaddr) e).mem r' q = walkFrom s.mem r' q := by
    intro r' hr' q hq
    refine walk_write_ne short_of_append hp rfl (short_three _ _ _) hw
      (fun _ _ => entry_store_of_ne) hr' hq fun h => ?_
    have hlen := h.2.length_le
    rw [Short] at hq
    simp only [length_append, length_cons, length_nil] at hlen
    omega
  exact ⟨forest_congr hp hwalk, (hwalk r rfl _ (short_three _ _ _)).trans hw⟩

/-- It leaves the other pages alone. -/
theorem trailOf_leaf_ne (hne : ¬ SamePage a vaddr) :
    trailOf (s.store t (ptIdx vaddr) e).mem r a = trailOf s.mem r a := by
  refine trailOf_write_ne hp (short_three _ _ _) hw (fun _ _ => entry_store_of_ne) fun h => hne ?_
  have heq : pathOf vaddr = pathOf a := h.eq_of_length rfl
  exact pathOf_eq_iff.mp heq.symm

/-- It decides the page itself. -/
theorem translate_leaf_eq (heq : SamePage a vaddr) :
    pagingTranslate (s.store t (ptIdx vaddr) e).mem r a =
      if present (e % 2 ^ 64) then entryFrame (e % 2 ^ 64) * 4096 + a % 4096 else 0 := by
  have hw' := (proper_leaf hp hw e).2
  have hpath := pathOf_eq_iff.mpr heq
  simp only [pathOf, List.cons.injEq, and_true] at hpath
  obtain ⟨h₁, h₂, h₃, h₄⟩ := hpath
  rw [← h₁, ← h₂, ← h₃] at hw'
  have hentry : entry (s.store t (ptIdx vaddr) e).mem t (ptIdx a) = e % 2 ^ 64 := by
    rw [h₄]
    exact entry_store_self
  by_cases hpres : present (e % 2 ^ 64) = true
  · rw [if_pos hpres, translate_leaf hw' (by rw [hentry]; exact hpres), hentry]
  · rw [if_neg hpres, translate_mapped,
      mappedTrail_absent (q := [pml4Idx a, pdptIdx a, pdIdx a]) rfl
      hw' (by rw [hentry]; simpa using hpres)]
    rfl

omit e in
/-- **`paging_unmap` of a mapped page** clears that page and no other. -/
theorem pagingUnmap_translate (hlow : pagingUserBase ≤ vaddr)
    (he : present (entry s.mem t (ptIdx vaddr)) = true) :
    (∀ a, SamePage a vaddr → pagingTranslate (s.pagingUnmap r vaddr).mem r a = 0) ∧
    ∀ a, ¬ SamePage a vaddr →
      pagingTranslate (s.pagingUnmap r vaddr).mem r a = pagingTranslate s.mem r a := by
  rw [pagingUnmap_leaf hlow hw he]
  have hmem : (s.release (entryFrame (entry s.mem t (ptIdx vaddr)))).mem = s.mem := rfl
  generalize s.release (entryFrame (entry s.mem t (ptIdx vaddr))) = s' at hmem
  rw [← hmem] at hp hw ⊢
  refine ⟨fun a ha => ?_, fun a ha => ?_⟩
  · rw [translate_leaf_eq hp hw 0 ha, if_neg (by decide)]
  · rw [translate_eq, trailOf_leaf_ne hp hw 0 ha, translate_eq]

end Leaf

/-! ## 4. The result -/

/-- **The flags leave the frame number alone**: from bit 12 on they set no bit that the frame number
    has not. -/
def FlagsClean (phys flags : Nat) : Prop := phys ||| flags / 4096 = phys

/-- **`paging_map` changes the page of its address and no other**, or nothing if it fails, and
    `paging_unmap` takes the page back. -/
structure MapCorrect (s : Mm) (r vaddr phys flags : Nat) : Prop where
  page : ∀ s', s.pagingMap r vaddr phys flags = (true, s') → ∀ a, SamePage a vaddr →
    pagingTranslate s'.mem r a = phys * 4096 + a % 4096
  others : ∀ s', s.pagingMap r vaddr phys flags = (true, s') → ∀ a, ¬ SamePage a vaddr →
    pagingTranslate s'.mem r a = pagingTranslate s.mem r a
  failure : ∀ s', s.pagingMap r vaddr phys flags = (false, s') → ∀ a,
    pagingTranslate s'.mem r a = pagingTranslate s.mem r a
  unmapPage : ∀ s', s.pagingMap r vaddr phys flags = (true, s') → ∀ a, SamePage a vaddr →
    pagingTranslate (s'.pagingUnmap r vaddr).mem r a = 0
  unmapOthers : ∀ s', s.pagingMap r vaddr phys flags = (true, s') → ∀ a, ¬ SamePage a vaddr →
    pagingTranslate (s'.pagingUnmap r vaddr).mem r a = pagingTranslate s'.mem r a

theorem leafEntry_bits {phys flags : Nat} (hphys : phys < 2 ^ 52) (hflags : flags < 2 ^ 64) :
    leafEntry phys flags % 2 ^ 64 = leafEntry phys flags ∧ present (leafEntry phys flags) = true ∧
      entryFrame (leafEntry phys flags) = phys ||| flags / 4096 := by
  refine ⟨Nat.mod_eq_of_lt ?_, ?_, ?_⟩
  · exact Nat.or_lt_two_pow (Nat.or_lt_two_pow (by omega) hflags) (by decide)
  · have hbit : (leafEntry phys flags).testBit 0 = true := by simp [leafEntry]
    rwa [Nat.testBit_zero] at hbit
  · rw [leafEntry, entryFrame, ← Nat.shiftRight_eq_div_pow _ 12, Nat.shiftRight_or_distrib,
      Nat.shiftRight_or_distrib, Nat.shiftRight_eq_div_pow, Nat.shiftRight_eq_div_pow,
      Nat.shiftRight_eq_div_pow]
    simp

/-- A space without any table but its root, and three frames for the allocator. -/
def bareRoot (r : Nat) : Mm := ⟨⟨fun f => r < f && f < r + 4, r + 1, 3⟩, fun _ => 0, 0, 0⟩

theorem isTable_bareRoot (h : IsTable (bareRoot r).mem r t) : t = r := by
  obtain ⟨r', p, rfl, -, hw⟩ := h
  cases p with
  | nil => exact (Option.some.inj hw).symm
  | cons i p =>
    rw [walk, show entry (bareRoot r').mem r' i = 0 from readLE_zero, child_zero] at hw
    cases hw

theorem proper_bareRoot (r : Nat) : Proper (bareRoot r).mem r := by
  refine ⟨fun r₁ r₂ p p' f hr₁ hr₂ _ _ hw hw' => ⟨hr₁.trans hr₂.symm, ?_⟩⟩
  have hnil : ∀ (q : List (Fin 512)) r', walkFrom (bareRoot r).mem r' q = some f → q = [] := by
    intro q r' hq
    cases q with
    | nil => rfl
    | cons i q =>
      rw [walkFrom, walk, show entry (bareRoot r).mem r' i = 0 from readLE_zero, child_zero] at hq
      cases hq
  rw [hnil p r₁ hw, hnil p' r₂ hw']

theorem spare_bareRoot (h : r < 4) : Spare (bareRoot r) r := by
  intro f hf
  simp only [bareRoot, Bool.and_eq_true, decide_eq_true_eq] at hf
  refine ⟨Nat.lt_trans (show f < 8 by omega) (by decide), fun ht => ?_⟩
  rw [isTable_bareRoot ht] at hf
  omega

/-- Whether `paging_map` succeeds does not depend on what it maps. -/
theorem pagingMap_fst (s : Mm) (r vaddr phys flags : Nat) :
    (s.pagingMap r vaddr phys flags).1 = (s.pagingMap r vaddr 0 0).1 := by
  rw [Mm.pagingMap, Mm.pagingMap]
  split_ifs
  · rfl
  rcases s.nextTable r (pml4Idx vaddr) with ⟨_ | pdpt, s₁⟩
  · rfl
  dsimp only
  rcases s₁.nextTable pdpt (pdptIdx vaddr) with ⟨_ | pd, s₂⟩
  · rfl
  dsimp only
  split_ifs
  · rfl
  · rfl
  · rfl
  · rcases s₂.newTable pd (pdIdx vaddr) with ⟨_ | pt, s₃⟩ <;> rfl

/-- **`paging_map` edits the translation of every proper page-table tree as it should, for every
    state of the allocator, exactly if the flags leave the frame number alone.** -/
theorem map_correct_iff {phys flags : Nat} (hphys : phys < 2 ^ 52) (hflags : flags < 2 ^ 64) :
    (∀ s r vaddr, Proper s.mem r → Spare s r → ¬ IsTable s.mem r phys → pagingUserBase ≤ vaddr →
      vaddr % 4096 = 0 → MapCorrect s r vaddr phys flags) ↔ FlagsClean phys flags := by
  obtain ⟨hmod, hpres, hframe⟩ := leafEntry_bits hphys hflags
  constructor
  · -- an empty space shows a bit that the flags set in the frame number
    intro h
    obtain ⟨r, hr, hne, hmap⟩ : ∃ r, r < 4 ∧ r ≠ phys ∧
        ((bareRoot r).pagingMap r 0x40000000 0 0).1 = true := by
      by_cases h₁ : phys = 1
      · exact ⟨2, by decide, by omega, by decide +kernel⟩
      · exact ⟨1, by decide, by omega, by decide +kernel⟩
    have hcorrect : MapCorrect (bareRoot r) r 0x40000000 phys flags :=
      h (bareRoot r) r 0x40000000 (proper_bareRoot r) (spare_bareRoot hr)
        (fun ht => hne (isTable_bareRoot ht).symm) (by decide) (by decide)
    rw [← pagingMap_fst _ _ _ phys flags] at hmap
    rcases pagingMap_unmoved (proper_bareRoot r) (spare_bareRoot hr) 0x40000000 phys flags with
      ⟨s', heq, -⟩ | ⟨s', pt, heq, hsame, -, hw, -⟩
    · rw [heq] at hmap
      cases hmap
    · have htrans := hcorrect.page _ heq 0x40000000 rfl
      rw [translate_leaf_eq hsame.proper hw _ rfl, hmod, if_pos hpres, hframe] at htrans
      exact Nat.eq_of_mul_eq_mul_right (by decide : 0 < 4096) (Nat.add_right_cancel htrans)
  intro hclean s r vaddr hp hs _ _ _
  rcases pagingMap_unmoved hp hs vaddr phys flags with
    ⟨s', heq, hsame⟩ | ⟨s', pt, heq, hsame, hlow, hw, -⟩
  · have hno : ∀ s₁, s.pagingMap r vaddr phys flags ≠ (true, s₁) := fun s₁ hs₁ =>
      Bool.false_ne_true (congrArg Prod.fst (heq.symm.trans hs₁))
    refine ⟨fun s₁ h₁ => absurd h₁ (hno s₁), fun s₁ h₁ => absurd h₁ (hno s₁), fun s₁ h₁ => ?_,
      fun s₁ h₁ => absurd h₁ (hno s₁), fun s₁ h₁ => absurd h₁ (hno s₁)⟩
    rw [← (Prod.mk.inj (heq.symm.trans h₁)).2]
    exact hsame.translate
  have hyes : ∀ s₁, s.pagingMap r vaddr phys flags = (true, s₁) →
      s'.store pt (ptIdx vaddr) (leafEntry phys flags) = s₁ :=
    fun s₁ hs₁ => (Prod.mk.inj (heq.symm.trans hs₁)).2
  obtain ⟨hp', hw'⟩ := proper_leaf hsame.proper hw (leafEntry phys flags)
  obtain ⟨hgone, hother⟩ := pagingUnmap_translate hp' hw' hlow (by
    rw [entry_store_self, hmod]
    exact hpres)
  refine ⟨fun s₁ h₁ a ha => ?_, fun s₁ h₁ a ha => ?_, fun s₁ h₁ => ?_, fun s₁ h₁ => ?_,
    fun s₁ h₁ => ?_⟩
  · rw [← hyes s₁ h₁, translate_leaf_eq hsame.proper hw _ ha, hmod, if_pos hpres, hframe,
      show phys ||| flags / 4096 = phys from hclean]
  · rw [← hyes s₁ h₁, ← hsame.translate a, translate_eq, trailOf_leaf_ne hsame.proper hw _ ha,
      translate_eq]
  · exact absurd (congrArg Prod.fst (h₁.symm.trans heq)) Bool.false_ne_true
  · rw [← hyes s₁ h₁]
    exact hgone
  · rw [← hyes s₁ h₁]
    exact hother

theorem map_correct_iff_user : MapCorrect (bareRoot 1) 1 0x40000000 5 flagUserWritable :=
  (map_correct_iff (by decide) (by decide)).mpr (by rw [FlagsClean]; decide)
  (bareRoot 1) 1 0x40000000
    (proper_bareRoot 1) (spare_bareRoot (by decide))
    (fun ht => absurd (isTable_bareRoot ht) (by decide)) (by decide) (by decide)

/-- **`PAGING_FLAG_NOEXEC` moves the page**: `paging_translate` returns its bit with the address. -/
theorem map_noexec_moves : ¬ ∀ s r vaddr phys flags, Proper s.mem r → Spare s r → 0 < phys →
    phys < 2 ^ 52 → flags < 2 ^ 64 → ¬ IsTable s.mem r phys → pagingUserBase ≤ vaddr →
    vaddr % 4096 = 0 → MapCorrect s r vaddr phys flags := by
  intro h
  have hcorrect := h (bareRoot 1) 1 0x40000000 5 (2 ^ 63) (proper_bareRoot 1)
    (spare_bareRoot (by decide)) (by decide) (by decide) (by decide)
    (fun ht => absurd (isTable_bareRoot ht) (by decide)) (by decide) (by decide)
  have htrue : ((bareRoot 1).pagingMap 1 0x40000000 5 (2 ^ 63)).1 = true := by decide +kernel
  have htrans := hcorrect.page _ (Prod.ext htrue rfl) 0x40000000 rfl
  revert htrans
  decide +kernel

end DyntKernel.Mem
