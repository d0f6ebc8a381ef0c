/-
  File:      DyntKernel/Mem/HeapCalls.lean
  Subject:   RUNS OF THE HEAP: any sequence of `kheap_alloc` and `kheap_free`, with the memory that
             is handed out written to by its owners in between.

  * `Inv.split`, `Inv.take` -- a free block is split and handed out;
  * `Inv.kheapAlloc`, `Inv.kheapFree` -- one call;
  * `HeapRun`, `HeapOp`, `HeapRun.step` -- a heap with the pointers that are in use, and its events;
  * `Sound` -- what holds of the list, of the blocks and of the memory handed out;
  * `kheap_sound` -- it holds after every run, and every call returns;
  * `counter_right_iff` -- when `allocated_bytes` is the sum of the sizes of the blocks in use.
-/
import DyntKernel.Library.Runs
import DyntKernel.Mem.Heap

namespace DyntKernel.Mem.Heap

open Library List Kheap

variable {s s' : Kheap} {a b c p x : UInt64} {l l' l₁ l₂ : List UInt64} {fuel : Nat}
  {size used alignment : UInt64}

/-! ## 1. A block is taken -/

/-- Stores into a header that leave the links and the size. -/
theorem Inv.edit (h : Inv s l) (hb : b ∈ l) (f : Header → Header)
    (hlinks : ∀ h, (f h).next = h.next ∧ (f h).prev = h.prev)
    (hf : (f (s.block b)).size = (s.block b).size ∧ (f (s.block b)).pad = 0 ∧
      (f (s.block b)).magic = heapMagic) : Inv (s.edit b f) l := by
  obtain ⟨l₁, l₂, rfl⟩ := append_of_mem hb
  have hgood := h.tiled.good b hb
  refine ⟨h.chained.edit hb f hlinks, ?_, h.regions⟩
  refine h.tiled.resize (fun c hc => ?_) (fun c hc => ?_) ?_
  · have hc' : c ∈ l₁ ++ b :: l₂ := ((sublist_cons_self b l₂).append_left l₁).subset hc
    rw [h.chained.block_edit hb hc' (h.chained.ne_of_mem hc)]
  · rw [Before, block_edit_self, hf.1]
    obtain ⟨-, hrest, -⟩ := pairwise_append.mp h.tiled.apart
    exact (pairwise_cons.mp hrest).1 c hc
  · rw [block_edit_self]
    exact ⟨by rw [hf.1]; exact hgood.inside, hgood.aligned, by rw [hf.1]; exact hgood.size16,
      hf.2.1, hf.2.2⟩

/-- The blocks in front of the one that is split, and behind it, leave room for the tail. -/
theorem Inv.split_room (h : Inv s (l₁ ++ b :: l₂)) (hx : x.toNat = b.toNat + used.toNat)
    (hused : 48 ≤ used.toNat) (hroom : used.toNat + 64 ≤ (s.block b).size.toNat) :
    (l₁ ++ b :: x :: l₂).Pairwise fun a b => a.toNat + 48 ≤ b.toNat := by
  obtain ⟨-, -, hacross⟩ := pairwise_append.mp h.chained.sep
  obtain ⟨-, hrest, -⟩ := pairwise_append.mp h.tiled.apart
  rw [append_cons]
  refine pairwise_insert (by rw [← append_cons]; exact h.chained.sep) (fun c hc => ?_) fun c hc =>
    ?_
  · cases mem_append.mp hc with
    | inl hc =>
      have hcb := hacross c hc b mem_cons_self
      omega
    | inr hc =>
      rw [mem_singleton.mp hc]
      omega
  · have hbc := (pairwise_cons.mp hrest).1 c hc
    rw [Before] at hbc
    omega

/-- What the splitting stores into the tail. -/
def tailHeader (size : UInt64) (h : Header) : Header :=
  { h.setFree true with size := size, pad := 0, magic := heapMagic }

/-- The stores into the tail leave the header of the block as it is. -/
theorem split_of_room (hmin : (s.block b).size - used ≥ heapMinFree)
    (hapart : HeadersApart b (b + used)) :
    s.split b used =
      s.linkIn b (b + used) (tailHeader ((s.block b).size - used - heapHeader)) fun h =>
      { h with size := used } := by
  rw [Kheap.split, if_pos hmin]
  simp only [edit_edit, block_edit_of_apart hapart]
  rfl

/-- The blocks after a split. -/
theorem Inv.split_tiled (h : Inv s (l₁ ++ b :: l₂)) (hx : x.toNat = b.toNat + used.toNat)
    (h16 : used.toNat % 16 = 0) (hroom : used.toNat + 64 ≤ (s.block b).size.toNat)
    (hsame : ∀ c ∈ l₁ ++ l₂, (s'.block c).Same (s.block c))
    (hb : (s'.block b).Same { s.block b with size := used })
    (htail : (s'.block x).magic = heapMagic ∧
      (s'.block x).pad = 0 ∧ (s'.block x).size.toNat = (s.block b).size.toNat - used.toNat - 48) :
    Tiled s.regions s'.block (l₁ ++ b :: x :: l₂) := by
  have hgood := h.tiled.good b (by simp)
  have haligned := hgood.aligned
  have hsize16 := hgood.size16
  obtain ⟨-, hrest, hacross⟩ := pairwise_append.mp h.tiled.apart
  have hbehind := (pairwise_cons.mp hrest).1
  obtain ⟨r, hr, hle, hin⟩ := hgood.inside
  have hshort : Tiled s.regions s'.block (l₁ ++ b :: l₂) := by
    refine h.tiled.resize hsame (fun c hc => ?_) ⟨⟨r, hr, hle, ?_⟩, haligned,
      ?_, hb.pad.trans hgood.pad,
      hb.magic.trans hgood.magic⟩
    · have hbc := hbehind c hc
      rw [Before] at hbc
      rw [Before, hb.size]
      dsimp only
      omega
    · rw [hb.size]
      dsimp only
      omega
    · rw [hb.size]
      exact h16
  rw [append_cons] at hshort ⊢
  refine hshort.insert (fun _ _ => .refl) (fun c hc => ?_) (fun c hc => ?_)
    ⟨⟨r, hr, by omega, by omega⟩, by omega, by omega, htail.2.1, htail.1⟩
  · cases mem_append.mp hc with
    | inl hc =>
      have hcb := hacross c hc b mem_cons_self
      rw [Before] at hcb
      rw [Before, (hsame c (mem_append_left _ hc)).size]
      omega
    | inr hc =>
      rw [mem_singleton.mp hc, Before, hb.size]
      exact Nat.le_of_eq hx.symm
  · have hbc := hbehind c hc
    rw [Before] at hbc
    rw [Before, htail.2.2]
    omega

/-- What the splitting of `b` does. -/
structure Splits (s : Kheap) (l : List UInt64) (s' : Kheap) (l' : List UInt64)
    (b used : UInt64) : Prop extends
    Rests s l s' l' where
  free : (s'.block b).blockFree = true
  size : (s'.block b).size.toNat =
    if used.toNat + 64 ≤ (s.block b).size.toNat then used.toNat else (s.block b).size.toNat

/-- **The splitting of a free block.** -/
theorem Inv.split (h : Inv s l) (hb : b ∈ l) (hbf : (s.block b).blockFree = true)
    (hused : 48 ≤ used.toNat) (h16 : used.toNat % 16 = 0)
    (hle : used.toNat ≤ (s.block b).size.toNat) :
    ∃ l', Inv (s.split b used) l' ∧ b ∈ l' ∧ Splits s l (s.split b used) l' b used := by
  obtain ⟨l₁, l₂, rfl⟩ := append_of_mem hb
  have hremaining : ((s.block b).size - used).toNat = (s.block b).size.toNat - used.toNat :=
    UInt64.toNat_sub_of_le _ _ (UInt64.le_iff_toNat_le.mpr hle)
  by_cases hmin : (s.block b).size - used ≥ heapMinFree
  · have hmin' := UInt64.le_iff_toNat_le.mp hmin
    change 64 ≤ _ at hmin'
    have hroom : used.toNat + 64 ≤ (s.block b).size.toNat := by omega
    have hrest : ((s.block b).size - used - heapHeader).toNat =
        (s.block b).size.toNat - used.toNat - 48 := by
      rw [UInt64.toNat_sub_of_le _ _ (UInt64.le_iff_toNat_le.mpr (by change 48 ≤ _; omega)),
        hremaining]
      rfl
    have hfits := h.fits hb
    have htail : (b + used).toNat = b.toNat + used.toNat := by
      rw [UInt64.toNat_add, Nat.mod_eq_of_lt (by omega)]
    have hx : b + used ≠ 0 := fun e => by
      rw [e] at htail
      change 0 = _ at htail
      omega
    rw [split_of_room hmin (by rw [HeadersApart]; omega)]
    obtain ⟨hlinked, hxsame, hbsame, hsame⟩ := h.chained.linkIn (x := b + used)
      (f := tailHeader ((s.block b).size - used - heapHeader))
      (g := fun h => { h with size := used }) hx
      (fun _ => rfl) (h.split_room htail hused hroom)
    have hbfree := hbsame.blockFree.trans hbf
    have htfree := hxsame.blockFree.trans (blockFree_setFree (s.block (b + used)) true)
    refine ⟨l₁ ++ b :: (b + used) :: l₂, ⟨hlinked, ?_, ?_⟩, by simp,
      ⟨?_, ?_, linkIn_rest.2⟩, hbfree, ?_⟩
    · rw [linkIn_rest.1]
      refine h.split_tiled htail h16 hroom hsame hbsame ⟨hxsame.magic, hxsame.pad, ?_⟩
      rw [hxsame.size]
      exact hrest
    · rw [linkIn_rest.1]
      exact h.regions
    · intro c hc hcused
      have hcb : c ≠ b := fun e => by rw [e, hbf] at hcused; cases hcused
      have hc' : c ∈ l₁ ++ l₂ := by
        rw [mem_append, mem_cons] at hc
        exact mem_append.mpr (hc.imp_right fun hc => hc.resolve_left hcb)
      have hs := hsame c hc'
      refine ⟨?_, hs.blockFree.trans hcused, hs.size⟩
      rw [mem_append] at hc' ⊢
      exact hc'.imp_right fun hc => mem_cons_of_mem b (mem_cons_of_mem _ hc)
    · obtain ⟨hl₁, hl₂⟩ := total_sides false hsame
      simp only [total_append, total_cons, hl₁, hl₂, Kheap.share, htfree, hbfree, hbf,
        Bool.true_eq_false, if_false,
        Nat.zero_add]
    · rw [if_pos hroom, hbsame.size]
  · have hsmall : ¬ used.toNat + 64 ≤ (s.block b).size.toNat := fun hroom =>
      hmin (UInt64.le_iff_toNat_le.mpr (by change 64 ≤ _; omega))
    rw [show s.split b used = s from if_neg hmin]
    exact ⟨l₁ ++ b :: l₂, h, hb, .refl, hbf, by rw [if_neg hsmall]⟩

/-- What the search looks for. -/
theorem Inv.fits_spec (h : Inv s l) (hb : b ∈ l) (hal : alignment ∈ [1, 2, 4, 8, 16])
    (hsize : size.toNat + 48 < 2 ^ 64) :
    alignUp (b + heapHeader) alignment = b + heapHeader ∧
    (b + heapHeader).toNat = (b.toNat + 48) % 2 ^ 64 ∧
      (heapHeader + size).toNat = 48 + size.toNat ∧ (s.fits size alignment b = true ↔
        (s.block b).blockFree = true ∧ 48 + size.toNat ≤ (s.block b).size.toNat) := by
  have haligned := (h.tiled.good b hb).aligned
  have hpayload : (b + heapHeader).toNat = (b.toNat + 48) % 2 ^ 64 := UInt64.toNat_add ..
  have halign : alignUp (b + heapHeader) alignment = b + heapHeader := alignUp_eq hal (by omega)
  have hused : (heapHeader + size).toNat = 48 + size.toNat := by
    rw [UInt64.toNat_add, Nat.mod_eq_of_lt (by change 48 + size.toNat < _; omega)]
    rfl
  refine ⟨halign, hpayload, hused, ?_⟩
  simp only [Kheap.fits, halign, UInt64.sub_self, UInt64.add_zero,
    Bool.and_eq_true, Bool.not_eq_true',
    decide_eq_false_iff_not, UInt64.not_lt, UInt64.le_iff_toNat_le, hused]

/-- Stores into the memory behind the header of a block leave all headers as they are. -/
theorem Inv.block_blit {k : Nat} {data : Nat → UInt8} (h : Inv s l) (hb : b ∈ l)
    (hk : 48 + k ≤ (s.block b).size.toNat) (hc : c ∈ l) :
    header (blit s.mem (b.toNat + 48) k data) c = s.block c := by
  rw [block_eq]
  refine header_blit ?_
  by_cases hcb : c = b
  · exact .inl (by rw [hcb])
  obtain ⟨l₁, l₂, rfl⟩ := append_of_mem hb
  obtain ⟨-, -, hsep⟩ := pairwise_append.mp h.chained.sep
  obtain ⟨-, hrest, -⟩ := pairwise_append.mp h.tiled.apart
  rw [mem_append, mem_cons] at hc
  rcases hc with hc | hc | hc
  · have hcb := hsep c hc b mem_cons_self
    exact .inl (by omega)
  · exact absurd hc hcb
  · have hbc := (pairwise_cons.mp hrest).1 c hc
    rw [Before] at hbc
    exact .inr (by omega)

/-- **The block that was found is handed out**, filled with zeros. -/
theorem Inv.take (h : Inv s l) (hb : b ∈ l) (hal : alignment ∈ [1, 2, 4, 8, 16])
    (h16 : size.toNat % 16 = 0) (hsize : size.toNat + 48 < 2 ^ 64)
    (hfits : s.fits size alignment b = true) :
    ∃ l', Inv (s.take size alignment b).2 l' ∧ Keeps s l (s.take size alignment b).2 l' ∧
      (s.take size alignment b).1.toNat = b.toNat + 48 ∧ b ∈ l' ∧
      ((s.take size alignment b).2.block b).blockFree = false ∧
      48 + size.toNat ≤ ((s.take size alignment b).2.block b).size.toNat ∧
      (∀ k, k < size.toNat → (s.take size alignment b).2.mem (b.toNat + 48 + k) = 0) ∧
      Splits s l (s.split b (heapHeader + size)) l' b (heapHeader + size) ∧
      ((s.take size alignment b).2.block b).size = ((s.split b (heapHeader + size)).block b).size ∧
      (∀ c ∈ l', c ≠ b →
        (s.take size alignment b).2.block c = (s.split b (heapHeader + size)).block c) ∧
      (s.take size alignment b).2.allocatedBytes = s.allocatedBytes + (heapHeader + size) := by
  obtain ⟨halign, hpayload, hused, hspec⟩ := h.fits_spec hb hal hsize
  obtain ⟨hfree, hle⟩ := hspec.mp hfits
  have hroom := h.fits hb
  rw [Nat.mod_eq_of_lt (by omega)] at hpayload
  simp only [Kheap.take, halign, UInt64.sub_self, UInt64.add_zero]
  obtain ⟨l', hinv, hb', hsplits⟩ :=
    h.split hb hfree (by omega : 48 ≤ (heapHeader + size).toNat) (by omega)
    (by omega)
  generalize s.split b (heapHeader + size) = s₁ at hinv hsplits ⊢
  have hgood := hinv.tiled.good b hb'
  have hinv₂ := hinv.edit hb' (fun h => { h.setFree false with pad := 0 }) (fun _ => ⟨rfl, rfl⟩)
    ⟨rfl, rfl, hgood.magic⟩
  have hself : (s₁.edit b fun h => { h.setFree false with pad := 0 }).block b =
      { (s₁.block b).setFree false with pad := 0 } := block_edit_self
  have hcounter : (s₁.edit b fun h => { h.setFree false with pad := 0 }).allocatedBytes =
    s.allocatedBytes :=
    hsplits.counter
  have hother : ∀ c ∈ l', c ≠ b →
      (s₁.edit b fun h => { h.setFree false with pad := 0 }).block c = s₁.block c :=
    fun c hc hne => hinv.chained.block_edit hb' hc hne _
  generalize (s₁.edit b fun h => { h.setFree false with pad := 0 }) =
    s₂ at hinv₂ hself hcounter hother ⊢
  have hroom : 48 + size.toNat ≤ (s₂.block b).size.toNat := by
    rw [hself]
    change _ ≤ (s₁.block b).size.toNat
    rw [hsplits.size]
    split_ifs <;> omega
  have hblocks : ∀ c ∈ l', ({ s₂ with
      allocatedBytes := s₂.allocatedBytes + (heapHeader + size)
      mem := blit s₂.mem (b + heapHeader).toNat size.toNat fun _ => 0 } : Kheap).block c =
        s₂.block c := by
    intro c hc
    rw [block_eq, hpayload]
    exact hinv₂.block_blit hb' hroom hc
  refine ⟨l', hinv₂.congr hblocks rfl rfl, fun c hc hcused => ?_, hpayload, hb', ?_, ?_,
    fun k hk => ?_, hsplits, ?_,
    fun c hc hne => ?_, by rw [hcounter]⟩
  · have hcb : c ≠ b := fun e => by rw [e, hfree] at hcused; cases hcused
    obtain ⟨hc', hcused', hcsize⟩ := hsplits.keeps c hc hcused
    rw [hblocks c hc', hother c hc' hcb]
    exact ⟨hc', hcused', hcsize⟩
  · rw [hblocks b hb', hself]
    exact blockFree_setFree _ false
  · rw [hblocks b hb']
    exact hroom
  · rw [hpayload]
    exact blit_of_in hk
  · rw [hblocks b hb', hself]
    rfl
  · rw [hblocks c hc, hother c hc hne]

/-! ## 2. The calls -/

/-- **Memory handed out**: `n` bytes of zeros at `p`, in a block that was not in use in `s`. -/
structure Handed (s : Kheap) (l : List UInt64) (s' : Kheap) (l' : List UInt64)
    (p : UInt64) (n : Nat) : Prop where
  block : ∃ b ∈ l', p.toNat = b.toNat + 48 ∧ (s'.block b).blockFree = false ∧
    48 + n ≤ (s'.block b).size.toNat ∧ (b ∈ l → (s.block b).blockFree = true)
  zero : ∀ k, k < n → s'.mem (p.toNat + k) = 0

theorem Handed.of_keeps {s₁ : Kheap} {n : Nat} (h : Handed s₁ l₁ s' l' p n)
    (hkeeps : Keeps s l s₁ l₁) :
    Handed s l s' l' p n := by
  obtain ⟨b, hb, hp, hused, hn, hold⟩ := h.block
  refine ⟨⟨b, hb, hp, hused, hn, fun hbl => ?_⟩, h.zero⟩
  cases hfree : (s.block b).blockFree with
  | true => rfl
  | false =>
    obtain ⟨hb₁, hused₁, -⟩ := hkeeps b hbl hfree
    exact hused₁.symm.trans (hold hb₁)

/-- The attempts find no block, or one that fits. -/
theorem Inv.attempts (pmm : Supply) (n : Nat) (h : Inv s l) (hfuel : l.length + n ≤ fuel)
    (size alignment : UInt64) :
    ∃ s₁ l₁, Inv s₁ l₁ ∧ Rests s l s₁ l₁ ∧
      (Kheap.attempts pmm fuel size alignment n s = some (s₁, none) ∨
      ∃ b ∈ l₁, s₁.fits size alignment b = true ∧
        Kheap.attempts pmm fuel size alignment n s = some (s₁, some b)) := by
  induction n generalizing s l with
  | zero => exact ⟨s, l, h, .refl, .inl rfl⟩
  | succ n ih =>
    rw [Kheap.attempts]
    have hscan :=
      (h.chained.links.linked.scan (P := s.fits size alignment) (n := fuel)).resolve_left
      fun hnone => by omega
    rw [hscan]
    cases hfind : l.find? (s.fits size alignment) with
    | some b =>
      exact ⟨s, l, h, .refl, .inr ⟨b, List.mem_of_find?_eq_some hfind, List.find?_some hfind, rfl⟩⟩
    | none =>
      have hle : l.length ≤ fuel := by omega
      obtain ⟨ok, s₁, l₁, hrun, hinv, hlength, hrests⟩ := h.growHeap pmm hle
      simp only [Option.bind_eq_bind, Option.bind_some, hrun]
      cases ok with
      | false => exact ⟨s₁, l₁, hinv, hrests, .inl rfl⟩
      | true =>
        obtain ⟨s₂, l₂, hinv₂, hrests₂, hcases⟩ := ih hinv (by omega)
        exact ⟨s₂, l₂, hinv₂, hrests.trans hrests₂, hcases⟩

/-- What the callers ask for. -/
def Asked (size alignment : UInt64) : Prop :=
  1 ≤ size.toNat ∧ size.toNat ≤ 2 ^ 20 ∧ (alignment = 0 ∨ alignment = 1 ∨ alignment = 16)

/-- Requests that need no padding and do not wrap. -/
def Plain (size alignment : UInt64) : Prop :=
  1 ≤ size.toNat ∧ size.toNat + 64 ≤ 2 ^ 64 ∧ alignment ∈ [0, 1, 2, 4, 8, 16]

theorem Asked.plain (h : Asked size alignment) : Plain size alignment := by
  obtain ⟨hpos, hmax, hal⟩ := h
  refine ⟨hpos, by omega, ?_⟩
  rcases hal with rfl | rfl | rfl <;> decide

theorem rounded_toNat (h : size.toNat + 64 ≤ 2 ^ 64) :
    ((size + 15) &&& ~~~15).toNat = (size.toNat + 15) / 16 * 16 := by
  rw [and_not_mask _ (k := 4) (by decide) (by decide), UInt64.toNat_add,
    Nat.mod_eq_of_lt (by change size.toNat + 15 < _; omega)]
  rfl

/-- **`kheap_alloc`** returns a null pointer or memory. -/
theorem Inv.kheapAlloc (pmm : Supply) (h : Inv s l) (hfuel : l.length + 2 ≤ fuel)
    (hask : Plain size alignment) :
    ∃ p s' l', s.kheapAlloc pmm fuel size alignment = some (p, s') ∧ Inv s' l' ∧ Keeps s l s' l' ∧
      (p = 0 ∨ Handed s l s' l' p size.toNat) := by
  obtain ⟨hpos, hmax, hal⟩ := hask
  have hne : size ≠ 0 := fun e => by rw [e] at hpos; exact absurd hpos (by decide)
  have hround := rounded_toNat hmax
  have hplain : ∀ a ∈ ([0, 1, 2, 4, 8, 16] : List UInt64),
      (if a = 0 then 16 else a) ∈ [1, 2, 4, 8, 16] :=
    forall_iff_forall_mem.mp (by decide)
  have hal' := hplain _ hal
  rw [Kheap.kheapAlloc, if_neg hne]
  generalize (if alignment = 0 then 16 else alignment) = al at hal'
  generalize (size + 15) &&& ~~~15 = size' at hround
  dsimp only
  obtain ⟨s₁, l₁, hinv₁, hrests, hrun | ⟨b, hb, hfits, hrun⟩⟩ := h.attempts pmm 2 hfuel size' al
  · exact ⟨0, s₁, l₁, by rw [hrun]; rfl, hinv₁, hrests.keeps, .inl rfl⟩
  obtain ⟨l', hinv, hkeeps, hp, hb', hused, hroom, hzero, -⟩ :=
    hinv₁.take hb hal' (by omega) (by omega) hfits
  obtain ⟨-, -, -, hspec⟩ := hinv₁.fits_spec hb hal' (by omega : size'.toNat + 48 < 2 ^ 64)
  have hhanded : Handed s₁ l₁ _ l' _ size.toNat :=
    ⟨⟨b, hb', hp, hused, by omega, fun _ => (hspec.mp hfits).1⟩, fun k hk =>
      hp ▸ hzero k (by omega)⟩
  exact ⟨_, _, l', by rw [hrun]; rfl, hinv, hrests.keeps.trans hkeeps,
    .inr (hhanded.of_keeps hrests.keeps)⟩

/-- The counter after `kheap_free` of a block. -/
def Kheap.discount (s : Kheap) (b : UInt64) : Kheap :=
  let size := (s.block b).size
  { s with allocatedBytes :=
    if s.allocatedBytes ≥ size then s.allocatedBytes - size else s.allocatedBytes }

/-- The block that `kheap_free` marks free, if it finds one. -/
def Kheap.freed (s : Kheap) (p : UInt64) : Option UInt64 :=
  let b := p - heapHeader - (s.block (p - heapHeader)).pad
  if (s.block b).magic ≠ heapMagic then none else some b

/-- It is the one of the memory that was handed out. -/
theorem Inv.freed (h : Inv s l) (hb : b ∈ l) (hp : p.toNat = b.toNat + 48) :
    s.freed p = some b ∧
    ∀ fuel, s.kheapFree fuel p = ((s.discount b).edit b (·.setFree true)).coalesce fuel b := by
  have hgood := h.tiled.good b hb
  have hne : p ≠ 0 := fun e => by
    rw [e] at hp
    change 0 = _ at hp
    omega
  have hblock : p - heapHeader = b := by
    refine UInt64.toNat_inj.mp ?_
    rw [UInt64.toNat_sub_of_le _ _ (UInt64.le_iff_toNat_le.mpr (by change 48 ≤ _; omega)), hp]
    exact Nat.add_sub_cancel ..
  simp only [Kheap.freed, Kheap.kheapFree, if_neg hne, hblock, hgood.pad, UInt64.sub_zero]
  rw [if_neg (not_not.mpr hgood.magic)]
  refine ⟨rfl, fun fuel => ?_⟩
  rw [if_neg (not_not.mpr hgood.magic)]
  rfl

theorem discount_block : (s.discount b).block c = s.block c := block_congr rfl

theorem block_freed_self :
    ((s.discount b).edit b (·.setFree true)).block b = (s.block b).setFree true := by
  rw [block_edit_self, discount_block]

theorem Inv.block_freed (h : Inv s l) (hb : b ∈ l) (hc : c ∈ l) (hne : c ≠ b) :
    ((s.discount b).edit b (·.setFree true)).block c = s.block c := by
  rw [block_edit_of_apart (h.chained.apart hc hb hne), discount_block]

/-- **`kheap_free`** of memory that was handed out. -/
theorem Inv.kheapFree (h : Inv s l) (hfuel : l.length ≤ fuel) (hb : b ∈ l)
    (hp : p.toNat = b.toNat + 48) :
    ∃ s' l', s.kheapFree fuel p = some s' ∧ Inv s' l' ∧
      Merges ((s.discount b).edit b (·.setFree true)) l s' l' ∧
      ∀ c ∈ l, c ≠ b → (s.block c).blockFree = false →
        c ∈ l' ∧ (s'.block c).blockFree = false ∧ (s'.block c).size = (s.block c).size := by
  have hgood := h.tiled.good b hb
  rw [(h.freed hb hp).2]
  have hinv : Inv (s.discount b) l := h.congr (fun _ _ => discount_block) rfl rfl
  have hinv₂ := hinv.edit hb (·.setFree true) (fun _ => ⟨rfl, rfl⟩)
    ⟨rfl, by rw [discount_block]; exact hgood.pad, by rw [discount_block]; exact hgood.magic⟩
  have hfree : (((s.discount b).edit b (·.setFree true)).block b).blockFree = true := by
    rw [block_freed_self]
    exact blockFree_setFree _ true
  obtain ⟨s', l', hrun, hinv', hmerges⟩ := hinv₂.coalesce hb hfree hfuel
  refine ⟨s', l', hrun, hinv', hmerges, fun c hc hcb hused => ?_⟩
  rw [← h.block_freed hb hc hcb] at hused ⊢
  exact hmerges.keeps c hc hused

/-! ## 3. Runs -/

/-- A pointer that was handed out and not given back, and the size that was asked for. -/
abbrev Live : Type := UInt64 × Nat

/-- The heap and the memory that is in use. -/
structure HeapRun where
  heap : Kheap
  live : List Live

/-- A call of the heap, or a change of the memory by others. -/
inductive HeapOp where
  | alloc (pmm : Supply) (fuel : Nat) (size alignment : UInt64)
  | free (fuel : Nat) (p : UInt64)
  | write (mem : Nat → UInt8)

namespace HeapRun

def step (r : HeapRun) : HeapOp → Option HeapRun
  | .alloc pmm fuel size alignment =>
    (r.heap.kheapAlloc pmm fuel size alignment).map fun (p, heap) =>
      ⟨heap, if p = 0 then r.live else (p, size.toNat) :: r.live⟩
  | .free fuel p => (r.heap.kheapFree fuel p).map fun heap => ⟨heap, r.live.filter (·.1 ≠ p)⟩
  | .write mem => some { r with heap := { r.heap with mem := mem } }

/-- **What the users of the heap do**: they ask as they do, give back what is in use, and write only
    to what is in use, or to memory that is not the heap's. -/
def Allowed (r : HeapRun) : HeapOp → Prop
  | .alloc _ _ size alignment => Asked size alignment
  | .free _ p => ∃ n, (p, n) ∈ r.live
  | .write mem => ∀ k, (∃ reg ∈ r.heap.regions, reg.1.toNat ≤ k ∧ k < reg.1.toNat + reg.2) →
      (∀ e ∈ r.live, k < e.1.toNat ∨ e.1.toNat + e.2 ≤ k) → mem k = r.heap.mem k

end HeapRun

/-- **The heap is sound**: its list in both directions and in order, its blocks, and the memory that
    is in use. -/
structure SoundFor (r : HeapRun) (l : List UInt64) : Prop where
  sorted : l.Pairwise fun a b => a.toNat < b.toNat
  links : DList r.heap.next r.heap.prev none l
  blocks : l.Pairwise (Before r.heap.block)
  inside : ∀ b ∈ l, ∃ reg ∈ r.heap.regions,
    reg.1.toNat ≤ b.toNat ∧ b.toNat + (r.heap.block b).size.toNat ≤ reg.1.toNat + reg.2
  payload : ∀ e ∈ r.live, ∃ b ∈ l, (r.heap.block b).blockFree = false ∧ e.1.toNat = b.toNat + 48 ∧
    e.1.toNat + e.2 ≤ b.toNat + (r.heap.block b).size.toNat
  apart : r.live.Pairwise fun e e' => e.1.toNat + e.2 ≤ e'.1.toNat ∨ e'.1.toNat + e'.2 ≤ e.1.toNat

def Sound (r : HeapRun) : Prop := ∃ l, SoundFor r l

/-- **Every call returns**, and memory that is handed out is zero. -/
structure Answers (r : HeapRun) : Prop where
  alloc : ∀ size alignment, Asked size alignment → ∃ bound, ∀ pmm fuel, bound ≤ fuel → ∃ r',
    r.step (.alloc pmm fuel size alignment) = some r' ∧
      (r'.live = r.live ∨ ∃ p, r'.live = (p, size.toNat) :: r.live ∧
        ∀ k, k < size.toNat → r'.heap.mem (p.toNat + k) = 0)
  free : ∀ e ∈ r.live, ∃ bound, ∀ fuel, bound ≤ fuel → (r.step (.free fuel e.1)).isSome = true

/-- The memory in use lies in blocks in use, each in its own. -/
structure Held (s : Kheap) (l : List UInt64) (live : List Live) : Prop where
  block : ∀ e ∈ live, ∃ b ∈ l, (s.block b).blockFree = false ∧ e.1.toNat = b.toNat + 48 ∧
    48 + e.2 ≤ (s.block b).size.toNat
  distinct : live.Pairwise fun e e' => e.1 ≠ e'.1

/-- **The counter is right**: it is the sum of the sizes of the blocks in use. -/
def Kheap.Counted (s : Kheap) : Prop :=
  ∃ l, DList s.next s.prev none l ∧ s.allocatedBytes.toNat = s.total false l

/-- The invariant of a run. -/
def RunInv (r : HeapRun) : Prop := ∃ l, Inv r.heap l ∧ Held r.heap l r.live

theorem Held.keeps {live : List Live} (h : Held s l live) (hkeeps : Keeps s l s' l') :
    Held s' l' live := by
  refine ⟨fun e he => ?_, h.distinct⟩
  obtain ⟨b, hb, hused, hp, hn⟩ := h.block e he
  obtain ⟨hb', hused', hsize⟩ := hkeeps b hb hused
  exact ⟨b, hb', hused', hp, by rw [hsize]; exact hn⟩

/-- Two blocks, one in front of the other. -/
theorem Inv.before_or (h : Inv s l) (ha : a ∈ l) (hb : b ∈ l) (hne : a ≠ b) :
    a.toNat + (s.block a).size.toNat ≤ b.toNat ∨ b.toNat + (s.block b).size.toNat ≤ a.toNat := by
  have hor : l.Pairwise fun a b => a.toNat + (s.block a).size.toNat ≤ b.toNat ∨
      b.toNat + (s.block b).size.toNat ≤ a.toNat := h.tiled.apart.imp .inl
  have hsymm : Std.Symm fun a b : UInt64 => a.toNat + (s.block a).size.toNat ≤ b.toNat ∨
      b.toNat + (s.block b).size.toNat ≤ a.toNat := ⟨fun _ _ h => h.symm⟩
  exact hor.forall ha hb hne

theorem RunInv.sound {r : HeapRun} (h : RunInv r) : Sound r := by
  obtain ⟨l, hinv, hheld⟩ := h
  refine ⟨l, ⟨?_, hinv.chained.links, hinv.tiled.apart, fun b hb => ?_, fun e he => ?_, ?_⟩⟩
  · exact hinv.chained.sep.imp fun {a b} hab => by omega
  · obtain ⟨reg, hreg, hle, hin⟩ := (hinv.tiled.good b hb).inside
    exact ⟨reg, hreg, hle, by omega⟩
  · obtain ⟨b, hb, hused, hp, hn⟩ := hheld.block e he
    exact ⟨b, hb, hused, hp, by omega⟩
  refine hheld.distinct.imp_of_mem fun {e e'} he he' hne => ?_
  obtain ⟨b, hb, -, hp, hn⟩ := hheld.block e he
  obtain ⟨b', hb', -, hp', hn'⟩ := hheld.block e' he'
  have hbb : b ≠ b' := fun heq => hne (UInt64.toNat_inj.mp (by rw [hp, hp', heq]))
  have hor := hinv.before_or hb hb' hbb
  omega

theorem RunInv.answers {r : HeapRun} (h : RunInv r) : Answers r := by
  obtain ⟨l, hinv, hheld⟩ := h
  refine ⟨fun size alignment hask => ⟨l.length + 2, fun pmm fuel hfuel => ?_⟩, fun e he =>
    ⟨l.length, fun fuel hfuel => ?_⟩⟩
  · obtain ⟨p, s', l', hrun, -, -, hp⟩ := hinv.kheapAlloc pmm hfuel hask.plain
    refine ⟨⟨s', if p = 0 then r.live else (p, size.toNat) :: r.live⟩,
      by rw [HeapRun.step, hrun]; rfl, ?_⟩
    by_cases hp0 : p = 0
    · exact .inl (if_pos hp0)
    · exact .inr ⟨p, if_neg hp0, (hp.resolve_left hp0).zero⟩
  · obtain ⟨b, hb, -, hp, -⟩ := hheld.block e he
    obtain ⟨s', l', hrun, -, -⟩ := hinv.kheapFree hfuel hb hp
    rw [HeapRun.step, hrun]
    rfl

/-! ## 4. The bounds on the rounds -/

theorem coalesceNext_stable (b : UInt64) (s : Kheap) : Stable fun n => s.coalesceNext b n := by
  intro n n' r hle hrun
  induction n generalizing n' s with
  | zero => cases hrun
  | succ n ih =>
    obtain ⟨k, rfl⟩ := Nat.exists_eq_add_of_lt hle
    simp only [Kheap.coalesceNext] at hrun ⊢
    split_ifs at hrun ⊢ with hcond
    · exact ih _ _ (Nat.le_add_right n k) hrun
    · exact hrun

theorem insertFreeBlock_stable (s : Kheap) (b : UInt64) : Stable fun n => s.insertFreeBlock n b :=
  .ite _ (.const _) (.bind (advance_stable _ _ _) fun _ => .const _)

theorem growHeap_stable (s : Kheap) (pmm : Supply) : Stable fun n => s.growHeap pmm n := by
  simp only [Kheap.growHeap]
  split
  · exact .const _
  · exact (Stable.ite _ (.const _) (insertFreeBlock_stable _ _)).bind fun _ => .const _

theorem attempts_stable (pmm : Supply) (size alignment : UInt64) (n : Nat) (s : Kheap) :
    Stable fun fuel => Kheap.attempts pmm fuel size alignment n s := by
  induction n generalizing s with
  | zero => exact .const _
  | succ n ih =>
    simp only [Kheap.attempts]
    refine Stable.bind (scan_stable _ _ _) fun found => ?_
    cases found with
    | some b => exact .const _
    | none => exact (growHeap_stable s pmm).bind fun r => .ite _ (ih r.2) (.const _)

theorem kheapAlloc_stable (s : Kheap) (pmm : Supply) (size alignment : UInt64) :
    Stable fun n => s.kheapAlloc pmm n size alignment :=
  .ite _ (.const _) (.map _ (attempts_stable _ _ _ _ _))

theorem kheapFree_stable (s : Kheap) (p : UInt64) : Stable fun n => s.kheapFree n p :=
  .ite _ (.const _) (.ite _ (.const _) (.map _ (coalesceNext_stable _ _)))

/-! ## 5. Every run -/

/-- Writes of the owners, and outside of the heap, leave the headers as they are. -/
theorem Inv.write {r : HeapRun} {mem : Nat → UInt8} (hinv : Inv r.heap l)
    (hheld : Held r.heap l r.live)
    (hok : r.Allowed (.write mem)) :
    Inv { r.heap with mem := mem } l ∧ Rests r.heap l { r.heap with mem := mem } l := by
  have hblocks : ∀ c ∈ l, ({ r.heap with mem := mem } : Kheap).block c = r.heap.block c := by
    intro c hc
    rw [block_eq, block_eq]
    refine header_congr fun k hk => hok _ ?_ fun e he => ?_
    · obtain ⟨reg, hreg, hle, hin⟩ := (hinv.tiled.good c hc).inside
      exact ⟨reg, hreg, by omega, by omega⟩
    obtain ⟨b, hb, -, hp, hn⟩ := hheld.block e he
    by_cases hcb : c = b
    · rw [hcb]
      exact .inl (by omega)
    · have hapart := hinv.chained.apart hc hb hcb
      have hor := hinv.before_or hc hb hcb
      rw [HeadersApart] at hapart
      omega
  exact ⟨hinv.congr hblocks rfl rfl, .congr hblocks rfl⟩

theorem RunInv.alloc {r : HeapRun} {pmm : Supply} {heap : Kheap} (h : RunInv r)
    (hask : Plain size alignment)
    (hrun : r.heap.kheapAlloc pmm fuel size alignment = some (p, heap)) :
    RunInv ⟨heap, if p = 0 then r.live else (p, size.toNat) :: r.live⟩ := by
  obtain ⟨l, hinv, hheld⟩ := h
  obtain ⟨p', s', l', hrun', hinv', hkeeps, hp⟩ := hinv.kheapAlloc pmm (Nat.le_refl _) hask
  cases (kheapAlloc_stable _ _ _ _).eq hrun hrun'
  refine ⟨l', hinv', ?_⟩
  have hkept := hheld.keeps hkeeps
  split_ifs with hp0
  · exact hkept
  obtain ⟨b, hb, hpb, hused, hn, hold⟩ := (hp.resolve_left hp0).block
  refine ⟨fun e he => ?_, pairwise_cons.mpr ⟨fun e he => ?_, hkept.distinct⟩⟩
  · cases mem_cons.mp he with
    | inl heq => rw [heq]; exact ⟨b, hb, hused, hpb, hn⟩
    | inr he => exact hkept.block e he
  -- the block of another pointer was in use before
  obtain ⟨b', hb', hused', hp', -⟩ := hheld.block e he
  intro heq
  have hbb : b = b' := UInt64.toNat_inj.mp (by
    have hpe : p.toNat = e.1.toNat := congrArg UInt64.toNat heq
    omega)
  rw [← hbb] at hb' hused'
  rw [hold hb'] at hused'
  cases hused'

theorem RunInv.free {r : HeapRun} {heap : Kheap} {n : Nat} (h : RunInv r) (hlive : (p, n) ∈ r.live)
    (hrun : r.heap.kheapFree fuel p = some heap) : RunInv ⟨heap, r.live.filter (·.1 ≠ p)⟩ := by
  obtain ⟨l, hinv, hheld⟩ := h
  obtain ⟨b, hb, -, hp, -⟩ := hheld.block (p, n) hlive
  obtain ⟨s', l', hrun', hinv', -, hkeeps⟩ := hinv.kheapFree (Nat.le_refl _) hb hp
  cases (kheapFree_stable _ _).eq hrun hrun'
  refine ⟨l', hinv', fun e he => ?_, hheld.distinct.sublist filter_sublist⟩
  rw [mem_filter, decide_eq_true_eq] at he
  obtain ⟨b', hb', hused', hp', hn'⟩ := hheld.block e he.1
  have hbb : b' ≠ b := fun heq => he.2 (UInt64.toNat_inj.mp (by
    rw [hp', heq]
    exact hp.symm))
  obtain ⟨hmem, hused, hsize⟩ := hkeeps b' hb' hbb hused'
  exact ⟨b', hmem, hused, hp', by rw [hsize]; exact hn'⟩

/-- What the users do, when they may ask for any memory without padding. -/
def HeapRun.Careful (r : HeapRun) : HeapOp → Prop
  | .alloc _ _ size alignment => Plain size alignment
  | op => r.Allowed op

theorem HeapRun.Allowed.careful {r : HeapRun} {op : HeapOp} (h : r.Allowed op) : r.Careful op := by
  cases op with
  | alloc pmm fuel size alignment => exact Asked.plain h
  | free fuel p => exact h
  | write mem => exact h

/-- **One event keeps the invariant.** -/
theorem runInv_step {r r' : HeapRun} {op : HeapOp} (h : RunInv r) (hok : r.Careful op)
    (hs : r.step op = some r') : RunInv r' := by
  cases op with
  | alloc pmm fuel size alignment =>
    obtain ⟨⟨p, heap⟩, hrun, rfl⟩ := Option.map_eq_some_iff.mp hs
    exact h.alloc hok hrun
  | free fuel p =>
    obtain ⟨heap, hrun, rfl⟩ := Option.map_eq_some_iff.mp hs
    obtain ⟨n, hlive⟩ := hok
    exact h.free hlive hrun
  | write mem =>
    cases hs
    obtain ⟨l, hinv, hheld⟩ := h
    obtain ⟨hinv', hrests⟩ := hinv.write hheld hok
    exact ⟨l, hinv', hheld.keeps hrests.keeps⟩

theorem runInv_init (pmm : Supply) (fuel : Nat) (mem : Nat → UInt8) :
    ∃ heap, kheapInit pmm (fuel + 1) mem = some heap ∧ RunInv ⟨heap, []⟩ ∧ heap.Counted := by
  have hempty : Inv ⟨mem, 0, 0, []⟩ [] :=
    ⟨⟨rfl, .nil, fun _ hb => absurd hb not_mem_nil⟩, ⟨.nil, fun _ hb => absurd hb not_mem_nil⟩,
      ⟨.nil, fun _ hr => absurd hr not_mem_nil, fun _ hr => absurd hr not_mem_nil⟩⟩
  have hfuel : ([] : List UInt64).length ≤ fuel + 1 := Nat.zero_le _
  obtain ⟨ok, heap, l, hrun, hinv, -, hrests⟩ := hempty.growHeap pmm hfuel
  refine ⟨heap, by rw [kheapInit, hrun]; rfl, ⟨l, hinv, fun _ he => absurd he not_mem_nil, .nil⟩, l,
    hinv.chained.links, ?_⟩
  rw [hrests.counter, hrests.inUse]
  rfl

/-- **After `kheap_init` and any sequence of calls the heap is sound, and every call returns.** -/
theorem kheap_sound (pmm : Supply) (fuel : Nat) (mem : Nat → UInt8) :
    ∃ heap, kheapInit pmm (fuel + 1) mem = some heap ∧
      ∀ r, Reaches HeapRun.step HeapRun.Allowed ⟨heap, []⟩ r → Sound r ∧ Answers r := by
  obtain ⟨heap, hinit, hstart, -⟩ := runInv_init pmm fuel mem
  refine ⟨heap, hinit, fun r hr => ?_⟩
  have hrinv := hr.inv hstart fun _ _ _ hi hok hs => runInv_step hi hok.careful hs
  exact ⟨hrinv.sound, hrinv.answers⟩

/-! ## 6. Where memory is handed out -/

/-- **Memory in its place**: aligned, inside of a block in use, and it is this block that
    `kheap_free` marks free. -/
structure Placed (s : Kheap) (p size alignment : UInt64) : Prop where
  aligned : p.toNat % alignment.toNat = 0
  block : ∃ l, DList s.next s.prev none l ∧ ∃ b ∈ l, (s.block b).blockFree = false ∧
    b.toNat + 48 ≤ p.toNat ∧
    p.toNat + size.toNat ≤ b.toNat + (s.block b).size.toNat ∧ s.freed p = some b ∧
    ∀ fuel, s.kheapFree fuel p = ((s.discount b).edit b (·.setFree true)).coalesce fuel b

/-- **In every run of careful users, memory is handed out in its place.** -/
theorem alloc_placed (pmm : Supply) (fuel : Nat) (mem : Nat → UInt8) :
    ∃ heap, kheapInit pmm (fuel + 1) mem = some heap ∧
      ∀ r, Reaches HeapRun.step HeapRun.Careful ⟨heap, []⟩ r →
      ∀ size alignment, alignment ≠ 0 → Plain size alignment → ∀ pmm fuel p s,
        r.heap.kheapAlloc pmm fuel size alignment = some (p, s) → p ≠ 0 →
        Placed s p size alignment := by
  obtain ⟨heap, hinit, hstart, -⟩ := runInv_init pmm fuel mem
  refine ⟨heap, hinit, fun r hr size alignment hne hask pmm fuel p s hrun hp => ?_⟩
  obtain ⟨l, hinv, -⟩ := hr.inv hstart fun _ _ _ hi hok hs => runInv_step hi hok hs
  obtain ⟨p', s', l', hrun', hinv', -, hhanded⟩ := hinv.kheapAlloc pmm (Nat.le_refl _) hask
  cases (kheapAlloc_stable _ _ _ _).eq hrun hrun'
  obtain ⟨b, hb, hpb, hused, hn, -⟩ := (hhanded.resolve_left hp).block
  refine ⟨?_, l', hinv'.chained.links, b, hb, hused, by omega, by omega, hinv'.freed hb hpb⟩
  have hdvd : ∀ a ∈ ([0, 1, 2, 4, 8, 16] : List UInt64), a ≠ 0 → a.toNat ∣ 16 :=
    forall_iff_forall_mem.mp (by decide)
  have hal := (hinv'.tiled.good b hb).aligned
  exact Nat.mod_eq_zero_of_dvd
    ((hdvd alignment hask.2.2 hne).trans (Nat.dvd_of_mod_eq_zero (by omega)))

/-- One region of 64 KiB. -/
def oneRegion : Supply where
  answer regions len := if regions = [] ∧ len = 65536 then 4096 else 0
  unused regions len h := by
    split_ifs at h with hlen
    · rw [if_pos hlen, hlen.1, hlen.2]
      exact ⟨by decide, by decide, by decide, fun _ hr => absurd hr not_mem_nil⟩
    · exact absurd rfl h

/-- **`kheap_alloc(16, 4096)`** puts the header further away than `kheap_free` looks for it. -/
theorem aligned_not_freed :
    ¬ ∀ (pmm : Supply) (fuel : Nat) (mem : Nat → UInt8) (heap : Kheap) (r : HeapRun),
    kheapInit pmm fuel mem = some heap → Reaches HeapRun.step HeapRun.Allowed ⟨heap, []⟩ r →
    ∀ size alignment : UInt64, size ≠ 0 → (∃ k, alignment.toNat = 2 ^ k) → ∀ pmm fuel p s,
      r.heap.kheapAlloc pmm fuel size alignment = some (p, s) → p ≠ 0 →
      Placed s p size alignment := by
  intro hall
  have hrun :
      ((kheapInit oneRegion 1 fun _ => 0).bind fun heap => (heap.kheapAlloc oneRegion 2 16 4096).map
      fun q => (q.1, q.2.freed q.1)) = some (8192, none) := by decide +kernel
  obtain ⟨heap, hinit, hrun⟩ := Option.bind_eq_some_iff.mp hrun
  obtain ⟨⟨p, s⟩, halloc, hq⟩ := Option.map_eq_some_iff.mp hrun
  obtain ⟨rfl, hnone⟩ := Prod.ext_iff.mp hq
  obtain ⟨l, -, b, -, -, -, -, hfound, -⟩ :=
    (hall oneRegion 1 _ heap ⟨heap, []⟩ hinit .start 16 4096 (by decide)
    ⟨12, by decide⟩ oneRegion 2 8192 s halloc (by decide)).block
  rw [show s.freed 8192 = none from hnone] at hfound
  cases hfound

/-! ## 7. The counter -/

theorem Inv.counted_iff (h : Inv s l) : s.Counted ↔ s.allocatedBytes.toNat = s.total false l := by
  refine ⟨fun hcounted => ?_, fun heq => ⟨l, h.chained.links, heq⟩⟩
  obtain ⟨l', hlinks, heq⟩ := hcounted
  rw [h.chained.links.linked.unique hlinks.linked]
  exact heq

/-- Blocks in the address space do not add up to more bytes than it has. -/
theorem total_room (lo : Nat) (hap : l.Pairwise (Before s.block))
    (hfits : ∀ b ∈ l, b.toNat + (s.block b).size.toNat + 48 ≤ 2 ^ 64) (hlo : lo + 48 ≤ 2 ^ 64)
    (hall : ∀ b ∈ l, lo ≤ b.toNat) : lo + s.total false l + 48 ≤ 2 ^ 64 := by
  induction l generalizing lo with
  | nil => exact hlo
  | cons b l ih =>
    obtain ⟨hbefore, hap⟩ := pairwise_cons.mp hap
    have hrest :=
      ih _ hap (fun c hc => hfits c (mem_cons_of_mem b hc)) (hfits b mem_cons_self) hbefore
    have hb := hall b mem_cons_self
    have hshare : s.share false b ≤ (s.block b).size.toNat := by
      rw [Kheap.share]
      split_ifs <;> omega
    rw [total_cons]
    omega

/-- **The counter after a block was taken** is right if the block was used up, or split. -/
theorem Inv.take_counted (h : Inv s l) (hb : b ∈ l) (h16 : size.toNat % 16 = 0)
    (hsize : size.toNat + 48 < 2 ^ 64)
    (hfits : s.fits size 16 b = true) (hcounted : s.allocatedBytes.toNat = s.total false l) :
    (s.take size 16 b).2.Counted ↔
      (s.block b).size.toNat = 48 + size.toNat ∨ 48 + size.toNat + 64 ≤ (s.block b).size.toNat := by
  have hal : (16 : UInt64) ∈ [1, 2, 4, 8, 16] := by decide
  obtain ⟨l', hinv, -, -, hb', hused, -, -, hsplits, hsame, hothers, hcounter⟩ :=
    h.take hb hal h16 hsize hfits
  obtain ⟨-, -, hsum, hspec⟩ := h.fits_spec hb hal hsize
  have hle := (hspec.mp hfits).2
  rw [hinv.counted_iff, hcounter, UInt64.toNat_add, hsum, hcounted]
  generalize (s.take size 16 b).2 = s' at hinv hused hsame hothers ⊢
  generalize s.split b (heapHeader + size) = s₁ at hsplits hsame hothers
  have hchange : s'.total false l' + s₁.share false b = s₁.total false l' + s'.share false b :=
    total_change hinv.chained.nodup hb' fun c hc hne => by
    rw [Kheap.share, hothers c hc hne]
    rfl
  have hold : s₁.share false b = 0 := by simp [Kheap.share, hsplits.free]
  have hnew : s'.share false b = (s₁.block b).size.toNat := by rw [Kheap.share, if_pos hused, hsame]
  have hroom :=
    total_room 0 hinv.tiled.apart (fun b hb => hinv.fits hb) (by decide) fun _ _ => Nat.zero_le _
  have hshort := hsplits.size
  rw [hold, hnew, hsplits.inUse] at hchange
  rw [hsum] at hshort
  split_ifs at hshort <;> omega

/-- **The block that is found has as many bytes as are taken, or it is split.** -/
def Kheap.Exact (s : Kheap) (pmm : Supply) (size : UInt64) : Prop :=
  size ≠ 0 → ∀ n s' b, Kheap.attempts pmm n ((size + 15) &&& ~~~15) 16 2 s = some (s', some b) →
    (s'.block b).size.toNat = 48 + (size.toNat + 15) / 16 * 16 ∨
      48 + (size.toNat + 15) / 16 * 16 + 64 ≤ (s'.block b).size.toNat

section

variable {r : HeapRun} {heap : Kheap} (h : RunInv r) (hc : r.heap.Counted)
include h hc

theorem RunInv.counted_alloc {pmm : Supply} (hmax : size.toNat ≤ 2 ^ 20)
    (hrun : r.heap.kheapAlloc pmm fuel size 16 = some (p, heap)) : heap.Counted ↔
      r.heap.Exact pmm size := by
  obtain ⟨l, hinv, -⟩ := h
  by_cases hne : size = 0
  · rw [Kheap.kheapAlloc, if_pos hne] at hrun
    cases hrun
    exact ⟨fun _ h0 => absurd hne h0, fun _ => hc⟩
  have hround := rounded_toNat (by omega : size.toNat + 64 ≤ 2 ^ 64)
  rw [Kheap.kheapAlloc, if_neg hne, if_neg (by decide)] at hrun
  obtain ⟨⟨s₀, found⟩, hattempts, hrun⟩ := Option.map_eq_some_iff.mp hrun
  obtain ⟨s₁, l₁, hinv₁, hrests, hcases⟩ :=
    hinv.attempts pmm 2 (Nat.le_refl _) ((size + 15) &&& ~~~15) 16
  have hcounted : s₁.allocatedBytes.toNat = s₁.total false l₁ := by
    rw [hrests.counter, hrests.inUse]
    exact hinv.counted_iff.mp hc
  rcases hcases with hnone | ⟨b, hb, hfits, hfound⟩
  · cases (attempts_stable _ _ _ _ _).eq hattempts hnone
    cases hrun
    refine ⟨fun _ _ n s' b hfound => ?_, fun _ => hinv₁.counted_iff.mpr hcounted⟩
    cases (attempts_stable _ _ _ _ _).eq hfound hnone
  · cases (attempts_stable _ _ _ _ _).eq hattempts hfound
    have hheap : heap = (s₀.take ((size + 15) &&& ~~~15) 16 b).2 := (congrArg Prod.snd hrun).symm
    rw [hheap, hinv₁.take_counted hb (by omega) (by omega) hfits hcounted, hround]
    refine ⟨fun hexact _ n s' b' hfound' => ?_, fun hexact => hexact hne _ _ _ hfound⟩
    cases (attempts_stable _ _ _ _ _).eq hfound hfound'
    exact hexact

theorem RunInv.counted_free {n : Nat} (hlive : (p, n) ∈ r.live)
    (hrun : r.heap.kheapFree fuel p = some heap) :
    heap.Counted := by
  obtain ⟨l, hinv, hheld⟩ := h
  obtain ⟨b, hb, hused, hp, -⟩ := hheld.block (p, n) hlive
  obtain ⟨s', l', hrun', hinv', hmerges, -⟩ := hinv.kheapFree (Nat.le_refl _) hb hp
  cases (kheapFree_stable _ _).eq hrun hrun'
  rw [hinv.counted_iff] at hc
  have hchange :
      ((r.heap.discount b).edit b (·.setFree true)).total false l + r.heap.share false b =
      r.heap.total false l + _ := total_change hinv.chained.nodup hb fun c hc hne => by
    rw [Kheap.share, hinv.block_freed hb hc hne]
    rfl
  have hold : r.heap.share false b = (r.heap.block b).size.toNat := if_pos hused
  have hnew : ((r.heap.discount b).edit b (·.setFree true)).share false b = 0 := by
    rw [Kheap.share, block_freed_self, blockFree_setFree]
    rfl
  rw [hold, hnew] at hchange
  have hge : r.heap.allocatedBytes ≥ (r.heap.block b).size := UInt64.le_iff_toNat_le.mpr (by omega)
  have hcount : ((r.heap.discount b).edit b (·.setFree true)).allocatedBytes =
      r.heap.allocatedBytes - (r.heap.block b).size := if_pos hge
  rw [hinv'.counted_iff, hmerges.inUse, hmerges.counter, hcount, UInt64.toNat_sub_of_le _ _ hge]
  omega

end

/-- The calls with sizes up to 1 MiB and alignment 16. -/
def HeapRun.Calls (r : HeapRun) : HeapOp → Prop
  | .alloc _ _ size alignment => size.toNat ≤ 2 ^ 20 ∧ alignment = 16
  | op => r.Allowed op

/-- They find blocks that are used up, or split. -/
def HeapRun.Exactly (r : HeapRun) (op : HeapOp) : Prop :=
  r.Calls op ∧ ∀ pmm fuel size alignment, op = .alloc pmm fuel size alignment →
  r.heap.Exact pmm size

theorem counted_step {r r' : HeapRun} {op : HeapOp} (h : RunInv r ∧ r.heap.Counted)
    (hok : r.Exactly op)
    (hs : r.step op = some r') : RunInv r' ∧ r'.heap.Counted := by
  obtain ⟨hcalls, hexact⟩ := hok
  cases op with
  | alloc pmm fuel size alignment =>
    obtain ⟨hmax, rfl⟩ := hcalls
    obtain ⟨⟨p, heap⟩, hrun, rfl⟩ := Option.map_eq_some_iff.mp hs
    refine ⟨?_, (h.1.counted_alloc h.2 hmax hrun).mpr (hexact pmm fuel size 16 rfl)⟩
    by_cases hne : size = 0
    · rw [Kheap.kheapAlloc, if_pos hne] at hrun
      cases hrun
      exact h.1
    · have hpos : size.toNat ≠ 0 := fun e => hne (UInt64.toNat_inj.mp e)
      exact h.1.alloc ⟨by omega, by omega, by decide⟩ hrun
  | free fuel p =>
    obtain ⟨heap, hrun, rfl⟩ := Option.map_eq_some_iff.mp hs
    obtain ⟨n, hlive⟩ := hcalls
    exact ⟨h.1.free hlive hrun, h.1.counted_free h.2 hlive hrun⟩
  | write mem =>
    have hok : r.Careful (.write mem) := hcalls
    refine ⟨runInv_step h.1 hok hs, ?_⟩
    cases hs
    obtain ⟨l, hinv, hheld⟩ := h.1
    obtain ⟨hinv', hrests⟩ := hinv.write hheld hcalls
    rw [hinv'.counted_iff, hrests.counter, hrests.inUse]
    exact hinv.counted_iff.mp h.2

/-- **In every run whose calls find blocks that are used up or split, the counter is right in every
    state, and a further call leaves it right if and only if it finds such a block.** -/
theorem counter_right_iff (pmm : Supply) (fuel : Nat) (mem : Nat → UInt8) :
    ∃ heap, kheapInit pmm (fuel + 1) mem = some heap ∧
      ∀ r, Reaches HeapRun.step HeapRun.Exactly ⟨heap, []⟩ r →
      r.heap.Counted ∧ ∀ pmm fuel size r', size.toNat ≤ 2 ^ 20 →
      r.step (.alloc pmm fuel size 16) = some r' →
        (r'.heap.Counted ↔ r.heap.Exact pmm size) := by
  obtain ⟨heap, hinit, hstart⟩ := runInv_init pmm fuel mem
  refine ⟨heap, hinit, fun r hr => ?_⟩
  obtain ⟨hinv, hcounted⟩ := hr.inv (I := fun r => RunInv r ∧ r.heap.Counted) hstart
    fun _ _ _ hi hok hs => counted_step hi hok hs
  refine ⟨hcounted, fun pmm fuel size r' hmax hs => ?_⟩
  obtain ⟨⟨p, heap⟩, hrun, rfl⟩ := Option.map_eq_some_iff.mp hs
  exact hinv.counted_alloc hcounted hmax hrun

/-- **`kheap_alloc(65424, 16)`** takes the one block of 65488 bytes as it is, and counts 65472. -/
theorem counter_short :
    ¬ ∀ (pmm : Supply) (fuel : Nat) (mem : Nat → UInt8) (heap : Kheap) (r : HeapRun),
    kheapInit pmm fuel mem = some heap → Reaches HeapRun.step HeapRun.Calls ⟨heap, []⟩ r →
    r.heap.Counted := by
  intro hall
  obtain ⟨heap, hinit, hinv, hcounted⟩ := runInv_init oneRegion 0 fun _ => 0
  have hfound : ((kheapInit oneRegion 1 fun _ => 0).bind fun heap =>
      (Kheap.attempts oneRegion 2 65424 16 2 heap).map fun q =>
      q.2.map fun b => (q.1.block b).size) =
        some (some 65488) := by decide +kernel
  rw [hinit] at hfound
  obtain ⟨⟨s', found⟩, hfinds, hq⟩ := Option.map_eq_some_iff.mp hfound
  obtain ⟨b, rfl, hsize⟩ := Option.map_eq_some_iff.mp hq
  obtain ⟨bound, halloc⟩ := hinv.answers.alloc 65424 16 ⟨by decide, by decide, .inr (.inr rfl)⟩
  obtain ⟨r', hs, -⟩ := halloc oneRegion bound (Nat.le_refl _)
  obtain ⟨⟨p, heap'⟩, hrun, rfl⟩ := Option.map_eq_some_iff.mp hs
  have hexact := (hinv.counted_alloc hcounted (by decide) hrun).mp
    (hall oneRegion 1 _ heap _ hinit
      (.step _ _ (.alloc oneRegion bound 65424 16) .start ⟨by decide, rfl⟩ hs))
  have hbad := hexact (by decide) 2 s' b hfinds
  rw [show (s'.block b).size = 65488 from hsize] at hbad
  exact absurd hbad (by decide)

end DyntKernel.Mem.Heap
