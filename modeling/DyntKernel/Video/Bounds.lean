/-
  File:      DyntKernel/Video/Bounds.lean
  Subject:   THE CURSOR STAYS ON THE SCREEN, and every store to `vt_buf` in its own terminal.

  Every operation of the driver restores `vt_x < 80` and `vt_y < 25` except
  `vga_vt_set_cursor`, which stores what the cursor-position sequence asks for
  (`vga_vt_move_cursor` clamps, `vga_putc_at` checks). The next character is then drawn, and
  the line erased, at a cell index computed from a row and a column off the screen.

  * `OnScreen` -- the property: cursors on the screen, all stores so far inside `vt_buf`;
  * `TermOp.inRange`, `CursorInRange` -- the condition on a call: the row and the column of
    each of its cursor-position sequences are on the screen;
  * `onScreen_*` -- one lemma for each operation, `onScreen_termWrite` for a call;
  * `term_write_on_screen`, `term_write_off_screen` -- every run under the condition, and a
    run without it.
-/
import DyntKernel.Video.Term
import DyntKernel.Library.Runs
import Mathlib.Tactic.SplitIfs

namespace DyntKernel.Video

open Library List

/-- **Every cursor is on the screen and every store so far was to a cell of a terminal.** -/
structure OnScreen (s : Vga) : Prop where
  cursor : ∀ v, v < vgaVtMax → (s.vts v).x < vgaCols ∧ (s.vts v).y < vgaRows
  writes : ∀ w ∈ s.writes, w.1 < vgaVtMax ∧ w.2 < vgaCells

/-! ## 1. The driver -/

section Driver

variable {s : Vga} {v : Nat}

theorem onScreen_setVt (h : OnScreen s) {f : Vt → Vt}
    (hx : (f (s.vts v)).x < vgaCols) (hy : (f (s.vts v)).y < vgaRows) : OnScreen (s.setVt v f) := by
  refine ⟨fun u hu => ?_, h.writes⟩
  by_cases huv : u = v
  · subst huv
    rw [Vga.setVt_self]
    exact ⟨hx, hy⟩
  · rw [Vga.setVt_ne _ _ huv]
    exact h.cursor u hu

/-- `s'` is `s` after stores to cells of terminal `v`; its cursor and what is shown are
    untouched. -/
structure Stores (v : Nat) (s s' : Vga) : Prop where
  vts : s'.vts = s.vts
  writes : ∀ w ∈ s'.writes, w ∈ s.writes ∨ w.1 = v ∧ w.2 < vgaCells
  cells : ∀ u, u ≠ v → ∀ i, i < vgaCells → s'.load u i = s.load u i
  displayed : s'.displayed = s.displayed
  screen : s'.screen = s.screen

theorem Stores.refl (v : Nat) (s : Vga) : Stores v s s :=
  ⟨rfl, fun _ hw => Or.inl hw, fun _ _ _ _ => rfl, rfl, rfl⟩

theorem Stores.trans {s₁ s₂ s₃ : Vga} (h : Stores v s₁ s₂) (h' : Stores v s₂ s₃) :
    Stores v s₁ s₃ := by
  refine ⟨h'.vts.trans h.vts, fun w hw => ?_, fun u hu i hi =>
    (h'.cells u hu i hi).trans (h.cells u hu i hi),
    h'.displayed.trans h.displayed, h'.screen.trans h.screen⟩
  rcases h'.writes w hw with hw | hw
  · exact h.writes w hw
  · exact Or.inr hw

theorem load_store_of_ne {u i j : Nat} (h : u * vgaCells + j ≠ v * vgaCells + i) (cell : UInt16) :
    (s.store v i cell).load u j = s.load u j := by
  simp only [Vga.load, Vga.store, ne_eq, h, not_false_eq_true, Function.update_of_ne]

theorem stores_store (s : Vga) {i : Nat} (hi : i < vgaCells) (cell : UInt16) :
    Stores v s (s.store v i cell) := by
  refine ⟨rfl, fun w hw => ?_, fun u hu j hj => load_store_of_ne ?_ cell, rfl, rfl⟩
  · rcases mem_cons.mp hw with rfl | hw
    · exact Or.inr ⟨rfl, hi⟩
    · exact Or.inl hw
  · unfold vgaCells at *
    omega

/-- A loop each of whose turns stores. -/
theorem stores_foldl {α : Type*} {f : Vga → α → Vga} :
    ∀ (is : List α) (s : Vga), (∀ s i, i ∈ is → Stores v s (f s i)) → Stores v s (is.foldl f s)
  | [], s, _ => .refl v s
  | i :: is, s, hf =>
    (hf s i mem_cons_self).trans (stores_foldl is (f s i) fun s j hj =>
      hf s j (mem_cons_of_mem i hj))

theorem stores_blank (s : Vga) {is : List Nat} (hi : ∀ i ∈ is, i < vgaCells) :
    Stores v s (s.blank v is) :=
  stores_foldl is s fun s i hmem => stores_store s (hi i hmem) _

/-- The cell index of a row and a column of the screen. -/
theorem cell_lt {x y : Nat} (hx : x < vgaCols) (hy : y < vgaRows) : y * vgaCols + x < vgaCells := by
  unfold vgaCols vgaRows vgaCells at *
  omega

theorem stores_vtScroll (s : Vga) (v : Nat) : Stores v s (s.vtScroll v) := by
  unfold Vga.vtScroll
  refine (stores_foldl _ s fun s y hy => ?_).trans (stores_blank _ ?_)
  · refine stores_foldl _ s fun s x hx => ?_
    have hy := mem_range'_1.mp hy
    refine stores_store s (cell_lt (mem_range.mp hx) ?_) _
    unfold vgaRows at *
    omega
  · intro i hi
    obtain ⟨x, hx, rfl⟩ := mem_map.mp hi
    exact cell_lt (mem_range.mp hx) (by decide)

theorem onScreen_stores {s' : Vga} (h : OnScreen s) (hv : v < vgaVtMax) (hs : Stores v s s') :
    OnScreen s' := by
  refine ⟨fun u hu => ?_, fun w hw => ?_⟩
  · rw [hs.vts]
    exact h.cursor u hu
  · rcases hs.writes w hw with hw | ⟨rfl, hi⟩
    · exact h.writes w hw
    · exact ⟨hv, hi⟩

theorem onScreen_refresh (h : OnScreen s) : OnScreen (s.refresh v) := by
  unfold Vga.refresh
  split_ifs
  · exact ⟨h.cursor, h.writes⟩
  · exact h

theorem onScreen_refreshCursor (h : OnScreen s) : OnScreen (s.refreshCursor v) := by
  unfold Vga.refreshCursor
  split_ifs
  · exact ⟨h.cursor, h.writes⟩
  · exact h

theorem onScreen_vtClearImpl (h : OnScreen s) (hv : v < vgaVtMax) : OnScreen (s.vtClearImpl v) := by
  have hb : OnScreen (s.blank v (List.range vgaCells)) :=
    onScreen_stores h hv (stores_blank s fun i hi => mem_range.mp hi)
  exact onScreen_refresh
    (onScreen_setVt hb (show 0 < vgaCols by decide) (show 0 < vgaRows by decide))

/-- A state in the middle of `vt_putc_impl`: terminal `v` has its cursor at most at column
    `bx` and row `b`, all else is on the screen. -/
structure Within (s : Vga) (v bx b : Nat) : Prop where
  other : ∀ u, u < vgaVtMax → u ≠ v → (s.vts u).x < vgaCols ∧ (s.vts u).y < vgaRows
  x : (s.vts v).x ≤ bx
  y : (s.vts v).y ≤ b
  writes : ∀ w ∈ s.writes, w.1 < vgaVtMax ∧ w.2 < vgaCells

theorem Within.onScreen (h : Within s v 79 24) : OnScreen s := by
  refine ⟨fun u hu => ?_, h.writes⟩
  by_cases huv : u = v
  · subst huv
    exact ⟨Nat.lt_succ_of_le h.x, Nat.lt_succ_of_le h.y⟩
  · exact h.other u hu huv

theorem within_setVt {bx b bx' b' : Nat} (h : Within s v bx b) {f : Vt → Vt}
    (hx : (f (s.vts v)).x ≤ bx') (hy : (f (s.vts v)).y ≤ b') : Within (s.setVt v f) v bx' b' := by
  refine ⟨fun u hu huv => ?_, ?_, ?_, h.writes⟩
  · rw [Vga.setVt_ne _ _ huv]
    exact h.other u hu huv
  · rw [Vga.setVt_self]
    exact hx
  · rw [Vga.setVt_self]
    exact hy

theorem OnScreen.within (h : OnScreen s) (hv : v < vgaVtMax) : Within s v 79 24 :=
  ⟨fun u hu _ => h.cursor u hu, Nat.le_of_lt_succ (h.cursor v hv).1,
    Nat.le_of_lt_succ (h.cursor v hv).2, h.writes⟩

theorem within_stores {s' : Vga} {bx b : Nat} (h : Within s v bx b) (hv : v < vgaVtMax)
    (hs : Stores v s s') : Within s' v bx b := by
  refine ⟨?_, ?_, ?_, fun w hw => ?_⟩
  · rw [hs.vts]; exact h.other
  · rw [hs.vts]; exact h.x
  · rw [hs.vts]; exact h.y
  · rcases hs.writes w hw with hw | ⟨rfl, hi⟩
    · exact h.writes w hw
    · exact ⟨hv, hi⟩

/-- Every control character and every drawn cell: the cursor is at most one row too low, or at
    most one tab stop too far right. -/
theorem within_putcCell (h : OnScreen s) (hv : v < vgaVtMax) (c : UInt8) :
    Within (s.putcCell v c) v 79 25 ∨ Within (s.putcCell v c) v 87 24 := by
  have hw := h.within hv
  obtain ⟨hx, hy⟩ := h.cursor v hv
  have hx' : (s.vts v).x < 80 := hx
  have hy' : (s.vts v).y < 25 := hy
  unfold Vga.putcCell
  simp only
  split_ifs with hnl hcr htab hbs hpos
  · refine Or.inl (within_setVt hw (Nat.zero_le _) ?_)
    simp only [u16]
    omega
  · exact Or.inl (within_setVt hw (Nat.zero_le _) (by simp only; omega))
  · refine Or.inr (within_setVt hw ?_ (by simp only; omega))
    simp only [u16]
    omega
  · refine Or.inr (within_stores (within_setVt hw ?_ ?_) hv (stores_store _ ?_ _))
    · simp only; omega
    · simp only; omega
    · exact cell_lt (by unfold vgaCols; omega) hy
  · exact Or.inl ⟨hw.other, hw.x, Nat.le_succ_of_le hw.y, hw.writes⟩
  · refine Or.inr (within_setVt (within_stores hw hv (stores_store s (cell_lt hx hy) _)) ?_ ?_)
    · simp only [Vga.store, u16]
      omega
    · simp only [Vga.store]
      omega

theorem within_putcWrap (h : Within s v 79 25 ∨ Within s v 87 24) :
    Within (s.putcWrap v) v 79 25 := by
  unfold Vga.putcWrap vgaCols
  split_ifs with hx
  · rcases h with h | h
    · exact absurd h.x (by omega)
    · have hy := h.y
      refine within_setVt h (Nat.zero_le _) ?_
      simp only [u16]
      omega
  · rcases h with h | h
    · exact h
    · exact ⟨h.other, by omega, Nat.le_succ_of_le h.y, h.writes⟩

theorem onScreen_putcScroll (h : Within s v 79 25) (hv : v < vgaVtMax) :
    OnScreen (s.putcScroll v) := by
  unfold Vga.putcScroll vgaRows
  split_ifs with hy
  · refine (within_setVt (within_stores h hv (stores_vtScroll s v)) ?_ ?_).onScreen
    · rw [(stores_vtScroll s v).vts]
      exact h.x
    · simp
  · exact Within.onScreen ⟨h.other, h.x, by omega, h.writes⟩

theorem onScreen_vtPutcImpl (h : OnScreen s) (hv : v < vgaVtMax) (c : UInt8) :
    OnScreen (s.vtPutcImpl v c) :=
  onScreen_refresh (onScreen_putcScroll (within_putcWrap (within_putcCell h hv c)) hv)

/-- One turn of the loop of `vga_init`: terminal `v` is on the screen, the others are as they
    were, and the stores are to cells of `v`. -/
theorem initTurn_spec (s : Vga) {v : Nat} (hv : v < vgaVtMax)
    (hw : ∀ w ∈ s.writes, w.1 < vgaVtMax ∧ w.2 < vgaCells) :
    let s' := (s.setVt v fun _ => ⟨0, 0, 7, 0, false, true⟩).vtClearImpl v
    ((s'.vts v).x = 0 ∧ (s'.vts v).y = 0) ∧ (∀ u, u ≠ v → s'.vts u = s.vts u) ∧
      ∀ w ∈ s'.writes, w.1 < vgaVtMax ∧ w.2 < vgaCells := by
  intro s'
  have hb : Stores v (s.setVt v fun _ => ⟨0, 0, 7, 0, false, true⟩)
      ((s.setVt v fun _ => ⟨0, 0, 7, 0, false, true⟩).blank v (List.range vgaCells)) :=
    stores_blank _ fun i hi => mem_range.mp hi
  have href : ∀ t : Vga, (t.refresh v).vts = t.vts ∧ (t.refresh v).writes = t.writes := by
    intro t
    unfold Vga.refresh
    split_ifs <;> exact ⟨rfl, rfl⟩
  refine ⟨?_, fun u hu => ?_, fun w hmem => ?_⟩
  · simp only [s', Vga.vtClearImpl, (href _).1, Vga.setVt_self, and_self]
  · simp only [s', Vga.vtClearImpl, (href _).1]
    rw [Vga.setVt_ne _ _ hu, hb.vts, Vga.setVt_ne _ _ hu]
  · simp only [s', Vga.vtClearImpl, (href _).2, Vga.setVt_writes] at hmem
    rcases hb.writes w hmem with h | ⟨rfl, hi⟩
    · exact hw w h
    · exact ⟨hv, hi⟩

/-- The loop of `vga_init` over the terminals `vs`, by induction on the turns left. -/
theorem initLoop_spec : ∀ (vs : List Nat) (s : Vga), (∀ v ∈ vs, v < vgaVtMax) →
    (∀ w ∈ s.writes, w.1 < vgaVtMax ∧ w.2 < vgaCells) →
    let s' := vs.foldl (fun (s : Vga) v =>
      (s.setVt v fun _ => ⟨0, 0, 7, 0, false, true⟩).vtClearImpl v) s
    (∀ u, u ∈ vs ∨ ((s.vts u).x = 0 ∧ (s.vts u).y = 0) → (s'.vts u).x = 0 ∧ (s'.vts u).y = 0) ∧
      ∀ w ∈ s'.writes, w.1 < vgaVtMax ∧ w.2 < vgaCells
  | [], s, _, hw => ⟨fun u hu => hu.resolve_left not_mem_nil, hw⟩
  | v :: vs, s, hvs, hw => by
    obtain ⟨h0, hother, hw'⟩ := initTurn_spec s (hvs v mem_cons_self) hw
    obtain ⟨hin, hwr⟩ := initLoop_spec vs _ (fun u hu => hvs u (mem_cons_of_mem v hu)) hw'
    refine ⟨fun u hu => hin u ?_, hwr⟩
    by_cases huv : u = v
    · subst huv; exact Or.inr h0
    · rw [hother u huv]
      rcases hu with hu | hu
      · exact Or.inl ((mem_cons.mp hu).resolve_left huv)
      · exact Or.inr hu

theorem onScreen_vgaInit (s : Vga) : OnScreen s.vgaInit := by
  obtain ⟨hin, hw⟩ := initLoop_spec (List.range vgaVtMax) { s with displayed := 0, writes := [] }
    (fun v hv => mem_range.mp hv) (fun w hw => absurd hw not_mem_nil)
  unfold Vga.vgaInit
  refine ⟨fun v hv => ?_, ?_⟩
  · obtain ⟨hx, hy⟩ := hin v (Or.inl (mem_range.mpr hv))
    rw [Vga.vgaFlush_vts, hx, hy]
    decide
  · rw [Vga.vgaFlush_writes]
    exact hw

end Driver

/-! ## 2. The terminal writer -/

section Writer

variable {s : Vga} (vt : UInt8)

theorem clampCoord_lt (n : Int) {limit : Nat} (h : 0 < limit) : Vga.clampCoord n limit < limit := by
  unfold Vga.clampCoord
  split_ifs with h0 h1
  · exact h
  · omega
  · omega

section

variable (h : OnScreen s)
include h

theorem onScreen_vgaVtMoveCursor (dx dy : Int) : OnScreen (s.vgaVtMoveCursor vt dx dy) := by
  unfold Vga.vgaVtMoveCursor
  refine onScreen_refreshCursor (onScreen_setVt h ?_ ?_)
  · simp only
    exact clampCoord_lt _ (show 0 < vgaCols by decide)
  · simp only
    exact clampCoord_lt _ (show 0 < vgaRows by decide)

theorem onScreen_vgaVtClearToEol : OnScreen (s.vgaVtClearToEol vt) := by
  obtain ⟨hx, hy⟩ := h.cursor _ (vtIndex_lt vt)
  refine onScreen_refresh (onScreen_stores h (vtIndex_lt vt) (stores_blank s fun i hi => ?_))
  obtain ⟨x, hmem, rfl⟩ := mem_map.mp hi
  have hmem := mem_range'_1.mp hmem
  exact cell_lt (by omega) hy

theorem onScreen_vgaVtClearLine : OnScreen (s.vgaVtClearLine vt) := by
  obtain ⟨hx, hy⟩ := h.cursor _ (vtIndex_lt vt)
  refine onScreen_refresh (onScreen_stores h (vtIndex_lt vt) (stores_blank s fun i hi => ?_))
  obtain ⟨x, hmem, rfl⟩ := mem_map.mp hi
  exact cell_lt (mem_range.mp hmem) hy

theorem onScreen_vgaVtClearToEscreen : OnScreen (s.vgaVtClearToEscreen vt) := by
  refine onScreen_refresh (onScreen_stores h (vtIndex_lt vt) (stores_blank s fun i hi => ?_))
  have hi := mem_range'_1.mp hi
  omega

/-- A change of the colours or of the cursor's visibility. -/
theorem onScreen_setLook {f : Vt → Vt} (hx : ∀ t, (f t).x = t.x)
    (hy : ∀ t, (f t).y = t.y) : OnScreen (s.setVt (vtIndex vt) f) := by
  obtain ⟨h1, h2⟩ := h.cursor _ (vtIndex_lt vt)
  exact onScreen_setVt h (by rw [hx]; exact h1) (by rw [hy]; exact h2)

theorem onScreen_sgrApply (param : Int32) : OnScreen (sgrApply s vt param) := by
  have hrev : ∀ {s : Vga} b, OnScreen s → OnScreen (s.vgaVtSetReverse vt b) :=
    fun b h => onScreen_setLook vt h (fun _ => rfl) (fun _ => rfl)
  have hfg : ∀ {s : Vga} b, OnScreen s → OnScreen (s.vgaVtSetFgColor vt b) :=
    fun b h => onScreen_setLook vt h (fun _ => rfl) (fun _ => rfl)
  have hbg : ∀ {s : Vga} b, OnScreen s → OnScreen (s.vgaVtSetBgColor vt b) :=
    fun b h => onScreen_setLook vt h (fun _ => rfl) (fun _ => rfl)
  unfold sgrApply
  generalize (if param < 0 then 0 else param) = p
  simp only
  split_ifs
  · exact hbg _ (hfg _ (hrev _ h))
  · exact hrev _ h
  · exact hfg _ h
  · exact hfg _ h
  · exact h

end

/-- The condition on one operation: a cursor-position sequence stays on the screen. -/
def TermOp.inRange : TermOp → Prop
  | .putc _ => True
  | .csi st final =>
    st.priv = false → final = 0x48 ∨ final = 0x66 → st.row < vgaRows ∧ st.col < vgaCols

/-- One lemma over every final byte `csi_apply` knows. -/
theorem onScreen_csiApply (h : OnScreen s) {st : Csi} {final : UInt8}
    (hok : TermOp.inRange (.csi st final)) : OnScreen (csiApply s vt st final) := by
  unfold csiApply
  cases hp : st.priv with
  | true =>
    simp only [if_true]
    split_ifs
    · exact onScreen_refreshCursor (onScreen_setLook vt h (fun _ => rfl) (fun _ => rfl))
    · exact h
  | false =>
    simp only [Bool.false_eq_true, if_false]
    split_ifs with hH hA hB hC hD hJ hJ2 hK hK2 hm
    · obtain ⟨hr, hc⟩ := hok hp hH
      exact onScreen_refreshCursor (onScreen_setVt h hc hr)
    · exact onScreen_vgaVtMoveCursor vt h _ _
    · exact onScreen_vgaVtMoveCursor vt h _ _
    · exact onScreen_vgaVtMoveCursor vt h _ _
    · exact onScreen_vgaVtMoveCursor vt h _ _
    · exact onScreen_vtClearImpl h (vtIndex_lt vt)
    · exact onScreen_vgaVtClearToEscreen vt h
    · exact onScreen_vgaVtClearLine vt h
    · exact onScreen_vgaVtClearToEol vt h
    · generalize List.range (st.nparams + 1) = is
      induction is generalizing s with
      | nil => exact h
      | cons i is ih => exact ih (onScreen_sgrApply vt h _)
    · exact h

theorem onScreen_ops : ∀ (ops : List TermOp) (s : Vga), OnScreen s →
    (∀ op ∈ ops, op.inRange) → OnScreen (ops.foldl (TermOp.apply vt) s)
  | [], _, h, _ => h
  | op :: ops, s, h, hok => by
    have hop := hok op mem_cons_self
    have h1 : OnScreen (TermOp.apply vt s op) := by
      cases op with
      | putc c => exact onScreen_vtPutcImpl h (vtIndex_lt vt) c
      | csi st final => exact onScreen_csiApply vt h hop
    exact onScreen_ops ops _ h1 fun o ho => hok o (mem_cons_of_mem op ho)

end Writer

/-! ## 3. Every run of `term_write` calls -/

/-- One call: a terminal and the bytes of the buffer. -/
def Console.step (k : Console) (call : UInt8 × List UInt8) : Option Console :=
  some (k.termWrite call.1 call.2)

/-- **The condition on a call**: each cursor-position sequence of the buffer names a row and a
    column of the screen. -/
def CursorInRange (_ : Console) (call : UInt8 × List UInt8) : Prop :=
  ∀ op ∈ termOps .norm call.2, op.inRange

theorem onScreen_termWrite {k : Console} (h : OnScreen k.vga) {vt : UInt8} {buf : List UInt8}
    (hok : ∀ op ∈ termOps .norm buf, op.inRange) : OnScreen (k.termWrite vt buf).vga := by
  unfold Console.termWrite
  split_ifs
  · exact onScreen_ops vt _ _ h hok
  · exact h

/-- The parameters `a ; b` of two digits each, as the parser collects them. -/
def twoParams (a a' b b' : UInt8) : Csi :=
  let st : Csi := ((⟨fun _ => -1, 0, false⟩ : Csi).addDigit a).addDigit a'
  (Csi.addDigit { st with nparams := st.nparams + 1 } b).addDigit b'

/-- `ESC [ 30 ; 01 H`: row 30 of 25. -/
def row30Bytes : List UInt8 := [0x1B, 0x5B, 0x33, 0x30, 0x3B, 0x30, 0x31, 0x48]

/-- `ESC [ 25 ; 80 H A`: a letter in the last cell of the screen, which scrolls it. -/
def lastCellBytes : List UInt8 := [0x1B, 0x5B, 0x32, 0x35, 0x3B, 0x38, 0x30, 0x48, 0x41]

theorem termOps_lastCell :
    termOps .norm lastCellBytes = [.csi (twoParams 0x32 0x35 0x38 0x30) 0x48, .putc 0x41] := rfl

/-- The driver's zeroed statics, before `vga_init`. -/
def bssVga : Vga :=
  ⟨fun _ => 0, fun _ => ⟨0, 0, 0, 0, false, false⟩, 0, fun _ => 0, 0, []⟩

/-- **Under the condition the cursors stay on the screen and every store in its terminal**, in
    every sequence of calls from `vga_init` on. -/
theorem term_write_on_screen {s : Vga} {d : Bool} {ser : List UInt8} {k : Console}
    (h : Reaches Console.step CursorInRange ⟨s.vgaInit, d, ser⟩ k) : OnScreen k.vga := by
  refine h.inv (I := fun k => OnScreen k.vga) (onScreen_vgaInit s) ?_
  intro k k' call hk hok hs
  obtain rfl := Option.some.inj hs
  exact onScreen_termWrite hk hok

theorem term_write_on_screen_lastCell :
    ∃ k, Reaches Console.step CursorInRange ⟨bssVga.vgaInit, true, []⟩ k ∧ OnScreen k.vga := by
  have hok : CursorInRange ⟨bssVga.vgaInit, true, []⟩ ((0 : UInt8), lastCellBytes) := by
    intro op hop
    rw [termOps_lastCell] at hop
    rcases mem_cons.mp hop with rfl | hop
    · exact fun _ _ => by decide
    · rcases mem_cons.mp hop with rfl | hop
      · trivial
      · exact absurd hop not_mem_nil
  have hr : Reaches Console.step CursorInRange ⟨bssVga.vgaInit, true, []⟩
      (Console.termWrite ⟨bssVga.vgaInit, true, []⟩ 0 lastCellBytes) :=
    .step _ _ _ .start hok rfl
  exact ⟨_, hr, term_write_on_screen hr⟩

theorem term_write_off_screen :
    ¬ ∀ s d ser k, Reaches Console.step Any ⟨Vga.vgaInit s, d, ser⟩ k → OnScreen k.vga := by
  intro h
  have hr : Reaches Console.step Any ⟨bssVga.vgaInit, true, []⟩
      (Console.termWrite ⟨bssVga.vgaInit, true, []⟩ 0 row30Bytes) :=
    .step _ _ ((0 : UInt8), row30Bytes) .start trivial rfl
  have hy := ((h bssVga true [] _ hr).cursor 0 (by decide)).2
  revert hy
  decide +kernel

end DyntKernel.Video
