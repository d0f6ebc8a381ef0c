/-
  File:      DyntKernel/Video/Coherent.lean
  Subject:   THE SCREEN SHOWS THE DISPLAYED TERMINAL, and a terminal changes by its own operations
             only (driver/buildin/video/vga/vga.c).

  Every operation that stores into `vt_buf` ends in a flush if its terminal is the displayed one;
  the others leave the cells of the displayed terminal alone. The cells of a terminal are those of
  its own row of `vt_buf` as long as the cursor is on the screen.

  * `Touches` -- a change of one terminal, the screen not written yet; `Touches.refresh` -- the
    flush;
  * `VgaOp` -- the operations of the driver, with `VgaOp.KeepsCursor` for those that set the cursor;
  * `Held` -- the invariant, `held_step` -- every operation keeps it;
  * `vga_coherent_isolated` -- the result, for every run.
-/
import DyntKernel.Video.Bounds

namespace DyntKernel.Video

open Library List

variable {s s' : Vga} {v i x y : Nat}

/-! ## 1. A change of one terminal -/

/-- **The screen memory is the buffer of the displayed terminal.** -/
def Coherent (s : Vga) : Prop := ∀ i, i < vgaCells → s.screen i = s.load s.displayed i

/-- The terminal `u` is the same in both states. -/
structure SameVt (u : Nat) (s s' : Vga) : Prop where
  vt : s'.vts u = s.vts u
  cells : ∀ i, i < vgaCells → s'.load u i = s.load u i

/-- **Only the terminal `v` changes**, and nothing is shown. -/
structure Touches (v : Nat) (s s' : Vga) : Prop where
  others : ∀ u, u ≠ v → SameVt u s s'
  displayed : s'.displayed = s.displayed
  screen : s'.screen = s.screen

theorem Touches.refl (v : Nat) (s : Vga) : Touches v s s :=
  ⟨fun _ _ => ⟨rfl, fun _ _ => rfl⟩, rfl, rfl⟩

theorem Touches.trans {s₁ s₂ s₃ : Vga} (h : Touches v s₁ s₂) (h' : Touches v s₂ s₃) :
    Touches v s₁ s₃ where
  others := fun u hu => ⟨(h'.others u hu).vt.trans (h.others u hu).vt,
    fun i hi => ((h'.others u hu).cells i hi).trans ((h.others u hu).cells i hi)⟩
  displayed := h'.displayed.trans h.displayed
  screen := h'.screen.trans h.screen

theorem Stores.touches (h : Stores v s s') : Touches v s s' :=
  ⟨fun u hu => ⟨congrFun h.vts u, h.cells u hu⟩, h.displayed, h.screen⟩

theorem touches_setVt (f : Vt → Vt) : Touches v s (s.setVt v f) :=
  ⟨fun _ hu => ⟨Vga.setVt_ne _ _ hu f, fun _ _ => rfl⟩, rfl, rfl⟩

theorem touches_putcCell (hx : (s.vts v).x < vgaCols) (hy : (s.vts v).y < vgaRows) (c : UInt8) :
    Touches v s (s.putcCell v c) := by
  rw [Vga.putcCell]
  split_ifs with hnl hcr htab hbs hpos
  · exact touches_setVt _
  · exact touches_setVt _
  · exact touches_setVt _
  · exact (touches_setVt _).trans (stores_store _ (cell_lt (by omega) hy) _).touches
  · exact .refl v s
  · exact (stores_store s (cell_lt hx hy) _).touches.trans (touches_setVt _)

theorem touches_putcWrap : Touches v s (s.putcWrap v) := by
  rw [Vga.putcWrap]
  split_ifs
  · exact touches_setVt _
  · exact .refl v s

theorem touches_putcScroll : Touches v s (s.putcScroll v) := by
  rw [Vga.putcScroll]
  split_ifs
  · exact (stores_vtScroll s v).touches.trans (touches_setVt _)
  · exact .refl v s

/-! ## 2. The flush -/

/-- What an operation on the terminal `v` does: the others stay, and the screen shows the displayed
    terminal if it did before. -/
structure Shown (v : Nat) (s s' : Vga) : Prop where
  others : ∀ u, u ≠ v → SameVt u s s'
  displayed : s'.displayed = s.displayed
  coherent : Coherent s → Coherent s'

theorem Shown.refl (v : Nat) (s : Vga) : Shown v s s := ⟨fun _ _ => ⟨rfl, fun _ _ => rfl⟩, rfl, id⟩

theorem coherent_vgaFlush (s : Vga) : Coherent s.vgaFlush := fun _ hi => if_pos hi

/-- **A change that ends in the flush of the displayed terminal.** -/
theorem Touches.refresh (h : Touches v s s') : Shown v s (s'.refresh v) := by
  rw [Vga.refresh]
  split_ifs with hv
  · refine ⟨fun u hu => ⟨(h.others u hu).vt, (h.others u hu).cells⟩, h.displayed, fun _ => ?_⟩
    exact coherent_vgaFlush s'
  · refine ⟨h.others, h.displayed, fun hs i hi => ?_⟩
    rw [h.displayed] at hv
    rw [h.screen, h.displayed, (h.others s.displayed (Ne.symm hv)).cells i hi]
    exact hs i hi

/-- A change of the statics of a terminal: no cell changes. -/
theorem shown_setVt (f : Vt → Vt) : Shown v s (s.setVt v f) :=
  ⟨(touches_setVt f).others, rfl, fun hs => hs⟩

theorem shown_setVt_cursor (f : Vt → Vt) : Shown v s ((s.setVt v f).refreshCursor v) := by
  rw [Vga.refreshCursor]
  split_ifs
  · exact ⟨fun u hu => ⟨Vga.setVt_ne _ _ hu f, fun _ _ => rfl⟩, rfl, fun hs => hs⟩
  · exact shown_setVt f

/-! ## 3. The operations -/

/-- The operations of the driver. -/
inductive VgaOp
  | vtPutc (vt c : UInt8)
  | vtClear (vt : UInt8)
  | vtSetCursor (vt : UInt8) (x y : Nat)
  | vtSwitch (vt : UInt8)
  | vtMoveCursor (vt : UInt8) (dx dy : Int)
  | vtClearToEol (vt : UInt8)
  | vtClearLine (vt : UInt8)
  | vtClearToEscreen (vt : UInt8)
  | vtSetReverse (vt : UInt8) (reverse : Bool)
  | vtSetFgColor (vt color : UInt8)
  | vtSetBgColor (vt color : UInt8)
  | vtSetCursorVisible (vt : UInt8) (visible : Bool)
  | putc (c : UInt8)
  | puts (str : List UInt8)
  | clear
  | setFgColor (color : UInt8)
  | setBgColor (color : UInt8)
  | setCursor (x y : Nat)
  | putcAt (x y : Nat) (c : UInt8)

namespace VgaOp

def apply (s : Vga) : VgaOp → Vga
  | vtPutc vt c => s.vgaVtPutc vt c
  | vtClear vt => s.vgaVtClear vt
  | vtSetCursor vt x y => s.vgaVtSetCursor vt x y
  | vtSwitch vt => s.vgaVtSwitch vt
  | vtMoveCursor vt dx dy => s.vgaVtMoveCursor vt dx dy
  | vtClearToEol vt => s.vgaVtClearToEol vt
  | vtClearLine vt => s.vgaVtClearLine vt
  | vtClearToEscreen vt => s.vgaVtClearToEscreen vt
  | vtSetReverse vt reverse => s.vgaVtSetReverse vt reverse
  | vtSetFgColor vt color => s.vgaVtSetFgColor vt color
  | vtSetBgColor vt color => s.vgaVtSetBgColor vt color
  | vtSetCursorVisible vt visible => s.vgaVtSetCursorVisible vt visible
  | putc c => s.vgaPutc c
  | puts str => s.vgaPuts str
  | clear => s.vgaClear
  | setFgColor color => s.vgaSetFgColor color
  | setBgColor color => s.vgaSetBgColor color
  | setCursor x y => s.vgaSetCursor x y
  | putcAt x y c => s.vgaPutcAt x y c

/-- The terminal an operation works on; a switch works on none. -/
def target (s : Vga) : VgaOp → Option Nat
  | vtPutc vt _ | vtClear vt | vtSetCursor vt _ _ | vtMoveCursor vt _ _ |
      vtClearToEol vt | vtClearLine vt
  | vtClearToEscreen vt | vtSetReverse vt _ | vtSetFgColor vt _ | vtSetBgColor vt _
  | vtSetCursorVisible vt _ => some (vtIndex vt)
  | vtSwitch _ => none
  | putc _ | puts _ | clear | setFgColor _ | setBgColor _ | setCursor _ _ | putcAt _ _ _ =>
    some s.displayed

/-- An operation keeps the cursor on the screen: only those that set it can do otherwise. -/
def KeepsCursor : VgaOp → Prop
  | vtSetCursor _ x y | setCursor x y => x < vgaCols ∧ y < vgaRows
  | _ => True

def step (s : Vga) (op : VgaOp) : Option Vga := some (op.apply s)

end VgaOp

/-! ## 4. The invariant -/

/-- The cursors are on the screen, a terminal is displayed, and the screen shows it. -/
structure Held (s : Vga) : Prop where
  onScreen : OnScreen s
  displayed : s.displayed < vgaVtMax
  coherent : Coherent s

/-- An operation on one terminal that leaves the cursors on the screen keeps the invariant. -/
theorem Shown.held (h : Shown v s s') (hs : Held s) (hon : OnScreen s') : Held s' :=
  ⟨hon, h.displayed ▸ hs.displayed, h.coherent hs.coherent⟩

theorem shown_vtPutcImpl (hs : OnScreen s) (hv : v < vgaVtMax) (c : UInt8) :
    Shown v s (s.vtPutcImpl v c) := by
  obtain ⟨hx, hy⟩ := hs.cursor v hv
  exact ((touches_putcCell hx hy c).trans (touches_putcWrap.trans touches_putcScroll)).refresh

theorem shown_vtClearImpl : Shown v s (s.vtClearImpl v) :=
  ((stores_blank s fun _ hi => mem_range.mp hi).touches.trans (touches_setVt _)).refresh

theorem Shown.trans {s₁ s₂ s₃ : Vga} (h : Shown v s₁ s₂) (h' : Shown v s₂ s₃) : Shown v s₁ s₃ where
  others := fun u hu => ⟨(h'.others u hu).vt.trans (h.others u hu).vt,
    fun i hi => ((h'.others u hu).cells i hi).trans ((h.others u hu).cells i hi)⟩
  displayed := h'.displayed.trans h.displayed
  coherent := h'.coherent ∘ h.coherent

/-- The characters of a string, one after the other. -/
theorem shown_vgaPuts (hs : OnScreen s) (hd : s.displayed < vgaVtMax) (str : List UInt8) :
    Shown s.displayed s (s.vgaPuts str) ∧ OnScreen (s.vgaPuts str) := by
  induction str generalizing s with
  | nil => exact ⟨.refl _ s, hs⟩
  | cons c str ih =>
    have hc := shown_vtPutcImpl hs hd c
    have hd' : (s.vtPutcImpl s.displayed c).displayed < vgaVtMax := by
      rw [hc.displayed]
      exact hd
    obtain ⟨hrest, hon⟩ := ih (onScreen_vtPutcImpl hs hd c) hd'
    rw [hc.displayed] at hrest
    exact ⟨hc.trans hrest, hon⟩

theorem shown_vgaPutcAt (c : UInt8) : Shown s.displayed s (s.vgaPutcAt x y c) := by
  rw [Vga.vgaPutcAt]
  split_ifs with hout
  · exact .refl _ s
  have hi : y * vgaCols + x < vgaCells := cell_lt (by omega) (by omega)
  have ht :
      Touches s.displayed s
      (s.store s.displayed (y * vgaCols + x) (vgaCell c (s.vgaAttr s.displayed))) :=
    (stores_store s hi _).touches
  generalize y * vgaCols + x = k at ht
  generalize vgaCell c (s.vgaAttr s.displayed) = cell at ht
  refine ⟨fun u hu => ⟨(ht.others u hu).vt, (ht.others u hu).cells⟩, rfl, fun hs => ?_⟩
  have hcells : ∀ i, i < vgaCells →
      Function.update s.screen k ((s.store s.displayed k cell).load s.displayed k) i =
        (s.store s.displayed k cell).load s.displayed i := by
    intro i hi'
    by_cases hik : i = k
    · rw [hik, Function.update_self]
    · rw [Function.update_of_ne hik,
        load_store_of_ne (fun heq => hik (Nat.add_left_cancel heq)), hs i hi']
  simp only [Vga.load] at hcells
  simpa only [Coherent, Vga.load, Vga.store_displayed, Vga.store_screen] using hcells

theorem onScreen_vgaPutcAt (hs : OnScreen s) (hd : s.displayed < vgaVtMax) (c : UInt8) :
    OnScreen (s.vgaPutcAt x y c) := by
  rw [Vga.vgaPutcAt]
  split_ifs with hout
  · exact hs
  · have hst :=
      onScreen_stores hs hd (stores_store (v := s.displayed) s (cell_lt (x := x) (y := y) (by omega)
      (by omega)) (vgaCell c (s.vgaAttr s.displayed)))
    exact ⟨hst.cursor, hst.writes⟩

/-- An operation on one terminal. -/
theorem shown_step {op : VgaOp} (hs : Held s) (hop : op.KeepsCursor) (ht : op.target s = some v) :
    Shown v s (op.apply s) ∧ OnScreen (op.apply s) := by
  have hon := hs.onScreen
  have hlook (vt : UInt8) (f : Vt → Vt) (hx : ∀ t, (f t).x = t.x) (hy : ∀ t, (f t).y = t.y) :
      Shown (vtIndex vt) s (s.setVt (vtIndex vt) f) ∧ OnScreen (s.setVt (vtIndex vt) f) :=
    ⟨shown_setVt f, onScreen_setLook vt hon hx hy⟩
  have hlookd (f : Vt → Vt) (hx : ∀ t, (f t).x = t.x) (hy : ∀ t, (f t).y = t.y) :
      Shown s.displayed s (s.setVt s.displayed f) ∧ OnScreen (s.setVt s.displayed f) := by
    obtain ⟨h1, h2⟩ := hon.cursor _ hs.displayed
    exact ⟨shown_setVt f, onScreen_setVt hon (by rw [hx]; exact h1) (by rw [hy]; exact h2)⟩
  cases op with
  | vtPutc vt c =>
    cases ht
    exact ⟨shown_vtPutcImpl hon (vtIndex_lt vt) c, onScreen_vtPutcImpl hon (vtIndex_lt vt) c⟩
  | vtClear vt =>
    cases ht
    exact ⟨shown_vtClearImpl, onScreen_vtClearImpl hon (vtIndex_lt vt)⟩
  | vtSetCursor vt x y =>
    cases ht
    exact ⟨shown_setVt_cursor _, onScreen_refreshCursor (onScreen_setVt hon hop.1 hop.2)⟩
  | vtSwitch vt => cases ht
  | vtMoveCursor vt dx dy =>
    cases ht
    exact ⟨shown_setVt_cursor _, onScreen_vgaVtMoveCursor vt hon dx dy⟩
  | vtClearToEol vt =>
    cases ht
    obtain ⟨hx, hy⟩ := hon.cursor _ (vtIndex_lt vt)
    refine ⟨(stores_blank s fun i hi => ?_).touches.refresh, onScreen_vgaVtClearToEol vt hon⟩
    obtain ⟨x, hmem, rfl⟩ := mem_map.mp hi
    have hmem := mem_range'_1.mp hmem
    exact cell_lt (by omega) hy
  | vtClearLine vt =>
    cases ht
    obtain ⟨hx, hy⟩ := hon.cursor _ (vtIndex_lt vt)
    refine ⟨(stores_blank s fun i hi => ?_).touches.refresh, onScreen_vgaVtClearLine vt hon⟩
    obtain ⟨x, hmem, rfl⟩ := mem_map.mp hi
    exact cell_lt (mem_range.mp hmem) hy
  | vtClearToEscreen vt =>
    cases ht
    refine ⟨(stores_blank s fun i hi => ?_).touches.refresh, onScreen_vgaVtClearToEscreen vt hon⟩
    have hi := mem_range'_1.mp hi
    omega
  | vtSetReverse vt reverse =>
    cases ht
    exact hlook vt (fun t => { t with reverse := reverse }) (fun _ => rfl) fun _ => rfl
  | vtSetFgColor vt color =>
    cases ht
    exact hlook vt (fun t => { t with fg := color }) (fun _ => rfl) fun _ => rfl
  | vtSetBgColor vt color =>
    cases ht
    exact hlook vt (fun t => { t with bg := color }) (fun _ => rfl) fun _ => rfl
  | vtSetCursorVisible vt visible =>
    cases ht
    exact ⟨shown_setVt_cursor _,
      onScreen_refreshCursor (onScreen_setLook vt hon (fun _ => rfl) fun _ => rfl)⟩
  | putc c =>
    cases ht
    exact ⟨shown_vtPutcImpl hon hs.displayed c, onScreen_vtPutcImpl hon hs.displayed c⟩
  | puts str =>
    cases ht
    exact shown_vgaPuts hon hs.displayed str
  | clear =>
    cases ht
    exact ⟨shown_vtClearImpl, onScreen_vtClearImpl hon hs.displayed⟩
  | setFgColor color =>
    cases ht
    exact hlookd (fun t => { t with fg := color }) (fun _ => rfl) fun _ => rfl
  | setBgColor color =>
    cases ht
    exact hlookd (fun t => { t with bg := color }) (fun _ => rfl) fun _ => rfl
  | setCursor x y =>
    cases ht
    have hset : OnScreen (s.setVt s.displayed fun t => { t with x := x, y := y }) :=
      onScreen_setVt hon hop.1 hop.2
    have hshown := shown_setVt (s := s) (v := s.displayed) fun t => { t with x := x, y := y }
    refine ⟨⟨fun u hu => ⟨(hshown.others u hu).vt, (hshown.others u hu).cells⟩, rfl,
      hshown.coherent⟩,
      hset.cursor, hset.writes⟩
  | putcAt x y c =>
    cases ht
    exact ⟨shown_vgaPutcAt c, onScreen_vgaPutcAt hon hs.displayed c⟩

/-- The switch to another terminal shows it. -/
theorem held_vtSwitch (hs : Held s) (vt : UInt8) :
    Held (s.vgaVtSwitch vt) ∧ ∀ u, SameVt u s (s.vgaVtSwitch vt) := by
  rw [Vga.vgaVtSwitch]
  split_ifs with hout
  · exact ⟨hs, fun _ => ⟨rfl, fun _ _ => rfl⟩⟩
  · exact ⟨⟨⟨hs.onScreen.cursor, hs.onScreen.writes⟩, Nat.lt_of_not_le hout, coherent_vgaFlush _⟩,
      fun _ => ⟨rfl, fun _ _ => rfl⟩⟩

/-- **Every operation keeps the invariant and the other terminals.** -/
theorem held_step {op : VgaOp} (hs : Held s) (hop : op.KeepsCursor) :
    Held (op.apply s) ∧ ∀ u, op.target s ≠ some u → SameVt u s (op.apply s) := by
  cases ht : op.target s with
  | some v =>
    obtain ⟨hshown, hon⟩ := shown_step hs hop ht
    exact ⟨hshown.held hs hon, fun u hu => hshown.others u fun heq => hu (by rw [heq])⟩
  | none =>
    cases op with
    | vtSwitch vt =>
      obtain ⟨hheld, hsame⟩ := held_vtSwitch hs vt
      exact ⟨hheld, fun u _ => hsame u⟩
    | _ => cases ht

/-! ## 5. Every run -/

theorem vgaInit_displayed : s.vgaInit.displayed = 0 := by
  have hturn : ∀ (vs : List Nat) (s : Vga), (vs.foldl (fun (s : Vga) v =>
      (s.setVt v fun _ => ⟨0, 0, 7, 0, false, true⟩).vtClearImpl v) s).displayed = s.displayed := by
    intro vs
    induction vs with
    | nil => exact fun _ => rfl
    | cons v vs ih => exact fun s => (ih _).trans shown_vtClearImpl.displayed
  rw [Vga.vgaInit, Vga.vgaFlush_displayed, hturn]

theorem held_vgaInit : Held s.vgaInit where
  onScreen := onScreen_vgaInit s
  displayed := by
    rw [vgaInit_displayed]
    decide
  coherent := coherent_vgaFlush _

/-- **After every operation the screen is the buffer of the displayed terminal, and the next
    operation leaves every other terminal as it is.** -/
theorem vga_coherent_isolated {s₀ : Vga}
    (h : Reaches VgaOp.step (fun _ op => op.KeepsCursor) s₀.vgaInit s) : Coherent s ∧
      ∀ op : VgaOp, op.KeepsCursor → Coherent (op.apply s) ∧
        ∀ u, op.target s ≠ some u → SameVt u s (op.apply s) := by
  have hs : Held s := h.inv held_vgaInit fun s s' op hs hop hstep => by
    cases hstep
    exact (held_step hs hop).1
  refine ⟨hs.coherent, fun op hop => ?_⟩
  obtain ⟨hheld, hothers⟩ := held_step hs hop
  exact ⟨hheld.coherent, hothers⟩

/-- A character on the second terminal, a switch to it, and a further character. -/
theorem vga_coherent_isolated_switch :
    ∃ s, Reaches VgaOp.step (fun _ op => op.KeepsCursor) bssVga.vgaInit s ∧ Coherent s ∧
      SameVt 0 s (VgaOp.apply s (.vtPutc 1 0x42)) := by
  have hr : Reaches VgaOp.step (fun _ op => op.KeepsCursor) bssVga.vgaInit
      ((bssVga.vgaInit.vgaVtPutc 1 0x41).vgaVtSwitch 1) :=
    .step _ _ (.vtSwitch 1) (.step _ _ (.vtPutc 1 0x41) .start trivial rfl) trivial rfl
  obtain ⟨hcoherent, hnext⟩ := vga_coherent_isolated hr
  exact ⟨_, hr, hcoherent, (hnext (.vtPutc 1 0x42) trivial).2 0 (by decide)⟩

end DyntKernel.Video
