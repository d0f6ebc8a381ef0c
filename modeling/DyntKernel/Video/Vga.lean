/-
  File:      DyntKernel/Video/Vga.lean
  Subject:   THE VGA TEXT DRIVER (driver/buildin/video/vga/vga.c) and its virtual terminals.

  * `Vt` -- the per-terminal statics (`vt_x`, `vt_y`, `vt_fg`, `vt_bg`, `vt_reverse`,
    `vt_cursor_visible`); the 16-bit cursor fields are naturals below `2 ^ 16`;
  * `Vga` -- all of the driver: `buf` is the memory at `vt_buf`, cell `i` of terminal `v` at
    `v * vgaCells + i`, and goes on behind the array; `screen` is the text memory at 0xB8000;
    `writes` is the trace of the stores to `vt_buf`, terminal and cell index as computed;
  * the loops over cells are folds over the same index ranges, in the same order.
-/
import Mathlib.Logic.Function.Basic
import Mathlib.Data.List.Basic

namespace DyntKernel.Video

/-- `VGA_COLS`. -/
def vgaCols : Nat := 80

/-- `VGA_ROWS`. -/
def vgaRows : Nat := 25

/-- `VGA_CELLS`. -/
def vgaCells : Nat := 2000

/-- `VGA_VT_MAX`. -/
def vgaVtMax : Nat := 4

/-- A store to a 16-bit variable. -/
def u16 (n : Nat) : Nat := n % 65536

/-- The statics of one virtual terminal. -/
structure Vt where
  x : Nat
  y : Nat
  fg : UInt8
  bg : UInt8
  reverse : Bool
  cursorVisible : Bool
  deriving DecidableEq, Repr

/-- The driver. -/
structure Vga where
  buf : Nat → UInt16
  vts : Nat → Vt
  displayed : Nat
  screen : Nat → UInt16
  hwCursor : Nat
  writes : List (Nat × Nat)

/-- `char` is signed: a byte from 0x80 on extends into the attribute. -/
def vgaCell (c color : UInt8) : UInt16 :=
  (if c < 0x80 then c.toUInt16 else c.toUInt16 ||| 0xFF00) ||| (color.toUInt16 <<< 8)

/-- The terminal the `vga_vt_*` functions work on. -/
def vtIndex (vt : UInt8) : Nat := if vgaVtMax ≤ vt.toNat then 0 else vt.toNat

theorem vtIndex_lt (vt : UInt8) : vtIndex vt < vgaVtMax := by
  unfold vtIndex
  split
  · decide
  · omega

namespace Vga

variable (s : Vga) (v : Nat)

/-- Rewrites the statics of one terminal. -/
def setVt (f : Vt → Vt) : Vga := { s with vts := Function.update s.vts v (f (s.vts v)) }

@[simp] theorem setVt_self (f : Vt → Vt) : (s.setVt v f).vts v = f (s.vts v) :=
  Function.update_self ..

theorem setVt_ne {u : Nat} (hu : u ≠ v) (f : Vt → Vt) : (s.setVt v f).vts u = s.vts u :=
  Function.update_of_ne hu ..

@[simp] theorem setVt_writes (f : Vt → Vt) : (s.setVt v f).writes = s.writes := rfl

/-- `vt_buf[v][i] = cell`. -/
def store (i : Nat) (cell : UInt16) : Vga :=
  { s with buf := Function.update s.buf (v * vgaCells + i) cell, writes := (v, i) :: s.writes }

@[simp] theorem store_displayed (i : Nat) (cell : UInt16) :
    (s.store v i cell).displayed = s.displayed := rfl
@[simp] theorem store_screen (i : Nat) (cell : UInt16) : (s.store v i cell).screen = s.screen := rfl

/-- `vt_buf[v][i]`. -/
def load (i : Nat) : UInt16 := s.buf (v * vgaCells + i)

def vgaAttr : UInt8 :=
  if (s.vts v).reverse then (s.vts v).fg <<< 4 ||| (s.vts v).bg
  else (s.vts v).bg <<< 4 ||| (s.vts v).fg

def vgaFlush : Vga :=
  { s with screen := fun i => if i < vgaCells then s.load s.displayed i else s.screen i }

@[simp] theorem vgaFlush_vts : s.vgaFlush.vts = s.vts := rfl
@[simp] theorem vgaFlush_displayed : s.vgaFlush.displayed = s.displayed := rfl
@[simp] theorem vgaFlush_writes : s.vgaFlush.writes = s.writes := rfl

def vgaUpdateCursor : Vga :=
  let t := s.vts s.displayed
  { s with hwCursor := if t.cursorVisible then u16 (t.y * vgaCols + t.x) else vgaCells - 1 }

/-- `if (v == displayed_vt) { vga_flush(); vga_update_cursor(); }` -/
def refresh : Vga := if v = s.displayed then s.vgaFlush.vgaUpdateCursor else s

/-- Blanks the cells `is` of a terminal, in this order. -/
def blank (is : List Nat) : Vga :=
  is.foldl (fun s i => s.store v i (vgaCell 0x20 (s.vgaAttr v))) s

def vtScroll : Vga :=
  let s := (List.range' 1 (vgaRows - 1)).foldl (fun s y =>
    (List.range vgaCols).foldl (fun s x =>
      s.store v ((y - 1) * vgaCols + x) (s.load v (y * vgaCols + x))) s) s
  s.blank v ((List.range vgaCols).map ((vgaRows - 1) * vgaCols + ·))

def vtClearImpl : Vga :=
  (((s.blank v (List.range vgaCells)).setVt v fun t => { t with x := 0, y := 0 })).refresh v

/-- The `switch` of `vt_putc_impl`: the control characters and the drawn cell. -/
def putcCell (c : UInt8) : Vga :=
  let t := s.vts v
  if c = 0x0A then s.setVt v fun t => { t with x := 0, y := u16 (t.y + 1) }
  else if c = 0x0D then s.setVt v fun t => { t with x := 0 }
  else if c = 0x09 then s.setVt v fun t => { t with x := u16 ((t.x + 8) / 8 * 8) }
  else if c = 0x08 then
    if 0 < t.x then
      let s := s.setVt v fun t => { t with x := t.x - 1 }
      s.store v (t.y * vgaCols + (t.x - 1)) (vgaCell 0x20 (s.vgaAttr v))
    else s
  else
    (s.store v (t.y * vgaCols + t.x) (vgaCell c (s.vgaAttr v))).setVt v
      fun t => { t with x := u16 (t.x + 1) }

/-- The wrap at the end of a line. -/
def putcWrap : Vga :=
  if vgaCols ≤ (s.vts v).x then s.setVt v fun t => { t with x := 0, y := u16 (t.y + 1) } else s

/-- The scroll at the end of the screen. -/
def putcScroll : Vga :=
  if vgaRows ≤ (s.vts v).y then (s.vtScroll v).setVt v fun t => { t with y := vgaRows - 1 } else s

def vtPutcImpl (c : UInt8) : Vga := (((s.putcCell v c).putcWrap v).putcScroll v).refresh v

/-- `vga_init`; the trace of stores starts here. -/
def vgaInit : Vga :=
  ((List.range vgaVtMax).foldl (fun (s : Vga) v =>
    (s.setVt v fun _ => ⟨0, 0, 7, 0, false, true⟩).vtClearImpl v)
    { s with displayed := 0, writes := [] }).vgaFlush

end Vga

/-! ## The virtual terminal functions used by the tty syscalls -/

namespace Vga

variable (s : Vga) (vt : UInt8)

def vgaVtPutc (c : UInt8) : Vga := s.vtPutcImpl (vtIndex vt) c

def vgaVtClear : Vga := s.vtClearImpl (vtIndex vt)

/-- The cursor of the displayed terminal goes to the hardware. -/
def refreshCursor (v : Nat) : Vga := if v = s.displayed then s.vgaUpdateCursor else s

def vgaVtSetCursor (x y : Nat) : Vga :=
  (s.setVt (vtIndex vt) fun t => { t with x := x, y := y }).refreshCursor (vtIndex vt)

/-- A conversion to `int16_t`. -/
def i16 (n : Int) : Int := n.bmod 65536

/-- `vga_vt_move_cursor`'s clamp of one coordinate to `0 .. limit - 1`. -/
def clampCoord (n : Int) (limit : Nat) : Nat :=
  if n < 0 then 0 else if (limit : Int) ≤ n then limit - 1 else n.toNat

def vgaVtMoveCursor (dx dy : Int) : Vga :=
  (s.setVt (vtIndex vt) fun t =>
    { t with
      x := clampCoord (i16 (i16 t.x + dx)) vgaCols
      y := clampCoord (i16 (i16 t.y + dy)) vgaRows }).refreshCursor (vtIndex vt)

def vgaVtClearToEol : Vga :=
  let v := vtIndex vt
  let t := s.vts v
  (s.blank v ((List.range' t.x (vgaCols - t.x)).map (t.y * vgaCols + ·))).refresh v

def vgaVtClearLine : Vga :=
  let v := vtIndex vt
  (s.blank v ((List.range vgaCols).map ((s.vts v).y * vgaCols + ·))).refresh v

def vgaVtClearToEscreen : Vga :=
  let v := vtIndex vt
  let start := (s.vts v).y * vgaCols + (s.vts v).x
  (s.blank v (List.range' start (vgaCells - start))).refresh v

def vgaVtSetReverse (reverse : Bool) : Vga :=
  s.setVt (vtIndex vt) fun t => { t with reverse := reverse }

def vgaVtSetFgColor (color : UInt8) : Vga := s.setVt (vtIndex vt) fun t => { t with fg := color }

def vgaVtSetBgColor (color : UInt8) : Vga := s.setVt (vtIndex vt) fun t => { t with bg := color }

def vgaVtSetCursorVisible (visible : Bool) : Vga :=
  (s.setVt (vtIndex vt) fun t => { t with cursorVisible := visible }).refreshCursor (vtIndex vt)

def vgaVtSwitch : Vga :=
  if vgaVtMax ≤ vt.toNat then s
    else ({ s with displayed := vt.toNat } : Vga).vgaFlush.vgaUpdateCursor

end Vga

/-! ## The functions of the registered driver, on the displayed terminal -/

namespace Vga

variable (s : Vga)

def vgaPutc (c : UInt8) : Vga := s.vtPutcImpl s.displayed c

def vgaPuts (str : List UInt8) : Vga := str.foldl vgaPutc s

def vgaClear : Vga := s.vtClearImpl s.displayed

def vgaSetFgColor (color : UInt8) : Vga := s.setVt s.displayed fun t => { t with fg := color }

def vgaSetBgColor (color : UInt8) : Vga := s.setVt s.displayed fun t => { t with bg := color }

def vgaSetCursor (x y : Nat) : Vga :=
  (s.setVt s.displayed fun t => { t with x := x, y := y }).vgaUpdateCursor

def vgaPutcAt (x y : Nat) (c : UInt8) : Vga :=
  if vgaCols ≤ x ∨ vgaRows ≤ y then s
  else
    let i := y * vgaCols + x
    let s' := s.store s.displayed i (vgaCell c (s.vgaAttr s.displayed))
    { s' with screen := Function.update s'.screen i (s'.load s'.displayed i) }

end Vga

end DyntKernel.Video
