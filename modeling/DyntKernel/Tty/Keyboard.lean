/-
  File:      DyntKernel/Tty/Keyboard.lean
  Subject:   THE KEYBOARD STACK AND THE LINES OF THE TERMINALS
             (driver/stacks/input/keyboard_stack.c).

  * `VtTty` -- the line and the raw queue of a virtual terminal; of its `termios` the flags
    `c_lflag`;
  * `Keyboard` -- the whole stack: keys, modifiers, the queue of key events, the terminals;
  * `hidKeyToAscii`, `Keyboard.keyboardReportKey` -- from a key to a character;
  * `VtTty.inputChar`, `Keyboard.ttySigintTrigger`, `Keyboard.ttyGetline`, `Keyboard.ttyDrainSerial`
    -- the lines.

  The echo to the screen and to the serial line is left out. A `char` is a byte; those from 0x80 on
  are negative.
-/
import Mathlib.Logic.Function.Basic

namespace DyntKernel.Tty

/-! ## 1. The terminals -/

/-- `TTY_LINE_MAX`. -/
def ttyLineMax : Nat := 256

/-- `TTY_VT_MAX`. -/
def ttyVtMax : Nat := 4

/-- `TTY_RAW_MAX`. -/
def ttyRawMax : Nat := 256

/-- `TTY_LFLAG_ISIG`. -/
def lflagIsig : UInt32 := 1

/-- `TTY_LFLAG_ICANON`. -/
def lflagIcanon : UInt32 := 2

/-- `vt_tty_t`. -/
structure VtTty where
  line : Nat → UInt8
  len : Nat
  ready : Bool
  sigint : Bool
  raw : Nat → UInt8
  rawHead : Nat
  rawTail : Nat
  lflag : UInt32

namespace VtTty

variable (t : VtTty)

/-- `tty_push_raw`; a full queue drops the byte. -/
def pushRaw (byte : UInt8) : VtTty :=
  let next := (t.rawHead + 1) % ttyRawMax
  if next = t.rawTail then t
  else { t with raw := Function.update t.raw t.rawHead byte, rawHead := next }

/-- `t->line[t->len++] = c`. -/
def append (c : UInt8) : VtTty :=
    { t with line := Function.update t.line t.len c, len := t.len + 1 }

/-- `t->line[t->len] = 0`. -/
def terminate : VtTty := { t with line := Function.update t.line t.len 0 }

/-- `tty_input_char`, on the active terminal. -/
def inputChar (c : UInt8) : VtTty :=
  if t.ready then t
  else if c = 0x0A then
    { (if t.len < ttyLineMax - 1 then t.append 0x0A else t).terminate with ready := true }
  else if c = 0x08 ∨ c = 0x7F then
    if 0 < t.len then ({ t with len := t.len - 1 } : VtTty).terminate else t
  else if 1 ≤ c ∧ c < 0x80 ∧ t.len < ttyLineMax - 1 then t.append c
  else t

end VtTty

/-! ## 2. Keys -/

def keyEsc : UInt16 := 0x01
def keyBackspace : UInt16 := 0x0E
def keyTab : UInt16 := 0x0F
def keyEnter : UInt16 := 0x1C
def keyLeftCtrl : UInt16 := 0x1D
def keyLeftShift : UInt16 := 0x2A
def keyC : UInt16 := 0x2E
def keyRightShift : UInt16 := 0x36
def keyLeftAlt : UInt16 := 0x38
def keyF1 : UInt16 := 0x3B
def keyF6 : UInt16 := 0x40
def keyRightCtrl : UInt16 := 0x11D
def keyRightAlt : UInt16 := 0x138

/-- `normal` of `hid_key_to_ascii`. -/
def normalKeys : List UInt8 :=
  [0, 0, 0x31, 0x32, 0x33, 0x34, 0x35, 0x36, 0x37, 0x38, 0x39, 0x30, 0x2D, 0x3D, 0,
    0, 0x71, 0x77, 0x65, 0x72,
    0x74, 0x79, 0x75, 0x69, 0x6F, 0x70, 0x5B, 0x5D, 0x0A, 0, 0x61, 0x73, 0x64, 0x66,
    0x67, 0x68, 0x6A, 0x6B, 0x6C,
    0x3B, 0x27, 0x60, 0, 0x5C, 0x7A, 0x78, 0x63, 0x76, 0x62, 0x6E, 0x6D, 0x2C,
    0x2E, 0x2F, 0, 0, 0, 0x20]

/-- `shifted` of `hid_key_to_ascii`. -/
def shiftedKeys : List UInt8 :=
  [0, 0, 0x21, 0x40, 0x23, 0x24, 0x25, 0x5E, 0x26, 0x2A, 0x28, 0x29, 0x5F, 0x2B, 0,
    0, 0x51, 0x57, 0x45, 0x52,
    0x54, 0x59, 0x55, 0x49, 0x4F, 0x50, 0x7B, 0x7D, 0x0A, 0, 0x41, 0x53, 0x44, 0x46,
    0x47, 0x48, 0x4A, 0x4B, 0x4C,
    0x3A, 0x22, 0x7E, 0, 0x7C, 0x5A, 0x58, 0x43, 0x56, 0x42, 0x4E, 0x4D, 0x3C,
    0x3E, 0x3F, 0, 0, 0, 0x20]

def hidKeyToAscii (keycode : UInt16) (shift : Bool) : UInt8 :=
  if 0x3A ≤ keycode then 0 else (if shift then shiftedKeys else normalKeys)[keycode.toNat]?.getD 0

/-- The escape sequences of `keyboard_raw_push`, and the keys with a byte of their own. -/
def rawSpecial : List (UInt16 × List UInt8) :=
  [(0x148, [0x1B, 0x5B, 0x41]), (0x150, [0x1B, 0x5B, 0x42]), (0x14D, [0x1B, 0x5B, 0x43]),
    (0x14B, [0x1B, 0x5B, 0x44]), (0x147, [0x1B, 0x5B, 0x31, 0x7E]),
    (0x14F, [0x1B, 0x5B, 0x34, 0x7E]),
    (0x149, [0x1B, 0x5B, 0x35, 0x7E]), (0x151, [0x1B, 0x5B, 0x36, 0x7E]),
    (0x153, [0x1B, 0x5B, 0x33, 0x7E]),
    (keyEsc, [0x1B]), (keyTab, [0x09]), (keyEnter, [0x0A]), (keyBackspace, [0x7F])]

/-- The bytes that `keyboard_raw_push` pushes. -/
def rawBytes (key : UInt16) (shift ctrl : Bool) : List UInt8 :=
  match rawSpecial.lookup key with
  | some bytes => bytes
  | none =>
    let letter := hidKeyToAscii key false
    if ctrl ∧ 0x61 ≤ letter ∧ letter ≤ 0x7A then [letter &&& 0x1F]
    else
      let ascii := hidKeyToAscii key shift
      if 0x20 ≤ ascii then [ascii] else []

/-- `keyboard_event_t`. -/
structure KeyEvent where
  keycode : UInt16
  ascii : UInt8
  pressed : Bool

/-- `KEYBOARD_QUE_SIZE`. -/
def keyboardQueSize : Nat := 256

/-! ## 3. The stack -/

/-- The statics of the keyboard stack; drivers report keys below 512, the size of `key_state`. -/
structure Keyboard where
  keyState : Nat → Bool
  shift : Bool
  ctrl : Bool
  alt : Bool
  queue : Nat → KeyEvent
  head : Nat
  tail : Nat
  vts : Nat → VtTty
  activeVt : Nat

namespace Keyboard

variable (t : Keyboard)

def setVt (v : Nat) (f : VtTty → VtTty) : Keyboard :=
  { t with vts := Function.update t.vts v (f (t.vts v)) }

def ttyRawMode (vt : Nat) : Bool := vt < ttyVtMax ∧ (t.vts vt).lflag &&& lflagIcanon = 0

def ttyVtSwitch (vt : UInt8) : Keyboard :=
  if ttyVtMax ≤ vt.toNat then t else { t with activeVt := vt.toNat }

def ttyInputChar (c : UInt8) : Keyboard := t.setVt t.activeVt fun x => x.inputChar c

def ttySigintTrigger (vt : Nat) : Keyboard :=
  if ttyVtMax ≤ vt then t
  else t.setVt vt fun x =>
    { x with sigint := true, len := 0, line := Function.update x.line 0 0, ready := false }

/-- `tty_getline`: the length and what stands in the buffer, unless it is left alone. -/
def ttyGetline (vt : UInt8) (size : Int) : Int × Option (List UInt8) × Keyboard :=
  if ttyVtMax ≤ vt.toNat then (0, none, t)
  else
    let x := t.vts vt.toNat
    if x.ready then
      let n : Int := if size - 1 < x.len then size - 1 else x.len
      (n, some ((List.range n.toNat).map x.line), t.setVt vt.toNat fun x =>
        { x with len := 0, ready := false })
    else (0, none, t)

/-- The modifiers and the state of the keys. -/
def pressKey (key : UInt16) (pressed : Bool) : Keyboard :=
  { t with
    keyState := Function.update t.keyState key.toNat pressed
    shift := if key = keyLeftShift ∨ key = keyRightShift then pressed else t.shift
    ctrl := if key = keyLeftCtrl ∨ key = keyRightCtrl then pressed else t.ctrl
    alt := if key = keyLeftAlt ∨ key = keyRightAlt then pressed else t.alt }

/-- A full queue drops the event. -/
def enqueue (e : KeyEvent) : Keyboard :=
  let next := (t.head + 1) % keyboardQueSize
  if next = t.tail then t else { t with queue := Function.update t.queue t.head e, head := next }

/-- `keyboard_report_key` behind the switch of the terminal. -/
def keyInput (key : UInt16) (pressed : Bool) : Keyboard :=
  let vt := t.activeVt
  if t.ttyRawMode vt then
    if pressed then t.setVt vt fun x => (rawBytes key t.shift t.ctrl).foldl VtTty.pushRaw x else t
  else if !pressed then t
  else if t.ctrl ∧ key = keyC ∧ (t.vts vt).lflag &&& lflagIsig ≠ 0 then t.ttySigintTrigger vt
  else if key = keyEnter then t.ttyInputChar 0x0A
  else if key = keyBackspace then t.ttyInputChar 0x08
  else if hidKeyToAscii key t.shift ≠ 0 then t.ttyInputChar (hidKeyToAscii key t.shift)
  else t

def keyboardReportKey (key : UInt16) (pressed : Bool) : Keyboard :=
  let t := t.pressKey key pressed
  let t := t.enqueue ⟨key, hidKeyToAscii key t.shift, pressed⟩
  if t.ctrl ∧ t.alt ∧ keyF1 ≤ key ∧ key ≤ keyF6 then t.ttyVtSwitch (key - keyF1).toUInt8
  else t.keyInput key pressed

/-- `tty_drain_serial`, with the bytes that have come in. -/
def ttyDrainSerial (bytes : List UInt8) : Keyboard :=
  let vt := t.activeVt
  bytes.foldl (fun t c => if t.ttyRawMode vt then t.setVt vt fun x =>
    x.pushRaw c else t.ttyInputChar c) t

/-- `keyboard_stack_init`, from the zeroed statics; the terminals have the flags `lflag`. -/
def start (lflag : Nat → UInt32) : Keyboard :=
  ⟨fun _ => false, false, false, false, fun _ => ⟨0, 0, false⟩, 0, 0,
    fun v => ⟨fun _ => 0, 0, false, false, fun _ => 0, 0, 0, lflag v⟩, 0⟩

end Keyboard

end DyntKernel.Tty
