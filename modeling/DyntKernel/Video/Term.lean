/-
  File:      DyntKernel/Video/Term.lean
  Subject:   THE TERMINAL WRITER `term_write` (arch/x86_64/syscall/syscall_dispatch.c): the
             escape parser and what it makes the driver do.

  The parser is local to one call. One turn of its loop (`termTurn`) reads a byte and yields
  the next parser state, the operations it performs (`TermOp`) and whether the turn ended with
  `i--`, so that the next turn sees the same byte again. Whether a driver is registered is
  `Console.hasDriver`; `Console.serial` is what went to the serial port, in order.
-/
import DyntKernel.Video.Vga

namespace DyntKernel.Video

/-- `params[4]`, `nparams` and `priv` of an unfinished control sequence. -/
structure Csi where
  params : Nat → Int32
  nparams : Nat
  priv : Bool

/-- The three parser states. -/
inductive Parser where
  | norm
  | esc
  | csi (st : Csi)

/-- What a turn of the loop makes the driver do. -/
inductive TermOp where
  | putc (c : UInt8)
  | csi (st : Csi) (final : UInt8)

def isDigit (c : UInt8) : Bool := 0x30 ≤ c ∧ c ≤ 0x39

def isLetter (c : UInt8) : Bool := (0x41 ≤ c ∧ c ≤ 0x5A) ∨ (0x61 ≤ c ∧ c ≤ 0x7A)

/-- `params[nparams] = params[nparams] * 10 + (c - '0')`, from 0 if it is not set yet. -/
def Csi.addDigit (st : Csi) (c : UInt8) : Csi :=
  if st.nparams < 4 then
    let p := if st.params st.nparams < 0 then 0 else st.params st.nparams
    let p' := p * 10 + (c - 0x30).toUInt32.toInt32
    { st with params := Function.update st.params st.nparams p' }
  else st

/-- One turn of the loop on the byte `c`: parser, operations, and whether it ends in `i--`. -/
def termTurn : Parser → UInt8 → Parser × List TermOp × Bool
  | .norm, c => if c = 0x1B then (.esc, [], false) else (.norm, [.putc c], false)
  | .esc, c =>
    if c = 0x5B then (.csi ⟨fun _ => -1, 0, false⟩, [], false)
    else (.norm, [.putc 0x1B, .putc c], false)
  | .csi st, c =>
    if c = 0x3F then (.csi { st with priv := true }, [], false)
    else if isDigit c then (.csi (st.addDigit c), [], false)
    else if c = 0x3B then
      (.csi (if st.nparams < 3 then { st with nparams := st.nparams + 1 } else st), [], false)
    else if isLetter c then (.norm, [.csi st c], false)
    else if c = 0x1B then (.norm, [], true)
    else (.csi st, [], false)

/-- The operations of a whole buffer, from parser state `st`. A turn that ends in `i--` is
    followed by a turn on the same byte. -/
def termOps : Parser → List UInt8 → List TermOp
  | _, [] => []
  | st, c :: cs =>
    let r := termTurn st c
    if r.2.2 then
      let r' := termTurn r.1 c
      r.2.1 ++ r'.2.1 ++ termOps r'.1 cs
    else r.2.1 ++ termOps r.1 cs

/-- The bytes the loop sends to the serial port. -/
def termSerial : Parser → List UInt8 → List UInt8
  | _, [] => []
  | st, c :: cs =>
    let r := termTurn st c
    if r.2.2 then c :: c :: termSerial (termTurn r.1 c).1 cs else c :: termSerial r.1 cs

def sgrToVga (sgr : Int32) : UInt8 :=
  match sgr.toInt with
  | 30 => 0 | 31 => 4 | 32 => 2 | 33 => 14 | 34 => 1 | 35 => 5 | 36 => 3 | 37 => 7
  | 90 => 8 | 91 => 12 | 92 => 10 | 93 => 14 | 94 => 9 | 95 => 13 | 96 => 11 | 97 => 15
  | _ => 0xFF

/-- The parameter `params[i]` as `csi_apply` reads `p0` and `p1`: `nparams` there counts one
    more than the separators seen. -/
def Csi.param (st : Csi) (i : Nat) : Int :=
  if i < st.nparams + 1 ∧ 0 ≤ st.params i then (st.params i).toInt else 0

/-- One parameter of the SGR sequence. -/
def sgrApply (s : Vga) (vt : UInt8) (param : Int32) : Vga :=
  let p := if param < 0 then 0 else param
  if p = 0 then ((s.vgaVtSetReverse vt false).vgaVtSetFgColor vt 7).vgaVtSetBgColor vt 0
  else if p = 7 then s.vgaVtSetReverse vt true
  else if p = 39 then s.vgaVtSetFgColor vt 7
  else if sgrToVga p ≠ 0xFF then s.vgaVtSetFgColor vt (sgrToVga p)
  else s

/-- The row of a cursor-position sequence, `(uint16_t)(p0 - 1)`, 0 by default. -/
def Csi.row (st : Csi) : Nat := if 0 < st.param 0 then u16 (st.param 0 - 1).toNat else 0

/-- Its column. -/
def Csi.col (st : Csi) : Nat := if 0 < st.param 1 then u16 (st.param 1 - 1).toNat else 0

/-- The step count of a cursor movement, 1 by default. -/
def Csi.count (st : Csi) : Int := if 0 < st.param 0 then st.param 0 else 1

def csiApply (s : Vga) (vt : UInt8) (st : Csi) (final : UInt8) : Vga :=
  if st.priv then
    if st.param 0 = 25 ∧ (final = 0x6C ∨ final = 0x68) then
      s.vgaVtSetCursorVisible vt (final = 0x68)
    else s
  else if final = 0x48 ∨ final = 0x66 then s.vgaVtSetCursor vt st.col st.row
  else if final = 0x41 then s.vgaVtMoveCursor vt 0 (Vga.i16 (-st.count))
  else if final = 0x42 then s.vgaVtMoveCursor vt 0 (Vga.i16 st.count)
  else if final = 0x43 then s.vgaVtMoveCursor vt (Vga.i16 st.count) 0
  else if final = 0x44 then s.vgaVtMoveCursor vt (Vga.i16 (-st.count)) 0
  else if final = 0x4A then if st.param 0 = 2 then s.vgaVtClear vt else s.vgaVtClearToEscreen vt
  else if final = 0x4B then if st.param 0 = 2 then s.vgaVtClearLine vt else s.vgaVtClearToEol vt
  else if final = 0x6D then
    (List.range (st.nparams + 1)).foldl (fun s i => sgrApply s vt (st.params i)) s
  else s

/-- One operation on the terminal `vt`. -/
def TermOp.apply (vt : UInt8) (s : Vga) : TermOp → Vga
  | .putc c => s.vgaVtPutc vt c
  | .csi st final => csiApply s vt st final

/-- The console: the driver, whether it is registered, and the serial output so far. -/
structure Console where
  vga : Vga
  hasDriver : Bool
  serial : List UInt8

/-- **`term_write`.** Without a driver every byte only goes to the serial port. -/
def Console.termWrite (k : Console) (vt : UInt8) (buf : List UInt8) : Console :=
  if k.hasDriver then
    { k with
      vga := (termOps .norm buf).foldl (TermOp.apply vt) k.vga
      serial := k.serial ++ termSerial .norm buf }
  else { k with serial := k.serial ++ buf }

end DyntKernel.Video
