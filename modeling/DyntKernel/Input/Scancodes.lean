/-
  File:      DyntKernel/Input/Scancodes.lean
  Subject:   SCANCODES AND MODIFIERS (driver/buildin/input/ps2/ps2_keyboard.c, keyboard_stack.c).

  * `Ps2Keyboard.irq` -- from a byte of scancode set 1 to the calls of `keyboard_report_key`;
  * `Stroke`, `Item` -- the presses and releases of keys, and the stray bytes between them;
  * `scancodes_reported` -- whatever arrives, exactly the strokes are reported;
  * `Modifiers`, `modifiers_iff` -- a modifier flag is that of the key that was reported last, and
    so wrong as soon as one of its two keys is released while the other one is held.
-/
import Mathlib.Data.List.Basic
import DyntKernel.Tty.Keyboard
import DyntKernel.Library.Runs

namespace DyntKernel.Input

open Library Tty List Function

/-! ## 1. Scancodes -/

/-- The flags of the driver, and its calls of `keyboard_report_key` so far. -/
structure Ps2Keyboard where
  extended : Bool
  released : Bool
  calls : List (UInt16 × Bool)

/-- **`ps2_keyboard_irq`**, with the byte from the port. -/
def Ps2Keyboard.irq (s : Ps2Keyboard) (byte : UInt8) : Ps2Keyboard :=
  if byte = 0xFA ∨ byte = 0x00 then { s with extended := false, released := false }
  else if byte = 0xE0 then { s with extended := true }
  else if byte = 0xF0 then { s with released := true }
  else
    let released := s.released || byte &&& 0x80 ≠ 0
    let byte := if byte &&& 0x80 ≠ 0 then byte &&& ~~~0x80 else byte
    let keycode := if s.extended then byte.toUInt16 ||| 0x100 else byte.toUInt16
    ⟨false, false, s.calls ++ [(keycode, !released)]⟩

/-- A key goes down or up. -/
structure Stroke where
  code : UInt8
  extended : Bool
  pressed : Bool
  range : 1 ≤ code ∧ code ≤ 0x5F

/-- What arrives: the bytes of a stroke, or a stray byte. -/
inductive Item where
  | stroke (k : Stroke)
  | stray (byte : UInt8) (h : byte = 0xFA ∨ byte = 0x00)

def Item.encode : Item → List UInt8
  | .stroke k =>
    (if k.extended then [0xE0] else []) ++ [if k.pressed then k.code else k.code ||| 0x80]
  | .stray byte _ => [byte]

/-- What has to be reported. -/
def Item.calls : Item → List (UInt16 × Bool)
  | .stroke k => [(if k.extended then k.code.toUInt16 + 0x100 else k.code.toUInt16, k.pressed)]
  | .stray _ _ => []

/-- The codes of plain keys are none of the control bytes, whether pressed or released. -/
theorem code_spec : ∀ n, n < 0x60 → 1 ≤ n → ∀ pressed : Bool,
    let byte : UInt8 := if pressed then .ofNat n else .ofNat n ||| 0x80
    byte ≠ 0xFA ∧ byte ≠ 0x00 ∧ byte ≠ 0xE0 ∧ byte ≠ 0xF0 ∧ (byte &&& 0x80 ≠ 0 ↔ pressed = false) ∧
      (if byte &&& 0x80 ≠ 0 then byte &&& ~~~0x80 else byte) = .ofNat n ∧
      (UInt8.ofNat n).toUInt16 ||| 0x100 = (UInt8.ofNat n).toUInt16 + 0x100 := by
  decide +kernel

theorem irq_item (i : Item) (calls : List (UInt16 × Bool)) :
    i.encode.foldl Ps2Keyboard.irq ⟨false, false, calls⟩ = ⟨false, false, calls ++ i.calls⟩ := by
  cases i with
  | stray byte h =>
    rw [Item.calls, append_nil]
    exact if_pos h
  | stroke k =>
    have hrange := k.range
    rw [UInt8.le_iff_toNat_le, UInt8.le_iff_toNat_le] at hrange
    obtain ⟨hack, hzero, hext, hrel, hbreak, hcode, hadd⟩ :=
      code_spec k.code.toNat (Nat.lt_succ_of_le hrange.2) hrange.1 k.pressed
    rw [UInt8.ofNat_toNat] at hack hzero hext hrel hbreak hcode hadd
    rw [Item.encode, Item.calls]
    generalize (if k.pressed = true then k.code else k.code ||| 0x80) = byte at *
    have hpressed : (!(false || decide (byte &&& 0x80 ≠ 0))) = k.pressed := by
      cases hp : k.pressed with
      | false => simp [hbreak.mpr hp]
      | true =>
        simp [show byte &&& 0x80 = 0 from not_not.mp fun h => by rw [hbreak.mp h] at hp; cases hp]
    have hkey : ∀ extended, Ps2Keyboard.irq ⟨extended, false, calls⟩ byte = ⟨false, false,
        calls ++ [(if extended then k.code.toUInt16 + 0x100 else k.code.toUInt16, k.pressed)]⟩ := by
      intro extended
      rw [Ps2Keyboard.irq, if_neg (not_or.mpr ⟨hack, hzero⟩), if_neg hext, if_neg hrel]
      dsimp only
      rw [hcode, hadd, hpressed]
    cases k.extended with
    | false => exact hkey false
    | true => exact hkey true

/-- **Exactly the strokes are reported**, and no prefix is left pending. -/
theorem scancodes_reported (items : List Item) (calls : List (UInt16 × Bool)) :
    (items.flatMap Item.encode).foldl Ps2Keyboard.irq ⟨false, false, calls⟩ =
      ⟨false, false, calls ++ items.flatMap Item.calls⟩ := by
  induction items generalizing calls with
  | nil => rw [flatMap_nil, flatMap_nil, append_nil, foldl_nil]
  | cons i items ih =>
    rw [flatMap_cons, foldl_append, irq_item, ih, flatMap_cons, append_assoc]

/-! ## 2. Modifiers -/

/-- **The flags of the modifiers are right**: each is set exactly when one of its two keys is
    held. -/
structure Modifiers (t : Keyboard) : Prop where
  shift : t.shift = (t.keyState keyLeftShift.toNat || t.keyState keyRightShift.toNat)
  ctrl : t.ctrl = (t.keyState keyLeftCtrl.toNat || t.keyState keyRightCtrl.toNat)
  alt : t.alt = (t.keyState keyLeftAlt.toNat || t.keyState keyRightAlt.toNat)

/-- The two keys of each modifier. -/
def modifierKeys : List (UInt16 × UInt16) :=
  [(keyLeftShift, keyRightShift), (keyLeftCtrl, keyRightCtrl), (keyLeftAlt, keyRightAlt)]

/-- The key is not one of `pair` that is released while the other one is held. -/
def AloneIn (t : Keyboard) (e : UInt16 × Bool) (pair : UInt16 × UInt16) : Prop := e.2 = false →
  (e.1 = pair.1 → t.keyState pair.2.toNat = false) ∧
  (e.1 = pair.2 → t.keyState pair.1.toNat = false)

/-- No key of a modifier is released while the other one is held. -/
def Alone (t : Keyboard) (e : UInt16 × Bool) : Prop := ∀ pair ∈ modifierKeys, AloneIn t e pair

/-- Keys are reported. -/
def typed (t : Keyboard) (es : List (UInt16 × Bool)) : Keyboard :=
  es.foldl (fun t e => t.keyboardReportKey e.1 e.2) t

variable {t : Keyboard}

/-- Besides the modifiers and the queue a report changes the terminals only. -/
theorem keyboardReportKey_eq (key : UInt16) (pressed : Bool) : ∃ vts active,
    t.keyboardReportKey key pressed = { (t.pressKey key pressed).enqueue
      ⟨key, hidKeyToAscii key (t.pressKey key pressed).shift, pressed⟩ with
      vts := vts, activeVt := active } := by
  have hinput : ∀ u : Keyboard, ∃ vts active, u.keyInput key pressed =
      { u with vts := vts, activeVt := active } := by
    intro u
    unfold Keyboard.keyInput Keyboard.ttySigintTrigger
    dsimp only
    split_ifs <;> exact ⟨_, _, rfl⟩
  rw [Keyboard.keyboardReportKey]
  generalize (t.pressKey key pressed).enqueue _ = u
  split_ifs
  · rw [Keyboard.ttyVtSwitch]
    split_ifs <;> exact ⟨_, _, rfl⟩
  · exact hinput u

theorem enqueue_view (e : KeyEvent) : (t.enqueue e).keyState = t.keyState ∧
    (t.enqueue e).shift = t.shift ∧
    (t.enqueue e).ctrl = t.ctrl ∧ (t.enqueue e).alt = t.alt := by
  rw [Keyboard.enqueue]
  split_ifs <;> exact ⟨rfl, rfl, rfl, rfl⟩

/-- One flag, and the key `e` that is reported. -/
theorem flag_iff {flag : Bool} {left right : UInt16} (hne : left ≠ right)
    (h : flag = (t.keyState left.toNat || t.keyState right.toNat)) (e : UInt16 × Bool) :
    (if e.1 = left ∨ e.1 = right then e.2 else flag) = ((t.pressKey e.1 e.2).keyState left.toNat ||
      (t.pressKey e.1 e.2).keyState right.toNat) ↔ AloneIn t e (left, right) := by
  have hne' : left.toNat ≠ right.toNat := fun heq => hne (UInt16.toNat_inj.mp heq)
  obtain ⟨key, pressed⟩ := e
  unfold AloneIn Keyboard.pressKey
  dsimp only
  by_cases hleft : key = left
  · rw [hleft, update_self, update_of_ne hne'.symm]
    cases pressed <;> simp [hne]
  by_cases hright : key = right
  · rw [hright, update_self, update_of_ne hne']
    cases pressed <;> simp [hne.symm]
  · have hl : left.toNat ≠ key.toNat := fun heq => hleft (UInt16.toNat_inj.mp heq).symm
    have hr : right.toNat ≠ key.toNat := fun heq => hright (UInt16.toNat_inj.mp heq).symm
    rw [if_neg (not_or.mpr ⟨hleft, hright⟩), update_of_ne hl, update_of_ne hr]
    simp [h, hleft, hright]

/-- **A report keeps the flags right exactly when it releases no key of a modifier whose other key
    is held.** -/
theorem Modifiers.report_iff (h : Modifiers t) (e : UInt16 × Bool) :
    Modifiers (t.keyboardReportKey e.1 e.2) ↔ Alone t e := by
  obtain ⟨vts, active, hreport⟩ := keyboardReportKey_eq (t := t) e.1 e.2
  rw [hreport]
  generalize KeyEvent.mk e.1 _ e.2 = event
  obtain ⟨hkeys, hshift, hctrl, halt⟩ := enqueue_view (t := t.pressKey e.1 e.2) event
  have hs := flag_iff (by decide : keyLeftShift ≠ keyRightShift) h.shift e
  have hc := flag_iff (by decide : keyLeftCtrl ≠ keyRightCtrl) h.ctrl e
  have ha := flag_iff (by decide : keyLeftAlt ≠ keyRightAlt) h.alt e
  rw [← hkeys] at hs hc ha
  rw [Alone, modifierKeys, forall_mem_cons, forall_mem_cons, forall_mem_singleton, ← hs, ← hc, ← ha]
  refine ⟨fun hm => ?_, fun hm => ?_⟩
  · exact ⟨hshift.symm.trans hm.shift, hctrl.symm.trans hm.ctrl, halt.symm.trans hm.alt⟩
  · exact ⟨hshift.trans hm.1, hctrl.trans hm.2.1, halt.trans hm.2.2⟩

/-- **The flags are right along a sequence of reports if and only if no key of a modifier is
    released while the other one is held.** -/
theorem modifiers_iff (lflag : Nat → UInt32) (es : List (UInt16 × Bool)) :
    (∀ done rest, es = done ++ rest → Modifiers (typed (.start lflag) done)) ↔
      ∀ done e rest, es = done ++ e :: rest → Alone (typed (.start lflag) done) e := by
  refine prefixes_iff ⟨rfl, rfl, rfl⟩ (fun done e hdone => ?_) es
  rw [typed, foldl_append]
  exact hdone.report_iff e

/-- Both shift keys go down and the left one comes up. -/
theorem shift_lost : ¬ ∀ (lflag : Nat → UInt32) (es : List (UInt16 × Bool)), (∀ e ∈ es, e.1 < 512) →
    Modifiers (typed (.start lflag) es) := by
  intro hall
  have hshift :=
    (hall (fun _ => 0) [(keyLeftShift, true), (keyRightShift, true), (keyLeftShift, false)]
    (forall_iff_forall_mem.mp (by decide))).shift
  exact absurd hshift (by decide)

end DyntKernel.Input
