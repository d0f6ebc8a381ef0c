/-
  File:      DyntKernel/Tty/Lines.lean
  Subject:   THE LINE THAT `tty_getline` DELIVERS, as a fold over what was typed.

  What the lines are for: a terminal has a list of inputs, those that came in while it was the
  active one and no finished line was waiting. A line is what the editing rules make of them.

  * `Input`, `edit`, `typed`, `Finished`, `arrive` -- the rules; none of it knows the buffers;
  * `absorb` -- what the source takes: Ctrl+C clears a finished line that nobody has read yet, too;
  * `VtTty.Shows` -- a buffer holds the line of a list of inputs, with a step lemma for each change;
  * `TtyEvent`, `Session` -- the stack together with the inputs of each terminal;
  * `getline_absorbed` -- in every run, `tty_getline` delivers the line of what the source took, and
    a terminal changes by its own input only;
  * `getline_typed` -- and that is the line that was typed, as long as no Ctrl+C finds a finished
    line.
-/
import DyntKernel.Library.Runs
import DyntKernel.Tty.Keyboard
import Mathlib.Data.List.Induction

namespace DyntKernel.Tty

open Library List Function

/-! ## 1. The editing rules -/

/-- A character, or Ctrl+C. -/
inductive Input
  | byte (c : UInt8)
  | interrupt
  deriving DecidableEq

/-- The characters a terminal takes. -/
def Input.Taken : Input → Prop
  | .byte c => 1 ≤ c ∧ c < 0x80
  | .interrupt => True

instance : DecidablePred Input.Taken
  | .byte _ => inferInstanceAs (Decidable (_ ∧ _))
  | .interrupt => inferInstanceAs (Decidable True)

/-- **The editing rules**: a character is appended below 255, the newline as well; backspace deletes
    the last one; Ctrl+C clears. -/
def edit (line : List UInt8) : Input → List UInt8
  | .byte c =>
    if c = 0x08 ∨ c = 0x7F then line.dropLast
    else if line.length < 255 then line ++ [c] else line
  | .interrupt => []

/-- The line that was typed. -/
def typed (inputs : List Input) : List UInt8 := inputs.foldl edit []

/-- The newline finishes the line. -/
def Finished (inputs : List Input) : Prop := inputs.getLast? = some (.byte 0x0A)

instance (inputs : List Input) : Decidable (Finished inputs) := inferInstanceAs (Decidable (_ = _))

/-- What comes in is taken, unless a finished line is waiting. -/
def arrive (inputs : List Input) (i : Input) : List Input :=
  if i.Taken ∧ ¬ Finished inputs then inputs ++ [i] else inputs

theorem arrive_of_not_finished {inputs : List Input} {i : Input} (htaken : i.Taken)
    (hfin : ¬ Finished inputs) : arrive inputs i = inputs ++ [i] := if_pos ⟨htaken, hfin⟩

theorem arrive_of_finished {inputs : List Input} {i : Input} (hfin : Finished inputs) :
    arrive inputs i = inputs := if_neg fun h => h.2 hfin

theorem arrive_of_not_taken {inputs : List Input} {i : Input} (htaken : ¬ i.Taken) :
    arrive inputs i = inputs := if_neg fun h => htaken h.1

/-- **What the source takes**: `tty_sigint_trigger` clears the line whether it is finished or
    not. -/
def absorb (inputs : List Input) : Input → List Input
  | .byte c => arrive inputs (.byte c)
  | .interrupt => inputs ++ [.interrupt]

theorem absorb_eq_arrive {inputs : List Input} {i : Input}
    (h : i = .interrupt → ¬ Finished inputs) : absorb inputs i = arrive inputs i := by
  cases i with
  | byte c => rfl
  | interrupt => exact (arrive_of_not_finished (i := .interrupt) trivial (h rfl)).symm

theorem typed_append (inputs : List Input) (i : Input) :
    typed (inputs ++ [i]) = edit (typed inputs) i :=
  foldl_append ..

theorem finished_append {inputs : List Input} {i : Input} :
    Finished (inputs ++ [i]) ↔ i = .byte 0x0A := by
  rw [Finished, List.getLast?_concat, Option.some.injEq]

theorem edit_length {line : List UInt8} (h : line.length ≤ 255) (i : Input) :
    (edit line i).length ≤ 255 := by
  cases i with
  | interrupt => exact Nat.zero_le _
  | byte c =>
    rw [edit]
    split_ifs with hback hroom
    · rw [length_dropLast]
      omega
    · rw [length_append, length_singleton]
      omega
    · exact h

theorem typed_length (inputs : List Input) : (typed inputs).length ≤ 255 := by
  induction inputs using List.reverseRecOn with
  | nil => exact Nat.zero_le _
  | append_singleton inputs i ih =>
    rw [typed_append]
    exact edit_length ih i

/-! ## 2. The buffer -/

namespace VtTty

variable {t : VtTty} {inputs : List Input}

/-- The characters of the buffer. -/
def content (t : VtTty) : List UInt8 := (List.range t.len).map t.line

/-- **The buffer holds the line of the inputs.** -/
structure Shows (t : VtTty) (inputs : List Input) : Prop where
  content : t.content = typed inputs
  ready : t.ready = true ↔ Finished inputs

theorem content_length (t : VtTty) : t.content.length = t.len := by
  rw [content, length_map, length_range]

theorem Shows.len (h : t.Shows inputs) : t.len = (typed inputs).length := by
  rw [← h.content, content_length]

theorem content_congr {t' : VtTty} (hlen : t'.len = t.len)
    (hline : ∀ i, i < t.len → t'.line i = t.line i) :
    t'.content = t.content := by
  rw [content, content, hlen]
  exact map_congr_left fun i hi => hline i (mem_range.mp hi)

theorem content_append (c : UInt8) : (t.append c).content = t.content ++ [c] := by
  simp only [content, append, range_succ, map_append, map_singleton, update_self]
  refine congrArg (· ++ [c]) (map_congr_left fun i hi => update_of_ne ?_ _ _)
  exact Nat.ne_of_lt (mem_range.mp hi)

theorem content_terminate : t.terminate.content = t.content :=
  content_congr rfl fun _ hi => update_of_ne (Nat.ne_of_lt hi) _ _

theorem content_shorten (hpos : 0 < t.len) :
    ({ t with len := t.len - 1 } : VtTty).content = t.content.dropLast := by
  obtain ⟨n, hn⟩ : ∃ n, t.len = n + 1 := ⟨t.len - 1, by omega⟩
  rw [content, content, hn, range_succ, map_append, map_singleton, dropLast_concat]
  rfl

/-- A newline. -/
theorem Shows.newline (h : t.Shows inputs) :
    ({ (if t.len < ttyLineMax - 1 then t.append 0x0A else t).terminate with ready :=
      true } : VtTty).Shows
      (inputs ++ [.byte 0x0A]) where
  content := by
    have hedit : typed (inputs ++ [.byte 0x0A]) = if t.len < 255 then t.content ++
        [0x0A] else t.content := by
      rw [typed_append, edit, if_neg (by decide), ← h.content, content_length]
    rw [hedit]
    split_ifs with hroom hroom' hroom'
    · exact (content_terminate (t := t.append 0x0A)).trans (content_append 0x0A)
    · exact absurd hroom hroom'
    · exact absurd hroom' hroom
    · exact content_terminate (t := t)
  ready := by simp [finished_append]

/-- A character that does not finish the line leaves it open. -/
theorem ready_append {c : UInt8} {ready : Bool} (hready : ready = false) (hnl : c ≠ 0x0A) :
    ready = true ↔ Finished (inputs ++ [.byte c]) := by
  rw [finished_append, Input.byte.injEq, hready]
  exact ⟨fun hf => absurd hf Bool.false_ne_true, fun hc => absurd hc hnl⟩

/-- A backspace. -/
theorem Shows.backspace {c : UInt8} (h : t.Shows inputs) (hready : t.ready = false)
    (hback : c = 0x08 ∨ c = 0x7F) :
    (if 0 < t.len then ({ t with len := t.len - 1 } : VtTty).terminate else t).Shows
    (inputs ++ [.byte c]) := by
  have hnl : c ≠ 0x0A := by
    rcases hback with rfl | rfl <;> decide
  have hedit : typed (inputs ++ [.byte c]) = t.content.dropLast := by
    rw [typed_append, edit, if_pos hback, ← h.content]
  split_ifs with hpos
  · refine ⟨?_, ready_append hready hnl⟩
    rw [hedit, content_terminate, content_shorten hpos]
  · refine ⟨?_, ready_append hready hnl⟩
    have hnil : t.content = [] := eq_nil_of_length_eq_zero (by rw [content_length]; omega)
    rw [hedit, hnil]
    rfl

/-- Any other character. -/
theorem Shows.char {c : UInt8} (h : t.Shows inputs) (hready : t.ready = false) (hnl : c ≠ 0x0A)
    (hback : ¬ (c = 0x08 ∨ c = 0x7F)) (htaken : 1 ≤ c ∧ c < 0x80) :
    (if 1 ≤ c ∧ c < 0x80 ∧ t.len < ttyLineMax - 1 then t.append c else t).Shows
    (inputs ++ [.byte c]) := by
  have hedit : typed (inputs ++ [.byte c]) = if t.len < 255 then t.content ++
      [c] else t.content := by
    rw [typed_append, edit, if_neg hback, ← h.content, content_length]
  by_cases hroom : t.len < 255
  · rw [if_pos ⟨htaken.1, htaken.2, hroom⟩]
    refine ⟨?_, ready_append hready hnl⟩
    rw [hedit, if_pos hroom, content_append]
  · rw [if_neg fun hc => hroom hc.2.2]
    refine ⟨?_, ready_append hready hnl⟩
    rw [hedit, if_neg hroom]

/-- **A character on the active terminal.** -/
theorem Shows.inputChar (h : t.Shows inputs) (c : UInt8) :
    (t.inputChar c).Shows (arrive inputs (.byte c)) := by
  rw [VtTty.inputChar]
  by_cases hready : t.ready = true
  · rw [if_pos hready, arrive_of_finished (h.ready.mp hready)]
    exact h
  have hfin : ¬ Finished inputs := fun hf => hready (h.ready.mpr hf)
  rw [if_neg hready]
  rw [Bool.not_eq_true] at hready
  by_cases hnl : c = 0x0A
  · subst hnl
    rw [if_pos rfl, arrive_of_not_finished (by decide) hfin]
    exact h.newline
  rw [if_neg hnl]
  by_cases hback : c = 0x08 ∨ c = 0x7F
  · have htaken : 1 ≤ c ∧ c < 0x80 := by
      rcases hback with rfl | rfl <;> decide
    rw [if_pos hback, arrive_of_not_finished (i := .byte c) htaken hfin]
    exact h.backspace hready hback
  rw [if_neg hback]
  by_cases htaken : 1 ≤ c ∧ c < 0x80
  · rw [arrive_of_not_finished (i := .byte c) htaken hfin]
    exact h.char hready hnl hback htaken
  · rw [arrive_of_not_taken (i := .byte c) htaken, if_neg fun hc => htaken ⟨hc.1, hc.2.1⟩]
    exact h

/-- `tty_input_char` or `tty_sigint_trigger`. -/
def react (t : VtTty) : Input → VtTty
  | .byte c => t.inputChar c
  | .interrupt =>
    { t with sigint := true, len := 0, line := Function.update t.line 0 0, ready := false }

theorem Shows.react (h : t.Shows inputs) (i : Input) : (t.react i).Shows (absorb inputs i) := by
  cases i with
  | byte c => exact h.inputChar c
  | interrupt =>
    refine ⟨by rw [absorb, typed_append]; rfl, ?_⟩
    rw [absorb, finished_append]
    exact ⟨fun hf => absurd hf Bool.false_ne_true, fun hf => by cases hf⟩

theorem inputChar_lflag (c : UInt8) : (t.inputChar c).lflag = t.lflag := by
  rw [inputChar]
  split_ifs <;> rfl

theorem react_lflag (i : Input) : (t.react i).lflag = t.lflag := by
  cases i with
  | byte c => exact inputChar_lflag c
  | interrupt => rfl

end VtTty

/-! ## 3. Keys -/

namespace Keyboard

variable {t : Keyboard} {key : UInt16} {pressed : Bool}

/-- The key switches to another terminal. -/
def Switches (t : Keyboard) (key : UInt16) : Prop := t.ctrl ∧ t.alt ∧ keyF1 ≤ key ∧ key ≤ keyF6

instance : Decidable (t.Switches key) := inferInstanceAs (Decidable (_ ∧ _))

/-- **What a key means**, with the modifiers of `t`. -/
def meaning (t : Keyboard) (key : UInt16) (pressed : Bool) : Option Input :=
  if t.Switches key ∨ pressed = false then none
  else if t.ctrl ∧ key = keyC ∧ (t.vts t.activeVt).lflag &&& lflagIsig ≠ 0 then some .interrupt
  else if key = keyEnter then some (.byte 0x0A)
  else if key = keyBackspace then some (.byte 0x08)
  else if hidKeyToAscii key t.shift ≠ 0 then some (.byte (hidKeyToAscii key t.shift))
  else none

/-- The terminals after an input. -/
def hear (t : Keyboard) : Option Input → Nat → VtTty
  | none => t.vts
  | some i => Function.update t.vts t.activeVt ((t.vts t.activeVt).react i)

@[simp] theorem enqueue_vts (e : KeyEvent) : (t.enqueue e).vts = t.vts := by
  rw [enqueue]
  split_ifs <;> rfl

@[simp] theorem enqueue_activeVt (e : KeyEvent) : (t.enqueue e).activeVt = t.activeVt := by
  rw [enqueue]
  split_ifs <;> rfl

theorem ttyVtSwitch_vts (vt : UInt8) : (t.ttyVtSwitch vt).vts = t.vts := by
  rw [ttyVtSwitch]
  split_ifs <;> rfl

theorem ttyVtSwitch_lt (hact : t.activeVt < ttyVtMax) (vt : UInt8) :
    (t.ttyVtSwitch vt).activeVt < ttyVtMax := by
  rw [ttyVtSwitch]
  split_ifs with hout
  · exact hact
  · exact Nat.lt_of_not_le hout

theorem ttySigintTrigger_eq {vt : Nat} (hvt : vt < ttyVtMax) :
    t.ttySigintTrigger vt = t.setVt vt fun x => x.react .interrupt := if_neg (Nat.not_le.mpr hvt)

/-- **A key on a terminal in canonical mode** gives it the input it means. -/
theorem keyInput_hears (pressed : Bool) (hact : t.activeVt < ttyVtMax)
    (hcanon : t.ttyRawMode t.activeVt = false)
    (hno : ¬ t.Switches key) : (t.keyInput key pressed).vts = t.hear (t.meaning key pressed) ∧
      (t.keyInput key pressed).activeVt = t.activeVt := by
  rw [keyInput, meaning]
  simp only [hcanon, Bool.false_eq_true, if_false, hno, false_or]
  cases pressed with
  | false => exact ⟨rfl, rfl⟩
  | true =>
    simp only [Bool.not_true, Bool.false_eq_true, if_false, Bool.true_eq_false]
    split_ifs
    · rw [ttySigintTrigger_eq hact]
      exact ⟨rfl, rfl⟩
    all_goals exact ⟨rfl, rfl⟩

theorem meaning_enqueue (e : KeyEvent) :
    (t.enqueue e).meaning key pressed = t.meaning key pressed := by
  rw [enqueue]
  split_ifs <;> rfl

/-- **A report of a key**: the terminals hear what it means, and the active one is one of them. -/
theorem keyboardReportKey_hears (key : UInt16) (pressed : Bool) (hact : t.activeVt < ttyVtMax)
    (hcanon : t.ttyRawMode t.activeVt = false) :
    (t.keyboardReportKey key pressed).vts = t.hear ((t.pressKey key pressed).meaning key pressed) ∧
      (t.keyboardReportKey key pressed).activeVt < ttyVtMax := by
  rw [keyboardReportKey]
  generalize hu : (t.pressKey key pressed).enqueue _ = u
  have hvts : u.vts = t.vts := by rw [← hu, enqueue_vts]; rfl
  have hactive : u.activeVt = t.activeVt := by rw [← hu, enqueue_activeVt]; rfl
  have hmeaning : (t.pressKey key pressed).meaning key pressed = u.meaning key pressed := by
    rw [← hu, meaning_enqueue]
  have hhear : t.hear = u.hear := by
    funext i
    cases i with
    | none => exact hvts.symm
    | some i => rw [hear, hear, hvts, hactive]
  rw [hmeaning, hhear]
  split_ifs with hswitch
  · have hnone : u.meaning key pressed = none := if_pos (.inl hswitch)
    rw [ttyVtSwitch_vts, hnone]
    exact ⟨rfl, ttyVtSwitch_lt (hactive ▸ hact) _⟩
  · have hcanon' : u.ttyRawMode u.activeVt = false := by
      rw [ttyRawMode, hvts, hactive]
      exact hcanon
    obtain ⟨hvts', hactive'⟩ := keyInput_hears pressed (hactive ▸ hact) hcanon' hswitch
    exact ⟨hvts', by rw [hactive', hactive]; exact hact⟩

/-- **Bytes from the serial line** are heard one after the other. -/
theorem ttyDrainSerial_hears (hcanon : t.ttyRawMode t.activeVt = false) (bytes : List UInt8) :
    (t.ttyDrainSerial bytes).vts = Function.update t.vts t.activeVt
        (bytes.foldl (fun x c => x.react (.byte c)) (t.vts t.activeVt)) ∧
      (t.ttyDrainSerial bytes).activeVt = t.activeVt := by
  rw [ttyDrainSerial]
  generalize hvt : t.activeVt = vt at hcanon ⊢
  induction bytes generalizing t with
  | nil => exact ⟨(update_eq_self vt t.vts).symm, hvt⟩
  | cons c bytes ih =>
    rw [foldl_cons, foldl_cons, hcanon]
    simp only [Bool.false_eq_true, if_false]
    have hactive : (t.ttyInputChar c).activeVt = vt := hvt
    have hvts : (t.ttyInputChar c).vts = Function.update t.vts vt ((t.vts vt).react (.byte c)) := by
      rw [ttyInputChar, hvt]
      rfl
    have hcanon' : (t.ttyInputChar c).ttyRawMode vt = false := by
      rw [ttyRawMode, hvts, update_self, VtTty.react_lflag]
      exact hcanon
    obtain ⟨hrest, hactive'⟩ := ih hactive hcanon'
    refine ⟨?_, hactive'⟩
    rw [hrest, hvts, update_self, update_idem]

end Keyboard

/-! ## 4. Sessions -/

/-- What can happen. -/
inductive TtyEvent
  | key (key : UInt16) (pressed : Bool)
  | serial (bytes : List UInt8)
  | switch (vt : UInt8)
  | getline (vt : UInt8) (size : Int)

namespace TtyEvent

def apply (t : Keyboard) : TtyEvent → Keyboard
  | key k pressed => t.keyboardReportKey k pressed
  | serial bytes => t.ttyDrainSerial bytes
  | switch vt => t.ttyVtSwitch vt
  | getline vt size => (t.ttyGetline vt size).2.2

/-- What the active terminal hears. -/
def heard (t : Keyboard) : TtyEvent → List Input
  | key k pressed => ((t.pressKey k pressed).meaning k pressed).toList
  | serial bytes => bytes.map .byte
  | _ => []

/-- The terminal an event is for. -/
def target (t : Keyboard) : TtyEvent → Option Nat
  | key _ _ | serial _ => some t.activeVt
  | switch _ => none
  | getline vt _ => some vt.toNat

/-- A finished line that is read makes room for the next one. -/
def taken (inputs : Nat → List Input) : TtyEvent → Nat → List Input
  | getline vt _ =>
    if Finished (inputs vt.toNat) then Function.update inputs vt.toNat [] else inputs
  | _ => inputs

end TtyEvent

/-- The stack, and the inputs of each terminal since its last line was read. -/
structure Session where
  kb : Keyboard
  inputs : Nat → List Input

namespace Session

def start (lflag : Nat → UInt32) : Session := ⟨.start lflag, fun _ => []⟩

/-- An event, where `take` says which inputs count. -/
def step (take : List Input → Input → List Input) (s : Session) (e : TtyEvent) : Option Session :=
  let inputs := e.taken s.inputs
  let active := s.kb.activeVt
  some ⟨e.apply s.kb, Function.update inputs active ((e.heard s.kb).foldl take (inputs active))⟩

/-- No Ctrl+C for a terminal with a finished line that nobody has read yet. -/
def Calm (s : Session) (e : TtyEvent) : Prop :=
  .interrupt ∈ e.heard s.kb → ¬ Finished (s.inputs s.kb.activeVt)

instance (s : Session) (e : TtyEvent) : Decidable (s.Calm e) := inferInstanceAs (Decidable (_ → _))

/-- **Every buffer holds the line of the inputs of its terminal**, and all are in canonical mode. -/
structure Sound (s : Session) : Prop where
  active : s.kb.activeVt < ttyVtMax
  canonical : ∀ v, v < ttyVtMax → (s.kb.vts v).lflag &&& lflagIcanon ≠ 0
  shows : ∀ v, v < ttyVtMax → (s.kb.vts v).Shows (s.inputs v)

variable {s s' : Session}

theorem Sound.not_raw (h : s.Sound) : s.kb.ttyRawMode s.kb.activeVt = false := by
  rw [Keyboard.ttyRawMode]
  exact decide_eq_false fun hraw => h.canonical _ h.active hraw.2

/-- The active terminal hears some inputs. -/
theorem Sound.hears {kb : Keyboard} (h : s.Sound) (is : List Input)
    (hactive : kb.activeVt < ttyVtMax)
    (hvts : kb.vts =
      Function.update s.kb.vts s.kb.activeVt (is.foldl VtTty.react (s.kb.vts s.kb.activeVt))) :
    Sound ⟨kb,
      Function.update s.inputs s.kb.activeVt (is.foldl absorb (s.inputs s.kb.activeVt))⟩ := by
  have hheard : ∀ (is : List Input) (x : VtTty) (l : List Input), x.Shows l →
      x.lflag &&& lflagIcanon ≠ 0 →
      (is.foldl VtTty.react x).Shows (is.foldl absorb l) ∧
      (is.foldl VtTty.react x).lflag &&& lflagIcanon ≠ 0 := by
    intro is
    induction is with
    | nil => exact fun x l hx hflag => ⟨hx, hflag⟩
    | cons i is ih =>
      exact fun x l hx hflag => ih _ _ (hx.react i) (by rw [VtTty.react_lflag]; exact hflag)
  obtain ⟨hshows, hflag⟩ := hheard is _ _ (h.shows _ h.active) (h.canonical _ h.active)
  refine ⟨hactive, fun v hv => ?_, fun v hv => ?_⟩
  · rw [hvts]
    by_cases heq : v = s.kb.activeVt
    · rw [heq, update_self]
      exact hflag
    · rw [update_of_ne heq]
      exact h.canonical v hv
  dsimp only
  rw [hvts]
  by_cases heq : v = s.kb.activeVt
  · rw [heq, update_self, update_self]
    exact hshows
  · rw [update_of_ne heq, update_of_ne heq]
    exact h.shows v hv

/-- A line that is read. -/
theorem Sound.getline (h : s.Sound) (vt : UInt8) (size : Int) :
    Sound ⟨(s.kb.ttyGetline vt size).2.2, (TtyEvent.getline vt size).taken s.inputs⟩ := by
  rw [Keyboard.ttyGetline, TtyEvent.taken]
  by_cases hout : ttyVtMax ≤ vt.toNat
  · rw [if_pos hout]
    refine ⟨h.active, h.canonical, fun v hv => ?_⟩
    dsimp only
    split_ifs
    · rw [update_of_ne (by omega : v ≠ vt.toNat)]
      exact h.shows v hv
    · exact h.shows v hv
  rw [if_neg hout]
  have hshows := h.shows vt.toNat (Nat.lt_of_not_le hout)
  by_cases hready : (s.kb.vts vt.toNat).ready = true
  · rw [if_pos (hshows.ready.mp hready), if_pos hready]
    refine ⟨h.active, fun v hv => ?_, fun v hv => ?_⟩
    · by_cases heq : v = vt.toNat
      · simpa [Keyboard.setVt, heq] using h.canonical vt.toNat (Nat.lt_of_not_le hout)
      · simpa [Keyboard.setVt, heq] using h.canonical v hv
    · by_cases heq : v = vt.toNat
      · subst heq
        simp only [Keyboard.setVt, update_self]
        exact ⟨rfl, ⟨fun hf => absurd hf Bool.false_ne_true, fun hf => by cases hf⟩⟩
      · simpa [Keyboard.setVt, heq] using h.shows v hv
  · rw [if_neg fun hfin => hready (hshows.ready.mpr hfin), if_neg hready]
    exact h

/-- **Every event keeps the invariant.** -/
theorem Sound.step {e : TtyEvent} (h : s.Sound) (hs : s.step absorb e = some s') : s'.Sound := by
  obtain rfl := Option.some.inj hs
  cases e with
  | key k pressed =>
    obtain ⟨hvts, hactive⟩ := Keyboard.keyboardReportKey_hears k pressed h.active h.not_raw
    refine h.hears _ hactive ?_
    rw [TtyEvent.apply, hvts, TtyEvent.heard]
    cases (s.kb.pressKey k pressed).meaning k pressed with
    | none => exact (update_eq_self _ _).symm
    | some i => rfl
  | serial bytes =>
    obtain ⟨hvts, hactive⟩ := Keyboard.ttyDrainSerial_hears h.not_raw bytes
    refine h.hears _ (hactive ▸ h.active) ?_
    rw [TtyEvent.apply, hvts, TtyEvent.heard, foldl_map]
  | switch vt =>
    refine h.hears [] (Keyboard.ttyVtSwitch_lt h.active vt) ?_
    rw [TtyEvent.apply, Keyboard.ttyVtSwitch_vts]
    exact (update_eq_self _ _).symm
  | getline vt size =>
    have hget := h.getline vt size
    simp only [TtyEvent.heard, foldl_nil, update_eq_self]
    exact hget

/-- **An event changes no terminal but its own.** -/
theorem Sound.others {e : TtyEvent} {u : Nat} (h : s.Sound) (hu : e.target s.kb ≠ some u) :
    (e.apply s.kb).vts u = s.kb.vts u := by
  cases e with
  | key k pressed =>
    have hne : u ≠ s.kb.activeVt := fun heq => hu (congrArg some heq.symm)
    obtain ⟨hvts, -⟩ := Keyboard.keyboardReportKey_hears k pressed h.active h.not_raw
    rw [TtyEvent.apply, hvts]
    cases (s.kb.pressKey k pressed).meaning k pressed with
    | none => rfl
    | some i => exact update_of_ne hne _ _
  | serial bytes =>
    have hne : u ≠ s.kb.activeVt := fun heq => hu (congrArg some heq.symm)
    rw [TtyEvent.apply, (Keyboard.ttyDrainSerial_hears h.not_raw bytes).1, update_of_ne hne]
  | switch vt => rw [TtyEvent.apply, Keyboard.ttyVtSwitch_vts]
  | getline vt size =>
    have hne : u ≠ vt.toNat := fun heq => hu (congrArg some heq.symm)
    rw [TtyEvent.apply, Keyboard.ttyGetline]
    by_cases hout : ttyVtMax ≤ vt.toNat
    · rw [if_pos hout]
    · rw [if_neg hout]
      by_cases hready : (s.kb.vts vt.toNat).ready = true
      · rw [if_pos hready]
        exact update_of_ne hne _ _
      · rw [if_neg hready]

/-- What `tty_getline` delivers of a finished line. -/
theorem ttyGetline_finished {t : Keyboard} {vt : UInt8} {inputs : List Input}
    (hvt : vt.toNat < ttyVtMax)
    (hshows : (t.vts vt.toNat).Shows inputs) (hfin : Finished inputs) {size n : Int}
    (hn : n = min (size - 1) (typed inputs).length) :
    t.ttyGetline vt size = (n, some ((typed inputs).take n.toNat),
      t.setVt vt.toNat fun x => { x with len := 0, ready := false }) := by
  have hlen := hshows.len
  have hmin :
      (if size - 1 < ((t.vts vt.toNat).len : Int) then size - 1 else ((t.vts vt.toNat).len : Int)) =
        n := by
    rw [hn]
    split_ifs <;> omega
  have hbytes : (List.range n.toNat).map (t.vts vt.toNat).line = (typed inputs).take n.toNat := by
    rw [← hshows.content, VtTty.content, ← map_take, take_range, Nat.min_eq_left (by omega)]
  rw [Keyboard.ttyGetline, if_neg (Nat.not_le.mpr hvt), if_pos (hshows.ready.mpr hfin), hmin]
  dsimp only
  rw [hbytes]

/-- If there is room for it, all of it. -/
theorem Sound.delivers (h : s.Sound) {vt : UInt8} (hvt : vt.toNat < ttyVtMax) {size : Int}
    (hsize : (typed (s.inputs vt.toNat)).length < size) :
    ((s.kb.ttyGetline vt size).1, (s.kb.ttyGetline vt size).2.1) =
      if Finished (s.inputs vt.toNat) then
        (((typed (s.inputs vt.toNat)).length : Int), some (typed (s.inputs vt.toNat)))
      else (0, none) := by
  have hshows := h.shows vt.toNat hvt
  by_cases hfin : Finished (s.inputs vt.toNat)
  · rw [if_pos hfin,
      ttyGetline_finished (n := (typed (s.inputs vt.toNat)).length) hvt hshows hfin (by omega)]
    simp
  · rw [if_neg hfin, Keyboard.ttyGetline, if_neg (Nat.not_le.mpr hvt), if_neg fun hready =>
      hfin (hshows.ready.mp hready)]

theorem sound_start {lflag : Nat → UInt32}
    (hflag : ∀ v, v < ttyVtMax → lflag v &&& lflagIcanon ≠ 0) :
    (start lflag).Sound where
  active := by
    show 0 < ttyVtMax
    decide
  canonical := hflag
  shows := fun _ _ => ⟨rfl, ⟨fun hf => absurd hf Bool.false_ne_true, fun hf => by cases hf⟩⟩

/-- The line that was typed is the one that is delivered, as it is or not at all; it fits into its
    buffer, and an event changes no terminal but the one it is for. -/
structure Delivers (s : Session) : Prop where
  inside : ∀ v, v < ttyVtMax → (s.kb.vts v).len < ttyLineMax
  line : ∀ (vt : UInt8) (size : Int), vt.toNat < ttyVtMax →
    (typed (s.inputs vt.toNat)).length < size →
    ((s.kb.ttyGetline vt size).1, (s.kb.ttyGetline vt size).2.1) =
      if Finished (s.inputs vt.toNat) then
        (((typed (s.inputs vt.toNat)).length : Int), some (typed (s.inputs vt.toNat)))
      else (0, none)
  others : ∀ (e : TtyEvent) (u : Nat), e.target s.kb ≠ some u → (e.apply s.kb).vts u = s.kb.vts u

theorem Sound.all_delivered (hs : s.Sound) : s.Delivers where
  inside := fun v hv => by
    have hle := typed_length (s.inputs v)
    have hmax : ttyLineMax = 256 := rfl
    rw [(hs.shows v hv).len]
    omega
  line := fun _ _ hvt hsize => hs.delivers hvt hsize
  others := fun _ _ hu => hs.others hu

section Sessions

variable {lflag : Nat → UInt32} (hflag : ∀ v, v < ttyVtMax → lflag v &&& lflagIcanon ≠ 0)
include hflag

/-- **In every session `tty_getline` delivers the line of what the source took.** -/
theorem getline_absorbed (h : Reaches (step absorb) Any (start lflag) s) : s.Delivers :=
  have hs : s.Sound := h.inv (sound_start hflag) fun _ _ _ hs _ hstep => hs.step hstep
  hs.all_delivered

omit hflag in
/-- What a calm event brings is taken as it arrives. -/
theorem step_arrive {e : TtyEvent} (h : s.Calm e) : s.step arrive e = s.step absorb e := by
  cases e with
  | key k pressed =>
    rw [step, step, TtyEvent.heard]
    rw [Calm, TtyEvent.heard] at h
    cases hm : (s.kb.pressKey k pressed).meaning k pressed with
    | none => rfl
    | some i =>
      rw [hm] at h
      simp only [Option.toList_some, foldl_cons, foldl_nil, TtyEvent.taken]
      rw [absorb_eq_arrive fun hi => h (hi ▸ mem_singleton_self _)]
  | serial bytes =>
    rw [step, step, TtyEvent.heard]
    simp only [foldl_map]
    rfl
  | switch vt => rfl
  | getline vt size => rfl

/-- **`tty_getline` delivers the line that was typed**, in every session in which no Ctrl+C finds a
    finished line. -/
theorem getline_typed (h : Reaches (step arrive) Calm (start lflag) s) : s.Delivers := by
  refine getline_absorbed hflag ?_
  -- A calm run is a run of the source: the two take the same, event by event.
  induction h with
  | start => exact .start
  | step s s' e _ hcalm hs ih => exact .step s s' e ih trivial (step_arrive hcalm ▸ hs)

end Sessions

/-- Some keys on the first terminal. -/
theorem getline_typed_keys : ∃ s, Reaches (step arrive) Calm (start fun _ => 3) s ∧
    ((s.kb.ttyGetline 0 64).1, (s.kb.ttyGetline 0 64).2.1) = (2, some [0x61, 0x0A]) := by
  have hr : Reaches (step arrive) Calm (start fun _ => 3) _ :=
    .step _ _ (.key keyEnter true) (.step _ _ (.key keyBackspace true) (.step _ _ (.serial [0x62])
      (.step _ _ (.key 0x1E true) .start (by decide) rfl) (by decide) rfl) (by decide) rfl)
      (by decide) rfl
  exact ⟨_, hr, (getline_typed (by decide) hr).line 0 64 (by decide) (by decide)⟩

/-- A line, Enter, and then Ctrl+C before anybody reads: the line is gone. -/
theorem finished_line_dropped : ¬ ∀ s, Reaches (step arrive) Any (start fun _ => 3) s →
    s.Delivers := by
  intro h
  have hr : Reaches (step arrive) Any (start fun _ => 3) _ :=
    .step _ _ (.key keyC true) (.step _ _ (.key keyLeftCtrl true) (.step _ _ (.key keyEnter true)
      (.step _ _ (.key 0x1E true) .start trivial rfl) trivial rfl) trivial rfl) trivial rfl
  exact absurd ((h _ hr).line 0 64 (by decide) (by decide)) (by decide)

end Session

end DyntKernel.Tty
