/-
  File:      DyntKernel/Video/Split.lean
  Subject:   A WRITE TO THE TERMINAL IN TWO CALLS (arch/x86_64/syscall/syscall_dispatch.c,
             term_write).

  The state of the escape parser is local to a call: the next call starts in plain text. What a
  program writes looks the same in one call and in two exactly when the first call does not end
  inside an escape sequence.

  * `parserAfter`, `termOps_append` -- the parser after a buffer, and the operations of two buffers;
  * `putc_moves`, `sgr_stays` -- a drawn character moves the cursor, a colour sequence does not;
  * `term_write_split_iff` -- the equivalence; `term_write_split_colour` -- a colour sequence cut in
    two;
  * `termLoop`, `term_serial_iff` -- what goes to the serial port, where the loop may go back by one
    byte.
-/
import DyntKernel.Video.Bounds

namespace DyntKernel.Video

/-! ## 1. The parser between two calls -/

/-- The parser after a buffer. -/
def parserAfter : Parser → List UInt8 → Parser
  | st, [] => st
  | st, c :: cs =>
    let r := termTurn st c
    if r.2.2 then parserAfter (termTurn r.1 c).1 cs else parserAfter r.1 cs

/-- Outside of an escape sequence. -/
def Parser.InText : Parser → Prop
  | .norm => True
  | _ => False

variable {s : Vga} {vt : UInt8} {v : Nat}

theorem termOps_append (st : Parser) (a b : List UInt8) :
    termOps st (a ++ b) = termOps st a ++ termOps (parserAfter st a) b := by
  induction a generalizing st with
  | nil => rfl
  | cons c a ih =>
    rw [List.cons_append, termOps, termOps, parserAfter]
    dsimp only
    split_ifs
    · rw [ih, ← List.append_assoc]
    · rw [ih, ← List.append_assoc]

/-! ## 2. The cursor -/

theorem refresh_vts : (s.refresh v).vts = s.vts := by
  rw [Vga.refresh]
  split_ifs
  · rfl
  · rfl

theorem putcScroll_x : ((s.putcScroll v).vts v).x = (s.vts v).x := by
  rw [Vga.putcScroll]
  split_ifs
  · rw [Vga.setVt_self, (stores_vtScroll s v).vts]
  · rfl

/-- **A drawn character moves the cursor** to another column. -/
theorem putc_moves {c : UInt8} (hc : c ≠ 0x0A ∧ c ≠ 0x0D ∧ c ≠ 0x09 ∧ c ≠ 0x08) :
    ((s.vtPutcImpl v c).vts v).x ≠ (s.vts v).x := by
  obtain ⟨hlf, hcr, htab, hbs⟩ := hc
  have hcell : ((s.putcCell v c).vts v).x = u16 ((s.vts v).x + 1) := by
    rw [Vga.putcCell, if_neg hlf, if_neg hcr, if_neg htab, if_neg hbs, Vga.setVt_self]
    rfl
  rw [Vga.vtPutcImpl, refresh_vts, putcScroll_x, Vga.putcWrap, hcell, u16, vgaCols]
  split_ifs with hwrap
  · rw [Vga.setVt_self]
    show 0 ≠ (s.vts v).x
    omega
  · rw [hcell, u16]
    omega

theorem sgrApply_x (param : Int32) : ((sgrApply s vt param).vts v).x = (s.vts v).x := by
  have hset (s : Vga) (f : Vt → Vt) (hf : ∀ t, (f t).x = t.x) :
      ((s.setVt (vtIndex vt) f).vts v).x = (s.vts v).x := by
    by_cases hv : v = vtIndex vt
    · rw [hv, Vga.setVt_self, hf]
    · rw [Vga.setVt_ne _ _ hv]
  rw [sgrApply]
  generalize (if param < 0 then 0 else param) = p
  split_ifs
  · calc ((((s.vgaVtSetReverse vt false).vgaVtSetFgColor vt 7).vgaVtSetBgColor vt 0).vts v).x
        = (((s.vgaVtSetReverse vt false).vgaVtSetFgColor vt 7).vts v).x := hset _ _ fun _ => rfl
      _ = ((s.vgaVtSetReverse vt false).vts v).x := hset _ _ fun _ => rfl
      _ = (s.vts v).x := hset _ _ fun _ => rfl
  · exact hset _ _ fun _ => rfl
  · exact hset _ _ fun _ => rfl
  · exact hset _ _ fun _ => rfl
  · rfl

/-- A sequence that ends in `m` leaves the cursor where it is. -/
theorem sgr_stays (st : Csi) : ((csiApply s vt st 0x6D).vts v).x = (s.vts v).x := by
  have hfold : ∀ (l : List Nat) (s : Vga),
      ((l.foldl (fun s i => sgrApply s vt (st.params i)) s).vts v).x = (s.vts v).x := by
    intro l
    induction l with
    | nil => exact fun _ => rfl
    | cons i l ih => exact fun s => (ih _).trans (sgrApply_x _)
  rw [csiApply]
  cases st.priv with
  | true => rw [if_pos rfl, if_neg fun h => absurd h.2 (by decide)]
  | false =>
    rw [if_neg Bool.false_ne_true, if_neg (by decide), if_neg (by decide), if_neg (by decide),
      if_neg (by decide), if_neg (by decide), if_neg (by decide), if_neg (by decide), if_pos rfl]
    exact hfold _ s

/-! ## 3. One call and two -/

/-- The same terminals: buffers, cursors, colours, reverse, cursor visibility, and the screen. -/
structure SameScreen (s s' : Vga) : Prop where
  buf : s.buf = s'.buf
  vts : s.vts = s'.vts
  screen : s.screen = s'.screen

theorem SameScreen.refl (s : Vga) : SameScreen s s := ⟨rfl, rfl, rfl⟩

theorem termWrite_append {k : Console} {a b : List UInt8} (h : (parserAfter .norm a).InText) :
    (k.termWrite vt (a ++ b)).vga = ((k.termWrite vt a).termWrite vt b).vga := by
  have hnorm : parserAfter .norm a = .norm := by
    cases hst : parserAfter .norm a with
    | norm => rfl
    | esc => rw [hst] at h; exact h.elim
    | csi st => rw [hst] at h; exact h.elim
  rw [Console.termWrite, Console.termWrite, Console.termWrite]
  cases hdriver : k.hasDriver with
  | false => simp
  | true => simp [termOps_append, hnorm]

/-- A console with a driver. -/
def bootConsole : Console :=
    ⟨⟨fun _ => 0, fun _ => ⟨0, 0, 7, 0, false, true⟩, 0, fun _ => 0, 0, []⟩, true, []⟩

theorem termWrite_two (vt : UInt8) (a b : List UInt8) : ∃ s,
    (bootConsole.termWrite vt (a ++ b)).vga =
      (termOps (parserAfter .norm a) b).foldl (TermOp.apply vt) s ∧
    ((bootConsole.termWrite vt a).termWrite vt b).vga =
      (termOps .norm b).foldl (TermOp.apply vt) s := by
  refine ⟨(termOps .norm a).foldl (TermOp.apply vt) bootConsole.vga, ?_, rfl⟩
  show (termOps .norm (a ++ b)).foldl (TermOp.apply vt) bootConsole.vga = _
  rw [termOps_append, List.foldl_append]

/-- **Two calls write what one call writes, for every terminal and everything that follows, exactly
    when the first call does not end inside an escape sequence.** -/
theorem term_write_split_iff (vt : UInt8) (a : List UInt8) : (∀ (k : Console) (b : List UInt8),
      SameScreen (k.termWrite vt (a ++ b)).vga ((k.termWrite vt a).termWrite vt b).vga) ↔
    (parserAfter .norm a).InText := by
  constructor
  · intro h
    cases hst : parserAfter .norm a with
    | norm => exact trivial
    | esc =>
      -- what is behind the escape is taken for text
      obtain ⟨s, hone, htwo⟩ := termWrite_two vt a [0x5B]
      have hvts := (h bootConsole [0x5B]).vts
      rw [hone, htwo, hst] at hvts
      exact absurd (congrArg (fun f => (f (vtIndex vt)).x) hvts.symm) (putc_moves (by decide))
    | csi st =>
      obtain ⟨s, hone, htwo⟩ := termWrite_two vt a [0x6D]
      have hvts := (h bootConsole [0x6D]).vts
      rw [hone, htwo, hst] at hvts
      have hx := congrArg (fun f => (f (vtIndex vt)).x) hvts.symm
      exact absurd (hx.trans (sgr_stays st)) (putc_moves (by decide))
  · intro h k b
    rw [termWrite_append h]
    exact .refl _

/-- **A colour sequence cut in two** is drawn instead of obeyed. -/
theorem term_write_split_colour :
    ¬ SameScreen (bootConsole.termWrite 0 ([0x1B, 0x5B, 0x33] ++ [0x31, 0x6D])).vga
      ((bootConsole.termWrite 0 [0x1B, 0x5B, 0x33]).termWrite 0 [0x31, 0x6D]).vga := by
  intro h
  have hfg := congrArg (fun f => (f 0).fg) h.vts
  revert hfg
  decide

/-! ## 4. The serial port -/

/-- **The loop of `term_write`**, from the byte at `i` on: what goes to the serial port, if `fuel`
    rounds are enough. `i--` and the `i++` of the loop lead back to the same byte. -/
def termLoop (hasDriver : Bool) : Nat → Parser → List UInt8 → Option (List UInt8)
  | 0, _, _ => none
  | _ + 1, _, [] => some []
  | fuel + 1, st, c :: cs =>
    if hasDriver then
      let r := termTurn st c
      (termLoop hasDriver fuel r.1 (if r.2.2 then c :: cs else cs)).map (c :: ·)
    else (termLoop hasDriver fuel st cs).map (c :: ·)

/-- What goes to the serial port, and what `term_write` returns. -/
def termWriteRun (hasDriver : Bool) (fuel : Nat) (buf : List UInt8) : Option (List UInt8 × Nat) :=
  (termLoop hasDriver fuel .norm buf).map (·, buf.length)

/-- No ESC comes inside of a control sequence. -/
def NoNestedEsc (st : Parser) (buf : List UInt8) : Prop :=
  ∀ done rest csi, buf = done ++ 0x1B :: rest → parserAfter st done ≠ .csi csi

/-- When the loop goes back. -/
theorem termTurn_back {st : Parser} {c : UInt8} :
    (termTurn st c).2.2 = true ↔ c = 0x1B ∧ ∃ csi, st = .csi csi ∧ (termTurn st c).1 = .norm := by
  cases st with
  | norm =>
    rw [termTurn]
    split_ifs <;> simp
  | esc =>
    rw [termTurn]
    split_ifs <;> simp
  | csi csi =>
    by_cases hc : c = 0x1B
    · rw [hc]
      exact ⟨fun _ => ⟨rfl, csi, rfl, rfl⟩, fun _ => rfl⟩
    · rw [termTurn]
      split_ifs <;> simp [hc]

theorem termLoop_eq {fuel : Nat} (hasDriver : Bool) (st : Parser) (buf : List UInt8)
    (hfuel : 2 * buf.length < fuel) :
    termLoop hasDriver fuel st buf = some (if hasDriver then termSerial st buf else buf) := by
  induction buf generalizing st fuel with
  | nil =>
    obtain ⟨n, rfl⟩ : ∃ n, fuel = n + 1 := ⟨fuel - 1, by omega⟩
    cases hasDriver <;> rfl
  | cons c cs ih =>
    rw [List.length_cons] at hfuel
    obtain ⟨n, rfl⟩ : ∃ n, fuel = n + 2 := ⟨fuel - 2, by omega⟩
    cases hasDriver with
    | false => rw [termLoop, if_neg Bool.false_ne_true, ih st (by omega)]; rfl
    | true =>
      have hrest : ∀ st' m, 2 * cs.length < m → termLoop true m st' cs = some (termSerial st' cs) :=
        fun st' m hm => ih st' hm
      rw [termLoop, if_pos rfl, if_pos rfl, termSerial]
      dsimp only
      split_ifs with hback
      · obtain ⟨rfl, csi, -, hnorm⟩ := termTurn_back.mp hback
        rw [hnorm, termLoop, if_pos rfl]
        exact congrArg (Option.map (_ :: ·))
          (congrArg (Option.map (_ :: ·)) (hrest .esc n (by omega)))
      · exact congrArg (Option.map (c :: ·)) (hrest _ (n + 1) (by omega))

theorem length_le_termSerial (st : Parser) (buf : List UInt8) :
    buf.length ≤ (termSerial st buf).length := by
  induction buf generalizing st with
  | nil => exact Nat.le_refl 0
  | cons c cs ih =>
    rw [termSerial]
    split_ifs
    · exact Nat.succ_le_succ (Nat.le_succ_of_le (ih _))
    · exact Nat.succ_le_succ (ih _)

/-- Nothing is sent twice exactly if the loop never goes back. -/
theorem termSerial_iff (st : Parser) (buf : List UInt8) : termSerial st buf = buf ↔
    NoNestedEsc st buf := by
  induction buf generalizing st with
  | nil => exact ⟨fun _ done rest csi hbuf => absurd hbuf (by simp), fun _ => rfl⟩
  | cons c cs ih =>
    rw [termSerial]
    split_ifs with hback
    · obtain ⟨rfl, csi, hst, -⟩ := termTurn_back.mp hback
      refine ⟨fun hsent => ?_, fun hnone => absurd hst (hnone [] cs csi rfl)⟩
      have hlength := congrArg List.length hsent
      have hle := length_le_termSerial (termTurn (termTurn st 0x1B).1 0x1B).1 cs
      simp only [List.length_cons] at hlength
      omega
    have hafter : ∀ done, parserAfter st (c :: done) = parserAfter (termTurn st c).1 done :=
      fun done => if_neg hback
    rw [List.cons_inj_right, ih]
    constructor
    · intro hnone done rest csi hbuf
      cases done with
      | nil =>
        obtain ⟨rfl, -⟩ := List.cons.inj hbuf
        intro hst
        rw [show st = .csi csi from hst] at hback
        exact hback rfl
      | cons d done =>
        obtain ⟨rfl, hcs⟩ := List.cons.inj hbuf
        rw [hafter]
        exact hnone done rest csi hcs
    · intro hnone done rest csi hbuf
      rw [← hafter]
      exact hnone (c :: done) rest csi (by rw [hbuf]; rfl)

/-- **`term_write` ends and returns the length, and it sends each byte once if and only if no ESC
    comes inside of a control sequence**, or there is no video driver. -/
theorem term_serial_iff (hasDriver : Bool) (buf : List UInt8) :
    ∃ sent,
      (∀ fuel, 2 * buf.length < fuel → termWriteRun hasDriver fuel buf = some (sent, buf.length)) ∧
      (sent = buf ↔ (hasDriver = true → NoNestedEsc .norm buf)) := by
  refine ⟨_, fun fuel hfuel => by rw [termWriteRun, termLoop_eq hasDriver .norm buf hfuel]; rfl, ?_⟩
  cases hasDriver with
  | false => exact ⟨fun _ h => absurd h Bool.false_ne_true, fun _ => rfl⟩
  | true => exact (termSerial_iff .norm buf).trans ⟨fun h _ => h, fun h => h rfl⟩

/-- ESC, an opening bracket and another ESC. -/
theorem term_serial_twice :
    termWriteRun true 7 [0x1B, 0x5B, 0x1B] = some ([0x1B, 0x5B, 0x1B, 0x1B], 3) := by
  decide

end DyntKernel.Video
