/-
  File:      DyntKernel/Scheduler/Resume.lean
  Subject:   SAVING A CONTEXT AND RESUMING IT, instruction by instruction (inter/isr.S,
             syscall/usermode_asm.S, scheduler_timer_tick, scheduler_exit_current).

  A timer interrupt leaves a `registers_t` on the stack, the tick copies it to the pcb. Three pieces
  of code take it from there: the interrupt return, after the tick copied another pcb's context over
  the frame; `usermode_resume_full`; and `kernel_resume`, for a process parked in a syscall.

  * `irqEntry`, `irqReturn`, `usermodeResumeFull`, `kernelResume` -- the assembly;
  * `tickSave`, `tickResume`, `exitResume`, `blockedResume` -- the paths through it;
  * `Delivers` -- a machine has the registers of a saved context;
  * `resume_delivers_iff` -- the interrupt return is right, `usermode_resume_full` is when r11 and
    the FS base happen to be what it leaves in them;
  * `kernel_resume_off` -- `kernel_resume` never gives back the stack pointer.
-/
import DyntKernel.Library.X86
import DyntKernel.Scheduler.State

namespace DyntKernel.Scheduler

open Library Library.X86 List Machine

/-! ## 1. The assembly -/

/-- The registers of `registers_t`, in the order of its fields. -/
def gprs : List Reg :=
  [.rax, .rbx, .rcx, .rdx, .rsi, .rdi, .rbp, .r8, .r9, .r10, .r11, .r12, .r13, .r14, .r15]

/-- The words of a `registers_t`. -/
def Registers.words (R : Registers) : List UInt64 :=
  [R.rax, R.rbx, R.rcx, R.rdx, R.rsi, R.rdi, R.rbp, R.r8, R.r9, R.r10, R.r11, R.r12, R.r13, R.r14,
    R.r15, R.intNo, R.errCode, R.rip, R.cs, R.rflags, R.userRsp, R.ss]

/-- What a `registers_t` has for a register. -/
def Registers.gpr (R : Registers) : Reg → UInt64
  | .rax => R.rax | .rbx => R.rbx | .rcx => R.rcx | .rdx => R.rdx | .rsi => R.rsi | .rdi => R.rdi
  | .rbp => R.rbp | .rsp => R.userRsp | .r8 => R.r8 | .r9 => R.r9 | .r10 => R.r10 | .r11 => R.r11
  | .r12 => R.r12 | .r13 => R.r13 | .r14 => R.r14 | .r15 => R.r15

/-- `sizeof(registers_t)`. -/
def registersSize : Nat := 176

/-- The bases `gdt_init` and `gdt_build_ap` give to `gdt_set_entry`. -/
def gdtBase (sel : UInt16) : UInt64 := ([0, 0, 0, 0, 0] : List UInt64)[(sel / 8).toNat]?.getD 0

/-- `irqN` and the first half of `irq_common_stub`; `lapic_common_stub` is the same. -/
def irqEntry (vector : UInt64) : List Instr :=
  [.pushImm 0, .pushImm vector,
    .push .r15, .push .r14, .push .r13, .push .r12, .push .r11, .push .r10, .push .r9, .push .r8,
    .push .rbp, .push .rdi, .push .rsi, .push .rdx, .push .rcx, .push .rbx, .push .rax]

/-- The second half of `irq_common_stub`. -/
def irqReturn : List Instr :=
  [.pop .rax, .pop .rbx, .pop .rcx, .pop .rdx, .pop .rsi, .pop .rdi, .pop .rbp, .pop .r8, .pop .r9,
    .pop .r10, .pop .r11, .pop .r12, .pop .r13, .pop .r14, .pop .r15, .addRsp 16, .iretq]

def usermodeResumeFull : List Instr :=
  [.mov .rdi .r11, .movAx 0x1B, .movSeg .ds, .movSeg .es, .movSeg .fs,
    .load 0 .r11 .rax, .load 8 .r11 .rbx, .load 16 .r11 .rcx, .load 24 .r11 .rdx,
    .load 32 .r11 .rsi, .load 40 .r11 .rdi, .load 48 .r11 .rbp, .load 56 .r11 .r8,
    .load 64 .r11 .r9, .load 72 .r11 .r10, .load 88 .r11 .r12, .load 96 .r11 .r13,
    .load 104 .r11 .r14, .load 112 .r11 .r15,
    .pushMem 168 .r11, .pushMem 160 .r11, .pushMem 152 .r11, .pushMem 144 .r11, .pushMem 136 .r11,
    .iretq]

def kernelResume : List Instr :=
  [.mov .rdi .r10, .mov .rsi .r9,
    .load 0 .r10 .rax, .load 8 .r10 .rbx, .load 16 .r10 .rcx, .load 24 .r10 .rdx,
    .load 32 .r10 .rsi, .load 40 .r10 .rdi, .load 48 .r10 .rbp, .load 56 .r10 .r8, .mov .r9 .rsp,
    .pushImm 0x10, .push .r9, .pushMem 152 .r10, .pushMem 144 .r10, .pushMem 136 .r10,
    .load 80 .r10 .r11, .load 88 .r10 .r12, .load 96 .r10 .r13, .load 104 .r10 .r14,
    .load 112 .r10 .r15, .load 64 .r10 .r9, .load 72 .r10 .r10, .iretq]

/-! ## 2. The paths through it -/

/-- `*dst = *src`, of `registers_t`s. -/
def copyRegs (mem : Nat → UInt8) (dst src : UInt64) : Nat → UInt8 :=
  blit mem dst.toNat registersSize fun j => mem (src.toNat + j)

/-- The frame the interrupted machine `u` leaves on the stack. -/
def frameOf (u : Machine) (vector : UInt64) : Registers where
  rax := u.reg .rax
  rbx := u.reg .rbx
  rcx := u.reg .rcx
  rdx := u.reg .rdx
  rsi := u.reg .rsi
  rdi := u.reg .rdi
  rbp := u.reg .rbp
  r8 := u.reg .r8
  r9 := u.reg .r9
  r10 := u.reg .r10
  r11 := u.reg .r11
  r12 := u.reg .r12
  r13 := u.reg .r13
  r14 := u.reg .r14
  r15 := u.reg .r15
  intNo := vector
  rip := u.rip
  cs := u.cs
  rflags := u.rflags
  userRsp := u.reg .rsp
  ss := u.ss

/-- The machine in the C handler, with `rsp` at the frame: `u` was interrupted on the stack
    `top`. -/
def irqFrame (u : Machine) (top vector : UInt64) : Machine :=
  run gdtBase (irqEntry vector) (u.interrupt top)

/-- `cur->ctx = *regs` of the tick. -/
def tickSave (u : Machine) (top vector ctx : UInt64) : Machine :=
  { irqFrame u top vector with
    mem := copyRegs (irqFrame u top vector).mem ctx ((irqFrame u top vector).reg .rsp) }

/-- `(uint64_t)&regs->user_rsp` of the tick. -/
def savedKernelRsp (u : Machine) (top vector : UInt64) : UInt64 :=
  (irqFrame u top vector).reg .rsp + 160

/-- The end of the tick, and the stub: `regs` is the frame of the interrupt. -/
def tickResume (m : Machine) (regs ctx fsBase : UInt64) : Machine :=
  run gdtBase irqReturn ({ m with fsBase := fsBase, mem := copyRegs m.mem regs ctx }.set .rsp regs)

/-- The end of `scheduler_exit_current`. -/
def exitResume (m : Machine) (ctx fsBase : UInt64) : Machine :=
  run gdtBase usermodeResumeFull ({ m with fsBase := fsBase }.set .rdi ctx)

/-- `kernel_resume(&next->ctx, krsp)`, of both functions. -/
def blockedResume (m : Machine) (ctx krsp : UInt64) : Machine :=
  run gdtBase kernelResume ((m.set .rdi ctx).set .rsi krsp)

/-- **The context of a pcb is as the tick left it**, when `u` was interrupted. -/
def Parked (u : Machine) (top vector ctx : UInt64) (m : Machine) : Prop :=
  ∀ j, j < registersSize → m.mem (ctx.toNat + j) = (tickSave u top vector ctx).mem (ctx.toNat + j)

/-- **A machine goes on with a saved context.** -/
structure Delivers (R : Registers) (fsBase : UInt64) (m : Machine) : Prop where
  gpr : ∀ r, m.reg r = R.gpr r
  rip : m.rip = R.rip
  rflags : m.rflags = R.rflags
  fs : m.fsBase = fsBase

/-! ## 3. The saved context -/

variable {u m : Machine} {top vector ctx regs krsp fsBase w : UInt64} {R : Registers}

theorem toNat_align (top : UInt64) : (top - top % 16).toNat = top.toNat - top.toNat % 16 := by
  have hle : top % 16 ≤ top := UInt64.le_iff_toNat_le.mpr (Nat.mod_le top.toNat 16)
  rw [UInt64.toNat_sub_of_le _ _ hle, UInt64.toNat_mod]
  rfl

theorem irqEntry_eq (vector : UInt64) :
    irqEntry vector = [.pushImm 0, .pushImm vector] ++ gprs.reverse.map .push := rfl

theorem frameOf_words (u : Machine) (vector sp : UInt64) : (frameOf u vector).words =
    (gprs.reverse.map (u.set .rsp sp).reg).reverse ++
      [vector, 0, u.rip, u.cs, u.rflags, u.reg .rsp, u.ss] := by
  simp [frameOf, Registers.words, gprs, set_of_ne]

/-- **The frame on the stack** is the `registers_t` of the interrupted machine. -/
theorem irqFrame_pushed (u : Machine) (vector : UInt64) (hroom : 192 ≤ top.toNat) :
    Pushed (u.set .rsp (top - top % 16)) (irqFrame u top vector) (frameOf u vector).words := by
  have hrsp : ((u.set .rsp (top - top % 16)).reg .rsp).toNat = top.toNat - top.toNat % 16 := by
    rw [set_self, toNat_align]
  have hdown : ∀ n, n ≤ 22 → 8 * n ≤ ((u.set .rsp (top - top % 16)).reg .rsp).toNat := by
    intro n hn
    omega
  have hcpu : Pushed (u.set .rsp (top - top % 16)) (u.interrupt top)
      [u.rip, u.cs, u.rflags, u.reg .rsp, u.ss] :=
    ((((Pushed.refl.push (hdown 1 (by decide))).push (hdown 2 (by decide))).push
      (hdown 3 (by decide))).push (hdown 4 (by decide))).push (hdown 5 (by decide))
  have hnums : Pushed (u.set .rsp (top - top % 16)) (((u.interrupt top).pushWord 0).pushWord vector)
      [vector, 0, u.rip, u.cs, u.rflags, u.reg .rsp, u.ss] :=
    (hcpu.push (hdown 6 (by decide))).push (hdown 7 (by decide))
  rw [irqFrame, irqEntry_eq, run_append, frameOf_words u vector (top - top % 16)]
  exact run_push hnums (by decide) (hdown 22 (by decide))

theorem Parked.holds (h : Parked u top vector ctx m) (hroom : 192 ≤ top.toNat) :
    Holds m.mem ctx.toNat (frameOf u vector).words := by
  have hcopy : Holds (tickSave u top vector ctx).mem ctx.toNat (frameOf u vector).words :=
    (irqFrame_pushed u vector hroom).words.copy (Nat.le_refl _)
  refine hcopy.congr fun x hx hlt => ?_
  obtain ⟨j, rfl⟩ := Nat.exists_eq_add_of_le hx
  exact h j (Nat.lt_of_add_lt_add_left hlt)

/-- A word of a context, as the resume code reads it. -/
theorem ctx_word {off : UInt64} (i : Nat) (h : Holds m.mem ctx.toNat R.words)
    (hctx : ctx.toNat + 176 ≤ 2 ^ 64) (hi : R.words[i]? = some w) (hoff : off.toNat = 8 * i)
    (hlt : i < 22) : m.word (ctx + off) = w := by
  refine h.word hi ?_
  rw [toNat_add_of_lt (by omega), hoff]

/-- The words of a context that the resume code reads. -/
theorem ctx_words (h : Holds m.mem ctx.toNat R.words) (hctx : ctx.toNat + 176 ≤ 2 ^ 64) :
    m.word (ctx + 0) = R.rax ∧ m.word (ctx + 8) = R.rbx ∧ m.word (ctx + 16) = R.rcx ∧
    m.word (ctx + 24) = R.rdx ∧ m.word (ctx + 32) = R.rsi ∧ m.word (ctx + 40) = R.rdi ∧
    m.word (ctx + 48) = R.rbp ∧ m.word (ctx + 56) = R.r8 ∧ m.word (ctx + 64) = R.r9 ∧
    m.word (ctx + 72) = R.r10 ∧ m.word (ctx + 80) = R.r11 ∧ m.word (ctx + 88) = R.r12 ∧
    m.word (ctx + 96) = R.r13 ∧ m.word (ctx + 104) = R.r14 ∧ m.word (ctx + 112) = R.r15 ∧
    m.word (ctx + 136) = R.rip ∧ m.word (ctx + 144) = R.cs ∧ m.word (ctx + 152) = R.rflags ∧
    m.word (ctx + 160) = R.userRsp ∧ m.word (ctx + 168) = R.ss := by
  refine ⟨ctx_word 0 h hctx rfl ?_ ?_, ctx_word 1 h hctx rfl ?_ ?_, ctx_word 2 h hctx rfl ?_ ?_,
    ctx_word 3 h hctx rfl ?_ ?_, ctx_word 4 h hctx rfl ?_ ?_, ctx_word 5 h hctx rfl ?_ ?_,
    ctx_word 6 h hctx rfl ?_ ?_, ctx_word 7 h hctx rfl ?_ ?_, ctx_word 8 h hctx rfl ?_ ?_,
    ctx_word 9 h hctx rfl ?_ ?_, ctx_word 10 h hctx rfl ?_ ?_, ctx_word 11 h hctx rfl ?_ ?_,
    ctx_word 12 h hctx rfl ?_ ?_, ctx_word 13 h hctx rfl ?_ ?_, ctx_word 14 h hctx rfl ?_ ?_,
    ctx_word 17 h hctx rfl ?_ ?_, ctx_word 18 h hctx rfl ?_ ?_, ctx_word 19 h hctx rfl ?_ ?_,
    ctx_word 20 h hctx rfl ?_ ?_, ctx_word 21 h hctx rfl ?_ ?_⟩ <;> decide

/-! ## 4. The interrupt return -/

theorem irqReturn_eq : irqReturn = gprs.map .pop ++ [.addRsp 16, .iretq] := rfl

theorem words_eq (R : Registers) : R.words = gprs.map R.gpr ++
    [R.intNo, R.errCode, R.rip, R.cs, R.rflags, R.userRsp, R.ss] := rfl

theorem mem_gprs {r : Reg} (h : r ≠ .rsp) : r ∈ gprs := by
  cases r <;> first | decide | exact absurd rfl h

/-- **The interrupt return delivers the frame** that `rsp` is at. -/
theorem irqReturn_delivers (h : Holds m.mem (m.reg .rsp).toNat R.words)
    (hroom : (m.reg .rsp).toNat + 176 ≤ 2 ^ 64) :
    Delivers R m.fsBase (run gdtBase irqReturn m) := by
  rw [words_eq] at h
  have hlen : (gprs.map R.gpr).length = 15 := rfl
  obtain ⟨sp, hsp, hload⟩ : ∃ sp : UInt64, sp.toNat = _ ∧
      Loaded (m.set .rsp sp) (run gdtBase (gprs.map .pop) m) gprs (gprs.map R.gpr) :=
    run_pop (by decide) (by decide) (length_map _).symm h (by rw [hlen]; omega)
  have hrest := h.drop
  rw [irqReturn_eq, run_append]
  generalize run gdtBase (gprs.map .pop) m = m₁ at hload ⊢
  rw [hlen] at hsp hrest
  have hsp₁ : m₁.reg .rsp = sp := by rw [hload.regs _ (by decide), set_self]
  have hadd : (sp + 16).toNat = (m.reg .rsp).toNat + 136 := by
    rw [toNat_add_of_lt (show sp.toNat + 16 < 2 ^ 64 by omega), hsp]
    rfl
  -- the frame of the cpu lies above the two words the stub pushed
  have hframe : Holds (m₁.set .rsp (sp + 16)).mem ((m₁.set .rsp (sp + 16)).reg .rsp).toNat
      [R.rip, R.cs, R.rflags, R.userRsp, R.ss] := by
    rw [set_self, hadd, set_mem, hload.mem]
    exact hrest.2.2
  rw [run_cons, run_cons, run_nil, X86.exec, hsp₁,
    exec_iretq hframe (by rw [set_self, hadd]; omega)]
  refine ⟨fun r => ?_, rfl, rfl, hload.fsBase⟩
  by_cases hr : r = .rsp
  · rw [hr, set_self]
    rfl
  · rw [set_of_ne hr]
    exact (set_of_ne hr).trans (map_inj_left.mp hload.vals r (mem_gprs hr))

/-- Copied over the frame, a context is delivered. -/
theorem tickResume_delivers (h : Holds m.mem ctx.toNat R.words)
    (hregs : regs.toNat + 176 ≤ 2 ^ 64) :
    Delivers R fsBase (tickResume m regs ctx fsBase) := by
  have hframe : Holds (copyRegs m.mem regs ctx) regs.toNat R.words := h.copy (Nat.le_refl _)
  rw [tickResume]
  generalize hm : ({ m with fsBase := fsBase, mem := copyRegs m.mem regs ctx } : Machine) = m₁
  have hmem : m₁.mem = copyRegs m.mem regs ctx := by rw [← hm]
  have hfs : (m₁.set .rsp regs).fsBase = fsBase := by rw [← hm, set_fsBase]
  rw [← hfs]
  refine irqReturn_delivers ?_ (by rw [set_self]; exact hregs)
  rw [set_self, set_mem, hmem]
  exact hframe

/-! ## 5. `usermode_resume_full` -/

/-- What `usermode_resume_full` reads from its argument into registers. -/
def userLoads : List (UInt64 × Reg) :=
  [(0, .rax), (8, .rbx), (16, .rcx), (24, .rdx), (32, .rsi), (40, .rdi), (48, .rbp), (56, .r8),
    (64, .r9), (72, .r10), (88, .r12), (96, .r13), (104, .r14), (112, .r15)]

theorem run_usermodeResumeFull (m : Machine) : run gdtBase usermodeResumeFull m =
    run gdtBase [.iretq] (run gdtBase (pushMems .r11 [168, 160, 152, 144, 136])
      (run gdtBase (loads .r11 userLoads) (run gdtBase
        [.mov .rdi .r11, .movAx 0x1B, .movSeg .ds, .movSeg .es, .movSeg .fs] m))) := rfl

theorem selector_ax (x : UInt64) :
    (x / 0x10000 * 0x10000 + (0x1B : UInt16).toUInt64).toUInt16 = 0x1B := by
  apply UInt16.toNat_inj.mp
  rw [UInt64.toNat_toUInt16, UInt64.toNat_add, UInt64.toNat_mul, UInt64.toNat_div]
  change (x.toNat / 0x10000 * 0x10000 % 2 ^ 64 + 27) % 2 ^ 64 % 2 ^ 16 = 27
  omega

/-- **After `usermode_resume_full`** r11 has the address of the context, and the FS base is the one
    in the descriptor. -/
structure FullyResumed (R : Registers) (ctx : UInt64) (m : Machine) : Prop where
  gpr : ∀ r, r ≠ .r11 → m.reg r = R.gpr r
  r11 : m.reg .r11 = ctx
  rip : m.rip = R.rip
  rflags : m.rflags = R.rflags
  fs : m.fsBase = 0

/-- The part before the loads. -/
structure Selected (m m₁ : Machine) : Prop where
  r11 : m₁.reg .r11 = m.reg .rdi
  rsp : m₁.reg .rsp = m.reg .rsp
  mem : m₁.mem = m.mem
  fs : m₁.fsBase = 0

theorem run_selected (m : Machine) : Selected m (run gdtBase
    [.mov .rdi .r11, .movAx 0x1B, .movSeg .ds, .movSeg .es, .movSeg .fs] m) := by
  rw [run_cons, run_cons, run_cons, run_cons, run_cons, run_nil]
  refine ⟨?_, ?_, rfl, ?_⟩
  · rw [exec_movSeg_reg, exec_movSeg_reg, exec_movSeg_reg, X86.exec, X86.exec,
      set_of_ne (by decide), set_self]
  · rw [exec_movSeg_reg, exec_movSeg_reg, exec_movSeg_reg, X86.exec, X86.exec,
      set_of_ne (by decide), set_of_ne (by decide)]
  · rw [exec_movSeg_fs, exec_movSeg_reg, exec_movSeg_reg, X86.exec, X86.exec, set_self,
      selector_ax, if_pos (by decide)]
    rfl

/-- The words pushed for the return lie outside the stack they are pushed on. -/
theorem ctx_outside {sp : Nat} {n : Nat} {off : UInt64} (hctx : ctx.toNat + 176 ≤ 2 ^ 64)
    (hout : ctx.toNat + 176 + 8 * n ≤ sp ∨ sp ≤ ctx.toNat) (hoff : off.toNat + 8 ≤ 176) :
    (ctx + off).toNat + 8 * (n + 1) ≤ sp ∨ sp ≤ (ctx + off).toNat := by
  rw [toNat_add_of_lt (by omega)]
  omega

theorem FullyResumed.run (hrdi : m.reg .rdi = ctx) (h : Holds m.mem ctx.toNat R.words)
    (hctx : ctx.toNat + 176 ≤ 2 ^ 64) (hroom : 40 ≤ (m.reg .rsp).toNat)
    (hout : ctx.toNat + 176 + 8 * 5 ≤ (m.reg .rsp).toNat ∨ (m.reg .rsp).toNat ≤ ctx.toNat) :
    FullyResumed R ctx (X86.run gdtBase usermodeResumeFull m) := by
  rw [run_usermodeResumeFull]
  have hsel := run_selected m
  generalize X86.run gdtBase [.mov .rdi .r11, .movAx 0x1B, .movSeg .ds, .movSeg .es, .movSeg .fs] m
    = m₁ at hsel ⊢
  rw [← hsel.mem] at h
  rw [← hsel.rsp] at hroom hout
  have hbase₁ := hsel.r11.trans hrdi
  have hload : Loaded m₁ (X86.run gdtBase (loads .r11 userLoads) m₁) _ _ :=
    run_load (by decide) (by decide)
  generalize X86.run gdtBase (loads .r11 userLoads) m₁ = m₂ at hload ⊢
  have hvals := hload.vals
  simp only [userLoads, map_cons, map_nil, Machine.operand, hbase₁, ctx_words h hctx,
    List.cons.injEq, and_true] at hvals
  -- the frame for the return
  have hrsp₂ : m₂.reg .rsp = m₁.reg .rsp := hload.regs _ (by decide)
  have hbase₂ : m₂.reg .r11 = ctx := (hload.regs _ (by decide)).trans hbase₁
  rw [← hload.mem] at h
  rw [← hrsp₂] at hroom hout
  have hpush : Pushed m₂ (X86.run gdtBase (pushMems .r11 [168, 160, 152, 144, 136]) m₂)
      [R.rip, R.cs, R.rflags, R.userRsp, R.ss] := by
    have hall : ∀ off ∈ [168, 160, 152, 144, (136 : UInt64)], off.toNat + 8 ≤ 176 := by simp
    have hoperands : [R.rip, R.cs, R.rflags, R.userRsp, R.ss] =
        ([168, 160, 152, 144, 136].map (m₂.operand .r11)).reverse ++ [] := by
      simp only [map_cons, map_nil, Machine.operand, hbase₂, ctx_words h hctx]
      rfl
    rw [hoperands]
    refine run_pushMem Pushed.refl (by decide) hroom fun off hoff => ?_
    rw [hbase₂]
    exact ctx_outside hctx hout (hall off hoff)
  rw [run_cons, run_nil, exec_iretq hpush.words (hpush.rsp ▸ (m₂.reg .rsp).toNat_lt.le)]
  refine ⟨fun r hr => ?_, ?_, rfl, rfl, ?_⟩
  · by_cases hrsp : r = .rsp
    · rw [hrsp, set_self]
      rfl
    · rw [set_of_ne hrsp]
      refine (hpush.regs r hrsp).trans ?_
      cases r <;>
        first | exact absurd rfl hr | exact absurd rfl hrsp | simp only [hvals, Registers.gpr]
  · rw [set_of_ne (by decide)]
    exact (hpush.regs _ (by decide)).trans hbase₂
  · exact hpush.fsBase.trans (hload.fsBase.trans hsel.fs)

/-- `usermode_resume_full` delivers a context exactly when r11 and the FS base of the process are
    the values it leaves. -/
theorem FullyResumed.delivers_iff (h : FullyResumed R ctx m) :
    Delivers R fsBase m ↔ R.r11 = ctx ∧ fsBase = 0 := by
  constructor
  · intro hd
    exact ⟨(hd.gpr .r11).symm.trans h.r11, hd.fs.symm.trans h.fs⟩
  intro ⟨hr11, hfs⟩
  refine ⟨fun r => ?_, h.rip, h.rflags, h.fs.trans hfs.symm⟩
  by_cases hr : r = .r11
  · rw [hr, h.r11, ← hr11]
    rfl
  · exact h.gpr r hr

theorem exitResume_resumed (h : Holds m.mem ctx.toNat R.words) (hctx : ctx.toNat + 176 ≤ 2 ^ 64)
    (hstack : 40 ≤ (m.reg .rsp).toNat)
    (hout : ctx.toNat + 176 + 8 * 5 ≤ (m.reg .rsp).toNat ∨ (m.reg .rsp).toNat ≤ ctx.toNat) :
    FullyResumed R ctx (exitResume m ctx fsBase) := by
  have hrsp : (({ m with fsBase := fsBase } : Machine).set .rdi ctx).reg .rsp = m.reg .rsp :=
    set_of_ne (by decide)
  exact FullyResumed.run set_self h hctx (by rw [hrsp]; exact hstack) (by rw [hrsp]; exact hout)

/-- **Resuming a process that was interrupted in user mode.** `u` is the interrupted machine, `top`
    the interrupt stack, `tick` and `exit` the machines that resume the process later. The
    interrupt return delivers the saved context, `usermode_resume_full` does for one r11 and one
    FS base only. -/
theorem resume_delivers_iff {u tick exit : Machine} {top vector ctx regs fsBase : UInt64}
    (hroom : 192 ≤ top.toNat) (hctx : ctx.toNat + 176 ≤ 2 ^ 64)
    (htick : Parked u top vector ctx tick) (hregs : regs.toNat + 176 ≤ 2 ^ 64)
    (hexit : Parked u top vector ctx exit) (hstack : 40 ≤ (exit.reg .rsp).toNat)
    (hout : ctx.toNat + 176 + 8 * 5 ≤ (exit.reg .rsp).toNat ∨ (exit.reg .rsp).toNat ≤ ctx.toNat) :
    (Delivers (frameOf u vector) fsBase (tickResume tick regs ctx fsBase) ∧
      Delivers (frameOf u vector) fsBase (exitResume exit ctx fsBase)) ↔
    u.reg .r11 = ctx ∧ fsBase = 0 := by
  have hfirst : Delivers (frameOf u vector) fsBase (tickResume tick regs ctx fsBase) :=
    tickResume_delivers (htick.holds hroom) hregs
  have hsecond : FullyResumed (frameOf u vector) ctx (exitResume exit ctx fsBase) :=
    exitResume_resumed (hexit.holds hroom) hctx hstack hout
  rw [and_iff_right hfirst, hsecond.delivers_iff]
  rfl

/-- A machine in user mode with the value `r11` in that register. -/
def userMachine (r11 : UInt64) : Machine where
  reg := fun r => if r = .r11 then r11 else 0x8000
  rip := 0x400000
  rflags := 0x202
  cs := userCs
  ss := 0x1B
  seg := fun _ => 0x1B
  fsBase := 0
  mem := fun _ => 0

/-- The machine after the tick has saved it, on the interrupt stack. -/
def userParked (r11 : UInt64) : Machine :=
  (tickSave (userMachine r11) 0x10000 32 0x20000).set .rsp 0x10000

theorem userParked_parked (r11 : UInt64) :
    Parked (userMachine r11) 0x10000 32 0x20000 (userParked r11) := fun _ _ => rfl

theorem resume_delivers_sample :
    Delivers (frameOf (userMachine 0x20000) 32) 0
    (tickResume (userParked 0x20000) 0xFF50 0x20000 0) ∧
      Delivers (frameOf (userMachine 0x20000) 32) 0 (exitResume (userParked 0x20000) 0x20000 0) :=
  (resume_delivers_iff (by decide) (by decide) (userParked_parked _) (by decide)
    (userParked_parked _) (by decide) (by decide)).mpr ⟨rfl, rfl⟩

/-- **r11 is lost**: a process interrupted with 7 in it goes on with the address of its context. -/
theorem r11_not_delivered :
    ¬ (Delivers (frameOf (userMachine 7) 32) 0 (tickResume (userParked 7) 0xFF50 0x20000 0) ∧
      Delivers (frameOf (userMachine 7) 32) 0 (exitResume (userParked 7) 0x20000 0)) := by
  intro h
  have hres :
      FullyResumed (frameOf (userMachine 7) 32) 0x20000 (exitResume (userParked 7) 0x20000 0) :=
    exitResume_resumed ((userParked_parked 7).holds (by decide)) (by decide) (by decide) (by decide)
  exact absurd (hres.delivers_iff.mp h.2).1 (by decide)

/-! ## 6. `kernel_resume` -/

def kernelLoads : List (UInt64 × Reg) :=
  [(0, .rax), (8, .rbx), (16, .rcx), (24, .rdx), (32, .rsi), (40, .rdi), (48, .rbp), (56, .r8)]

def kernelLateLoads : List (UInt64 × Reg) :=
  [(80, .r11), (88, .r12), (96, .r13), (104, .r14), (112, .r15), (64, .r9)]

theorem run_kernelResume (m : Machine) : run gdtBase kernelResume m =
    run gdtBase [.load 72 .r10 .r10, .iretq] (run gdtBase (loads .r10 kernelLateLoads)
      (run gdtBase (pushMems .r10 [152, 144, 136])
        (run gdtBase [.mov .r9 .rsp, .pushImm 0x10, .push .r9] (run gdtBase (loads .r10 kernelLoads)
          (run gdtBase [.mov .rdi .r10, .mov .rsi .r9] m))))) := by
  simp only [kernelResume, loads, pushMems, kernelLoads, kernelLateLoads, map_cons, map_nil,
    run_cons, run_nil]

/-- **After `kernel_resume`** the stack pointer is its second argument. -/
structure KernelResumed (R : Registers) (krsp : UInt64) (m : Machine) : Prop where
  gpr : ∀ r, r ≠ .rsp → m.reg r = R.gpr r
  rsp : m.reg .rsp = krsp
  rip : m.rip = R.rip
  rflags : m.rflags = R.rflags

/-- The frame `kernel_resume` builds on the stack it was given. -/
theorem kernel_pushed (hbase : m.reg .r10 = ctx) (hr9 : m.reg .r9 = krsp)
    (h : Holds m.mem ctx.toNat R.words) (hctx : ctx.toNat + 176 ≤ 2 ^ 64) (hroom : 40 ≤ krsp.toNat)
    (hout : ctx.toNat + 176 + 8 * 5 ≤ krsp.toNat ∨ krsp.toNat ≤ ctx.toNat) :
    Pushed (m.set .rsp krsp)
      (X86.run gdtBase (pushMems .r10 [152, 144, 136])
        (X86.run gdtBase [.mov .r9 .rsp, .pushImm 0x10, .push .r9] m))
      [R.rip, R.cs, R.rflags, krsp, 0x10] := by
  have hrsp : (m.set .rsp krsp).reg .rsp = krsp := set_self
  have hr10 : (m.set .rsp krsp).reg .r10 = ctx := (set_of_ne (by decide)).trans hbase
  have hall : ∀ off ∈ [152, 144, (136 : UInt64)], off.toNat + 8 ≤ 176 := by simp
  have hoperands : [R.rip, R.cs, R.rflags, krsp, 0x10] =
      ([152, 144, 136].map ((m.set .rsp krsp).operand .r10)).reverse ++ [krsp, 0x10] := by
    have hwords : Holds (m.set .rsp krsp).mem ctx.toNat R.words := h
    simp only [map_cons, map_nil, Machine.operand, hr10, ctx_words hwords hctx]
    rfl
  have htwo : Pushed (m.set .rsp krsp) (X86.run gdtBase [.mov .r9 .rsp, .pushImm 0x10, .push .r9] m)
      [krsp, 0x10] := by
    have hone : Pushed (m.set .rsp krsp) ((m.set .rsp krsp).pushWord 0x10) [0x10] :=
      Pushed.refl.push (by rw [hrsp]; exact Nat.le_trans (by decide) hroom)
    have hval : ((m.set .rsp krsp).pushWord 0x10).reg .r9 = krsp :=
      (hone.regs _ (by decide)).trans ((set_of_ne (by decide)).trans hr9)
    rw [run_cons, run_cons, run_cons, run_nil, X86.exec, X86.exec, X86.exec, hr9, hval]
    exact hone.push (by rw [hrsp]; exact Nat.le_trans (by decide) hroom)
  rw [hoperands]
  refine run_pushMem htwo (by decide) (by rw [hrsp]; exact hroom) fun off hoff => ?_
  rw [hr10, hrsp]
  exact ctx_outside hctx hout (hall off hoff)

theorem KernelResumed.run (hrdi : m.reg .rdi = ctx) (hrsi : m.reg .rsi = krsp)
    (h : Holds m.mem ctx.toNat R.words) (hctx : ctx.toNat + 176 ≤ 2 ^ 64) (hroom : 40 ≤ krsp.toNat)
    (hout : ctx.toNat + 176 + 8 * 5 ≤ krsp.toNat ∨ krsp.toNat ≤ ctx.toNat) :
    KernelResumed R krsp (X86.run gdtBase kernelResume m) := by
  rw [run_kernelResume]
  have hmoves : X86.run gdtBase [.mov .rdi .r10, .mov .rsi .r9] m =
      (m.set .r10 ctx).set .r9 krsp := by
    rw [run_cons, run_cons, run_nil, X86.exec, X86.exec, set_of_ne (by decide), hrdi, hrsi]
  rw [hmoves]
  generalize hm₁ : (m.set .r10 ctx).set .r9 krsp = m₁
  have hr9 : m₁.reg .r9 = krsp := by rw [← hm₁, set_self]
  have hr10 : m₁.reg .r10 = ctx := by rw [← hm₁, set_of_ne (by decide), set_self]
  have h₁ : Holds m₁.mem ctx.toNat R.words := by rw [← hm₁]; exact h
  -- the first loads
  have hload : Loaded m₁ (X86.run gdtBase (loads .r10 kernelLoads) m₁) _ _ :=
    run_load (by decide) (by decide)
  generalize X86.run gdtBase (loads .r10 kernelLoads) m₁ = m₂ at hload ⊢
  have hvals := hload.vals
  simp only [kernelLoads, map_cons, map_nil, Machine.operand, hr10, ctx_words h₁ hctx,
    List.cons.injEq, and_true] at hvals
  rw [← hload.regs .r9 (by decide)] at hr9
  rw [← hload.regs .r10 (by decide)] at hr10
  have h₂ : Holds m₂.mem ctx.toNat R.words := by rw [hload.mem]; exact h₁
  -- the frame
  have hpush := kernel_pushed hr10 hr9 h₂ hctx hroom hout
  generalize X86.run gdtBase (pushMems .r10 [152, 144, 136]) _ = m₃ at hpush ⊢
  have hr10₃ : m₃.reg .r10 = ctx :=
    (hpush.regs _ (by decide)).trans ((set_of_ne (by decide)).trans hr10)
  have h₃ : Holds m₃.mem ctx.toNat R.words := hpush.holds h₂ (by rw [set_self]; exact hout)
  -- the remaining loads
  have hlate : Loaded m₃ (X86.run gdtBase (loads .r10 kernelLateLoads) m₃) _ _ :=
    run_load (by decide) (by decide)
  generalize X86.run gdtBase (loads .r10 kernelLateLoads) m₃ = m₄ at hlate ⊢
  have hlates := hlate.vals
  simp only [kernelLateLoads, map_cons, map_nil, Machine.operand, hr10₃, ctx_words h₃ hctx,
    List.cons.injEq, and_true] at hlates
  have hkept : ∀ r, r ∉ kernelLateLoads.map Prod.snd → r ≠ .rsp → m₄.reg r = m₂.reg r :=
    fun r hr hne => (hlate.regs r hr).trans ((hpush.regs r hne).trans (set_of_ne hne))
  have h72 : m₄.operand .r10 72 = R.r10 := by
    have h₄ : Holds m₄.mem ctx.toNat R.words := by rw [hlate.mem]; exact h₃
    rw [Machine.operand, hlate.regs .r10 (by decide), hr10₃]
    simp only [ctx_words h₄ hctx]
  have hsp : (m₄.set .r10 R.r10).reg .rsp = m₃.reg .rsp :=
    (set_of_ne (by decide)).trans (hlate.regs _ (by decide))
  have hframe : Holds (m₄.set .r10 R.r10).mem ((m₄.set .r10 R.r10).reg .rsp).toNat
      [R.rip, R.cs, R.rflags, krsp, 0x10] := by
    rw [hsp, set_mem, hlate.mem]
    exact hpush.words
  have hend : ((m₄.set .r10 R.r10).reg .rsp).toNat + 40 ≤ 2 ^ 64 := by
    have hsum := hpush.rsp
    have hlt := krsp.toNat_lt
    rw [set_self, length_cons, length_cons, length_cons, length_cons,
      length_cons, length_nil] at hsum
    rw [hsp]
    omega
  rw [run_cons, run_cons, run_nil, X86.exec, h72, exec_iretq hframe hend]
  refine ⟨fun r hr => ?_, set_self, rfl, rfl⟩
  rw [set_of_ne hr]
  change (m₄.set .r10 R.r10).reg r = R.gpr r
  by_cases h10 : r = .r10
  · rw [h10, set_self]
    rfl
  rw [set_of_ne h10]
  by_cases hin : r ∈ kernelLateLoads.map Prod.snd
  · cases r <;> first | exact absurd hin (by decide) | simp only [hlates, Registers.gpr]
  rw [hkept r hin hr]
  cases r <;> first
    | exact absurd rfl hr
    | exact absurd rfl h10
    | exact absurd (by decide) hin
    | simp only [hvals, Registers.gpr]

theorem blockedResume_resumed (h : Holds m.mem ctx.toNat R.words) (hctx : ctx.toNat + 176 ≤ 2 ^ 64)
    (hroom : 40 ≤ krsp.toNat)
    (hout : ctx.toNat + 176 + 8 * 5 ≤ krsp.toNat ∨ krsp.toNat ≤ ctx.toNat) :
    KernelResumed R krsp (blockedResume m ctx krsp) :=
  KernelResumed.run ((set_of_ne (by decide)).trans set_self) set_self h hctx hroom hout

/-- **A machine goes on where it was interrupted**: with the stack pointer and the general
    registers it had. -/
def Continues (u m : Machine) : Prop := ∀ r, m.reg r = u.reg r

theorem frameOf_gpr (u : Machine) (vector : UInt64) (r : Reg) :
    (frameOf u vector).gpr r = u.reg r := by
  cases r <;> rfl

/-- `kernel_resume` is right for one second argument: the interrupted stack pointer. -/
theorem KernelResumed.continues_iff (h : KernelResumed (frameOf u vector) krsp m) :
    Continues u m ↔ krsp = u.reg .rsp := by
  constructor
  · intro hc
    rw [← hc .rsp, h.rsp]
  · intro heq r
    by_cases hr : r = .rsp
    · rw [hr, h.rsp, heq]
    · rw [h.gpr r hr, frameOf_gpr]

theorem toNat_align_sub (hroom : 192 ≤ top.toNat) :
    (top - top % 16 - 16).toNat = top.toNat - top.toNat % 16 - 16 := by
  have hle : (16 : UInt64) ≤ top - top % 16 := by
    rw [UInt64.le_iff_toNat_le, toNat_align]
    change 16 ≤ _
    omega
  rw [UInt64.toNat_sub_of_le _ _ hle, toNat_align]
  rfl

/-- What the tick saves as `saved_kernel_rsp`: 16 bytes below the aligned stack pointer, where the
    frame has its `user_rsp`. -/
theorem savedKernelRsp_eq (u : Machine) (vector : UInt64) (hroom : 192 ≤ top.toNat) :
    savedKernelRsp u top vector = top - top % 16 - 16 := by
  have hsum := (irqFrame_pushed u vector hroom).rsp
  rw [set_self, toNat_align] at hsum
  change _ + 176 = _ at hsum
  have hlt := top.toNat_lt
  apply UInt64.toNat_inj.mp
  rw [savedKernelRsp, toNat_align_sub hroom, UInt64.toNat_add]
  change (_ + 160) % 2 ^ 64 = _
  omega

/-- What a process parked on the stack `top` goes on with. -/
theorem Parked.resumed (h : Parked u top vector ctx m) (hroom : 192 ≤ top.toNat)
    (hctx : ctx.toNat + 176 ≤ 2 ^ 64)
    (hout : ctx.toNat + 176 + 8 * 5 ≤ (savedKernelRsp u top vector).toNat ∨
      (savedKernelRsp u top vector).toNat ≤ ctx.toNat) :
    KernelResumed (frameOf u vector) (top - top % 16 - 16)
      (blockedResume m ctx (savedKernelRsp u top vector)) := by
  rw [savedKernelRsp_eq u vector hroom] at hout ⊢
  refine blockedResume_resumed (h.holds hroom) hctx ?_ hout
  rw [toNat_align_sub hroom]
  omega

/-- **`kernel_resume` never gives back the stack pointer.** `u` was interrupted on its own stack;
    whatever `u` was, it goes on with its general registers and a stack pointer that is 16 to 31
    bytes too low. -/
theorem kernel_resume_off {u m : Machine} {vector ctx : UInt64} (hroom : 192 ≤ (u.reg .rsp).toNat)
    (hctx : ctx.toNat + 176 ≤ 2 ^ 64) (hparked : Parked u (u.reg .rsp) vector ctx m)
    (hout : ctx.toNat + 176 + 8 * 5 ≤ (savedKernelRsp u (u.reg .rsp) vector).toNat ∨
      (savedKernelRsp u (u.reg .rsp) vector).toNat ≤ ctx.toNat) :
    KernelResumed (frameOf u vector) (u.reg .rsp - u.reg .rsp % 16 - 16)
      (blockedResume m ctx (savedKernelRsp u (u.reg .rsp) vector)) ∧
    ¬ Continues u (blockedResume m ctx (savedKernelRsp u (u.reg .rsp) vector)) := by
  have hres := hparked.resumed hroom hctx hout
  refine ⟨hres, fun hc => ?_⟩
  have heq := congrArg UInt64.toNat (hres.continues_iff.mp hc)
  rw [toNat_align_sub hroom] at heq
  omega

/-- A machine in a syscall with the stack pointer `rsp`. -/
def syscallMachine (rsp : UInt64) : Machine where
  reg := fun r => if r = .rsp then rsp else 0
  rip := 0x100000
  rflags := 0x202
  cs := kernelCs
  ss := 0x10
  seg := fun _ => 0x10
  fsBase := 0
  mem := fun _ => 0

theorem syscallMachine_parked (rsp : UInt64) : Parked (syscallMachine rsp) rsp 32 0x20000
    (tickSave (syscallMachine rsp) rsp 32 0x20000) := fun _ _ => rfl

theorem kernel_resume_off_sample : ¬ Continues (syscallMachine 0x10008)
    (blockedResume (tickSave (syscallMachine 0x10008) 0x10008 32 0x20000) 0x20000
      (savedKernelRsp (syscallMachine 0x10008) 0x10008 32)) :=
  (kernel_resume_off (u := syscallMachine 0x10008) (by decide) (by decide)
    (syscallMachine_parked 0x10008) (.inr (by
      rw [savedKernelRsp_eq _ _ (by decide)]
      decide))).2

/-- **A stack pointer of 0x10000 becomes 0xFFF0.** -/
theorem stack_pointer_moved :
    (blockedResume (tickSave (syscallMachine 0x10000) 0x10000 32 0x20000) 0x20000
      (savedKernelRsp (syscallMachine 0x10000) 0x10000 32)).reg .rsp = 0xFFF0 ∧
    ¬ Continues (syscallMachine 0x10000)
      (blockedResume (tickSave (syscallMachine 0x10000) 0x10000 32 0x20000) 0x20000
        (savedKernelRsp (syscallMachine 0x10000) 0x10000 32)) := by
  have hout : (savedKernelRsp (syscallMachine 0x10000) 0x10000 32).toNat ≤ 0x20000 := by
    rw [savedKernelRsp_eq _ _ (by decide)]
    decide
  have hres := (syscallMachine_parked 0x10000).resumed (by decide) (by decide) (.inr hout)
  exact ⟨hres.rsp, fun hc => absurd (hres.continues_iff.mp hc) (by decide)⟩

end DyntKernel.Scheduler
