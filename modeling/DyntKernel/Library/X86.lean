/-
  File:      DyntKernel/Library/X86.lean
  Subject:   THE X86-64 INSTRUCTIONS that save and restore a context.

  A machine is its registers and a memory of bytes. Only what a context switch uses is here: moves,
  the stack, `iretq`, a load of a segment register, and the frame an interrupt pushes.

  * `Machine`, `Instr`, `exec`, `run` -- the machine and its instructions;
  * `Machine.interrupt` -- an interrupt: `rsp` is aligned down to 16, then SS, RSP, RFLAGS, CS and
    RIP are pushed, whatever ring it comes from;
  * `Holds mem a ws` -- the words `ws` stand in memory from `a` on;
  * `Pushed m m' ws` -- `m'` is `m` with the words `ws` on its stack;
  * `run_push`, `run_pushMem`, `run_pop`, `run_load`, `Pushed.iretq` -- blocks of instructions of
    one kind.
-/
import DyntKernel.Library.Bytes
import Mathlib.Logic.Function.Basic
import Mathlib.Data.List.Basic

namespace Library.X86

open List Function

/-! ## 1. The machine -/

inductive Reg where
  | rax | rbx | rcx | rdx | rsi | rdi | rbp | rsp
  | r8 | r9 | r10 | r11 | r12 | r13 | r14 | r15
  deriving DecidableEq, Repr

inductive Seg where
  | ds | es | fs
  deriving DecidableEq, Repr

structure Machine where
  reg : Reg → UInt64
  rip : UInt64
  rflags : UInt64
  cs : UInt64
  ss : UInt64
  seg : Seg → UInt16
  fsBase : UInt64
  mem : Nat → UInt8

/-- Operands in the order of the assembler: source, destination. -/
inductive Instr where
  | mov (src dst : Reg)
  | load (off : UInt64) (base dst : Reg)
  | movAx (imm : UInt16)
  | movSeg (dst : Seg)
  | pushImm (imm : UInt64)
  | push (src : Reg)
  | pushMem (off : UInt64) (base : Reg)
  | pop (dst : Reg)
  | addRsp (imm : UInt64)
  | iretq
  deriving DecidableEq, Repr

namespace Machine

variable (m : Machine)

def set (r : Reg) (v : UInt64) : Machine := { m with reg := Function.update m.reg r v }

def word (a : UInt64) : UInt64 := UInt64.ofNat (readLE m.mem a.toNat 8)

/-- The word at `off(base)`. -/
def operand (base : Reg) (off : UInt64) : UInt64 := m.word (m.reg base + off)

def pushWord (v : UInt64) : Machine :=
  { m with mem := writeLE m.mem (m.reg .rsp - 8).toNat 8 v.toNat }.set .rsp (m.reg .rsp - 8)

/-- An interrupt on the stack that starts at `top`. -/
def interrupt (top : UInt64) : Machine :=
  (((((m.set .rsp (top - top % 16)).pushWord m.ss).pushWord (m.reg .rsp)).pushWord
    m.rflags).pushWord m.cs).pushWord m.rip

end Machine

/-- **One instruction**; `desc` is the base in the descriptor of a selector. A selector other than
    the null ones replaces the base of FS. -/
def exec (desc : UInt16 → UInt64) (i : Instr) (m : Machine) : Machine :=
  match i with
  | .mov src dst => m.set dst (m.reg src)
  | .load off base dst => m.set dst (m.operand base off)
  | .movAx imm => m.set .rax (m.reg .rax / 0x10000 * 0x10000 + imm.toUInt64)
  | .movSeg dst =>
    let sel := (m.reg .rax).toUInt16
    { m with
      seg := Function.update m.seg dst sel
      fsBase := if dst = .fs ∧ 4 ≤ sel then desc sel else m.fsBase }
  | .pushImm imm => m.pushWord imm
  | .push src => m.pushWord (m.reg src)
  | .pushMem off base => m.pushWord (m.operand base off)
  | .pop dst => (m.set .rsp (m.reg .rsp + 8)).set dst (m.word (m.reg .rsp))
  | .addRsp imm => m.set .rsp (m.reg .rsp + imm)
  | .iretq =>
    { m with
      rip := m.word (m.reg .rsp)
      cs := m.word (m.reg .rsp + 8)
      rflags := m.word (m.reg .rsp + 16)
      ss := m.word (m.reg .rsp + 32) }.set .rsp (m.word (m.reg .rsp + 24))

def run (desc : UInt16 → UInt64) (is : List Instr) (m : Machine) : Machine :=
  is.foldl (fun m i => exec desc i m) m

/-- Loads from the words around one base. -/
def loads (base : Reg) (ps : List (UInt64 × Reg)) : List Instr := ps.map fun p => .load p.1 base p.2

/-- Pushes of the words around one base. -/
def pushMems (base : Reg) (offs : List UInt64) : List Instr := offs.map fun off => .pushMem off base

section Fields

variable {m : Machine} {q r : Reg} {v w : UInt64}

@[simp] theorem Machine.set_self : (m.set r v).reg r = v := update_self ..

theorem Machine.set_of_ne (h : q ≠ r) : (m.set r v).reg q = m.reg q := update_of_ne h _ _

@[simp] theorem Machine.set_mem : (m.set r v).mem = m.mem := rfl

@[simp] theorem Machine.set_fsBase : (m.set r v).fsBase = m.fsBase := rfl

theorem Machine.set_rsp_set {a b : UInt64} (h : Reg.rsp ≠ r) :
    ((m.set .rsp a).set r w).set .rsp b = (m.set .rsp b).set r w := by
  rw [Machine.set, Machine.set, Machine.set, Machine.set, Machine.set]
  simp only [update_comm h, update_idem]

end Fields

section Segments

variable {desc : UInt16 → UInt64} {m : Machine} {s : Seg}

theorem exec_movSeg_reg : (exec desc (.movSeg s) m).reg = m.reg := rfl

theorem exec_movSeg_fs : (exec desc (.movSeg .fs) m).fsBase =
    if 4 ≤ (m.reg .rax).toUInt16 then desc (m.reg .rax).toUInt16 else m.fsBase := by
  simp [exec]

end Segments

/-! ## 2. Words in memory -/

/-- **The words `ws` stand from the address `a` on.** -/
def Holds (mem : Nat → UInt8) : Nat → List UInt64 → Prop
  | _, [] => True
  | a, w :: ws => readLE mem a 8 = w.toNat ∧ Holds mem (a + 8) ws

variable {mem mem' : Nat → UInt8} {a b n : Nat} {v w : UInt64} {ws us : List UInt64}
  {desc : UInt16 → UInt64} {m m' : Machine} {r base : Reg}

theorem toNat_add_of_lt (h : v.toNat + w.toNat < 2 ^ 64) : (v + w).toNat = v.toNat + w.toNat := by
  rw [UInt64.toNat_add, Nat.mod_eq_of_lt h]

theorem Holds.congr (h : Holds mem a ws)
    (hsame : ∀ x, a ≤ x → x < a + 8 * ws.length → mem' x = mem x) : Holds mem' a ws := by
  induction ws generalizing a with
  | nil => trivial
  | cons w ws ih =>
    rw [length_cons] at hsame
    refine ⟨?_, ih h.2 fun x hx hlt => hsame x (by omega) (by omega)⟩
    rw [← h.1]
    exact readLE_congr fun j hj => hsame (a + j) (by omega) (by omega)

/-- A copy of the words. -/
theorem Holds.copy (h : Holds mem a ws) (hn : 8 * ws.length ≤ n) :
    Holds (blit mem b n fun j => mem (a + j)) b ws := by
  have hbytes : ∀ k, k < n → blit mem b n (fun j => mem (a + j)) (b + k) = mem (a + k) :=
    fun k hk => blit_of_in hk
  generalize blit mem b n (fun j => mem (a + j)) = mem' at hbytes
  induction ws generalizing a b n with
  | nil => trivial
  | cons w ws ih =>
    rw [length_cons] at hn
    refine ⟨?_, ih (n := n - 8) h.2 (by omega) fun k hk => ?_⟩
    · rw [← h.1]
      exact readLE_congr fun j hj => hbytes j (by omega)
    · have hnext := hbytes (8 + k) (by omega)
      rwa [← Nat.add_assoc, ← Nat.add_assoc] at hnext

theorem Holds.drop (h : Holds mem a (ws ++ us)) : Holds mem (a + 8 * ws.length) us := by
  induction ws generalizing a with
  | nil => exact h
  | cons w ws ih =>
    rw [length_cons, show a + 8 * (ws.length + 1) = a + 8 + 8 * ws.length by omega]
    exact ih h.2

/-- The word at an index. -/
theorem Holds.get {i : Nat} (h : Holds mem a ws) (hi : ws[i]? = some w) :
    readLE mem (a + 8 * i) 8 = w.toNat := by
  induction ws generalizing a i with
  | nil => cases hi
  | cons u ws ih =>
    cases i with
    | zero =>
      rw [List.getElem?_cons_zero, Option.some.injEq] at hi
      rw [← hi]
      exact h.1
    | succ i =>
      rw [List.getElem?_cons_succ] at hi
      have htail := ih h.2 hi
      rwa [show a + 8 + 8 * i = a + 8 * (i + 1) by omega] at htail

/-- The word at an index, as an operand reads it. -/
theorem Holds.word {i : Nat} {p off : UInt64} (h : Holds m.mem p.toNat ws) (hi : ws[i]? = some w)
    (hoff : (p + off).toNat = p.toNat + 8 * i) : m.word (p + off) = w := by
  rw [Machine.word, hoff, h.get hi, UInt64.ofNat_toNat]

/-! ## 3. Blocks of pushes -/

@[simp] theorem run_nil : run desc [] m = m := rfl

@[simp] theorem run_cons (i : Instr) (is : List Instr) :
    run desc (i :: is) m = run desc is (exec desc i m) := rfl

theorem run_append (is js : List Instr) : run desc (is ++ js) m = run desc js (run desc is m) :=
  foldl_append

/-- **`m'` is `m` with the words `ws` on top of its stack**, the last pushed first. -/
structure Pushed (m m' : Machine) (ws : List UInt64) : Prop where
  rsp : (m'.reg .rsp).toNat + 8 * ws.length = (m.reg .rsp).toNat
  words : Holds m'.mem (m'.reg .rsp).toNat ws
  regs : ∀ r, r ≠ .rsp → m'.reg r = m.reg r
  fsBase : m'.fsBase = m.fsBase
  kept : ∀ x, x < (m'.reg .rsp).toNat ∨ (m.reg .rsp).toNat ≤ x → m'.mem x = m.mem x

theorem Pushed.refl : Pushed m m [] := ⟨rfl, trivial, fun _ _ => rfl, rfl, fun _ _ => rfl⟩

section

variable (h : Pushed m m' ws)
include h

theorem Pushed.push (hroom : 8 * (ws.length + 1) ≤ (m.reg .rsp).toNat) :
    Pushed m (m'.pushWord v) (v :: ws) := by
  have hrsp := h.rsp
  have hle : (8 : UInt64) ≤ m'.reg .rsp := UInt64.le_iff_toNat_le.mpr (show 8 ≤ _ by omega)
  have hnew : (m'.pushWord v).reg .rsp = m'.reg .rsp - 8 := Machine.set_self
  have haddr : (m'.reg .rsp - 8).toNat = (m'.reg .rsp).toNat - 8 := UInt64.toNat_sub_of_le _ _ hle
  have hmem : (m'.pushWord v).mem = writeLE m'.mem ((m'.reg .rsp).toNat - 8) 8 v.toNat := by
    rw [← haddr]
    rfl
  have hold : ∀ x, x < (m'.reg .rsp).toNat - 8 ∨ (m'.reg .rsp).toNat ≤ x →
      (m'.pushWord v).mem x = m'.mem x := fun x hx => by
    rw [hmem]
    exact blit_of_out (by omega)
  refine ⟨?_, ⟨?_, ?_⟩, fun r hr => ?_, h.fsBase, fun x hx => ?_⟩
  · rw [hnew, haddr, length_cons]
    omega
  · rw [hnew, haddr, hmem, readLE_writeLE]
    exact Nat.mod_eq_of_lt v.toNat_lt
  · rw [hnew, haddr, Nat.sub_add_cancel (by omega)]
    exact h.words.congr fun x hx _ => hold x (.inr hx)
  · rw [← h.regs r hr]
    exact Machine.set_of_ne hr
  · rw [hnew, haddr] at hx
    rw [hold x (by omega)]
    exact h.kept x (by omega)

/-- Words that lie outside the stack stay. -/
theorem Pushed.holds (hold : Holds m.mem a us)
    (hout : a + 8 * us.length + 8 * ws.length ≤ (m.reg .rsp).toNat ∨ (m.reg .rsp).toNat ≤ a) :
    Holds m'.mem a us := by
  have hrsp := h.rsp
  exact hold.congr fun x hx hlt => h.kept x (by omega)

theorem run_push {rs : List Reg} (hrs : Reg.rsp ∉ rs)
    (hroom : 8 * (rs.length + ws.length) ≤ (m.reg .rsp).toNat) :
    Pushed m (run desc (rs.map .push) m') ((rs.map m.reg).reverse ++ ws) := by
  induction rs generalizing m' ws with
  | nil => exact h
  | cons r rs ih =>
    rw [mem_cons, not_or] at hrs
    rw [length_cons] at hroom
    have hstep : Pushed m (m'.pushWord (m'.reg r)) (m.reg r :: ws) := by
      rw [h.regs r (Ne.symm hrs.1)]
      exact h.push (by omega)
    have hrest := ih hstep hrs.2 (by rw [length_cons]; omega)
    rwa [map_cons, map_cons, reverse_cons, append_assoc]

/-- Pushes of words that lie outside the stack they are pushed on. -/
theorem run_pushMem {offs : List UInt64} (hbase : base ≠ .rsp)
    (hroom : 8 * (offs.length + ws.length) ≤ (m.reg .rsp).toNat)
    (hout : ∀ off ∈ offs, (m.reg base + off).toNat + 8 * (offs.length + ws.length + 1) ≤
      (m.reg .rsp).toNat ∨ (m.reg .rsp).toNat ≤ (m.reg base + off).toNat) :
    Pushed m (run desc (pushMems base offs) m') ((offs.map (m.operand base)).reverse ++ ws) := by
  induction offs generalizing m' ws with
  | nil => exact h
  | cons off offs ih =>
    rw [length_cons] at hroom hout
    have hrsp := h.rsp
    have hoperand : m'.operand base off = m.operand base off := by
      rw [Machine.operand, Machine.operand, h.regs base hbase, Machine.word, Machine.word]
      refine congrArg UInt64.ofNat (readLE_congr fun j hj => h.kept _ ?_)
      have := hout off mem_cons_self
      omega
    have hstep : Pushed m (m'.pushWord (m'.operand base off)) (m.operand base off :: ws) := by
      rw [hoperand]
      exact h.push (by omega)
    have hrest := ih hstep (by rw [length_cons]; omega) fun o ho => by
      rw [length_cons]
      have := hout o (mem_cons_of_mem off ho)
      omega
    rwa [map_cons, reverse_cons, append_assoc]

end

/-! ## 4. Blocks of loads and pops -/

/-- **`m'` is `m` with the values `vs` in the registers `rs`.** -/
structure Loaded (m m' : Machine) (rs : List Reg) (vs : List UInt64) : Prop where
  vals : rs.map m'.reg = vs
  regs : ∀ r, r ∉ rs → m'.reg r = m.reg r
  mem : m'.mem = m.mem
  fsBase : m'.fsBase = m.fsBase

theorem Loaded.cons {rs : List Reg} {vs : List UInt64} (h : Loaded (m.set r v) m' rs vs)
    (hr : r ∉ rs) : Loaded m m' (r :: rs) (v :: vs) := by
  refine ⟨?_, fun q hq => ?_, h.mem, h.fsBase⟩
  · rw [map_cons, h.vals, h.regs r hr, Machine.set_self]
  · rw [mem_cons, not_or] at hq
    rw [h.regs q hq.2, Machine.set_of_ne hq.1]

theorem run_load {ps : List (UInt64 × Reg)} (hnd : (ps.map Prod.snd).Nodup)
    (hbase : base ∉ ps.map Prod.snd) : Loaded m (run desc (loads base ps) m) (ps.map Prod.snd)
      (ps.map fun p => m.operand base p.1) := by
  induction ps generalizing m with
  | nil => exact ⟨rfl, fun _ _ => rfl, rfl, rfl⟩
  | cons p ps ih =>
    rw [map_cons, nodup_cons] at hnd
    rw [map_cons, mem_cons, not_or] at hbase
    have hrest := ih (m := m.set p.2 (m.operand base p.1)) hnd.2 hbase.2
    have hsame : (m.set p.2 (m.operand base p.1)).operand base = m.operand base := by
      funext off
      rw [Machine.operand, Machine.operand, Machine.set_of_ne hbase.1]
      rfl
    rw [hsame] at hrest
    exact hrest.cons hnd.1

/-- Pops of the words on the stack. -/
theorem run_pop {rs : List Reg} (hnd : rs.Nodup) (hrsp : Reg.rsp ∉ rs)
    (hlen : rs.length = ws.length)
    (h : Holds m.mem (m.reg .rsp).toNat (ws ++ us))
    (hroom : (m.reg .rsp).toNat + 8 * ws.length < 2 ^ 64) :
    ∃ sp : UInt64, sp.toNat = (m.reg .rsp).toNat + 8 * ws.length ∧
      Loaded (m.set .rsp sp) (run desc (rs.map .pop) m) rs ws := by
  induction rs generalizing m ws with
  | nil =>
    obtain rfl := eq_nil_of_length_eq_zero hlen.symm
    refine ⟨m.reg .rsp, rfl, rfl, fun r _ => ?_, rfl, rfl⟩
    exact (congrFun (update_eq_self _ m.reg) r).symm
  | cons r rs ih =>
    obtain - | ⟨w, ws⟩ := ws
    · cases hlen
    rw [nodup_cons] at hnd
    rw [mem_cons, not_or] at hrsp
    rw [length_cons] at hroom
    have hnext : (m.reg .rsp + 8).toNat = (m.reg .rsp).toNat + 8 :=
      toNat_add_of_lt (show (m.reg .rsp).toNat + 8 < 2 ^ 64 by omega)
    have hword : m.word (m.reg .rsp) = w := by rw [Machine.word, h.1, UInt64.ofNat_toNat]
    -- the machine after the first pop
    have hsp : ((m.set .rsp (m.reg .rsp + 8)).set r w).reg .rsp = m.reg .rsp + 8 := by
      rw [Machine.set_of_ne hrsp.1, Machine.set_self]
    obtain ⟨sp, hsum, hload⟩ := ih (m := (m.set .rsp (m.reg .rsp + 8)).set r w) hnd.2 hrsp.2
      (Nat.succ.inj hlen) (by rw [hsp, hnext]; exact h.2) (by rw [hsp, hnext]; omega)
    rw [hsp, hnext] at hsum
    refine ⟨sp, by rw [hsum, length_cons]; omega, ?_⟩
    rw [Machine.set_rsp_set hrsp.1] at hload
    rw [map_cons, run_cons, exec, hword]
    exact hload.cons hnd.1

/-! ## 5. The return -/

theorem exec_iretq {rip cs rflags rsp ss : UInt64}
    (h : Holds m.mem (m.reg .rsp).toNat (rip :: cs :: rflags :: rsp :: ss :: us))
    (hroom : (m.reg .rsp).toNat + 40 ≤ 2 ^ 64) : exec desc .iretq m =
      { m with rip := rip, cs := cs, rflags := rflags, ss := ss }.set .rsp rsp := by
  have hoff : ∀ off : UInt64, off.toNat < 40 → (m.reg .rsp + off).toNat =
      (m.reg .rsp).toNat + off.toNat := fun off hlt =>
    toNat_add_of_lt (by omega)
  have h₀ : m.word (m.reg .rsp) = rip := by rw [Machine.word, h.1, UInt64.ofNat_toNat]
  have h₁ : m.word (m.reg .rsp + 8) = cs := h.word (i := 1) rfl (hoff 8 (by decide))
  have h₂ : m.word (m.reg .rsp + 16) = rflags := h.word (i := 2) rfl (hoff 16 (by decide))
  have h₃ : m.word (m.reg .rsp + 24) = rsp := h.word (i := 3) rfl (hoff 24 (by decide))
  have h₄ : m.word (m.reg .rsp + 32) = ss := h.word (i := 4) rfl (hoff 32 (by decide))
  rw [exec, h₀, h₁, h₂, h₃, h₄]

end Library.X86
