import Myria.Lib.ByteMem

/-! A fragment of the x86-64 instruction set, enough for entry and exit stubs:
moves, stack operations, calls, and the `SYSCALL`/`SYSRETQ` pair. Code is a list
of instructions; addresses inside straight-line code are not tracked, so `rip`
is meaningful at transfers of control only. -/
namespace X86

open ByteMem

inductive Reg where
  | rax | rcx | rdx | rbx | rsp | rbp | rsi | rdi
  | r8 | r9 | r10 | r11 | r12 | r13 | r14 | r15
deriving DecidableEq, Repr

structure Cpu where
  reg : Reg → BitVec 64
  rip : BitVec 64
  rflags : BitVec 64
  cs : BitVec 16
  ss : BitVec 16
  msr : BitVec 32 → BitVec 64
  mem : Mem

def Cpu.set (c : Cpu) (r : Reg) (v : BitVec 64) : Cpu :=
  { c with reg := fun x => if x = r then v else c.reg x }

inductive Instr where
  | mov (dst src : Reg)
  /-- `mov dst, [addr]` -/
  | load (dst : Reg) (addr : BitVec 64)
  /-- `mov [addr], src` -/
  | store (addr : BitVec 64) (src : Reg)
  | push (src : Reg)
  | pop (dst : Reg)
  | add (dst : Reg) (imm : BitVec 64)
  /-- a call whose next instruction is at `next` -/
  | call (target next : BitVec 64)
deriving DecidableEq, Repr

/-- CF, PF, AF, ZF, SF and OF. -/
def statusMask : BitVec 64 := 0x8D5

/-- The status flags of `a + b`. -/
def addStatus (a b : BitVec 64) : BitVec 64 :=
  let r := a + b
  let bit (p : Bool) (flag : BitVec 64) : BitVec 64 := if p then flag else 0
  bit (2 ^ 64 ≤ a.toNat + b.toNat) 0x1 |||
    bit ((List.range 8).countP (r.getLsbD ·) % 2 = 0) 0x4 |||
    bit (16 ≤ a.toNat % 16 + b.toNat % 16) 0x10 |||
    bit (r = 0) 0x40 |||
    bit r.msb 0x80 |||
    bit (a.msb = b.msb ∧ r.msb ≠ a.msb) 0x800

/-- Put `v` on the stack. -/
def Cpu.pushWord (c : Cpu) (v : BitVec 64) : Cpu :=
  let c' := c.set .rsp (c.reg .rsp - 8)
  { c' with mem := write64 c.mem (c.reg .rsp - 8) v }

def exec (c : Cpu) : Instr → Cpu
  | .mov dst src => c.set dst (c.reg src)
  | .load dst addr => c.set dst (read64 c.mem addr)
  | .store addr src => { c with mem := write64 c.mem addr (c.reg src) }
  | .push src => c.pushWord (c.reg src)
  | .pop dst => (c.set .rsp (c.reg .rsp + 8)).set dst (read64 c.mem (c.reg .rsp))
  | .add dst imm =>
    { c.set dst (c.reg dst + imm) with
      rflags := c.rflags &&& ~~~statusMask ||| addStatus (c.reg dst) imm }
  | .call target next => { c.pushWord next with rip := target }

def run (c : Cpu) (code : List Instr) : Cpu := code.foldl exec c

@[simp] theorem run_nil (c : Cpu) : run c [] = c := rfl

@[simp] theorem run_cons (c : Cpu) (i : Instr) (code : List Instr) :
    run c (i :: code) = run (exec c i) code := rfl

theorem run_append (c : Cpu) (code code' : List Instr) :
    run c (code ++ code') = run (run c code) code' := List.foldl_append

/-- The addresses of the words that pushes and calls write. -/
def stackWrites (c : Cpu) : List Instr → List (BitVec 64)
  | [] => []
  | i :: code =>
    match i with
    | .push _ | .call _ _ => (c.reg .rsp - 8) :: stackWrites (exec c i) code
    | _ => stackWrites (exec c i) code

/-! ## Registers and memory after an instruction -/

@[simp] theorem Cpu.set_reg (c : Cpu) (r x : Reg) (v : BitVec 64) :
    (c.set r v).reg x = if x = r then v else c.reg x := rfl

@[simp] theorem Cpu.set_mem (c : Cpu) (r : Reg) (v : BitVec 64) : (c.set r v).mem = c.mem := rfl

@[simp] theorem Cpu.pushWord_reg (c : Cpu) (v : BitVec 64) (x : Reg) :
    (c.pushWord v).reg x = if x = .rsp then c.reg .rsp - 8 else c.reg x := rfl

@[simp] theorem Cpu.pushWord_mem (c : Cpu) (v : BitVec 64) :
    (c.pushWord v).mem = write64 c.mem (c.reg .rsp - 8) v := rfl

/-- Only privileged instructions change the model-specific registers. -/
@[simp] theorem exec_msr (c : Cpu) (i : Instr) : (exec c i).msr = c.msr := by
  cases i <;> rfl

@[simp] theorem run_msr (c : Cpu) (code : List Instr) : (run c code).msr = c.msr := by
  induction code generalizing c with
  | nil => rfl
  | cons i code ih => rw [run_cons, ih, exec_msr]

/-- Saving registers changes none but the stack pointer. -/
theorem run_pushes_reg (c : Cpu) (rs : List Reg) {x : Reg} (hx : x ≠ .rsp) :
    (run c (rs.map .push)).reg x = c.reg x := by
  induction rs generalizing c with
  | nil => rfl
  | cons r rs ih =>
    rw [List.map_cons, run_cons, ih, exec, Cpu.pushWord_reg, if_neg hx]

theorem run_pops_reg (c : Cpu) (rs : List Reg) {x : Reg} (hx : x ≠ .rsp) (hrs : x ∉ rs) :
    (run c (rs.map .pop)).reg x = c.reg x := by
  induction rs generalizing c with
  | nil => rfl
  | cons r rs ih =>
    rw [List.mem_cons, not_or] at hrs
    rw [List.map_cons, run_cons, ih _ hrs.2, exec, Cpu.set_reg, if_neg hrs.1,
      Cpu.set_reg, if_neg hx]

/-! ## System calls -/

def msrEfer : BitVec 32 := 0xC0000080
def msrStar : BitVec 32 := 0xC0000081
def msrLstar : BitVec 32 := 0xC0000082
def msrSfmask : BitVec 32 := 0xC0000084

/-- `SYSCALL`, with `rip` already at the following instruction. -/
def syscall (c : Cpu) : Cpu :=
  let c' := (c.set .rcx c.rip).set .r11 c.rflags
  { c' with
    rip := c.msr msrLstar
    rflags := c.rflags &&& ~~~(c.msr msrSfmask)
    cs := (c.msr msrStar).extractLsb' 32 16 &&& 0xFFFC
    ss := (c.msr msrStar).extractLsb' 32 16 + 8 }

/-- The selectors that `SYSRETQ` loads. -/
def sysretCs (star : BitVec 64) : BitVec 16 := (star.extractLsb' 48 16 + 16) ||| 3
def sysretSs (star : BitVec 64) : BitVec 16 := (star.extractLsb' 48 16 + 8) ||| 3

/-- `SYSRETQ`, for a canonical return address in `rcx`. -/
def sysretq (c : Cpu) : Cpu :=
  { c with
    rip := c.reg .rcx
    rflags := c.reg .r11 &&& 0x3C7FD7 ||| 2
    cs := sysretCs (c.msr msrStar)
    ss := sysretSs (c.msr msrStar) }

/-! ## The System V calling convention -/

/-- The first seven integer arguments, seen at the entry of the callee. -/
def sysvArgs (c : Cpu) : List (BitVec 64) :=
  [c.reg .rdi, c.reg .rsi, c.reg .rdx, c.reg .rcx, c.reg .r8, c.reg .r9,
    read64 c.mem (c.reg .rsp + 8)]

def calleeSaved : List Reg := [.rbx, .rbp, .r12, .r13, .r14, .r15]

/-- A callee entered in `c` may return in `c'`: any caller-saved register and
any memory may have changed. -/
structure SysvReturns (c c' : Cpu) : Prop where
  rip : c'.rip = read64 c.mem (c.reg .rsp)
  rsp : c'.reg .rsp = c.reg .rsp + 8
  saved : ∀ r ∈ calleeSaved, c'.reg r = c.reg r
  cs : c'.cs = c.cs
  ss : c'.ss = c.ss
  msr : c'.msr = c.msr

/-- The callee that does nothing but return with `v` in register `r`. -/
def returnWith (c : Cpu) (r : Reg) (v : BitVec 64) : Cpu :=
  { (c.set r v).set .rsp (c.reg .rsp + 8) with rip := read64 c.mem (c.reg .rsp) }

theorem sysvReturns_returnWith (c : Cpu) {r : Reg} (v : BitVec 64) (hr : r ∉ calleeSaved) :
    SysvReturns c (returnWith c r v) where
  rip := rfl
  rsp := by simp [returnWith]
  saved := by
    intro x hx
    have hsp : x ≠ .rsp := by rintro rfl; exact absurd hx (by decide)
    have hxr : x ≠ r := by rintro rfl; exact hr hx
    simp [returnWith, hsp, hxr]
  cs := rfl
  ss := rfl
  msr := rfl

end X86
