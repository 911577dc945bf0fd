import Myria.Lib.X86Descriptor

/-! Machine code. A program in memory is bytes that the processor fetches one by one
and takes apart again; here for moves of an immediate into a register, `SYSCALL` and
`HLT`. Fetching is a parameter, so that it can go through page tables. -/
namespace X86

inductive UserOp where
  /-- `mov dst, imm`, with a sign-extended immediate -/
  | movImm (dst : Reg) (imm : BitVec 32)
  | syscall
  | hlt
deriving DecidableEq, Repr

/-! ## Encoding -/

def Reg.number : Reg → BitVec 4
  | .rax => 0 | .rcx => 1 | .rdx => 2 | .rbx => 3 | .rsp => 4 | .rbp => 5 | .rsi => 6 | .rdi => 7
  | .r8 => 8 | .r9 => 9 | .r10 => 10 | .r11 => 11
  | .r12 => 12 | .r13 => 13 | .r14 => 14 | .r15 => 15

def Reg.ofNumber (n : BitVec 4) : Reg :=
  [.rax, .rcx, .rdx, .rbx, .rsp, .rbp, .rsi, .rdi,
    .r8, .r9, .r10, .r11, .r12, .r13, .r14, .r15].getD
    n.toNat .rax

@[simp] theorem Reg.ofNumber_number (r : Reg) : Reg.ofNumber r.number = r := by
  cases r <;> rfl

/-- REX.W, with the top bit of the register number in B. -/
def rexByte (n : BitVec 4) : BitVec 8 := 0x48 ||| (n.extractLsb' 3 1).setWidth 8

/-- The operand byte of a move into a register. -/
def modrmByte (n : BitVec 4) : BitVec 8 := 0xC0 ||| (n.extractLsb' 0 3).setWidth 8

def UserOp.encode : UserOp → List (BitVec 8)
  | .movImm dst imm => [rexByte dst.number, 0xC7, modrmByte dst.number] ++ le32 imm
  | .syscall => [0x0F, 0x05]
  | .hlt => [0xF4]

/-- The code of a program. -/
def assemble (ops : List UserOp) : List (BitVec 8) := ops.flatMap UserOp.encode

/-! ## Decoding -/

section Fetch

variable (fetch : BitVec 64 → Option (BitVec 8))

def fetch32 (a : BitVec 64) : Option (BitVec 32) := do
  let b0 ← fetch a
  let b1 ← fetch (a + 1)
  let b2 ← fetch (a + 2)
  let b3 ← fetch (a + 3)
  return b3 ++ b2 ++ b1 ++ b0

/-- The instruction at `a` and the address of the next one. There is none when a byte
cannot be fetched or the instruction is outside the fragment. -/
def decode (a : BitVec 64) : Option (UserOp × BitVec 64) := do
  let b0 ← fetch a
  if b0 = 0xF4 then return (.hlt, a + 1)
  let b1 ← fetch (a + 1)
  if b0 = 0x0F ∧ b1 = 0x05 then return (.syscall, a + 2)
  let b2 ← fetch (a + 2)
  if b0 &&& 0xFE = 0x48 ∧ b1 = 0xC7 ∧ b2 &&& 0xF8 = 0xC0 then
    let imm ← fetch32 fetch (a + 3)
    return (.movImm (.ofNumber (b0.extractLsb' 0 1 ++ b2.extractLsb' 0 3)) imm, a + 7)
  none

/-- Run up to the first `SYSCALL`, with `rip` behind it, in at most `fuel` instructions.
Anything else that stops the processor is `none`. -/
def runToSyscall : ℕ → Cpu → Option Cpu
  | 0, _ => none
  | fuel + 1, c =>
    match decode fetch c.rip with
    | some (.movImm dst imm, next) =>
      runToSyscall fuel { c.set dst (imm.signExtend 64) with rip := next }
    | some (.syscall, next) => some { c with rip := next }
    -- a privileged instruction
    | some (.hlt, _) => none
    | none => none

/-- The bytes from `a` on can be fetched and are `bs`. -/
def CodeAt (a : BitVec 64) : List (BitVec 8) → Prop
  | [] => True
  | b :: bs => fetch a = some b ∧ CodeAt (a + 1) bs

end Fetch

variable {fetch : BitVec 64 → Option (BitVec 8)} {a : BitVec 64}

theorem codeAt_append {bs bs' : List (BitVec 8)} :
    CodeAt fetch a (bs ++ bs') ↔ CodeAt fetch a bs ∧
      CodeAt fetch (a + BitVec.ofNat 64 bs.length) bs' := by
  induction bs generalizing a with
  | nil => simp [CodeAt]
  | cons b bs ih =>
    have hnext : a + 1 + BitVec.ofNat 64 bs.length = a + BitVec.ofNat 64 (bs.length + 1) := by
      rw [BitVec.add_assoc, BitVec.add_comm 1, BitVec.ofNat_add]
      rfl
    simp only [List.cons_append, CodeAt, ih, List.length_cons, hnext, and_assoc]

theorem codeAt_of_getD {bs : List (BitVec 8)}
    (h : ∀ i < bs.length, fetch (a + BitVec.ofNat 64 i) = some (bs.getD i 0)) :
    CodeAt fetch a bs := by
  induction bs generalizing a with
  | nil => trivial
  | cons b bs ih =>
    refine ⟨by simpa using h 0 (Nat.succ_pos _), ih fun i hi => ?_⟩
    have hnext : a + BitVec.ofNat 64 (i + 1) = a + 1 + BitVec.ofNat 64 i := by
      rw [BitVec.ofNat_add, BitVec.add_assoc, BitVec.add_comm 1]
      rfl
    rw [← hnext, h (i + 1) (Nat.succ_lt_succ hi), List.getD_cons_succ]

theorem rexByte_fields (n : BitVec 4) :
    rexByte n &&& 0xFE = 0x48 ∧ rexByte n ≠ 0xF4 ∧ rexByte n ≠ 0x0F ∧ modrmByte n &&& 0xF8 = 0xC0 ∧
      (rexByte n).extractLsb' 0 1 ++ (modrmByte n).extractLsb' 0 3 = n := by
  revert n
  decide

theorem fetch32_le32 {v : BitVec 32} (h : CodeAt fetch a (le32 v)) : fetch32 fetch a = some v := by
  have hv : v.extractLsb' 24 8 ++ v.extractLsb' 16 8 ++ v.extractLsb' 8 8 ++
      v.extractLsb' 0 8 = v := by
    apply BitVec.eq_of_getLsbD_eq
    intro i hi
    simp only [BitVec.getLsbD_append, BitVec.getLsbD_extractLsb']
    grind
  simp only [le32, CodeAt, and_true, BitVec.add_assoc] at h
  obtain ⟨h0, h1, h2, h3⟩ := h
  simp only [fetch32]
  rw [h0, h1, show a + 2 = a + (1 + 1) from rfl, h2, show a + 3 = a + (1 + (1 + 1)) from rfl, h3]
  exact congrArg some hv

/-- The processor reads back the instruction that was assembled. -/
theorem decode_encode {op : UserOp} (h : CodeAt fetch a op.encode) :
    decode fetch a = some (op, a + BitVec.ofNat 64 op.encode.length) := by
  cases op with
  | movImm dst imm =>
    obtain ⟨hopcode, himm⟩ := codeAt_append.mp h
    obtain ⟨hrex, hmark, hmodrm, -⟩ := hopcode
    obtain ⟨hmask, hhlt, hsys, hmod, hnumber⟩ := rexByte_fields dst.number
    rw [BitVec.add_assoc] at hmodrm
    change CodeAt fetch (a + 3) _ at himm
    simp only [decode, hrex, hmark, show a + 2 = a + (1 + 1) from rfl, hmodrm, fetch32_le32 himm,
      Option.bind_eq_bind, Option.bind_some, hhlt, hsys, hmask, hmod, hnumber, false_and, if_false,
      and_self, if_true, Reg.ofNumber_number]
    rfl
  | syscall =>
    obtain ⟨h0, h1, -⟩ := h
    simp only [decode, h0, h1, Option.bind_eq_bind, Option.bind_some]
    rfl
  | hlt =>
    simp only [decode, h.1, Option.bind_eq_bind, Option.bind_some]
    rfl

/-! ## Programs that load registers and call -/

/-- Load immediates one after the other. -/
def Cpu.loadImms (c : Cpu) (imms : List (Reg × BitVec 32)) : Cpu :=
  imms.foldl (fun c i => c.set i.1 (i.2.signExtend 64)) c

/-- A program that loads registers and makes a system call. -/
def callProgram (imms : List (Reg × BitVec 32)) : List UserOp :=
  imms.map (fun i => .movImm i.1 i.2) ++ [.syscall]

theorem loadImms_reg_of_not_mem {c : Cpu} {imms : List (Reg × BitVec 32)} {r : Reg}
    (h : r ∉ imms.map Prod.fst) : (c.loadImms imms).reg r = c.reg r := by
  induction imms generalizing c with
  | nil => rfl
  | cons i imms ih =>
    rw [List.map_cons, List.mem_cons, not_or] at h
    change ((c.set i.1 (i.2.signExtend 64)).loadImms imms).reg r = _
    rw [ih h.2, Cpu.set_reg, if_neg h.1]

theorem loadImms_reg_of_mem {c : Cpu} {regs : List Reg} {values : Reg → BitVec 32} {r : Reg}
    (h : r ∈ regs) :
    (c.loadImms (regs.map fun r => (r, values r))).reg r = (values r).signExtend 64 := by
  induction regs generalizing c with
  | nil => cases h
  | cons r' regs ih =>
    change ((c.set r' ((values r').signExtend 64)).loadImms _).reg r = _
    by_cases hmem : r ∈ regs
    · exact ih hmem
    · obtain rfl : r = r' := (List.mem_cons.mp h).resolve_right hmem
      rw [loadImms_reg_of_not_mem (by simpa using hmem), Cpu.set_reg, if_pos rfl]

@[simp] theorem loadImms_msr (c : Cpu) (imms : List (Reg × BitVec 32)) :
    (c.loadImms imms).msr = c.msr := by
  induction imms generalizing c with
  | nil => rfl
  | cons i imms ih => exact ih (c.set i.1 (i.2.signExtend 64))

theorem loadImms_rip (c : Cpu) (imms : List (Reg × BitVec 32)) (rip : BitVec 64) :
    Cpu.loadImms { c with rip } imms = { c.loadImms imms with rip } := by
  induction imms generalizing c with
  | nil => rfl
  | cons i imms ih => exact ih (c.set i.1 (i.2.signExtend 64))

/-- Such a program gets to its call with all its registers loaded. -/
theorem runToSyscall_callProgram {c : Cpu} {imms : List (Reg × BitVec 32)}
    (h : CodeAt fetch c.rip (assemble (callProgram imms))) {fuel : ℕ} (hfuel : imms.length < fuel) :
    runToSyscall fetch fuel c = some { c.loadImms imms with
      rip := c.rip + BitVec.ofNat 64 (assemble (callProgram imms)).length } := by
  -- one instruction at a time; the code that is left stands at the new `rip`
  induction imms generalizing c fuel with
  | nil =>
    obtain ⟨fuel, rfl⟩ := Nat.exists_eq_add_one_of_ne_zero (Nat.ne_of_gt hfuel)
    have hdecode : decode fetch c.rip = some (.syscall, _) := decode_encode h
    simp only [runToSyscall, hdecode]
    rfl
  | cons i imms ih =>
    obtain ⟨fuel, rfl⟩ := Nat.exists_eq_add_one_of_ne_zero (Nat.ne_of_gt (Nat.zero_lt_of_lt hfuel))
    obtain ⟨hop, hrest⟩ := codeAt_append.mp h
    have hdecode : decode fetch c.rip = some (.movImm i.1 i.2, _) := decode_encode hop
    simp only [runToSyscall, hdecode]
    rw [ih hrest (Nat.lt_of_succ_lt_succ hfuel), loadImms_rip]
    have hlen : (assemble (callProgram (i :: imms))).length =
        (UserOp.movImm i.1 i.2).encode.length + (assemble (callProgram imms)).length :=
      List.length_append
    rw [hlen, BitVec.ofNat_add, ← BitVec.add_assoc]
    rfl

end X86
