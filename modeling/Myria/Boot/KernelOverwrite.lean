import Myria.Boot.UserProgram

/-! What a user program can do with its stack pointer. `syscall_entry` saves its registers
below the stack pointer it was entered with, in ring 0, so the program chooses both the place
and most of the words. -/
namespace Myria.Boot

open X86 ByteMem Mm Arch Syscall

/-- The registers that `syscall_entry` saves with the values the program has in them, from the
lowest address up. -/
def pushedRegs : List Reg := [.r9, .r15, .r14, .r13, .r12, .rbx, .rbp]

/-- The loads of a program that wants the words `values` at `va`. -/
def overwriteImms (va : U64) (values : Reg → U32) : List (Reg × U32) :=
  (.rsp, (va + 72).setWidth 32) :: pushedRegs.map fun r => (r, values r)

/-- Every address of the kernel image is the sign extension of its lower half. -/
theorem signExtend_setWidth_high {x : U64} (h : kernelVmaBase ≤ x) :
    (x.setWidth 32).signExtend 64 = x := by
  have hx : 0xffffffff80000000 ≤ x.toNat := h
  have hmsb : (x.setWidth 32).msb = true := by
    rw [BitVec.msb_eq_true_iff_two_mul_ge]
    bv_omega
  rw [BitVec.signExtend_eq_not_setWidth_not_of_msb_true hmsb]
  bv_omega

theorem loadImms_overwrite (c : Cpu) {va : U64} (hva : kernelVmaBase ≤ va)
    (hroom : va.toNat + 72 < 2 ^ 64) (values : Reg → U32) :
    (c.loadImms (overwriteImms va values)).reg .rsp = va + 72 ∧
      ∀ r ∈ pushedRegs, (c.loadImms (overwriteImms va values)).reg r =
        (values r).signExtend 64 := by
  have hregs : (pushedRegs.map fun r => (r, values r)).map Prod.fst = pushedRegs := by
    rw [List.map_map]
    exact List.map_id _
  have htop : kernelVmaBase ≤ va + 72 := by
    rw [kernelVmaBase] at hva ⊢
    bv_omega
  refine ⟨?_, fun r hr => loadImms_reg_of_mem hr⟩
  change ((c.set .rsp _).loadImms _).reg .rsp = _
  rw [loadImms_reg_of_not_mem (by rw [hregs]; decide), Cpu.set_reg, if_pos rfl,
    signExtend_setWidth_high htop]

section Stub

variable (simg : SyscallImage) (u : Cpu)

/-- The seven words that end up below the user's stack pointer. -/
theorem dispatchEntry_pushed :
    WordsAt (dispatchEntry simg u).mem (u.reg .rsp - 72) (pushedRegs.map u.reg) := by
  have htop := dispatchEntry_stackTop simg u
  rw [Cpu.StackTop, dispatchEntry_rsp] at htop
  obtain ⟨-, hwords⟩ := htop
  have hsp : u.reg .rsp - 80 + 8 = u.reg .rsp - 72 := by bv_omega
  have hkept : ∀ r, r ≠ .rsp → r ≠ .rcx → r ≠ .r11 → (onKernelStack simg u).reg r = u.reg r :=
    fun r => onKernelStack_reg simg u
  rw [hsp] at hwords
  obtain ⟨h9, h15, h14, h13, h12, hbx, hbp, -⟩ := hwords
  rw [hkept _ (by decide) (by decide) (by decide)] at h15 h14 h13 h12 hbx hbp
  exact ⟨h9, h15, h14, h13, h12, hbx, hbp, trivial⟩

end Stub

end Myria.Boot
