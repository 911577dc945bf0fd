import Myria.Lib.X86
import Myria.Types

/-! The system-call path: `setup_syscall_msrs` of `msr.c` and `syscall_entry` of
`syscall_entry.S`, assembled in Intel syntax. A bare symbol there is a memory
operand, so both operands of the stack switch are memory accesses. -/
namespace Myria.Arch

open X86 ByteMem

/-- The link-time addresses the stub depends on. -/
structure SyscallImage where
  syscallEntry : U64
  syscallDispatch : U64
  /-- the instruction after the call of `syscall_dispatch` -/
  afterDispatch : U64
  kernelSyscallStackBottom : U64
  /-- the 8 KiB stack and the word after it lie in the address space -/
  fits : kernelSyscallStackBottom.toNat + 8192 + 8 ≤ 2 ^ 64

def SyscallImage.kernelSyscallStackTop (img : SyscallImage) : U64 :=
  img.kernelSyscallStackBottom + 8192

/-- The label follows the stack area with nothing in between. -/
def SyscallImage.savedUserRsp (img : SyscallImage) : U64 := img.kernelSyscallStackTop

def eferSce : U64 := 1 <<< 0
def eferNxe : U64 := 1 <<< 11
def rflagsTf : U64 := 1 <<< 8
def rflagsIf : U64 := 1 <<< 9
def rflagsDf : U64 := 1 <<< 10

def writeMsr (msr : U32 → U64) (n : U32) (value : U64) : U32 → U64 :=
  Function.update msr n value

/-- The user base `0x18` and the kernel base `0x08`. -/
def syscallStar : U64 := (0x18 <<< 48) ||| (0x08 <<< 32)

/-- `setup_syscall_msrs`, without the CR0 and CR4 bits. -/
def setupSyscallMsrs (img : SyscallImage) (msr : U32 → U64) : U32 → U64 :=
  let msr := writeMsr msr msrEfer (msr msrEfer ||| (eferSce ||| eferNxe))
  let msr := writeMsr msr msrStar syscallStar
  let msr := writeMsr msr msrLstar img.syscallEntry
  writeMsr msr msrSfmask (rflagsIf ||| rflagsDf ||| rflagsTf)

/-- Save the user's stack pointer and load the kernel's. -/
def switchStack (img : SyscallImage) : List Instr :=
  -- there is no `OFFSET`, so the second one reads the word at the label
  [.store img.savedUserRsp .rsp, .load .rsp img.kernelSyscallStackTop]

def savedRegs : List Reg := [.r11, .rcx, .rbp, .rbx, .r12, .r13, .r14, .r15]

/-- From the system-call registers to the C calling convention. -/
def marshalArgs : List Instr :=
  -- no move of `r8` to `r9` stands before `r8` is overwritten
  [.push .r9, .mov .r8 .r10, .mov .rcx .rdx, .mov .rdx .rsi, .mov .rsi .rdi, .mov .rdi .rax]

/-- Everything between the stack switch and the first instruction of
`syscall_dispatch`. -/
def callDispatch (img : SyscallImage) : List Instr :=
  savedRegs.map .push ++ (marshalArgs ++ [.call img.syscallDispatch img.afterDispatch])

/-- From the return of `syscall_dispatch` to `SYSRETQ`. -/
def restoreUser (img : SyscallImage) : List Instr :=
  .add .rsp 8 :: (savedRegs.reverse.map .pop ++ [.load .rsp img.savedUserRsp])

/-- After `SYSCALL` and the stack switch. -/
def onKernelStack (img : SyscallImage) (user : Cpu) : Cpu :=
  run (syscall user) (switchStack img)

/-- At the first instruction of `syscall_dispatch`. -/
def dispatchEntry (img : SyscallImage) (user : Cpu) : Cpu :=
  run (onKernelStack img user) (callDispatch img)

/-- Back in user mode, when `syscall_dispatch` returned in state `c`. -/
def syscallReturn (img : SyscallImage) (c : Cpu) : Cpu :=
  sysretq (run c (restoreUser img))

variable (img : SyscallImage) (user : Cpu)

/-! ## The stack switch -/

/-- The label behind the stack is where the user's stack pointer was just
saved, so the switch loads it back. -/
theorem onKernelStack_rsp : (onKernelStack img user).reg .rsp = user.reg .rsp := by
  simp [onKernelStack, switchStack, exec, syscall, SyscallImage.savedUserRsp]

theorem onKernelStack_reg {r : Reg} (hsp : r ≠ .rsp) (hcx : r ≠ .rcx) (h11 : r ≠ .r11) :
    (onKernelStack img user).reg r = user.reg r := by
  simp [onKernelStack, switchStack, exec, syscall, hsp, hcx, h11]

/-- The words pushed up to and including the return address, as distances
below the stack pointer. -/
theorem stackWrites_callDispatch (c : Cpu) :
    stackWrites c (callDispatch img) =
      [8, 16, 24, 32, 40, 48, 56, 64, 72, 80].map (c.reg .rsp - ·) := by
  simp only [callDispatch, savedRegs, marshalArgs, List.map_cons, List.map_nil, List.cons_append,
    List.nil_append, stackWrites, exec, Cpu.pushWord_reg, Cpu.set_reg, if_true, reduceCtorEq,
    if_false, BitVec.sub_sub]
  rfl

/-- All words pushed lie in the kernel's system-call stack. -/
def PushesInStack (c : Cpu) : Prop :=
  ∀ a ∈ stackWrites c (callDispatch img),
    img.kernelSyscallStackBottom.toNat ≤ a.toNat ∧ a.toNat + 8 ≤ img.kernelSyscallStackTop.toNat

theorem pushesInStack_of_top {c : Cpu} (h : c.reg .rsp = img.kernelSyscallStackTop) :
    PushesInStack img c := by
  have hfits := img.fits
  intro a ha
  rw [stackWrites_callDispatch, h] at ha
  simp only [SyscallImage.kernelSyscallStackTop, List.map_cons, List.map_nil, List.mem_cons,
    List.not_mem_nil, or_false] at ha ⊢
  rcases ha with rfl | rfl | rfl | rfl | rfl | rfl | rfl | rfl | rfl | rfl <;> bv_omega

/-- **The kernel runs on the stack the user chose.** After the stack switch the
stack pointer is the top of the kernel's system-call stack, with every pushed
word inside that stack, only when the user's own stack pointer was that very
address. -/
theorem kernel_stack_iff_user_rsp :
    ((onKernelStack img user).reg .rsp = img.kernelSyscallStackTop ∧
      PushesInStack img (onKernelStack img user)) ↔
    user.reg .rsp = img.kernelSyscallStackTop := by
  constructor
  · rintro ⟨hrsp, -⟩
    rwa [onKernelStack_rsp] at hrsp
  · intro h
    have hrsp : (onKernelStack img user).reg .rsp = img.kernelSyscallStackTop := by
      rw [onKernelStack_rsp, h]
    exact ⟨hrsp, pushesInStack_of_top img hrsp⟩

/-- An image with its stack at the start of the kernel's address window. -/
def SyscallImage.sample : SyscallImage where
  syscallEntry := kernelVmaBase + 0x100000
  syscallDispatch := kernelVmaBase + 0x101000
  afterDispatch := kernelVmaBase + 0x100040
  kernelSyscallStackBottom := kernelVmaBase + 0x200000
  fits := by decide

/-- A user about to execute `SYSCALL`, with the entry state of
`switch_to_user_process` and `enter_user`, and its six arguments in place. -/
def sampleUser : Cpu where
  reg
    | .rax => 1 | .rdi => 101 | .rsi => 102 | .rdx => 103 | .r10 => 104 | .r8 => 105 | .r9 => 106
    | .rsp => 0x802000
    | _ => 0
  rip := 0x10002
  rflags := 0x202
  cs := 0x1B
  ss := 0x23
  msr := setupSyscallMsrs .sample fun _ => 0
  mem := fun _ => 0

theorem sampleUser_runs_on_user_stack :
    (onKernelStack .sample sampleUser).reg .rsp = 0x802000 ∧
      ¬ ((onKernelStack .sample sampleUser).reg .rsp = SyscallImage.sample.kernelSyscallStackTop ∧
        PushesInStack .sample (onKernelStack .sample sampleUser)) := by
  rw [onKernelStack_rsp]
  exact ⟨rfl, fun h => absurd h.1 (by decide)⟩

/-! ## Marshalling -/

/-- The system call as `user_syscall` passes it: number, then six arguments. -/
def userArgs (user : Cpu) : List U64 :=
  [user.reg .rax, user.reg .rdi, user.reg .rsi, user.reg .rdx, user.reg .r10, user.reg .r8,
    user.reg .r9]

theorem read64_below_return (m : Mem) (sp v w : U64) :
    read64 (write64 (write64 m (sp - 8) v) (sp - 8 - 8) w) (sp - 8 - 8 + 8) = v := by
  have hsp : sp - 8 - 8 + 8 = sp - 8 := by bv_omega
  rw [hsp, read64_write64_apart _ _ (by constructor <;> bv_omega), read64_write64_self]

/-- The arguments `syscall_dispatch` sees: `r9` comes twice, `r8` not at all. -/
theorem sysvArgs_dispatchEntry :
    sysvArgs (dispatchEntry img user) =
      [user.reg .rax, user.reg .rdi, user.reg .rsi, user.reg .rdx, user.reg .r10, user.reg .r9,
        user.reg .r9] := by
  have hreg : ∀ {r : Reg}, r ≠ .rsp → r ≠ .rcx → r ≠ .r11 →
      (run (onKernelStack img user) (savedRegs.map .push)).reg r = user.reg r := by
    intro r hsp hcx h11
    rw [run_pushes_reg _ _ hsp, onKernelStack_reg img user hsp hcx h11]
  rw [dispatchEntry, callDispatch, run_append]
  generalize hc : run (onKernelStack img user) (savedRegs.map .push) = c at hreg ⊢
  simp only [sysvArgs, marshalArgs, List.cons_append, List.nil_append, run_cons, run_nil, exec,
    Cpu.pushWord_reg, Cpu.pushWord_mem, Cpu.set_reg, Cpu.set_mem, reduceCtorEq, if_true, if_false,
    read64_below_return]
  simp only [hreg, ne_eq, reduceCtorEq, not_false_eq_true]

/-- **Marshalling drops the fifth argument.** `syscall_dispatch` receives the
arguments `user_syscall` passed exactly when the fifth and sixth are equal. -/
theorem syscall_args_agree_iff :
    sysvArgs (dispatchEntry img user) = userArgs user ↔ user.reg .r8 = user.reg .r9 := by
  rw [sysvArgs_dispatchEntry, userArgs]
  simp only [List.cons.injEq, true_and, and_true]
  exact eq_comm

theorem sampleUser_args_disagree :
    userArgs sampleUser = [1, 101, 102, 103, 104, 105, 106] ∧
      sysvArgs (dispatchEntry .sample sampleUser) = [1, 101, 102, 103, 104, 106, 106] ∧
      sysvArgs (dispatchEntry .sample sampleUser) ≠ userArgs sampleUser := by
  rw [sysvArgs_dispatchEntry]
  exact ⟨rfl, rfl, by decide⟩

/-! ## Returning to the caller -/

/-- What `user_syscall` relies on: everything but `rax`, `rcx` and `r11`. -/
structure ContextPreserved (user user' : Cpu) : Prop where
  rip : user'.rip = user.rip
  rflags : user'.rflags = user.rflags
  cs : user'.cs = user.cs
  ss : user'.ss = user.ss
  reg : ∀ r, r ∉ [Reg.rax, .rcx, .r11] → user'.reg r = user.reg r

/-- A system call made in `user` can return in `user'`. -/
def SyscallReturns (user user' : Cpu) : Prop :=
  ∃ c, SysvReturns (dispatchEntry img user) c ∧ user' = syscallReturn img c

variable {img user} {user' : Cpu}

theorem SyscallReturns.selectors (h : SyscallReturns img user user') :
    user'.cs = sysretCs (user.msr msrStar) ∧ user'.ss = sysretSs (user.msr msrStar) := by
  obtain ⟨c, hret, rfl⟩ := h
  have hmsr : c.msr = user.msr := by
    rw [hret.msr, dispatchEntry, run_msr, onKernelStack, run_msr]
    rfl
  simp only [syscallReturn, sysretq, run_msr, hmsr, and_self]

theorem or_three_ushiftRight (x : BitVec 16) : (x ||| 3) >>> 2 = x >>> 2 := by
  rw [BitVec.ushiftRight_or_distrib]
  simp

/-- No value of the STAR register leads back to both user selectors: with the
code segment below the data segment the two are in the wrong order. -/
theorem sysret_selectors_ne (star : U64) : ¬ (sysretCs star = 0x1B ∧ sysretSs star = 0x23) := by
  rintro ⟨hcs, hss⟩
  have hcs' := congrArg (fun x : BitVec 16 => x >>> 2) hcs
  have hss' := congrArg (fun x : BitVec 16 => x >>> 2) hss
  simp only [sysretCs, sysretSs, or_three_ushiftRight] at hcs' hss'
  bv_omega

/-- The argument registers come back with whatever `syscall_dispatch` left in
them. -/
theorem syscallReturn_reg (c : Cpu) {r : Reg} (hr : r ∈ [Reg.rdi, .rsi, .rdx, .r8, .r9, .r10]) :
    (syscallReturn img c).reg r = c.reg r := by
  have hsp : r ≠ .rsp := by rintro rfl; exact absurd hr (by decide)
  have hpops : r ∉ savedRegs.reverse := by
    intro hmem
    simp only [List.mem_cons, List.not_mem_nil, or_false] at hr
    rcases hr with rfl | rfl | rfl | rfl | rfl | rfl <;> exact absurd hmem (by decide)
  simp only [syscallReturn, sysretq, restoreUser, run_cons, run_append, run_nil, exec, Cpu.set_reg,
    if_neg hsp]
  rw [run_pops_reg _ _ hsp hpops]
  simp only [Cpu.set_reg, if_neg hsp]

/-- An argument register can hold anything after the call. -/
theorem exists_syscallReturns_reg (img : SyscallImage) (user : Cpu) {r : Reg}
    (hr : r ∈ [Reg.rdi, .rsi, .rdx, .r8, .r9, .r10]) (v : U64) :
    ∃ user', SyscallReturns img user user' ∧ user'.reg r = v := by
  have hsaved : r ∉ calleeSaved := by
    intro hmem
    simp only [List.mem_cons, List.not_mem_nil, or_false] at hr
    rcases hr with rfl | rfl | rfl | rfl | rfl | rfl <;> exact absurd hmem (by decide)
  have hsp : r ≠ .rsp := by rintro rfl; exact absurd hr (by decide)
  refine ⟨_, ⟨_, sysvReturns_returnWith _ v hsaved, rfl⟩, ?_⟩
  rw [syscallReturn_reg _ hr]
  simp [returnWith, hsp]

/-- **No system call returns to its caller's context.** Whatever the user's
registers are and whatever `syscall_dispatch` does within its calling
convention, `SYSRETQ` comes back with `0x2B`, the TSS selector, in CS. -/
theorem syscall_loses_context {msr : U32 → U64} (hmsr : user.msr = setupSyscallMsrs img msr)
    (hcs : user.cs = 0x1B) (hss : user.ss = 0x23) (h : SyscallReturns img user user') :
    user'.cs = 0x2B ∧ user'.ss = user.ss ∧ ¬ ContextPreserved user user' := by
  have hstar : user.msr msrStar = syscallStar := by rw [hmsr]; rfl
  obtain ⟨hcs', hss'⟩ := h.selectors
  rw [hstar] at hcs' hss'
  refine ⟨hcs', hss'.trans hss.symm, fun hp => ?_⟩
  have hcontra := hp.cs
  rw [hcs', hcs] at hcontra
  exact absurd hcontra (by decide)

theorem syscall_loses_context_sample :
    SyscallReturns .sample sampleUser
        (syscallReturn .sample (returnWith (dispatchEntry .sample sampleUser) .rax 0)) ∧
      ¬ ContextPreserved sampleUser
        (syscallReturn .sample (returnWith (dispatchEntry .sample sampleUser) .rax 0)) := by
  have hret : SyscallReturns .sample sampleUser _ :=
    ⟨_, sysvReturns_returnWith (r := .rax) _ 0 (by decide), rfl⟩
  exact ⟨hret, (syscall_loses_context rfl rfl rfl hret).2.2⟩

/-- Even a dispatcher that only returns `0` sends the user back with another
code segment. -/
theorem sampleUser_returns_with_tss_selector :
    ∃ user', SyscallReturns .sample sampleUser user' ∧ sampleUser.cs = 0x1B ∧
      user'.cs = 0x2B ∧ ¬ ContextPreserved sampleUser user' := by
  have hret : SyscallReturns .sample sampleUser _ :=
    ⟨_, sysvReturns_returnWith (r := .rax) _ 0 (by decide), rfl⟩
  refine ⟨_, hret, rfl, hret.selectors.1, fun hp => ?_⟩
  exact absurd (hret.selectors.1.symm.trans hp.cs) (by decide)

end Myria.Arch
