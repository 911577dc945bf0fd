import Myria.Arch.SyscallEntry
import Myria.Lib.X86Interleave
import Myria.Syscall.KernelRuns

/-! A system call from `SYSCALL` to `SYSRETQ`, with the dispatcher in between: the
stub of `syscall_entry.S` around `syscall_dispatch` of `syscalls.c`, compiled to the
System V convention. The stub loses the fifth argument, but no handler reads past the
third. -/
namespace Myria.Syscall

open X86 ByteMem Arch Sched

/-- The arguments as the compiled `syscall_dispatch` finds them. -/
def dispatchArgs (c : Cpu) : Args :=
  ⟨c.reg .rsi, c.reg .rdx, c.reg .rcx, c.reg .r8, c.reg .r9, read64 c.mem (c.reg .rsp + 8)⟩

/-- The arguments as `user_syscall` passes them. -/
def passedArgs (user : Cpu) : Args :=
  ⟨user.reg .rdi, user.reg .rsi, user.reg .rdx, user.reg .r10, user.reg .r8, user.reg .r9⟩

/-- The compiled `syscall_dispatch`, entered in `c` with the kernel in `k`, returns in
`c'` with the kernel in `k'`. It writes to the kernel's data `W` and to the `depth` words of
its own frame, wherever the stack pointer is. `SYS_EXIT` does not return. -/
structure DispatchReturns (W : Set U64) (depth : ℕ) (k : KernelState) (c c' : Cpu)
    (k' : KernelState) : Prop extends SysvReturns c c' where
  result : (syscallDispatch c.mem k (c.reg .rdi) (dispatchArgs c)).result = some (c'.reg .rax, k')
  mem : ∀ x, x ∉ W → x ∉ stackArea (c.reg .rsp) depth → c'.mem x = c.mem x

/-- What the stub relies on, all of it on the stack that the user chose: the word that holds
the user's stack pointer is neither where the stub pushes nor in the dispatcher's frame, and the
kernel's data are apart from both that word and the stub's frame. -/
structure StackClear (img : SyscallImage) (W : Set U64) (depth : ℕ) (user : Cpu) : Prop where
  room : 8 * (10 + depth) ≤ 2 ^ 64
  saved : ∀ x ∈ wordsArea [img.savedUserRsp], x ∉ stackArea (user.reg .rsp) (10 + depth) ∧ x ∉ W
  frame : ∀ x ∈ stackArea (user.reg .rsp) 10, x ∉ W

/-! ## Arguments -/

/-- No handler reads its last three arguments. -/
theorem handler_args_irrelevant {n : Fin maxSyscalls} {handler : Handler}
    (h : syscallTable n = some handler) (mem : Mem) (s : SchedState) {a b : Args}
    (h1 : a.arg1 = b.arg1) (h2 : a.arg2 = b.arg2) (h3 : a.arg3 = b.arg3) :
    handler mem s a = handler mem s b := by
  match n, h with
  | 1, h => cases h; simp only [sysWrite, h1, h2, h3]
  | 8, h => cases h; simp only [sysSleep, h1]
  | 10, h => cases h; simp only [sysMalloc, h1]
  | 11, h => cases h; simp only [sysFree, h1]
  | 0, h | 2, h | 7, h | 9, h => cases h; rfl

theorem dispatch_args_irrelevant (mem : Mem) (k : KernelState) (num : U64) {a b : Args}
    (h1 : a.arg1 = b.arg1) (h2 : a.arg2 = b.arg2) (h3 : a.arg3 = b.arg3) :
    syscallDispatch mem k num a = syscallDispatch mem k num b := by
  unfold syscallDispatch
  split
  · rename_i hlt
    cases htable : syscallTable ⟨num.toNat, hlt⟩ with
    | none => rfl
    | some handler =>
      simp only [handler_args_irrelevant htable mem _ h1 h2 h3]
  · rfl

variable {img : SyscallImage} {W : Set U64} {depth : ℕ} {user c' : Cpu} {k k' : KernelState}

theorem dispatchEntry_args (img : SyscallImage) (user : Cpu) :
    (dispatchEntry img user).reg .rdi = user.reg .rax ∧
      dispatchArgs (dispatchEntry img user) =
        ⟨user.reg .rdi, user.reg .rsi, user.reg .rdx, user.reg .r10, user.reg .r9,
          user.reg .r9⟩ := by
  have hargs := sysvArgs_dispatchEntry img user
  simp only [sysvArgs, List.cons.injEq, and_true] at hargs
  obtain ⟨hnum, h1, h2, h3, h4, h5, h6⟩ := hargs
  exact ⟨hnum, by rw [dispatchArgs, h1, h2, h3, h4, h5, h6]⟩

/-- What the dispatcher does is what it would do for the arguments that were passed. -/
theorem DispatchReturns.served (h : DispatchReturns W depth k (dispatchEntry img user) c' k') :
    (syscallDispatch user.mem k (user.reg .rax) (passedArgs user)).result =
      some (c'.reg .rax, k') := by
  obtain ⟨hnum, hargs⟩ := dispatchEntry_args img user
  have hresult := h.result
  rw [hnum, hargs, (dispatch_mem_irrelevant _ user.mem k _ _).1] at hresult
  rw [← hresult]
  exact congrArg Reply.result (dispatch_args_irrelevant user.mem k _ rfl rfl rfl)

/-! ## The stack of the stub -/

/-- The words the stub has on its stack when it calls. -/
def syscallFrame (img : SyscallImage) (user : Cpu) : List U64 :=
  user.reg .r9 :: (savedRegs.map (onKernelStack img user).reg).reverse

/-- The moves of the marshalling leave the stack alone. -/
theorem run_marshalled (c : Cpu) :
    (run c marshalArgs).mem = (c.pushWord (c.reg .r9)).mem ∧
      (run c marshalArgs).reg .rsp = (c.pushWord (c.reg .r9)).reg .rsp := by
  simp only [marshalArgs, run_cons, run_nil, exec, Cpu.set_mem, Cpu.set_reg, reduceCtorEq, if_false,
    and_self]

theorem dispatchEntry_stackTop (img : SyscallImage) (user : Cpu) :
    (dispatchEntry img user).StackTop (img.afterDispatch :: syscallFrame img user) := by
  have hnil : (onKernelStack img user).StackTop [] := trivial
  have hsaved := run_pushes_stackTop (show .rsp ∉ savedRegs by decide) hnil (by simp [savedRegs])
  have hr9 : (run (onKernelStack img user) (savedRegs.map .push)).reg .r9 = user.reg .r9 := by
    rw [run_pushes_reg _ _ (by decide), onKernelStack_reg img user (by decide) (by decide)
      (by decide)]
  rw [List.append_nil] at hsaved
  rw [dispatchEntry, callDispatch, run_append, run_append]
  generalize run (onKernelStack img user) (savedRegs.map .push) = c at hsaved hr9 ⊢
  obtain ⟨hmem, hrsp⟩ := run_marshalled c
  have hpushed : (run c marshalArgs).StackTop (syscallFrame img user) := by
    have hword := hsaved.pushWord (c.reg .r9) (by simp [savedRegs])
    rw [Cpu.StackTop, hmem, hrsp, syscallFrame, ← hr9]
    exact hword
  exact hpushed.pushWord img.afterDispatch (by simp [syscallFrame, savedRegs])

theorem dispatchEntry_mem_outside {x : U64} (hx : x ∉ stackArea (user.reg .rsp) 10) :
    (dispatchEntry img user).mem x = (onKernelStack img user).mem x := by
  have hmem : (dispatchEntry img user).mem =
      pushedMem (onKernelStack img user).mem (user.reg .rsp)
        (savedRegs.map (onKernelStack img user).reg ++
          [(run (onKernelStack img user) (savedRegs.map .push)).reg .r9, img.afterDispatch]) := by
    rw [pushedMem_append, ← onKernelStack_rsp img user, ← run_pushes_mem _ (by decide),
      dispatchEntry, callDispatch, run_append, run_append]
    have hrsp := run_pushes_rsp (onKernelStack img user) savedRegs
    generalize run (onKernelStack img user) (savedRegs.map .push) = c at hrsp ⊢
    obtain ⟨hm, hsp⟩ := run_marshalled c
    change write64 (run c marshalArgs).mem ((run c marshalArgs).reg .rsp - 8) _ = _
    rw [hm, hsp, Cpu.pushWord_mem, Cpu.pushWord_reg, if_pos rfl, hrsp]
    rfl
  rw [hmem]
  exact pushedMem_outside _ _ _ (by simp [savedRegs]) hx

theorem dispatchEntry_rsp (img : SyscallImage) (user : Cpu) :
    (dispatchEntry img user).reg .rsp = user.reg .rsp - 80 := by
  rw [dispatchEntry, callDispatch, run_append, run_append]
  have hrsp := run_pushes_rsp (onKernelStack img user) savedRegs
  generalize run (onKernelStack img user) (savedRegs.map .push) = c at hrsp ⊢
  change (run c marshalArgs).reg .rsp - 8 = _
  rw [(run_marshalled c).2, Cpu.pushWord_reg, if_pos rfl, hrsp, onKernelStack_rsp, BitVec.sub_sub,
    BitVec.sub_sub]
  rfl

/-- The dispatcher's frame lies below the ten words of the stub. -/
theorem mem_stackArea_dispatch {x : U64}
    (hx : x ∈ stackArea ((dispatchEntry img user).reg .rsp) depth) :
    x ∈ stackArea (user.reg .rsp) (10 + depth) := by
  rw [dispatchEntry_rsp, stackArea, Set.mem_ofPred_eq] at hx
  rw [stackArea, Set.mem_ofPred_eq]
  bv_omega

theorem onKernelStack_mem (img : SyscallImage) (user : Cpu) :
    (onKernelStack img user).mem = write64 user.mem img.savedUserRsp (user.reg .rsp) := by
  simp [onKernelStack, switchStack, exec, syscall]

/-- All that a system call leaves as it was. -/
theorem DispatchReturns.mem_outside (h : DispatchReturns W depth k (dispatchEntry img user) c' k')
    {x : U64} (hW : x ∉ W) (hx : x ∉ stackArea (user.reg .rsp) (10 + depth)) :
    c'.mem x = write64 user.mem img.savedUserRsp (user.reg .rsp) x := by
  rw [h.mem x hW fun hin => hx (mem_stackArea_dispatch hin),
    dispatchEntry_mem_outside fun hin => hx (stackArea_mono (Nat.le_add_right 10 depth) hin),
    onKernelStack_mem]

/-- The word behind the kernel's stack still holds the user's stack pointer, -/
theorem DispatchReturns.savedUserRsp (h : DispatchReturns W depth k (dispatchEntry img user) c' k')
    (hclear : StackClear img W depth user) : read64 c'.mem img.savedUserRsp = user.reg .rsp := by
  have hsame : read64 c'.mem img.savedUserRsp =
      read64 (write64 user.mem img.savedUserRsp (user.reg .rsp)) img.savedUserRsp := by
    refine read64_congr fun j hj => ?_
    have hword : img.savedUserRsp + j ∈ wordsArea [img.savedUserRsp] := by
      rwa [mem_wordsArea_singleton, add_sub_cancel_left]
    obtain ⟨hstack, hW⟩ := hclear.saved _ hword
    exact h.mem_outside hW hstack
  rw [hsame, read64_write64_self]

/-- and the stub's frame is still on the stack. -/
theorem DispatchReturns.frame (h : DispatchReturns W depth k (dispatchEntry img user) c' k')
    (hclear : StackClear img W depth user) : c'.StackTop (syscallFrame img user) := by
  have hroom := hclear.room
  have hlen : (syscallFrame img user).length = 9 := rfl
  have hwords := (dispatchEntry_stackTop img user).2
  rw [Cpu.StackTop, h.rsp]
  refine hwords.congr (by rw [hlen]; decide) fun x hx => ?_
  rw [dispatchEntry_rsp, hlen] at hx
  refine h.mem x (hclear.frame x ?_) ?_
  · rw [stackArea, Set.mem_ofPred_eq]
    bv_omega
  · rw [dispatchEntry_rsp, stackArea, Set.mem_ofPred_eq]
    bv_omega

/-- What the stub restores. -/
theorem syscallReturn_spec (hframe : c'.StackTop (syscallFrame img user)) :
    (syscallReturn img c').reg .rax = c'.reg .rax ∧
      (∀ r ∈ savedRegs, (syscallReturn img c').reg r = (onKernelStack img user).reg r) ∧
      (syscallReturn img c').reg .rsp = read64 c'.mem img.savedUserRsp ∧
      (syscallReturn img c').rip = (onKernelStack img user).reg .rcx ∧
      (syscallReturn img c').rflags = (onKernelStack img user).reg .r11 &&& 0x3C7FD7 ||| 2 ∧
      (syscallReturn img c').mem = c'.mem := by
  have hadded : (exec c' (.add .rsp 8)).StackTop
      (savedRegs.reverse.map (onKernelStack img user).reg ++ []) := by
    rw [List.append_nil, List.map_reverse]
    exact hframe.2
  obtain ⟨hregs, -, hmem⟩ := run_pops_spec (by decide) (by decide) hadded
  have hrax := run_pops_reg (exec c' (.add .rsp 8)) savedRegs.reverse (x := .rax) (by decide)
    (by decide)
  rw [syscallReturn, restoreUser, run_cons, run_append, run_cons, run_nil]
  generalize run (exec c' (.add .rsp 8)) (savedRegs.reverse.map .pop) = e at hregs hmem hrax ⊢
  have hsaved : ∀ r ∈ savedRegs, e.reg r = (onKernelStack img user).reg r :=
    fun r hr => hregs r (List.mem_reverse.mpr hr)
  have hkept : ∀ r, r ≠ .rsp → (sysretq (exec e (.load .rsp img.savedUserRsp))).reg r =
      e.reg r := by
    intro r hr
    simp [sysretq, exec, hr]
  refine ⟨?_, fun r hr => ?_, ?_, ?_, ?_, hmem⟩
  · rw [hkept _ (by decide), hrax]
    rfl
  · rw [hkept r (by rintro rfl; exact absurd hr (by decide)), hsaved r hr]
  · change read64 e.mem img.savedUserRsp = _
    rw [hmem]
    rfl
  · rw [← hsaved .rcx (by decide)]
    rfl
  · rw [← hsaved .r11 (by decide)]
    rfl

/-- **A system call serves its caller.** From any user state, kernel state and number, `SYS_EXIT`
alone does not return. When the dispatcher has returned, and the stack that the user chose is clear:
the caller has in `rax` the answer to the arguments it passed, the fifth included, and the kernel is
left as that call leaves it. The caller goes on at the next instruction on its own stack, with the
registers a function keeps and with the flags that `SYSRETQ` can restore, and of its memory nothing
has changed but the stack below. -/
theorem syscall_serves_caller (hclear : StackClear img W depth user) (k : KernelState) :
    ((syscallDispatch user.mem k (user.reg .rax) (passedArgs user)).result = none ↔
      user.reg .rax = 0) ∧
    ∀ c' k', DispatchReturns W depth k (dispatchEntry img user) c' k' →
      (syscallDispatch user.mem k (user.reg .rax) (passedArgs user)).result =
          some ((syscallReturn img c').reg .rax, k') ∧
        (syscallReturn img c').rip = user.rip ∧
        (syscallReturn img c').reg .rsp = user.reg .rsp ∧
        (∀ r ∈ calleeSaved, (syscallReturn img c').reg r = user.reg r) ∧
        (syscallReturn img c').rflags = user.rflags &&& 0x3C7FD7 ||| 2 ∧
        ∀ x, x ∉ W → x ∉ stackArea (user.reg .rsp) (10 + depth) →
          x ∉ wordsArea [img.savedUserRsp] → (syscallReturn img c').mem x = user.mem x := by
  refine ⟨dispatch_result_eq_none_iff _ _ _ _, fun c' k' h => ?_⟩
  obtain ⟨hrax, hregs, hrsp, hrip, hflags, hmem⟩ := syscallReturn_spec (h.frame hclear)
  refine ⟨?_, hrip, ?_, fun r hr => ?_, hflags, fun x hW hstack hsaved => ?_⟩
  · rw [hrax]
    exact h.served
  · rw [hrsp, h.savedUserRsp hclear]
  · have hsaved : r ∈ savedRegs ∧ r ≠ .rsp ∧ r ≠ .rcx ∧ r ≠ .r11 := by
      revert hr
      cases r <;> decide
    rw [hregs r hsaved.1, onKernelStack_reg img user hsaved.2.1 hsaved.2.2.1 hsaved.2.2.2]
  · rw [mem_wordsArea_singleton, not_lt] at hsaved
    rw [hmem, h.mem_outside hW hstack, write64_byte_ne _ _ _ hsaved]

/-- The sample user asks to write to descriptor 101 and is refused. -/
theorem sampleUser_dispatchReturns :
    DispatchReturns ∅ 32 .bss (dispatchEntry .sample sampleUser)
      (returnWith (dispatchEntry .sample sampleUser) .rax errno) (KernelState.bss.count 1) where
  toSysvReturns := sysvReturns_returnWith _ errno (by decide)
  result := by
    obtain ⟨hnum, hargs⟩ := dispatchEntry_args .sample sampleUser
    rw [hnum, hargs]
    exact (dispatch_served 1 (n := 1) rfl rfl _ .bss _).1
  mem _ _ _ := rfl

theorem sampleUser_served :
    (syscallReturn .sample (returnWith (dispatchEntry .sample sampleUser) .rax errno)).rip =
      0x10002 ∧
      (syscallReturn .sample (returnWith (dispatchEntry .sample sampleUser) .rax errno)).reg .rsp =
        0x802000 := by
  have hclear : StackClear .sample ∅ 32 sampleUser := by
    refine ⟨by decide, fun x hx => ⟨?_, Set.notMem_empty x⟩, fun x _ => Set.notMem_empty x⟩
    rw [mem_wordsArea_singleton] at hx
    rw [stackArea, Set.mem_ofPred_eq]
    change (x - 0xffffffff80202000#64).toNat < 8 at hx
    change ¬ (x - 0x801eb0#64).toNat < 336
    bv_omega
  obtain ⟨-, hserved⟩ := syscall_serves_caller hclear .bss
  obtain ⟨-, hrip, hrsp, -⟩ := hserved _ _ sampleUser_dispatchReturns
  exact ⟨hrip, hrsp⟩

end Myria.Syscall
