import Myria.Lib.X86System
import Myria.Types

/-! `context_switch` of `context_switch.S` and the `cpu_context_t` of `thread.c`
it saves and loads. A thread that was switched out comes back with its saved
registers, but on a stack pointer that still counts the return address, and
with `r11` overwritten. -/
namespace Myria.Arch

open X86 ByteMem

/-! ## The saved context -/

/-- The registers of `cpu_context_t` in the order of the struct. -/
def contextRegs : List Reg :=
  [.rax, .rbx, .rcx, .rdx, .rsi, .rdi, .rbp, .rsp, .r8, .r9, .r10, .r11, .r12, .r13, .r14, .r15]

def contextOffset (r : Reg) : U64 := 8 * BitVec.ofNat 64 (contextRegs.idxOf r)

/-- `sizeof(cpu_context_t)`: the registers, `rip` and `rflags`, the two
selectors and the pointer to the FPU state. -/
def contextSize : Nat := 160

/-- The stores at the start of `context_switch`. -/
def savedFields : List (U64 × Reg) :=
  [(0, .rax), (8, .rbx), (16, .rcx), (24, .rdx), (32, .rsi), (48, .rbp), (56, .rsp), (64, .r8),
    (72, .r9), (80, .r10), (88, .r11), (96, .r12), (104, .r13), (112, .r14), (120, .r15),
    (40, .rdi)]

/-- `context_switch` up to the comment on loading the new context. -/
def saveContext : List Op :=
  storeFields .rdi savedFields ++
    -- the return address on the stack stands for the instruction pointer
    [.loadAt .rax .rsp 0, .storeAt .rdi 128 .rax,
      .pushfq, .instr (.pop .rax), .storeAt .rdi 136 .rax,
      .movSeg .rax .cs, .store16 .rdi 144 .rax,
      .movSeg .rax .ss, .store16 .rdi 146 .rax]

/-- The loads that leave `rsi` and `rdi` for the end. -/
def loadedFields : List (U64 × Reg) :=
  [(0, .rax), (8, .rbx), (16, .rcx), (24, .rdx), (48, .rbp), (64, .r8), (72, .r9), (80, .r10),
    (88, .r11), (96, .r12), (104, .r13), (112, .r14), (120, .r15)]

/-- The stack switch and the jump, with `r11` as the scratch register. -/
def enterContext : List Op :=
  [.loadAt .rsp .rsi 56,
    .loadAt .r11 .rsi 128, .instr (.push .r11),
    .loadAt .r11 .rsi 136, .instr (.push .r11),
    .loadAt .rdi .rsi 40, .loadAt .r11 .rsi 32,
    .popfq, .instr (.mov .rsi .r11), .ret]

def loadContext : List Op := loadFields .rsi loadedFields ++ enterContext

def contextSwitch : List Op := saveContext ++ loadContext

theorem savedFields_pairwise : savedFields.Pairwise fun f g => Apart f.1 g.1 := by decide

/-- The assembly's offsets are those of the struct. -/
theorem mem_savedFields (r : Reg) : (contextOffset r, r) ∈ savedFields := by
  cases r <;> decide

theorem savedFields_lt : ∀ f ∈ savedFields, f.1.toNat + 8 ≤ 128 := by decide

theorem contextOffset_lt (r : Reg) : (contextOffset r).toNat + 8 ≤ 128 := by
  have hlt := savedFields_lt _ (mem_savedFields r)
  exact hlt

/-! ## Saving -/

variable {c d : Cpu}

/-- The memory once the context of `c` is saved. The word below the stack is
left over from reading the flags. -/
def savedMem (c : Cpu) : Mem :=
  let fields := writeFields c.reg (c.reg .rdi) c.mem savedFields
  let rip := write64 fields (c.reg .rdi + 128) (read64 fields (c.reg .rsp))
  let flags := c.rflags &&& pushfMask
  let rflags := write64 (write64 rip (c.reg .rsp - 8) flags) (c.reg .rdi + 136) flags
  write16 (write16 rflags (c.reg .rdi + 144) c.cs) (c.reg .rdi + 146) c.ss

theorem saveContext_mem (c : Cpu) : (runOps c saveContext).mem = savedMem c := by
  rw [saveContext, runOps_append, runOps_storeFields]
  simp [execOp, exec, savedMem]
  rfl

theorem saveContext_reg (c : Cpu) {r : Reg} (hr : r ≠ .rax) :
    (runOps c saveContext).reg r = c.reg r := by
  rw [saveContext, runOps_append, runOps_storeFields]
  by_cases hsp : r = .rsp
  · simp [execOp, exec, hsp]
  · simp [execOp, exec, hr, hsp]

/-- The context lies apart from the stack: from the return address down to the
two words that the way back pushes. -/
def ContextApart (c : Cpu) : Prop :=
  ∀ k : U64, k.toNat < contextSize → 24 ≤ (c.reg .rdi + k - (c.reg .rsp - 16)).toNat

/-- A word of the context against the words of the stack. -/
theorem ContextApart.word (h : ContextApart c) {k : U64} (hk : k.toNat + 8 ≤ contextSize) :
    Apart (c.reg .rdi + k) (c.reg .rsp) ∧ Apart (c.reg .rsp - 8) (c.reg .rdi + k) ∧
      Apart (c.reg .rsp - 8 - 8) (c.reg .rdi + k) := by
  rw [contextSize] at hk
  have hfirst := h k (by rw [contextSize]; omega)
  have hlast := h (k + 7) (by rw [contextSize]; bv_omega)
  rw [← add_assoc] at hlast
  have hwindow : ∀ j : U64, j.toNat ≤ 16 → Apart (c.reg .rsp - 16 + j) (c.reg .rdi + k) :=
    fun j hj => .of_window hj hfirst hlast
  have htop := hwindow 16 (by decide)
  have hmid := hwindow 8 (by decide)
  have hlow := hwindow 0 (by decide)
  rw [BitVec.sub_add_cancel] at htop
  rw [show c.reg .rsp - 16 + 8 = c.reg .rsp - 8 by bv_omega] at hmid
  rw [show c.reg .rsp - 16 + 0 = c.reg .rsp - 8 - 8 by bv_omega] at hlow
  exact ⟨htop.symm, hmid, hlow⟩

/-- The words of the context below the selectors. -/
theorem read64_selectors (m : Mem) (a : U64) (cs ss : BitVec 16) {k : U64} (hk : k.toNat ≤ 136) :
    read64 (write16 (write16 m (a + 144) cs) (a + 146) ss) (a + k) = read64 m (a + k) := by
  rw [read64_write16_apart _ _ (by constructor <;> bv_omega),
    read64_write16_apart _ _ (by constructor <;> bv_omega)]

theorem savedMem_field (h : ContextApart c) {f : U64 × Reg} (hf : f ∈ savedFields) :
    read64 (savedMem c) (c.reg .rdi + f.1) = c.reg f.2 := by
  have hlt := savedFields_lt f hf
  have hstack := (h.word (k := f.1) (by rw [contextSize]; omega)).2.1
  rw [savedMem, read64_selectors _ _ _ _ (by omega),
    read64_write64_apart _ _ (by constructor <;> bv_omega), read64_write64_apart _ _ hstack,
    read64_write64_apart _ _ (by constructor <;> bv_omega)]
  exact read64_writeFields _ _ _ savedFields_pairwise hf

theorem savedMem_reg (h : ContextApart c) (r : Reg) :
    read64 (savedMem c) (c.reg .rdi + contextOffset r) = c.reg r := by
  have hfield := savedMem_field h (mem_savedFields r)
  exact hfield

theorem savedMem_rip (h : ContextApart c) :
    read64 (savedMem c) (c.reg .rdi + 128) = read64 c.mem (c.reg .rsp) := by
  have hstack := (h.word (k := 128) (by decide)).2.1
  rw [savedMem, read64_selectors _ _ _ _ (by decide),
    read64_write64_apart _ _ (by constructor <;> bv_omega), read64_write64_apart _ _ hstack,
    read64_write64_self]
  refine read64_writeFields_apart _ _ fun f hf => (h.word ?_).1
  have hlt := savedFields_lt f hf
  rw [contextSize]
  omega

theorem savedMem_rflags (c : Cpu) :
    read64 (savedMem c) (c.reg .rdi + 136) = c.rflags &&& pushfMask := by
  rw [savedMem, read64_selectors _ _ _ _ (by decide), read64_write64_self]

/-- Saving writes nothing but the context and one word below the stack. -/
theorem savedMem_outside {x : U64} (hctx : contextSize ≤ (x - c.reg .rdi).toNat)
    (hstack : 8 ≤ (x - (c.reg .rsp - 8)).toNat) : savedMem c x = c.mem x := by
  rw [contextSize] at hctx
  rw [savedMem, write16_byte_ne _ _ (by bv_omega), write16_byte_ne _ _ (by bv_omega),
    write64_byte_ne _ _ _ (by bv_omega), write64_byte_ne _ _ _ hstack,
    write64_byte_ne _ _ _ (by bv_omega)]
  refine writeFields_byte _ _ fun f hf => ?_
  have hlt := savedFields_lt f hf
  bv_omega

/-! ## Coming back -/

/-- A context as it is found in memory at `a`. -/
structure ContextAt (m : Mem) (a : U64) (reg : Reg → U64) (rip rflags : U64) : Prop where
  reg : ∀ r, read64 m (a + contextOffset r) = reg r
  rip : read64 m (a + 128) = rip
  rflags : read64 m (a + 136) = rflags

theorem savedMem_contextAt (h : ContextApart c) :
    ContextAt (savedMem c) (c.reg .rdi) c.reg (read64 c.mem (c.reg .rsp))
      (c.rflags &&& pushfMask) where
  reg := savedMem_reg h
  rip := savedMem_rip h
  rflags := savedMem_rflags c

theorem mem_loadedFields (r : Reg) :
    r ∈ [Reg.rsp, .rsi, .rdi] ∨ (contextOffset r, r) ∈ loadedFields := by
  cases r <;> decide

/-- The loads from `rsi` on bring back every register but `rsp`, `rsi` and
`rdi`. -/
theorem loadedFields_reg {e : Cpu} {reg : Reg → U64} {rip rflags : U64}
    (h : ContextAt e.mem (e.reg .rsi) reg rip rflags) :
    ∃ reg', runOps e (loadFields .rsi loadedFields) = { e with reg := reg' } ∧
      reg' .rsi = e.reg .rsi ∧ ∀ r ∉ [Reg.rsp, .rsi, .rdi], reg' r = reg r := by
  obtain ⟨reg', hrun, hother, hloaded⟩ :=
    runOps_loadFields e (show Reg.rsi ∉ loadedFields.map Prod.snd by decide)
  refine ⟨reg', hrun, hother .rsi (by decide), fun r hr => ?_⟩
  have hfield := hloaded (by decide) _ ((mem_loadedFields r).resolve_left hr)
  exact hfield.trans (h.reg r)

/-- Entering a context leaves the stack pointer where it was saved: the two
words that are pushed are the two that are popped. The scratch register keeps
the value of `rsi`. -/
theorem loadContext_spec {e : Cpu} {reg : Reg → U64} {rip rflags : U64}
    (h : ContextAt e.mem (e.reg .rsi) reg rip rflags)
    (hapart : ∀ k : U64, k.toNat + 8 ≤ contextSize →
      Apart (reg .rsp - 8) (e.reg .rsi + k) ∧ Apart (reg .rsp - 8 - 8) (e.reg .rsi + k)) :
    (runOps e loadContext).rip = rip ∧
      (runOps e loadContext).rflags = loadFlags e.rflags rflags ∧
      (runOps e loadContext).reg .r11 = reg .rsi ∧
      ∀ r, r ≠ .r11 → (runOps e loadContext).reg r = reg r := by
  obtain ⟨reg', hrun, hsi', hreg'⟩ := loadedFields_reg h
  have hsp : read64 e.mem (e.reg .rsi + 56) = reg .rsp := h.reg .rsp
  have hdi : read64 e.mem (e.reg .rsi + 40) = reg .rdi := h.reg .rdi
  have hsi : read64 e.mem (e.reg .rsi + 32) = reg .rsi := h.reg .rsi
  have hpushed : ∀ (k : U64) (v w : U64), k.toNat + 8 ≤ contextSize →
      read64 (write64 (write64 e.mem (reg .rsp - 8) v) (reg .rsp - 8 - 8) w) (e.reg .rsi + k) =
        read64 e.mem (e.reg .rsi + k) := by
    intro k v w hk
    rw [read64_write64_apart _ _ (hapart k hk).2, read64_write64_apart _ _ (hapart k hk).1]
  have hflags : ∀ v : U64, read64 (write64 e.mem (reg .rsp - 8) v) (e.reg .rsi + 136) = rflags := by
    intro v
    rw [read64_write64_apart _ _ (hapart 136 (by decide)).1, h.rflags]
  have hret : ∀ v w : U64,
      read64 (write64 (write64 e.mem (reg .rsp - 8) v) (reg .rsp - 8 - 8) w) (reg .rsp - 8)
        = v := by
    intro v w
    rw [read64_write64_apart _ _ (by constructor <;> bv_omega), read64_write64_self]
  rw [loadContext, runOps_append, hrun]
  simp only [enterContext, runOps_cons, runOps_nil, execOp, exec, Cpu.set_reg, Cpu.set_mem,
    Cpu.pushWord_reg, Cpu.pushWord_mem, Cpu.set_rflags, Cpu.pushWord_rflags, reduceCtorEq, if_true,
    if_false, hsi', hsp, h.rip, hflags, hpushed 40 _ _ (by decide), hpushed 32 _ _ (by decide),
    hdi, hsi, read64_write64_self, BitVec.sub_add_cancel, hret, true_and]
  intro r hr
  by_cases hmem : r ∈ [Reg.rsp, .rsi, .rdi]
  · simp only [List.mem_cons, List.not_mem_nil, or_false] at hmem
    rcases hmem with rfl | rfl | rfl <;> simp
  · have hloaded := hreg' r hmem
    simp only [List.mem_cons, List.not_mem_nil, or_false, not_or] at hmem
    simp [hmem, hr, hloaded]

/-- `c` entered `context_switch` with its own context as the one to save, and
`d` later enters it with that context as the one to load. No byte of it was
modified after it was saved, by others or by the second switch itself. -/
structure SwitchedBack (c d : Cpu) : Prop where
  target : d.reg .rsi = c.reg .rdi
  apart : ContextApart c
  unmodified : ∀ k : U64, k.toNat < contextSize →
    (runOps d saveContext).mem (c.reg .rdi + k) = (runOps c saveContext).mem (c.reg .rdi + k)

/-- What an ordinary return from the call would have given. -/
structure ReturnsNormally (c c' : Cpu) : Prop where
  rip : c'.rip = read64 c.mem (c.reg .rsp)
  rsp : c'.reg .rsp = c.reg .rsp + 8
  rflags : c'.rflags &&& popfMask = c.rflags &&& popfMask
  reg : ∀ r, r ≠ .rsp → c'.reg r = c.reg r

/-- The second switch finds the context the first one saved. -/
theorem SwitchedBack.contextAt (h : SwitchedBack c d) :
    ContextAt (runOps d saveContext).mem (c.reg .rdi) c.reg (read64 c.mem (c.reg .rsp))
      (c.rflags &&& pushfMask) := by
  have hsaved := savedMem_contextAt h.apart
  have hword : ∀ k : U64, k.toNat + 8 ≤ contextSize →
      read64 (runOps d saveContext).mem (c.reg .rdi + k) =
        read64 (savedMem c) (c.reg .rdi + k) := by
    intro k hk
    rw [contextSize] at hk
    rw [← saveContext_mem]
    refine read64_congr fun j hj => ?_
    rw [add_assoc]
    exact h.unmodified (k + j) (by rw [contextSize]; bv_omega)
  refine ⟨fun r => ?_, ?_, ?_⟩
  · have hlt := contextOffset_lt r
    rw [hword _ (by rw [contextSize]; omega)]
    exact hsaved.reg r
  · rw [hword 128 (by decide)]
    exact hsaved.rip
  · rw [hword 136 (by decide)]
    exact hsaved.rflags

theorem SwitchedBack.resume (h : SwitchedBack c d) :
    (runOps d contextSwitch).rip = read64 c.mem (c.reg .rsp) ∧
      (runOps d contextSwitch).rflags &&& popfMask = c.rflags &&& popfMask ∧
      (runOps d contextSwitch).reg .r11 = c.reg .rsi ∧
      ∀ r, r ≠ .r11 → (runOps d contextSwitch).reg r = c.reg r := by
  have hbase : (runOps d saveContext).reg .rsi = c.reg .rdi := by
    rw [saveContext_reg d (by decide), h.target]
  have hcontext := h.contextAt
  rw [← hbase] at hcontext
  obtain ⟨hrip, hflags, h11, hreg⟩ := loadContext_spec hcontext fun k hk => by
    rw [hbase]
    exact (h.apart.word hk).2
  rw [contextSwitch, runOps_append]
  refine ⟨hrip, ?_, h11, hreg⟩
  rw [hflags, loadFlags_pushed]

/-- **A thread never comes back from `context_switch` as from a call.** It
resumes at its return address with the registers and flags it had, but with the
return address still on its stack and with `rsi` in `r11`. -/
theorem context_switch_keeps_return_address (h : SwitchedBack c d) :
    (runOps d contextSwitch).rip = read64 c.mem (c.reg .rsp) ∧
      (runOps d contextSwitch).reg .rsp = c.reg .rsp ∧
      (runOps d contextSwitch).reg .r11 = c.reg .rsi ∧
      (runOps d contextSwitch).rflags &&& popfMask = c.rflags &&& popfMask ∧
      (∀ r, r ≠ .rsp → r ≠ .r11 → (runOps d contextSwitch).reg r = c.reg r) ∧
      ¬ ReturnsNormally c (runOps d contextSwitch) := by
  obtain ⟨hrip, hflags, h11, hreg⟩ := h.resume
  have hrsp := hreg .rsp (by decide)
  refine ⟨hrip, hrsp, h11, hflags, fun r _ hr => hreg r hr, fun hnormal => ?_⟩
  have h8 := hrsp.symm.trans hnormal.rsp
  bv_omega

/-- A thread with its context in the first page, about to switch to one whose
context is in the second. -/
def switchedOut : Cpu where
  reg
    | .rdi => 0x1000
    | .rsi => 0x2000
    | .rsp => 0x9000
    | .r11 => 7
    | _ => 0
  rip := 0
  rflags := 0x202
  cs := 0x08
  ss := 0x10
  msr := fun _ => 0
  mem := fun _ => 0

/-- The other thread, about to switch back. -/
def switchingBack : Cpu where
  reg
    | .rdi => 0x2000
    | .rsi => 0x1000
    | .rsp => 0x7000
    | _ => 0
  rip := 0
  rflags := 0x202
  cs := 0x08
  ss := 0x10
  msr := fun _ => 0
  mem := (runOps switchedOut saveContext).mem

theorem switchedOut_switchedBack : SwitchedBack switchedOut switchingBack where
  target := rfl
  apart := by
    intro k hk
    rw [contextSize] at hk
    show 24 ≤ (0x1000 + k - (0x9000 - 16) : U64).toNat
    bv_omega
  unmodified := by
    intro k hk
    rw [contextSize] at hk
    rw [saveContext_mem switchingBack]
    refine savedMem_outside ?_ ?_
    · show contextSize ≤ (0x1000 + k - 0x2000 : U64).toNat
      rw [contextSize]
      bv_omega
    · show 8 ≤ (0x1000 + k - (0x7000 - 8) : U64).toNat
      bv_omega

theorem switchedOut_keeps_return_address :
    SwitchedBack switchedOut switchingBack ∧
      (runOps switchingBack contextSwitch).reg .rsp = 0x9000 :=
  ⟨switchedOut_switchedBack,
    (context_switch_keeps_return_address switchedOut_switchedBack).2.1⟩

/-- The stack pointer is eight too low, and `r11` holds the other context's
address. -/
theorem switchedOut_returns_off_by_one_word :
    SwitchedBack switchedOut switchingBack ∧ switchedOut.reg .rsp + 8 = 0x9008 ∧
      (runOps switchingBack contextSwitch).reg .rsp = 0x9000 ∧
      switchedOut.reg .r11 = 7 ∧ (runOps switchingBack contextSwitch).reg .r11 = 0x2000 ∧
      ¬ ReturnsNormally switchedOut (runOps switchingBack contextSwitch) := by
  obtain ⟨-, -, h11, hreg⟩ := switchedOut_switchedBack.resume
  have hrsp := hreg .rsp (by decide)
  refine ⟨switchedOut_switchedBack, rfl, hrsp, rfl, h11, fun hnormal => ?_⟩
  exact absurd (hrsp.symm.trans hnormal.rsp) (by decide)

end Myria.Arch
