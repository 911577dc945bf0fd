import Myria.Lib.X86System
import Myria.Types

/-! The fault path of `idt_minimal.c`: the interrupt descriptor table that
`idt_init` fills, the assembly stubs its gates lead to, and the C handler that
either halts or, for a debug exception, returns into the stub. -/
namespace Myria.Arch

open X86 ByteMem

/-- The stubs that `idt_init` installs, by their labels. -/
inductive FaultStub where
  | genericFaultHandler | isr0 | isr1 | isr6 | isr13 | isr14
deriving DecidableEq, Repr

def FaultStub.all : List FaultStub := [.genericFaultHandler, .isr0, .isr1, .isr6, .isr13, .isr14]

/-- The link-time addresses of the stubs and of their handler. -/
structure FaultImage where
  address : FaultStub → U64
  /-- the instruction after the stub's call -/
  afterCall : FaultStub → U64
  handleFaultWithVector : U64
  distinct : Function.Injective address

/-! ## The descriptor table -/

structure IdtEntry where
  offsetLow : BitVec 16
  selector : BitVec 16
  ist : BitVec 8
  typeAttr : BitVec 8
  offsetMid : BitVec 16
  offsetHigh : BitVec 32
  zero : BitVec 32
deriving DecidableEq, Repr

abbrev Idt := Fin 32 → IdtEntry

/-- The descriptor that `idt_set_gate` writes. -/
def gateEntry (base : U64) (sel : BitVec 16) (flags : BitVec 8) : IdtEntry where
  offsetLow := (base &&& 0xFFFF).setWidth 16
  offsetMid := ((base >>> 16) &&& 0xFFFF).setWidth 16
  offsetHigh := ((base >>> 32) &&& 0xFFFFFFFF).setWidth 32
  selector := sel
  ist := 0
  typeAttr := flags
  zero := 0

def idtSetGate (idt : Idt) (num : Fin 32) (base : U64) (sel : BitVec 16) (flags : BitVec 8) :
    Idt :=
  Function.update idt num (gateEntry base sel flags)

/-- The gates `idt_init` sets, in its order. -/
def faultGates : List (Fin 32 × FaultStub) :=
  [(0, .isr0), (1, .isr1),
    -- breakpoint and double fault share the stub that knows no vector
    (3, .genericFaultHandler), (6, .isr6), (8, .genericFaultHandler), (13, .isr13), (14, .isr14)]

/-- `idt_init`, up to the load of the table. -/
def idtInit (img : FaultImage) (idt : Idt) : Idt :=
  let cleared := (List.finRange 32).foldl (fun t i => idtSetGate t i 0 0 0) idt
  faultGates.foldl (fun t g => idtSetGate t g.1 (img.address g.2) 0x08 0x8E) cleared

/-- The address the CPU puts together from a gate. -/
def IdtEntry.offset (e : IdtEntry) : U64 := e.offsetHigh ++ e.offsetMid ++ e.offsetLow

def IdtEntry.present (e : IdtEntry) : Bool := e.typeAttr.getLsbD 7

/-- The stub that starts at the address of a present gate. -/
def FaultImage.entered (img : FaultImage) (e : IdtEntry) : Option FaultStub :=
  if e.present then FaultStub.all.find? (img.address · = e.offset) else none

/-! ## The stubs -/

/-- Stubs of exceptions without an error code: a zero takes its place. -/
def isrEnter (vector : U64) : List Op :=
  [.cli, .pushImm 0, .instr (.push .rax), .instr (.push .rdi), .movImm .rdi vector, .movImm .rsi 0]

/-- Stubs of exceptions for which the CPU has pushed an error code. -/
def isrErrorEnter (vector : U64) : List Op :=
  [.cli, .instr (.push .rax), .instr (.push .rdi), .loadAt .rsi .rsp 16, .movImm .rdi vector]

/-- The stub's instructions before its call of `handle_fault_with_vector`. -/
def FaultStub.enter : FaultStub → List Op
  | .genericFaultHandler => [.cli, .instr (.push .rax), .pushImm 0, .movImm .rax 99]
  | .isr0 => isrEnter 0
  | .isr1 => isrEnter 1
  | .isr6 => isrEnter 6
  | .isr13 => isrErrorEnter 13
  | .isr14 => isrErrorEnter 14

/-- The stub's instructions between the call and `IRETQ`. -/
def FaultStub.leave : FaultStub → List Op
  | .genericFaultHandler => [.instr (.pop .rax), .instr (.add .rsp 8)]
  | _ => [.instr (.pop .rdi), .instr (.pop .rax), .instr (.add .rsp 8)]

/-! ## The handler -/

/-- What `handle_fault_with_vector` prints, and whether it returns. -/
structure FaultReport where
  lines : List String
  returns : Bool
deriving DecidableEq, Repr

def pageFaultLines (errorCode : U64) : List String :=
  ["[IDT] Vector 14: Page Fault (#PF)\r\n",
    "[IDT] Faulting address (CR2): user code at 0x400000\r\n",
    if errorCode &&& 1 ≠ 0 then "[IDT] Protection violation (page was present)\r\n"
    else "[IDT] Page not present (mapping missing)\r\n",
    if errorCode &&& 2 ≠ 0 then "[IDT] Write access attempted\r\n"
    else "[IDT] Read/Execute access attempted\r\n",
    if errorCode &&& 4 ≠ 0 then "[IDT] User mode access (CPL=3)\r\n"
    else "[IDT] Supervisor mode access (CPL=0)\r\n",
    "[IDT] User code page may not have U=1 at all page table levels\r\n"]

/-- The lines of the `switch`. -/
def faultLines (vector errorCode : U64) : List String :=
  match vector.toNat with
  | 0 => ["[IDT] Vector 0: Divide by Zero (#DE)\r\n"]
  | 1 =>
    ["[IDT] Vector 1: Debug (#DB) - CONTINUING EXECUTION\r\n",
      "[IDT] This may be a QEMU artifact during user mode entry\r\n",
      "[IDT] DR6 (status) shows reason for debug exception\r\n",
      "[IDT] DR7 (control) shows enabled breakpoints\r\n",
      "[IDT] DR6 cleared - allowing user mode execution to continue\r\n"]
  | 3 => ["[IDT] Vector 3: Breakpoint (#BP)\r\n"]
  | 6 =>
    ["[IDT] Vector 6: Invalid Opcode (#UD)\r\n",
      "[IDT] User code may contain invalid instructions\r\n"]
  | 8 =>
    ["[IDT] Vector 8: Double Fault (#DF)\r\n",
      "[IDT] CRITICAL: Double fault during IRETQ\r\n"]
  | 13 =>
    ["[IDT] Vector 13: General Protection Fault (#GP)\r\n",
      "[IDT] Error code: segment selector or other GP violation\r\n"]
  | 14 => pageFaultLines errorCode
  | _ => ["[IDT] Unknown vector\r\n"]

def haltLines : List String :=
  ["[IDT] This confirms IRETQ is executing but hitting exception\r\n",
    "[IDT] GDT segment fix is working - need to check page mappings\r\n",
    "[IDT] Halting for debugging\r\n"]

def handleFaultWithVector (vector errorCode : U64) : FaultReport :=
  let lines := "[IDT] FAULT DETAILS:\r\n" :: faultLines vector errorCode
  if vector = 1 then { lines := lines, returns := true }
  else { lines := lines ++ haltLines, returns := false }

/-! ## Delivery -/

/-- The error code the CPU pushes for vector `v`, `e` being the cause. -/
def pushedError (v : Fin 32) (e : U64) : Option U64 :=
  if v.val ∈ errorCodeVectors then some e else none

variable (img : FaultImage)

/-- At the first instruction of `handle_fault_with_vector`, when code in state
`c` was interrupted. -/
def handlerEntry (stub : FaultStub) (c : Cpu) (rsp0 : U64) (errorCode : Option U64) : Cpu :=
  runOps (interrupt c rsp0 0x08 (img.address stub) errorCode)
    (stub.enter ++ [.instr (.call img.handleFaultWithVector (img.afterCall stub))])

/-- The handler called in `c` returns in `c'`. Of its caller's stack it leaves
the words from the stub and the CPU alone. -/
structure HandlerReturns (n : Nat) (c c' : Cpu) : Prop extends SysvKeeps n c c' where
  returns : (handleFaultWithVector (c.reg .rdi) (c.reg .rsi)).returns = true

theorem handleFaultWithVector_returns_iff (vector errorCode : U64) :
    (handleFaultWithVector vector errorCode).returns = true ↔ vector = 1 := by
  rw [handleFaultWithVector]
  split <;> simp_all

/-! ## Debug exceptions -/

/-- Everything the interrupted program can see of its registers. -/
structure Transparent (c c' : Cpu) : Prop where
  reg : ∀ r, c'.reg r = c.reg r
  rip : c'.rip = c.rip
  rflags : c'.rflags = c.rflags

/-- The state after `IRETQ`, when the handler returned to `isr_1` in `c`. -/
def isr1Return (c : Cpu) : Cpu := iretq (runOps c FaultStub.isr1.leave)

/-- Caller-saved registers that `isr_1` does not save. -/
def isr1Unsaved : List Reg := [.rcx, .rdx, .rsi, .r8, .r9, .r10, .r11]

variable {img} {c c' : Cpu} {rsp0 : U64}

/-- The stack the handler is called with. -/
theorem isr1_stackTop :
    (handlerEntry img .isr1 c rsp0 none).StackTop
      (img.afterCall .isr1 :: c.reg .rdi :: c.reg .rax :: 0 :: frameWords c) := by
  have hframe := interruptFrame_stackTop c rsp0
  have hpushed := (((hframe.pushWord 0 (by simp [frameWords])).pushWord (c.reg .rax)
    (by simp [frameWords])).pushWord (c.reg .rdi) (by simp [frameWords])).pushWord
    (img.afterCall .isr1) (by simp [frameWords])
  simpa [handlerEntry, FaultStub.enter, isrEnter, execOp, exec, interrupt, Cpu.StackTop]
    using hpushed

theorem isr1_entry_reg {r : Reg} (hsp : r ≠ .rsp) (hdi : r ≠ .rdi) (hsi : r ≠ .rsi) :
    (handlerEntry img .isr1 c rsp0 none).reg r = c.reg r := by
  simp [handlerEntry, FaultStub.enter, isrEnter, execOp, exec, interrupt, hsp, hdi, hsi]

/-- The way out of a stub that saved `rdi` and `rax` above an error code. -/
theorem isr1_leave {rdi rax err : U64} {vs : List U64} (h : c.StackTop (rdi :: rax :: err :: vs)) :
    (runOps c FaultStub.isr1.leave).StackTop vs ∧
      ∀ r, r ≠ .rsp → (runOps c FaultStub.isr1.leave).reg r =
        if r = .rax then rax else if r = .rdi then rdi else c.reg r := by
  obtain ⟨hdi, hax, -, hvs⟩ := h
  constructor
  · simpa [FaultStub.leave, execOp, exec, Cpu.StackTop] using hvs
  · intro r hr
    change read64 c.mem (c.reg .rsp + 8#64) = rax at hax
    simp [FaultStub.leave, execOp, exec, hr, hdi, hax]

/-- The interrupted `rax`, `rdi`, `rip`, `rsp` and flags come back; every other
register is as the handler left it. -/
theorem isr1Return_spec (h : HandlerReturns 8 (handlerEntry img .isr1 c rsp0 none) c') :
    (isr1Return c').rip = c.rip ∧ (isr1Return c').rflags = c.rflags ∧
      ∀ r, (isr1Return c').reg r =
        if r ∈ [Reg.rsp, .rax, .rdi] then c.reg r else c'.reg r := by
  have htop := h.stackTop rfl isr1_stackTop
  obtain ⟨hframe, hreg⟩ := isr1_leave htop
  obtain ⟨hrip, hflags, hrsp⟩ := iretq_frame hframe
  refine ⟨hrip, hflags, fun r => ?_⟩
  by_cases hr : r = .rsp
  · subst hr
    rw [if_pos (by decide)]
    exact hrsp
  · have hother : (isr1Return c').reg r = (runOps c' FaultStub.isr1.leave).reg r := by
      simp [isr1Return, iretq, hr]
    rw [hother, hreg r hr]
    by_cases hax : r = .rax
    · simp [hax]
    · by_cases hdi : r = .rdi
      · simp [hdi]
      · simp [hr, hax, hdi]

/-- A register that is neither restored by the stub nor kept by the calling
convention is one of seven. -/
theorem mem_isr1Unsaved (r : Reg) :
    r ∈ isr1Unsaved ∨ r ∈ [Reg.rsp, .rax, .rdi] ∨ r ∈ calleeSaved := by
  cases r <;> decide

/-- **A debug exception is transparent only if its handler happens to be.**
`isr_1` saves `rax` and `rdi`; the other caller-saved registers reach the
interrupted program as `handle_fault_with_vector` leaves them. This takes the `IRETQ` of
the stub as accepted, whatever the selectors of its frame. -/
theorem debug_transparent_iff (h : HandlerReturns 8 (handlerEntry img .isr1 c rsp0 none) c') :
    Transparent c (isr1Return c') ↔ ∀ r ∈ isr1Unsaved, c'.reg r = c.reg r := by
  obtain ⟨hrip, hflags, hreg⟩ := isr1Return_spec h
  constructor
  · intro ht r hr
    have hnot : r ∉ [Reg.rsp, .rax, .rdi] := by
      intro hmem
      simp only [List.mem_cons, List.not_mem_nil, or_false] at hmem
      rcases hmem with rfl | rfl | rfl <;> exact absurd hr (by decide)
    have hsame := ht.reg r
    rwa [hreg, if_neg hnot] at hsame
  · intro hkept
    refine ⟨fun r => ?_, hrip, hflags⟩
    rw [hreg]
    by_cases hmem : r ∈ [Reg.rsp, .rax, .rdi]
    · rw [if_pos hmem]
    · rw [if_neg hmem]
      rcases mem_isr1Unsaved r with hun | hres | hsaved
      · exact hkept r hun
      · exact absurd hres hmem
      · rw [h.saved r hsaved]
        exact isr1_entry_reg (by rintro rfl; simp at hmem) (by rintro rfl; simp at hmem)
          (by rintro rfl; exact absurd hsaved (by decide))

/-- Some image, with the stubs one page apart. -/
def FaultImage.sample : FaultImage where
  address stub := kernelVmaBase + 0x1000 * BitVec.ofNat 64 (FaultStub.all.idxOf stub)
  afterCall stub := kernelVmaBase + 0x1000 * BitVec.ofNat 64 (FaultStub.all.idxOf stub) + 0x20
  handleFaultWithVector := kernelVmaBase + 0x100000
  distinct := by
    intro a b
    cases a <;> cases b <;> decide

/-- User code with a value in `rsi`, about to be interrupted. -/
def steppedUser : Cpu where
  reg
    | .rsi => 5
    | .rsp => 0x802000
    | _ => 0
  rip := 0x10002
  rflags := 0x302
  cs := 0x1B
  ss := 0x23
  msr := fun _ => 0
  mem := fun _ => 0

/-- The handler that changes no register but `rax`. -/
theorem steppedUser_handlerReturns :
    HandlerReturns 8 (handlerEntry .sample .isr1 steppedUser (kernelVmaBase + 0x300000) none)
      (returnWith (handlerEntry .sample .isr1 steppedUser (kernelVmaBase + 0x300000) none)
        .rax 0) where
  toSysvKeeps := sysvKeeps_returnWith 8 _ 0 (by decide)
  returns := by decide

theorem steppedUser_transparent_iff :
    HandlerReturns 8 (handlerEntry .sample .isr1 steppedUser (kernelVmaBase + 0x300000) none)
        (returnWith (handlerEntry .sample .isr1 steppedUser (kernelVmaBase + 0x300000) none)
          .rax 0) ∧
      (Transparent steppedUser (isr1Return (returnWith
          (handlerEntry .sample .isr1 steppedUser (kernelVmaBase + 0x300000) none) .rax 0)) ↔
        ∀ r ∈ isr1Unsaved, (returnWith
          (handlerEntry .sample .isr1 steppedUser (kernelVmaBase + 0x300000) none) .rax 0).reg r =
            steppedUser.reg r) :=
  ⟨steppedUser_handlerReturns, debug_transparent_iff steppedUser_handlerReturns⟩

/-- The stub's own zero in `rsi`, the error code argument, survives into the
interrupted program. -/
theorem steppedUser_loses_rsi :
    ∃ c', HandlerReturns 8
        (handlerEntry .sample .isr1 steppedUser (kernelVmaBase + 0x300000) none) c' ∧
      steppedUser.reg .rsi = 5 ∧ (isr1Return c').reg .rsi = 0 ∧
      ¬ Transparent steppedUser (isr1Return c') := by
  obtain ⟨-, -, hreg⟩ := isr1Return_spec steppedUser_handlerReturns
  have hzero := hreg .rsi
  rw [if_neg (by decide)] at hzero
  refine ⟨_, steppedUser_handlerReturns, rfl, hzero, fun ht => ?_⟩
  exact absurd (hzero.symm.trans (ht.reg .rsi)) (by decide)

/-! ## Vectors -/

/-- Putting the parts of a gate together gives the address they were cut from. -/
theorem offset_gateEntry (base : U64) (sel : BitVec 16) (flags : BitVec 8) :
    (gateEntry base sel flags).offset = base := by
  have hlow : (base &&& 0xFFFF).setWidth 16 = base.extractLsb' 0 16 :=
    BitField.shift_and_low_setWidth base 0 (by decide)
  have hmid : ((base >>> 16) &&& 0xFFFF).setWidth 16 = base.extractLsb' 16 16 :=
    BitField.shift_and_low_setWidth base 16 (by decide)
  have hhigh : ((base >>> 32) &&& 0xFFFFFFFF).setWidth 32 = base.extractLsb' 32 32 :=
    BitField.shift_and_low_setWidth base 32 (by decide)
  rw [IdtEntry.offset, gateEntry, hlow, hmid, hhigh]
  iterate 2 rw [BitVec.extractLsb'_append_extractLsb'_eq_extractLsb' (by rfl)]
  exact BitVec.extractLsb'_eq_self

section Gates

variable {ι α β : Type*} [DecidableEq ι]

/-- A loop that sets entries leaves alone those it does not name. -/
theorem foldl_update_of_ne (key : α → ι) (val : α → β) (l : List α) (t : ι → β) {i : ι}
    (h : ∀ a ∈ l, key a ≠ i) :
    l.foldl (fun t a => Function.update t (key a) (val a)) t i = t i := by
  induction l generalizing t with
  | nil => rfl
  | cons a l ih =>
    rw [List.foldl_cons, ih _ fun b hb => h b (List.mem_cons_of_mem a hb)]
    exact Function.update_of_ne (h a List.mem_cons_self).symm _ _

theorem foldl_update_of_mem (key : α → ι) (val : α → β) (l : List α) (t : ι → β) {a : α}
    (hnodup : (l.map key).Nodup) (ha : a ∈ l) :
    l.foldl (fun t a => Function.update t (key a) (val a)) t (key a) = val a := by
  induction l generalizing t with
  | nil => simp at ha
  | cons b l ih =>
    rw [List.map_cons, List.nodup_cons] at hnodup
    rw [List.foldl_cons]
    rcases List.mem_cons.mp ha with rfl | hmem
    · rw [foldl_update_of_ne]
      · exact Function.update_self _ _ _
      · intro x hx hkey
        exact hnodup.1 (List.mem_map.mpr ⟨x, hx, hkey⟩)
    · exact ih _ hnodup.2 hmem

end Gates

theorem idtInit_of_mem (idt : Idt) {v : Fin 32} {stub : FaultStub} (h : (v, stub) ∈ faultGates) :
    idtInit img idt v = gateEntry (img.address stub) 0x08 0x8E :=
  foldl_update_of_mem (fun g : Fin 32 × FaultStub => g.1)
    (fun g => gateEntry (img.address g.2) 0x08 0x8E) faultGates _ (by decide) h

theorem idtInit_of_ne (idt : Idt) {v : Fin 32} (h : ∀ g ∈ faultGates, g.1 ≠ v) :
    idtInit img idt v = gateEntry 0 0 0 := by
  have hgates := foldl_update_of_ne (fun g : Fin 32 × FaultStub => g.1)
    (fun g => gateEntry (img.address g.2) 0x08 0x8E) faultGates
    ((List.finRange 32).foldl (fun t i => idtSetGate t i 0 0 0) idt) h
  have hcleared := foldl_update_of_mem (fun i : Fin 32 => i) (fun _ => gateEntry 0 0 0)
    (List.finRange 32) idt (by rw [List.map_id']; exact List.nodup_finRange 32)
    (List.mem_finRange v)
  exact hgates.trans hcleared

theorem entered_gateEntry (stub : FaultStub) :
    img.entered (gateEntry (img.address stub) 0x08 0x8E) = some stub := by
  have hpresent : (gateEntry (img.address stub) 0x08 0x8E).present = true := by
    show (0x8E : BitVec 8).getLsbD 7 = true
    decide
  rw [FaultImage.entered, if_pos hpresent, offset_gateEntry]
  simp only [img.distinct.eq_iff]
  cases stub <;> decide

/-- The present gates are the seven that `idt_init` sets, and each leads to its
stub. -/
theorem entered_idtInit_iff (idt : Idt) {v : Fin 32} {stub : FaultStub} :
    img.entered (idtInit img idt v) = some stub ↔ (v, stub) ∈ faultGates := by
  constructor
  · intro h
    by_cases hv : ∀ g ∈ faultGates, g.1 ≠ v
    · rw [idtInit_of_ne idt hv, FaultImage.entered, if_neg (by decide)] at h
      cases h
    · push Not at hv
      obtain ⟨⟨_, stub'⟩, hmem, rfl⟩ := hv
      rw [idtInit_of_mem idt hmem, entered_gateEntry, Option.some_inj] at h
      rwa [← h]
  · intro h
    rw [idtInit_of_mem idt h, entered_gateEntry]

variable (img) in
/-- The stub tells the handler the vector and the error code, and after a
return leaves the stack where the CPU put its frame. -/
structure ReportsOwnVector (stub : FaultStub) (v : Fin 32) (c : Cpu) (rsp0 e : U64) : Prop where
  called : (handlerEntry img stub c rsp0 (pushedError v e)).rip = img.handleFaultWithVector
  vector : (handlerEntry img stub c rsp0 (pushedError v e)).reg .rdi = BitVec.ofNat 64 v
  errorCode : (handlerEntry img stub c rsp0 (pushedError v e)).reg .rsi = (pushedError v e).getD 0
  frame : ∀ c', HandlerReturns 0 (handlerEntry img stub c rsp0 (pushedError v e)) c' →
    (runOps c' stub.leave).reg .rsp = (interruptFrame c rsp0).reg .rsp

/-- A stub that pushed its own error code reports its vector. -/
theorem reports_isrEnter {stub : FaultStub} {v : Fin 32} (e : U64)
    (henter : stub.enter = isrEnter (BitVec.ofNat 64 v))
    (hleave : stub.leave = FaultStub.isr1.leave) (herr : pushedError v e = none) :
    ReportsOwnVector img stub v c rsp0 e := by
  refine ⟨?_, ?_, ?_, fun c' h => ?_⟩
  · simp [handlerEntry, runOps_append, execOp, exec]
  · simp [handlerEntry, henter, isrEnter, execOp, exec]
  · simp [handlerEntry, henter, isrEnter, execOp, exec, herr]
  · rw [hleave]
    simp [FaultStub.leave, execOp, exec, h.rsp, handlerEntry, henter, isrEnter, interrupt, herr]

/-- So does one that finds the CPU's. -/
theorem reports_isrErrorEnter {stub : FaultStub} {v : Fin 32} (e : U64)
    (henter : stub.enter = isrErrorEnter (BitVec.ofNat 64 v))
    (hleave : stub.leave = FaultStub.isr1.leave) (herr : pushedError v e = some e) :
    ReportsOwnVector img stub v c rsp0 e := by
  have htop := (((interruptFrame_stackTop c rsp0).pushWord e (by simp [frameWords])).pushWord
    (c.reg .rax) (by simp [frameWords])).pushWord (c.reg .rdi) (by simp [frameWords])
  obtain ⟨-, -, hcode, -⟩ := htop
  refine ⟨?_, ?_, ?_, fun c' h => ?_⟩
  · simp [handlerEntry, runOps_append, execOp, exec]
  · simp [handlerEntry, henter, isrErrorEnter, execOp, exec]
  · rw [add_assoc] at hcode
    rw [herr, Option.getD_some]
    refine Eq.trans ?_ hcode
    simp [handlerEntry, henter, isrErrorEnter, execOp, exec, interrupt]
  · rw [hleave]
    simp [FaultStub.leave, execOp, exec, h.rsp, handlerEntry, henter, isrErrorEnter,
      interrupt, herr]

/-- The common stub passes on whatever the interrupted program had in the
argument registers. -/
theorem generic_entry_reg (errorCode : Option U64) {r : Reg} (hax : r ≠ .rax) (hsp : r ≠ .rsp) :
    (handlerEntry img .genericFaultHandler c rsp0 errorCode).reg r = c.reg r := by
  simp [handlerEntry, FaultStub.enter, execOp, exec, interrupt_reg, hax, hsp]

theorem reports_generic_iff {v : Fin 32} (hv : v ≠ 1) (e : U64) :
    ReportsOwnVector img .genericFaultHandler v c rsp0 e ↔
      c.reg .rdi = BitVec.ofNat 64 v ∧ c.reg .rsi = (pushedError v e).getD 0 := by
  have hdi : (handlerEntry img .genericFaultHandler c rsp0 (pushedError v e)).reg .rdi =
      c.reg .rdi := generic_entry_reg _ (by decide) (by decide)
  have hsi : (handlerEntry img .genericFaultHandler c rsp0 (pushedError v e)).reg .rsi =
      c.reg .rsi := generic_entry_reg _ (by decide) (by decide)
  constructor
  · intro h
    exact ⟨hdi.symm.trans h.vector, hsi.symm.trans h.errorCode⟩
  · rintro ⟨hvec, herr⟩
    refine ⟨?_, hdi.trans hvec, hsi.trans herr, fun c' h => ?_⟩
    · simp [handlerEntry, runOps_append, execOp, exec]
    · -- told its own vector, the handler halts
      have hone := (handleFaultWithVector_returns_iff _ _).mp h.returns
      rw [hdi, hvec] at hone
      have hval : v.val = 1 := by bv_omega
      exact absurd (Fin.ext hval) hv

/-- **Breakpoints and double faults are reported under a vector the interrupted
program chooses.** Each installed stub reports its own vector and error code,
but for the two gates of the common stub, which do so only when the interrupted
program had both in its argument registers. -/
theorem reports_own_vector_iff {idt : Idt} {v : Fin 32} {stub : FaultStub}
    (h : img.entered (idtInit img idt v) = some stub) (e : U64) :
    ReportsOwnVector img stub v c rsp0 e ↔
      (v ≠ 3 ∧ v ≠ 8) ∨
        c.reg .rdi = BitVec.ofNat 64 v ∧ c.reg .rsi = (pushedError v e).getD 0 := by
  rw [entered_idtInit_iff] at h
  simp only [faultGates, List.mem_cons, Prod.mk.injEq, List.not_mem_nil, or_false] at h
  rcases h with ⟨rfl, rfl⟩ | ⟨rfl, rfl⟩ | ⟨rfl, rfl⟩ | ⟨rfl, rfl⟩ | ⟨rfl, rfl⟩ | ⟨rfl, rfl⟩ |
    ⟨rfl, rfl⟩
  · exact iff_of_true (reports_isrEnter e rfl rfl rfl) (.inl (by decide))
  · exact iff_of_true (reports_isrEnter e rfl rfl rfl) (.inl (by decide))
  · rw [reports_generic_iff (by decide)]
    simp
  · exact iff_of_true (reports_isrEnter e rfl rfl rfl) (.inl (by decide))
  · rw [reports_generic_iff (by decide)]
    simp
  · exact iff_of_true (reports_isrErrorEnter e rfl rfl rfl) (.inl (by decide))
  · exact iff_of_true (reports_isrErrorEnter e rfl rfl rfl) (.inl (by decide))

theorem sample_page_fault_reports :
    FaultImage.sample.entered (idtInit .sample (fun _ => gateEntry 0 0 0) 14) = some .isr14 ∧
      ReportsOwnVector .sample .isr14 14 steppedUser (kernelVmaBase + 0x300000) 7 := by
  have hgate : FaultImage.sample.entered (idtInit .sample (fun _ => gateEntry 0 0 0) 14) =
      some .isr14 := by
    rw [entered_idtInit_iff]
    decide
  exact ⟨hgate, (reports_own_vector_iff hgate 7).mpr (.inl (by decide))⟩

/-- Kernel code with `1` in `rdi`, behind an `INT3`. The gates are for ring 0 only, so
user code cannot come here by that instruction. -/
def breakpointKernel : Cpu where
  reg
    | .rdi => 1
    | .rsi => 5
    | .rsp => kernelVmaBase + 0x210000
    | _ => 0
  rip := kernelVmaBase + 0x100001
  rflags := 0x2
  cs := 0x08
  ss := 0x10
  msr := fun _ => 0
  mem := fun _ => 0

/-- The breakpoint is reported as a debug exception and resumed. -/
theorem breakpointKernel_reported_as_debug :
    FaultImage.sample.entered (idtInit .sample (fun _ => gateEntry 0 0 0) 3) =
        some .genericFaultHandler ∧
      (handlerEntry .sample .genericFaultHandler breakpointKernel (kernelVmaBase + 0x300000)
        (pushedError 3 0)).reg .rdi = 1 ∧
      (handlerEntry .sample .genericFaultHandler breakpointKernel (kernelVmaBase + 0x300000)
        (pushedError 3 0)).reg .rsi = 5 ∧
      (handleFaultWithVector 1 5).returns = true ∧
      ¬ ReportsOwnVector .sample .genericFaultHandler 3 breakpointKernel
        (kernelVmaBase + 0x300000) 0 := by
  have hdi : (handlerEntry .sample .genericFaultHandler breakpointKernel (kernelVmaBase + 0x300000)
      (pushedError 3 0)).reg .rdi = 1 := generic_entry_reg _ (by decide) (by decide)
  have hsi : (handlerEntry .sample .genericFaultHandler breakpointKernel (kernelVmaBase + 0x300000)
      (pushedError 3 0)).reg .rsi = 5 := generic_entry_reg _ (by decide) (by decide)
  refine ⟨?_, hdi, hsi, rfl, fun h => ?_⟩
  · rw [entered_idtInit_iff]
    decide
  · exact absurd (hdi.symm.trans h.vector) (by decide)

/-- After a double fault that the handler takes for a debug exception, the
stack pointer is at the error code when `IRETQ` executes. -/
theorem double_fault_frame_misplaced (e : U64)
    (h : HandlerReturns 0 (handlerEntry img .genericFaultHandler c rsp0 (pushedError 8 e)) c') :
    (runOps c' FaultStub.genericFaultHandler.leave).reg .rsp =
      (interruptFrame c rsp0).reg .rsp - 8 := by
  have herr : pushedError 8 e = some e := rfl
  rw [herr] at h
  simp [FaultStub.leave, execOp, exec, h.rsp, handlerEntry, FaultStub.enter, interrupt]

end Myria.Arch
