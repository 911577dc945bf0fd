import Myria.Arch.KmainTables
import Myria.Lib.BitField
import Myria.Lib.X86Interleave

/-! The timer interrupt of the kernel of `kmain.c`: `timer_interrupt_handler` of `timer.S`,
which saves every register, calls `timer_tick_handler` of `timer.c` and `lapic_eoi` of
`lapic.c`, and returns. That kernel runs in ring 0 only, and is compiled without a red zone. -/
namespace Myria.Arch.GdtIdt

open X86 ByteMem

/-- The link-time addresses the stub depends on. -/
structure TimerImage extends Image where
  timerTickHandler : U64
  /-- the instruction after the first call -/
  afterTick : U64
  lapicEoi : U64
  /-- the instruction after the second call -/
  afterEoi : U64
  systemTickCount : U64

/-- The registers in the order they are pushed. -/
def timerSaved : List Reg :=
  [.rax, .rbx, .rcx, .rdx, .rsi, .rdi, .rbp, .r8, .r9, .r10, .r11, .r12, .r13, .r14, .r15]

/-- `lapic_eoi`, seen from memory: its one store goes to the local APIC. -/
def lapicEoi (m : Mem) : Mem := m

def timerLeave : List Instr := timerSaved.reverse.map .pop

section

variable (img : TimerImage)

/-- `timer_tick_handler`. Its call of `sched_tick` is commented out. -/
def timerTickHandler (m : Mem) : Mem :=
  write64 m img.systemTickCount (read64 m img.systemTickCount + 1)

def timerEnter : List Instr :=
  timerSaved.map .push ++ [.call img.timerTickHandler img.afterTick]

def timerEoi : List Instr := [.call img.lapicEoi img.afterEoi]

/-- A timer interrupt taken in `c` returns in `d`. The C functions have frames of up to
`depth` words. -/
inductive TimerInterrupt (t : TableRegs) (depth : ℕ) (c d : Cpu) : Prop
  | intro {e ticked acked : Cpu} (enabled : c.rflags &&& flagIf ≠ 0)
      (delivered : deliver t c 32 none = some e) (entry : e.rip = img.timerInterruptHandler)
      (tick : SysvDoes (timerTickHandler img) depth (run e (timerEnter img)) ticked)
      (eoi : SysvDoes lapicEoi depth (run ticked (timerEoi img)) acked)
      (back : iretqProtected t (run acked timerLeave) = some d)

/-- The bytes of `system_tick_count`. -/
def counterArea : Set U64 := wordsArea [img.systemTickCount]

end

/-- The part of the interrupted stack that a timer interrupt uses: the frame of the
processor, the saved registers, a return address and the frame of a C function. -/
def timerArea (depth : ℕ) (c : Cpu) : Set U64 := stackArea (c.reg .rsp &&& ~~~15) (21 + depth)

/-- `d` is `c` after one more tick. -/
structure Ticked (img : TimerImage) (depth : ℕ) (c d : Cpu) : Prop where
  reg : d.reg = c.reg
  rip : d.rip = c.rip
  rflags : d.rflags = c.rflags &&& iretFlags ||| 2
  cs : d.cs = c.cs
  ss : d.ss = c.ss
  msr : d.msr = c.msr
  mem : ∀ x ∉ timerArea depth c, d.mem x = timerTickHandler img c.mem x

variable {img : TimerImage} {depth : ℕ} {c d : Cpu}

theorem timerTickHandler_outside {m : Mem} {x : U64} (hx : x ∉ counterArea img) :
    timerTickHandler img m x = m x := by
  refine write64_byte_ne _ _ _ ?_
  rw [counterArea, mem_wordsArea_singleton] at hx
  omega

/-! ## The stack of the stub -/

theorem mem_timerSaved (r : Reg) : r ∈ timerSaved ↔ r ≠ .rsp := by
  cases r <;> decide

/-- The words the stub has on its stack when it calls. -/
def timerFrame (c : Cpu) : List U64 := (timerSaved.map c.reg).reverse ++ frameWords c

theorem length_timerFrame (c : Cpu) : (timerFrame c).length = 20 := rfl

section Entry

variable {rsp0 offset : U64} {selector : BitVec 16}

theorem interrupt_timerSaved :
    timerSaved.map (interrupt c rsp0 selector offset none).reg = timerSaved.map c.reg :=
  List.map_congr_left fun r hr => interrupt_reg _ _ _ _ _ ((mem_timerSaved r).mp hr)

theorem timerEnter_stackTop :
    (run (interrupt c rsp0 selector offset none) (timerEnter img)).StackTop
      (img.afterTick :: timerFrame c) := by
  have hsaved := run_pushes_stackTop (show .rsp ∉ timerSaved by decide)
    (interrupt_stackTop c rsp0 selector offset none) (by simp [timerSaved, frameWords])
  rw [interrupt_timerSaved] at hsaved
  rw [timerEnter, run_append]
  exact hsaved.pushWord img.afterTick (by
    change 8 + 8 * (timerFrame c).length ≤ 2 ^ 64
    rw [length_timerFrame]
    decide)

theorem timerEnter_rsp :
    (run (interrupt c rsp0 selector offset none) (timerEnter img)).reg .rsp =
      interruptStack c rsp0 - 168 := by
  have hrsp : (interrupt c rsp0 selector offset none).reg .rsp = interruptStack c rsp0 - 40 :=
    interruptFrame_rsp c rsp0
  rw [timerEnter, run_append, run_cons, run_nil, exec]
  change (run _ (timerSaved.map .push)).reg .rsp - 8 = _
  rw [run_pushes_rsp, hrsp, BitVec.sub_sub, BitVec.sub_sub]
  rfl

theorem timerEnter_mem :
    (run (interrupt c rsp0 selector offset none) (timerEnter img)).mem =
      pushedMem c.mem (interruptStack c rsp0)
        ([c.ss.setWidth 64, c.reg .rsp, c.rflags, c.cs.setWidth 64, c.rip] ++
          (timerSaved.map c.reg ++ [img.afterTick])) := by
  have hmem : (interrupt c rsp0 selector offset none).mem = (interruptFrame c rsp0).mem := rfl
  have hrsp : (interrupt c rsp0 selector offset none).reg .rsp = interruptStack c rsp0 - 40 :=
    interruptFrame_rsp c rsp0
  rw [pushedMem_append, ← interruptFrame_mem, pushedMem_append, ← interrupt_timerSaved, ← hmem,
    timerEnter, run_append, run_cons, run_nil]
  change write64 _ _ _ = write64 _ _ _
  rw [run_pushes_mem _ (by decide), run_pushes_rsp, hrsp]
  rfl

theorem timerEnter_mem_outside {x : U64} (hx : x ∉ stackArea (interruptStack c rsp0) 21) :
    (run (interrupt c rsp0 selector offset none) (timerEnter img)).mem x = c.mem x := by
  rw [timerEnter_mem]
  exact pushedMem_outside _ _ _ (by simp [timerSaved]) hx

end Entry

/-! ## A round -/

/-- Where the calls are made: kernel code is interrupted on its own stack. -/
structure Entered (img : TimerImage) (c e : Cpu) : Prop where
  rsp : (run e (timerEnter img)).reg .rsp = (c.reg .rsp &&& ~~~15) - 168
  stack : (run e (timerEnter img)).StackTop (img.afterTick :: timerFrame c)
  mem : ∀ x ∉ stackArea (c.reg .rsp &&& ~~~15) 21, (run e (timerEnter img)).mem x = c.mem x
  msr : e.msr = c.msr

theorem entered_interrupt (hring : c.cs &&& 3 = 0) (rsp0 offset : U64) (selector : BitVec 16) :
    Entered img c (interrupt c rsp0 selector offset none) := by
  have hsp : interruptStack c rsp0 = c.reg .rsp &&& ~~~15 := by rw [interruptStack, if_pos hring]
  refine ⟨?_, timerEnter_stackTop, fun x hx => ?_, interrupt_msr ..⟩
  · rw [timerEnter_rsp, hsp]
  · rw [← hsp] at hx
    exact timerEnter_mem_outside hx

/-- Through the tables of this kernel, the handler is entered so. -/
theorem TablesIn.entered {k : Tables} (h : TablesIn k img.toImage c.mem) (hring : c.cs &&& 3 = 0)
    (tssBase : U64) :
    ∃ e, deliver (k.regs tssBase) c 32 none = some e ∧ e.rip = img.timerInterruptHandler ∧
      Entered img c e :=
  ⟨_, h.deliver_timer, rfl, entered_interrupt hring _ _ _⟩

section Round

variable {e ticked acked : Cpu} (he : Entered img c e) (hdepth : 8 * (21 + depth) ≤ 2 ^ 64)
  (hcount : ∀ x ∈ counterArea img, x ∉ timerArea depth c)
  (tick : SysvDoes (timerTickHandler img) depth (run e (timerEnter img)) ticked)

include he tick in
theorem Entered.eoi_rsp :
    (run ticked (timerEoi img)).reg .rsp = (c.reg .rsp &&& ~~~15) - 168 := by
  change ticked.reg .rsp - 8 = _
  rw [tick.rsp, he.rsp]
  bv_omega

/-- The frame of a C function lies below the return address of its call. -/
theorem mem_timerArea_callee {x : U64}
    (hx : x ∈ stackArea ((c.reg .rsp &&& ~~~15) - 168) depth) : x ∈ timerArea depth c := by
  rw [timerArea, stackArea, Set.mem_ofPred_eq]
  rw [stackArea, Set.mem_ofPred_eq] at hx
  bv_omega

include he hcount tick in
theorem Entered.tick_mem {x : U64} (hx : x ∉ timerArea depth c) :
    ticked.mem x = timerTickHandler img c.mem x := by
  have hout : ∀ y ∉ timerArea depth c, (run e (timerEnter img)).mem y = c.mem y :=
    fun y hy => he.mem y fun hin => hy (stackArea_mono (Nat.le_add_right 21 depth) hin)
  have hcallee : x ∉ stackArea ((run e (timerEnter img)).reg .rsp) depth := by
    rw [he.rsp]
    exact fun hin => hx (mem_timerArea_callee hin)
  -- the counter itself was not touched on the way to the handler
  have hread : read64 (run e (timerEnter img)).mem img.systemTickCount =
      read64 c.mem img.systemTickCount := by
    refine read64_congr fun j hj => hout _ (hcount _ ?_)
    rwa [counterArea, mem_wordsArea_singleton, add_sub_cancel_left]
  rw [tick.mem x hcallee, timerTickHandler, timerTickHandler, hread, write64, write64, hout x hx]

include he hdepth hcount tick in
theorem Entered.eoi_stackTop :
    (run ticked (timerEoi img)).StackTop (img.afterEoi :: timerFrame c) := by
  have hticked : ticked.StackTop (timerFrame c) := by
    refine tick.stackTop he.stack (by rw [length_timerFrame]; omega) fun x hx => ?_
    refine timerTickHandler_outside fun hin => hcount x hin ?_
    rw [he.rsp, length_timerFrame] at hx
    rw [timerArea, stackArea, Set.mem_ofPred_eq]
    bv_omega
  exact hticked.pushWord img.afterEoi (by rw [length_timerFrame]; decide)

variable (eoi : SysvDoes lapicEoi depth (run ticked (timerEoi img)) acked)

include he hcount tick eoi in
theorem Entered.acked_mem {x : U64} (hx : x ∉ timerArea depth c) :
    acked.mem x = timerTickHandler img c.mem x := by
  have hrsp : ticked.reg .rsp - 8 = (c.reg .rsp &&& ~~~15) - 168 := he.eoi_rsp tick
  have hcallee : x ∉ stackArea ((run ticked (timerEoi img)).reg .rsp) depth := by
    rw [he.eoi_rsp tick]
    exact fun hin => hx (mem_timerArea_callee hin)
  have hcall : (run ticked (timerEoi img)).mem x = ticked.mem x := by
    refine write64_byte_ne _ _ _ ?_
    rw [hrsp]
    by_contra hlt
    refine hx (stackArea_mono (Nat.le_add_right 21 depth) ?_)
    rw [stackArea, Set.mem_ofPred_eq]
    change (x - ((c.reg .rsp &&& ~~~15) - 168)).toNat < 168
    omega
  rw [eoi.mem x hcallee, lapicEoi, hcall, he.tick_mem hcount tick hx]

include he hdepth hcount tick eoi in
/-- The pops find the saved registers, and the frame of the interrupted code below them. -/
theorem Entered.leave :
    (run acked timerLeave).StackTop (frameWords c) ∧
      (run acked timerLeave).mem = acked.mem ∧
      Ticked img depth c (iretqLoaded (run acked timerLeave)) := by
  have hacked : acked.StackTop (timerSaved.reverse.map c.reg ++ frameWords c) := by
    have htop := eoi.stackTop (he.eoi_stackTop hdepth hcount tick)
      (by rw [length_timerFrame]; omega) fun _ _ => rfl
    rwa [timerFrame, ← List.map_reverse] at htop
  obtain ⟨hregs, hframe, hmem⟩ := run_pops_spec (by decide) (by decide) hacked
  obtain ⟨hrip, hcs, hss, hrsp, hflags⟩ := iretqLoaded_frame hframe
  refine ⟨hframe, hmem, ?_, hrip, hflags, hcs, hss, ?_, fun x hx => ?_⟩
  · funext r
    by_cases hr : r = .rsp
    · rw [hr]
      exact hrsp
    · exact (iretq_reg _ hr).trans (hregs r (List.mem_reverse.mpr ((mem_timerSaved r).mpr hr)))
  · rw [iretqLoaded_msr, run_msr, eoi.msr, run_msr, tick.msr, run_msr, he.msr]
  · rw [iretqLoaded_mem, timerLeave, hmem, he.acked_mem hcount tick eoi hx]

include he hdepth hcount tick eoi in
/-- The tables are still there when the stub returns, and let it. -/
theorem Entered.accepted {k : Tables} (htables : TablesIn k img.toImage c.mem) (tssBase : U64)
    (hcs : c.cs = 0x08) (hss : c.ss = 0x10) (hrip : canonical c.rip)
    (hapart : ∀ x ∈ k.area, x ∉ timerArea depth c ∧ x ∉ counterArea img) :
    TablesIn k img.toImage (run acked timerLeave).mem ∧
      iretqProtected (k.regs tssBase) (run acked timerLeave) =
        some (iretqLoaded (run acked timerLeave)) := by
  obtain ⟨hframe, hmem, -⟩ := he.leave hdepth hcount tick eoi
  have hafter : TablesIn k img.toImage (run acked timerLeave).mem := by
    refine htables.congr fun x hx => ?_
    obtain ⟨hout, hnot⟩ := hapart x hx
    rw [hmem, he.acked_mem hcount tick eoi hout, timerTickHandler_outside hnot]
  exact ⟨hafter, hafter.iretq_accepted hframe hcs hss hrip⟩

end Round

/-- Handlers that only do their work and return make a timer interrupt. -/
theorem TablesIn.timerInterrupt {k : Tables} (h : TablesIn k img.toImage c.mem) (tssBase : U64)
    (hif : c.rflags &&& flagIf ≠ 0) (hcs : c.cs = 0x08) (hss : c.ss = 0x10) (hrip : canonical c.rip)
    (hdepth : 8 * (21 + depth) ≤ 2 ^ 64) (hcount : ∀ x ∈ counterArea img, x ∉ timerArea depth c)
    (hapart : ∀ x ∈ k.area, x ∉ timerArea depth c ∧ x ∉ counterArea img) :
    ∃ d, TimerInterrupt img (k.regs tssBase) depth c d := by
  have hring : c.cs &&& 3 = 0 := by
    rw [hcs]
    decide
  obtain ⟨e, hdelivered, hentry, he⟩ := h.entered hring tssBase
  obtain ⟨ticked, tick⟩ := exists_sysvDoes (timerTickHandler img) depth (run e (timerEnter img))
  obtain ⟨acked, eoi⟩ := exists_sysvDoes lapicEoi depth (run ticked (timerEoi img))
  exact ⟨_, .intro hif hdelivered hentry tick eoi
    (he.accepted hdepth hcount tick eoi h tssBase hcs hss hrip hapart).2⟩

/-- However the tables look: an interrupt that comes back has only ticked. -/
theorem TimerInterrupt.ticked {t : TableRegs} (h : TimerInterrupt img t depth c d)
    (hring : c.cs &&& 3 = 0) (hdepth : 8 * (21 + depth) ≤ 2 ^ 64)
    (hcount : ∀ x ∈ counterArea img, x ∉ timerArea depth c) : Ticked img depth c d := by
  obtain ⟨-, delivered, -, tick, eoi, back⟩ := h
  obtain ⟨rsp0, selector, offset, rfl⟩ := deliver_eq_interrupt delivered
  have he : Entered img c _ := entered_interrupt hring rsp0 offset selector
  rw [eq_iretqLoaded back]
  exact (he.leave hdepth hcount tick eoi).2.2

/-- The tick itself. -/
theorem Ticked.count (h : Ticked img depth c d)
    (hcount : ∀ x ∈ counterArea img, x ∉ timerArea depth c) :
    read64 d.mem img.systemTickCount = read64 c.mem img.systemTickCount + 1 := by
  have hsame : read64 d.mem img.systemTickCount =
      read64 (timerTickHandler img c.mem) img.systemTickCount := by
    refine read64_congr fun j hj => h.mem _ (hcount _ ?_)
    rwa [counterArea, mem_wordsArea_singleton, add_sub_cancel_left]
  rw [hsame]
  exact read64_write64_self _ _ _

/-! ## What the interrupted code sees -/

/-- The frame is an even number of words, so both calls are made with the alignment
that the calling convention asks for. -/
theorem call_aligned (sp : U64) : ((sp &&& ~~~15) - 168 + 8).toNat % 16 = 0 := by
  have hmask : ~~~(15 : U64) = BitVec.allOnes 64 <<< 4 := by decide
  have haligned : (sp &&& ~~~(15 : U64)).toNat % 16 = 0 := by
    rw [hmask, BitField.and_high_toNat]
    omega
  generalize sp &&& ~~~(15 : U64) = top at haligned ⊢
  bv_omega

/-- **A timer interrupt is transparent.** Whatever kernel code it interrupts, with any
registers, flags and stack: through the tables of this kernel it gets to its handler, both
C functions are entered with the stack as their calling convention wants it, and once they
have returned the `IRETQ` is accepted and the interrupted code goes on as it was, with one
more tick counted and nothing else changed but the stack below it. The tables and the counter
are not on that stack. -/
theorem timer_interrupt_transparent {k : Tables} (tssBase : U64)
    (htables : TablesIn k img.toImage c.mem) (hcs : c.cs = 0x08) (hss : c.ss = 0x10)
    (hrip : canonical c.rip) (hdepth : 8 * (21 + depth) ≤ 2 ^ 64)
    (hcount : ∀ x ∈ counterArea img, x ∉ timerArea depth c)
    (hapart : ∀ x ∈ k.area, x ∉ timerArea depth c ∧ x ∉ counterArea img) :
    ∃ e, deliver (k.regs tssBase) c 32 none = some e ∧ e.rip = img.timerInterruptHandler ∧
      ((run e (timerEnter img)).reg .rsp + 8).toNat % 16 = 0 ∧
      ∀ ticked, SysvDoes (timerTickHandler img) depth (run e (timerEnter img)) ticked →
        ((run ticked (timerEoi img)).reg .rsp + 8).toNat % 16 = 0 ∧
        ∀ acked, SysvDoes lapicEoi depth (run ticked (timerEoi img)) acked →
          ∃ d, iretqProtected (k.regs tssBase) (run acked timerLeave) = some d ∧
            Ticked img depth c d ∧ TablesIn k img.toImage d.mem := by
  have hring : c.cs &&& 3 = 0 := by
    rw [hcs]
    decide
  obtain ⟨e, hdelivered, hentry, he⟩ := htables.entered hring tssBase
  refine ⟨e, hdelivered, hentry, ?_, fun ticked tick => ⟨?_, fun acked eoi => ?_⟩⟩
  · rw [he.rsp]
    exact call_aligned _
  · rw [he.eoi_rsp tick]
    exact call_aligned _
  · obtain ⟨hafter, hret⟩ :=
      he.accepted hdepth hcount tick eoi htables tssBase hcs hss hrip hapart
    refine ⟨_, hret, (he.leave hdepth hcount tick eoi).2.2, ?_⟩
    rw [iretqLoaded_mem]
    exact hafter

/-! ## Any number of interrupts -/

/-- The stack has room for an interrupt, and the counter is not on it. -/
def RoomForTimer (img : TimerImage) (depth : ℕ) (lo : U64) (c : Cpu) : Prop :=
  8 * (21 + depth) + 16 ≤ (c.reg .rsp - lo).toNat ∧ ∀ x ∈ counterArea img, x ∉ belowStack lo c

theorem timerArea_subset {lo : U64} (h : 8 * (21 + depth) + 16 ≤ (c.reg .rsp - lo).toNat) :
    timerArea depth c ⊆ belowStack lo c := by
  have hmask : ~~~(15 : U64) = BitVec.allOnes 64 <<< 4 := by decide
  have haligned : (c.reg .rsp &&& ~~~(15 : U64)).toNat = (c.reg .rsp).toNat / 2 ^ 4 * 2 ^ 4 := by
    rw [hmask, BitField.and_high_toNat]
  intro x hx
  rw [timerArea, stackArea, Set.mem_ofPred_eq] at hx
  rw [belowStack, Set.mem_ofPred_eq]
  generalize c.reg .rsp &&& ~~~(15 : U64) = top at haligned hx
  generalize c.reg .rsp = sp at *
  bv_omega

theorem RoomForTimer.counter_apart {lo : U64} (h : RoomForTimer img depth lo c) :
    ∀ x ∈ counterArea img, x ∉ timerArea depth c :=
  fun x hx hin => h.2 x hx (timerArea_subset h.1 hin)

theorem RoomForTimer.congr {lo : U64} (h : RoomForTimer img depth lo c) (hreg : d.reg = c.reg) :
    RoomForTimer img depth lo d := by
  rw [RoomForTimer, belowStack, hreg]
  exact h

theorem Ticked.agree {lo : U64} (h : Ticked img depth c d) (hflags : c.FlagsLoadable)
    (hroom : RoomForTimer img depth lo c) : Agree (belowStack lo c ∪ counterArea img) c d := by
  refine ⟨h.reg, h.rip, h.rflags.trans hflags, h.cs, h.ss, h.msr, fun x hx => ?_⟩
  obtain ⟨hbelow, hcounter⟩ := not_or.mp hx
  rw [h.mem x fun hin => hbelow (timerArea_subset hroom.1 hin), timerTickHandler_outside hcounter]

def Tables.sample : Tables where
  gdt := kernelVmaBase + 0x200000
  idt := kernelVmaBase + 0x201000

def TimerImage.sample : TimerImage where
  exceptionHandler _ := kernelVmaBase + 0x101000
  timerInterruptHandler := kernelVmaBase + 0x102000
  timerTickHandler := kernelVmaBase + 0x103000
  afterTick := kernelVmaBase + 0x102020
  lapicEoi := kernelVmaBase + 0x104000
  afterEoi := kernelVmaBase + 0x102025
  systemTickCount := kernelVmaBase + 0x203000

def kmainGdt : Fin 5 → GdtEntry := gdtInit fun _ => segmentEntry 0 0 0 0

def kmainIdt : Fin 256 → IdtEntry :=
  timerInitGate TimerImage.sample.toImage
    (idtInit TimerImage.sample.toImage fun _ => gateEntry 0 0 0)

/-- The tables in a memory that is empty otherwise. -/
def kmainMem : Mem :=
  overlay (overlay (fun _ => 0) Tables.sample.gdt (gdtBytes kmainGdt)) Tables.sample.idt
    (idtBytes kmainIdt)

theorem tablesIn_kmainMem : TablesIn .sample TimerImage.sample.toImage kmainMem := by
  have hidt : IdtAt kmainMem Tables.sample.idt kmainIdt := idtAt_overlay (by decide) _ _ kmainIdt
  refine ⟨⟨fun _ => segmentEntry 0 0 0 0, kmainGdt, fun _ => .inl rfl, ?_⟩,
    ⟨fun _ => gateEntry 0 0 0, hidt⟩⟩
  refine (gdtAt_overlay (by decide) (fun _ => 0) _ kmainGdt).congr (by decide) fun x hx => ?_
  refine overlay_outside _ ?_
  rw [length_idtBytes]
  change (x - 0xffffffff80200000#64).toNat < 40 at hx
  change 4096 ≤ (x - 0xffffffff80201000#64).toNat
  bv_omega

/-- Kernel code in the middle of something. -/
def kmainCpu : Cpu where
  reg r := if r = .rsp then kernelVmaBase + 0x210000 else if r = .rax then 7 else 0
  rip := kernelVmaBase + 0x105000
  rflags := 0x202
  cs := 0x08
  ss := 0x10
  msr _ := 0
  mem := kmainMem

/-- The lower end of its stack. -/
def kmainStack : U64 := kernelVmaBase + 0x208000

/-- The tables and the counter lie below the stack, the counter behind the tables. -/
theorem not_mem_kmainStack {x : U64} (hsp : (c.reg .rsp - kmainStack).toNat ≤ 0x8000)
    (hx : x ∈ Tables.sample.area ∨ x ∈ counterArea .sample) : x ∉ belowStack kmainStack c := by
  rw [counterArea, mem_wordsArea_singleton] at hx
  change ((x - 0xffffffff80200000#64).toNat < 40 ∨ (x - 0xffffffff80201000#64).toNat < 4096) ∨
    (x - 0xffffffff80203000#64).toNat < 8 at hx
  change ¬ (x - 0xffffffff80208000#64).toNat < (c.reg .rsp - 0xffffffff80208000#64).toNat
  change (c.reg .rsp - 0xffffffff80208000#64).toNat ≤ 0x8000 at hsp
  bv_omega

theorem sample_area_apart {x : U64} (hx : x ∈ Tables.sample.area) : x ∉ counterArea .sample := by
  rw [counterArea, mem_wordsArea_singleton]
  change (x - 0xffffffff80200000#64).toNat < 40 ∨ (x - 0xffffffff80201000#64).toNat < 4096 at hx
  change ¬ (x - 0xffffffff80203000#64).toNat < 8
  bv_omega

theorem kmain_timer_transparent :
    ∃ d, TimerInterrupt .sample (Tables.sample.regs 0) 16 kmainCpu d ∧ d.reg = kmainCpu.reg ∧
      d.rflags = 0x202 := by
  have hroom : 8 * (21 + 16) + 16 ≤ (kmainCpu.reg .rsp - kmainStack).toNat := by decide
  have hsp : (kmainCpu.reg .rsp - kmainStack).toNat ≤ 0x8000 := by decide
  have hstack : ∀ {x}, x ∈ Tables.sample.area ∨ x ∈ counterArea .sample →
      x ∉ timerArea 16 kmainCpu :=
    fun hx hin => not_mem_kmainStack hsp hx (timerArea_subset hroom hin)
  obtain ⟨e, hdelivered, hentry, -, hticked⟩ :=
    timer_interrupt_transparent (c := kmainCpu) 0 tablesIn_kmainMem rfl rfl (by decide) (by decide)
      (fun x hx => hstack (.inr hx))
      fun x hx => ⟨hstack (.inl hx), sample_area_apart hx⟩
  obtain ⟨ticked, tick⟩ :=
    exists_sysvDoes (timerTickHandler .sample) 16 (run e (timerEnter .sample))
  obtain ⟨-, hacked⟩ := hticked ticked tick
  obtain ⟨acked, eoi⟩ := exists_sysvDoes lapicEoi 16 (run ticked (timerEoi .sample))
  obtain ⟨d, hback, hd, -⟩ := hacked acked eoi
  exact ⟨d, .intro (by decide) hdelivered hentry tick eoi hback, hd.reg, hd.rflags⟩

/-- The word that a push of `kmainCpu` writes: on its stack, and above where the stack then ends. -/
theorem kmain_pushedWord {x : U64} (hx : x ∈ wordsArea [kmainCpu.reg .rsp - 8]) :
    (x - kmainStack).toNat < (kmainCpu.reg .rsp - kmainStack).toNat ∧
      ¬ (x - kmainStack).toNat < (kmainCpu.reg .rsp - 8 - kmainStack).toNat := by
  rw [mem_wordsArea_singleton] at hx
  change (x - 0xffffffff8020fff8#64).toNat < 8 at hx
  change (x - 0xffffffff80208000#64).toNat < 0x8000 ∧ ¬ (x - 0xffffffff80208000#64).toNat < 0x7ff8
  bv_omega

theorem roomForTimer_kmain {c : Cpu} (hroom : 8 * (21 + 16) + 16 ≤ (c.reg .rsp - kmainStack).toNat)
    (hsp : (c.reg .rsp - kmainStack).toNat ≤ 0x8000) : RoomForTimer .sample 16 kmainStack c :=
  ⟨hroom, fun _ hx => not_mem_kmainStack hsp (.inr hx)⟩

/-- A timer interrupt behind the push. -/
theorem kmain_interrupted :
    ∃ d, TimerInterrupt .sample (Tables.sample.regs 0) 16 (exec kmainCpu (.push .rax)) d := by
  have htables : TablesIn .sample TimerImage.sample.toImage (exec kmainCpu (.push .rax)).mem :=
    tablesIn_kmainMem.congr fun x hx => exec_mem_of_not_mem fun hin =>
      not_mem_kmainStack (c := kmainCpu) (by decide) (.inl hx) (kmain_pushedWord hin).1
  have hroom : RoomForTimer .sample 16 kmainStack (exec kmainCpu (.push .rax)) :=
    roomForTimer_kmain (by decide) (by decide)
  refine htables.timerInterrupt 0 (by decide) rfl rfl (by decide) (by decide)
    hroom.counter_apart fun x hx => ⟨fun hin => ?_, sample_area_apart hx⟩
  exact not_mem_kmainStack (by decide) (.inl hx) (timerArea_subset hroom.1 hin)

/-- What was pushed may be popped. -/
theorem careful_kmain : Careful kmainStack (counterArea .sample) (belowStack kmainStack kmainCpu)
    kmainCpu [.push .rax, .pop .rbx] := by
  have hkept : ∀ x ∈ wordsArea [kmainCpu.reg .rsp - 8], x ∉ counterArea .sample :=
    fun x hx hin =>
      not_mem_kmainStack (c := kmainCpu) (by decide) (.inr hin) (kmain_pushedWord hx).1
  have hnone : ∀ {K : Set U64}, ∀ x ∈ wordsArea [], x ∉ K := by
    rw [wordsArea_nil]
    exact fun x hx => absurd hx (Set.notMem_empty x)
  refine ⟨hnone, hkept, fun x hx => ?_, hnone, trivial⟩
  rintro ((hin | hin) | hin)
  · exact hin.2 hx
  · exact (kmain_pushedWord hx).2 hin
  · exact hkept x hx hin

end Myria.Arch.GdtIdt
