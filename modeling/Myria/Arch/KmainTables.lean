import Myria.Arch.Descriptors

/-! The descriptor tables of the kernel of `kmain.c`: those of `gdt_idt.c`, with the gate
that `timer_init` of `lapic.c` adds. That kernel never leaves ring 0 and loads no TSS. -/
namespace Myria.Arch.GdtIdt

open X86 ByteMem

/-- The addresses of the handlers in the image. -/
structure Image where
  /-- the handlers of `start.S` for the exceptions, by vector -/
  exceptionHandler : Fin 256 → U64
  timerInterruptHandler : U64

/-! ## The tables -/

/-- `gdt_set_gate`, which writes the fields that `gdt_set_entry` of `gdt.c` does. -/
def gdtSetGate (gdt : Fin 5 → GdtEntry) (num : Fin 5) (base : U64) (limit : U32)
    (access gran : BitVec 8) : Fin 5 → GdtEntry :=
  Function.update gdt num (segmentEntry base (limit.setWidth 64) access gran)

/-- `idt_set_gate`, as in `idt_minimal.c` but for the size of the table. -/
def idtSetGate (idt : Fin 256 → IdtEntry) (num : Fin 256) (base : U64) (sel : BitVec 16)
    (flags : BitVec 8) : Fin 256 → IdtEntry :=
  Function.update idt num (gateEntry base sel flags)

/-- `gdt_init`, up to the load of the table, whatever the table held. -/
def gdtInit (gdt : Fin 5 → GdtEntry) : Fin 5 → GdtEntry :=
  let gdt := gdtSetGate gdt 0 0 0 0 0
  let gdt := gdtSetGate gdt 1 0 0xFFFFF 0x9A 0xA0
  let gdt := gdtSetGate gdt 2 0 0xFFFFF 0x92 0xA0
  let gdt := gdtSetGate gdt 3 0 0xFFFFF 0xFA 0xA0
  gdtSetGate gdt 4 0 0xFFFFF 0xF2 0xA0

/-- The vectors for which `idt_init` sets a gate, in its order. -/
def exceptionVectors : List (Fin 256) :=
  [0, 1, 2, 3, 4, 5, 6, 7, 8, 10, 11, 12, 13, 14, 16, 17, 18, 19, 20]

/-- `idt_init`, up to the load of the table. -/
def idtInit (img : Image) (idt : Fin 256 → IdtEntry) : Fin 256 → IdtEntry :=
  let cleared := (List.finRange 256).foldl (fun t i => idtSetGate t i 0 0 0) idt
  exceptionVectors.foldl (fun t v => idtSetGate t v (img.exceptionHandler v) 0x08 0x8E) cleared

/-- The gate that `timer_init` sets. -/
def timerInitGate (img : Image) (idt : Fin 256 → IdtEntry) : Fin 256 → IdtEntry :=
  idtSetGate idt 32 img.timerInterruptHandler 0x08 0x8E

/-- The addresses of the statics. -/
structure Tables where
  gdt : U64
  idt : U64

/-- The table registers. The task register is as the bootloader left it. -/
def Tables.regs (k : Tables) (tssBase : U64) : TableRegs where
  gdtBase := k.gdt
  gdtLimit := BitVec.ofNat 16 (8 * 5 - 1)
  idtBase := k.idt
  idtLimit := BitVec.ofNat 16 (16 * 256 - 1)
  tssBase := tssBase

/-- The tables lie in memory as `kmain` has set them up; the processor may have marked
descriptors that it loaded. -/
structure TablesIn (k : Tables) (img : Image) (m : Mem) : Prop where
  gdt : ∃ gdt gdt', (∀ i, (gdtInit gdt i).Marked (gdt' i)) ∧ GdtAt m k.gdt gdt'
  idt : ∃ idt, IdtAt m k.idt (timerInitGate img (idtInit img idt))

/-- The bytes of the two tables. -/
def Tables.area (k : Tables) : Set U64 := {x | (x - k.gdt).toNat < 40 ∨ (x - k.idt).toNat < 4096}

variable {k : Tables} {img : Image} {m : Mem} {c d : Cpu} {tssBase : U64}

theorem TablesIn.congr (h : TablesIn k img m) {m' : Mem} (hsame : ∀ x ∈ k.area, m' x = m x) :
    TablesIn k img m' := by
  obtain ⟨⟨gdt, gdt', hmarked, hgdt⟩, ⟨idt, hidt⟩⟩ := h
  exact ⟨⟨gdt, gdt', hmarked, hgdt.congr (by decide) fun x hx => hsame x (.inl hx)⟩,
    ⟨idt, hidt.congr (by decide) fun x hx => hsame x (.inr hx)⟩⟩

/-! ## What the processor finds in them -/

/-- The kernel's segments fit ring 0. -/
theorem TablesIn.segments (h : TablesIn k img m) (tssBase : U64) :
    (∃ s, X86.segmentOf m (k.regs tssBase) 0x08 = some s ∧ s.admitsCode 0) ∧
      ∃ s, X86.segmentOf m (k.regs tssBase) 0x10 = some s ∧ s.admitsStack 0 := by
  obtain ⟨gdt, gdt', hmarked, hgdt⟩ := h.gdt
  have hcode : (segmentEntry 0 0xFFFFF 0x9A 0xA0).Marked (gdt' 1) := hmarked 1
  have hdata : (segmentEntry 0 0xFFFFF 0x92 0xA0).Marked (gdt' 2) := hmarked 2
  have hlimit : (k.regs tssBase).gdtLimit.toNat = 39 := rfl
  refine ⟨⟨_, hgdt.segmentOf (i := 1) (by decide) (by decide) (by decide) ?_, ?_⟩,
    ⟨_, hgdt.segmentOf (i := 2) (by decide) (by decide) (by decide) ?_, ?_⟩⟩
  · rw [hlimit]
    decide
  · rcases hcode with heq | ⟨-, heq⟩ <;> rw [heq] <;> decide
  · rw [hlimit]
    decide
  · rcases hdata with heq | ⟨-, heq⟩ <;> rw [heq] <;> decide

/-- The interrupt of the timer gets to its handler. -/
theorem TablesIn.deliver_timer (h : TablesIn k img c.mem) :
    deliver (k.regs tssBase) c 32 none =
      some (interrupt c (tssRsp0 c.mem (k.regs tssBase)) 0x08 img.timerInterruptHandler none) := by
  obtain ⟨idt, hidt⟩ := h.idt
  obtain ⟨⟨code, hcode, hcodeOk⟩, -⟩ := h.segments tssBase
  have hentry : timerInitGate img (idtInit img idt) 32 =
      gateEntry img.timerInterruptHandler 0x08 0x8E := by
    rw [timerInitGate, idtSetGate, Function.update_self]
  have hgate := hidt.gate 32
  rw [hentry, offset_gateEntry] at hgate
  have hfound : gateOf c.mem (k.regs tssBase) 32 = some (gateAt c.mem k.idt (32 : Fin 256)) :=
    gateOf_eq (show 16 * 32 + 15 ≤ 4095 by decide)
  simp only [deliver, hfound, hgate, gateEntry, hcode]
  rw [if_pos (by decide), if_pos hcodeOk]

/-- A frame of kernel code is accepted. -/
theorem TablesIn.iretq_accepted {u : Cpu} (h : TablesIn k img d.mem)
    (hframe : d.StackTop (frameWords u)) (hcs : u.cs = 0x08) (hss : u.ss = 0x10)
    (hrip : canonical u.rip) : iretqProtected (k.regs tssBase) d = some (iretqLoaded d) := by
  obtain ⟨hrip', hcs', hss', -, -⟩ := iretqLoaded_frame hframe
  obtain ⟨⟨code, hcode, hcodeOk⟩, ⟨stack, hstack, hstackOk⟩⟩ := h.segments tssBase
  have hcs'' : (iretqLoaded d).cs = 0x08 := hcs'.trans hcs
  have hss'' : (iretqLoaded d).ss = 0x10 := hss'.trans hss
  have hring : rpl (iretqLoaded d).cs = 0 := by
    rw [hcs'']
    rfl
  rw [← hcs''] at hcode
  rw [← hss''] at hstack
  rw [← hring] at hcodeOk hstackOk
  refine iretqProtected_accepted hcode hstack ?_ ?_ hcodeOk hstackOk (by rwa [hrip'])
  · rw [hss'']
    decide
  · rw [hss'', hcs'']
    rfl

end Myria.Arch.GdtIdt
