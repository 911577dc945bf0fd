import Myria.Arch.Descriptors
import Myria.Arch.SyscallEntry
import Myria.Lib.Runs
import Myria.Lib.X86Protect

/-! The way into user mode and back: the tables that `gdt_init` and `tss_init` of
`gdt.c` and `idt_init` set up, `enter_user`, and what the processor makes of them when
user code is interrupted or makes a system call. -/
namespace Myria.Arch

open X86 ByteMem

/-! ## The tables -/

def kcodeSel : BitVec 16 := 0x08
def kdataSel : BitVec 16 := 0x10
def ucodeSel : BitVec 16 := 0x18
def udataSel : BitVec 16 := 0x20
def tssSel : BitVec 16 := 0x28

def gdtPresent : BitVec 8 := 1 <<< 7
def gdtDpl0 : BitVec 8 := 0 <<< 5
def gdtDpl3 : BitVec 8 := 3 <<< 5
def gdtCodeData : BitVec 8 := 1 <<< 4
def gdtExecutable : BitVec 8 := 1 <<< 3
def gdtReadable : BitVec 8 := 1 <<< 1
def gdtWritable : BitVec 8 := 1 <<< 1
def gdt4k : BitVec 8 := 1 <<< 7
def gdt64bit : BitVec 8 := 1 <<< 5
def tssTypeAvailable : BitVec 8 := 0x09

/-- `gdt_init`, up to the load of the table, whatever the table held. -/
def gdtInit (gdt : Gdt) : Gdt :=
  let gdt := (List.finRange 10).foldl (fun gdt i => gdtSetEntry gdt i 0 0 0 0) gdt
  let gdt := gdtSetEntry gdt 0 0 0 0 0
  let gdt := gdtSetEntry gdt 1 0 0xFFFFF
    (gdtPresent ||| gdtDpl0 ||| gdtCodeData ||| gdtExecutable ||| gdtReadable) (gdt4k ||| gdt64bit)
  let gdt := gdtSetEntry gdt 2 0 0xFFFFF
    (gdtPresent ||| gdtDpl0 ||| gdtCodeData ||| gdtWritable) gdt4k
  let gdt := gdtSetEntry gdt 3 0 0xFFFFF
    (gdtPresent ||| gdtDpl3 ||| gdtCodeData ||| gdtExecutable ||| gdtReadable) (gdt4k ||| gdt64bit)
  gdtSetEntry gdt 4 0 0xFFFFF (gdtPresent ||| gdtDpl3 ||| gdtCodeData ||| gdtWritable) gdt4k

structure TssEntry where
  reserved0 : BitVec 32
  rsp0 : U64
  rsp1 : U64
  rsp2 : U64
  reserved1 : U64
  ist1 : U64
  ist2 : U64
  ist3 : U64
  ist4 : U64
  ist5 : U64
  ist6 : U64
  ist7 : U64
  reserved2 : U64
  reserved3 : BitVec 16
  iomapBase : BitVec 16
deriving DecidableEq, Repr

/-- The TSS after the loop that clears it. -/
def TssEntry.cleared : TssEntry := ⟨0, 0, 0, 0, 0, 0, 0, 0, 0, 0, 0, 0, 0, 0, 0⟩

def le64 (v : U64) : List (BitVec 8) := le32 (v.extractLsb' 0 32) ++ le32 (v.extractLsb' 32 32)

/-- `struct tss_entry`, packed. -/
def TssEntry.bytes (e : TssEntry) : List (BitVec 8) :=
  le32 e.reserved0 ++ (le64 e.rsp0 ++
    (le64 e.rsp1 ++ le64 e.rsp2 ++ le64 e.reserved1 ++ le64 e.ist1 ++
    le64 e.ist2 ++ le64 e.ist3 ++ le64 e.ist4 ++ le64 e.ist5 ++ le64 e.ist6 ++ le64 e.ist7 ++
    le64 e.reserved2 ++ le16 e.reserved3 ++ le16 e.iomapBase))

/-- `sizeof(tss)` -/
def tssSize : ℕ := 104

theorem length_le64 (v : U64) : (le64 v).length = 8 := rfl

theorem TssEntry.length_bytes (e : TssEntry) : e.bytes.length = tssSize := by
  have h32 (v : BitVec 32) : (le32 v).length = 4 := rfl
  have h16 (v : BitVec 16) : (le16 v).length = 2 := rfl
  simp only [TssEntry.bytes, List.length_append, length_le64, h32, h16]
  rfl

def TssAt (m : Mem) (a : U64) (e : TssEntry) : Prop := BytesAt m a e.bytes

theorem TssAt.congr {m m' : Mem} {a : U64} {e : TssEntry} (h : TssAt m a e)
    (hsame : ∀ x, (x - a).toNat < 104 → m' x = m x) : TssAt m' a e := by
  refine BytesAt.congr h (by rw [TssEntry.length_bytes]; decide) fun x hx => hsame x ?_
  rwa [TssEntry.length_bytes] at hx

/-- The addresses of the statics of `gdt.c` and `idt_minimal.c`. The linker keeps them
apart. -/
structure KernelTables where
  gdt : U64
  tss : U64
  idt : U64
  kernelStack : U64
  interruptStack : U64
  tss_apart : 80 ≤ (tss - gdt).toNat ∧ 104 ≤ (gdt - tss).toNat
  idt_apart : 80 ≤ (idt - gdt).toNat ∧ 512 ≤ (gdt - idt).toNat

variable (k : KernelTables)

/-- `tss_init`: the TSS it fills in. -/
def tssInit : TssEntry :=
  { TssEntry.cleared with
    rsp0 := k.kernelStack + 8192
    ist1 := k.interruptStack + 8192
    iomapBase := BitVec.ofNat 16 tssSize }

/-- `tss_init`: the two entries of the table. -/
def tssInitGdt (gdt : Gdt) : Gdt :=
  gdtSetTss gdt 5 k.tss (BitVec.ofNat 64 (tssSize - 1))
    (gdtPresent ||| gdtDpl0 ||| tssTypeAvailable)

def getKernelStack (tss : TssEntry) : U64 := tss.rsp0

def setKernelStack (tss : TssEntry) (stackTop : U64) : TssEntry := { tss with rsp0 := stackTop }

/-- The table registers after `lgdt` and `lidt`, before `tss_flush`. -/
def flushedRegs : TableRegs where
  gdtBase := k.gdt
  gdtLimit := BitVec.ofNat 16 (10 * 8 - 1)
  idtBase := k.idt
  idtLimit := BitVec.ofNat 16 (32 * 16 - 1)
  tssBase := 0

/-- The table registers after `tss_flush`. -/
def bootRegs : TableRegs := { flushedRegs k with tssBase := k.tss }

/-- The tables lie in memory as boot leaves them; `set_kernel_stack` may have been
called since, and the processor may have marked descriptors that it loaded. -/
structure TablesIn (img : FaultImage) (tss : TssEntry) (m : Mem) : Prop where
  gdt : ∃ gdt gdt', (∀ i, (tssInitGdt k (gdtInit gdt) i).Marked (gdt' i)) ∧ GdtAt m k.gdt gdt'
  tss : TssAt m k.tss tss
  idt : ∃ idt, IdtAt m k.idt (idtInit img idt)

variable {k} {img : FaultImage} {tss : TssEntry} {m : Mem} {c d : Cpu}

/-! ## What the processor finds in them -/

/-- A selector of the table names the entry at its index. -/
theorem TablesIn.segmentOf (h : TablesIn k img tss m) (sel : BitVec 16) (hnull : ¬ isNull sel)
    (hlocal : sel.getLsbD 2 = false) (i : Fin 10) (hi : selectorIndex sel = i) :
    ∃ gdt e, (tssInitGdt k (gdtInit gdt) i).Marked e ∧
      X86.segmentOf m (bootRegs k) sel = some (.decode e.word) := by
  obtain ⟨gdt, gdt', hmarked, hgdt⟩ := h.gdt
  have hle : 8 * (i : ℕ) + 7 ≤ (bootRegs k).gdtLimit.toNat := by
    change 8 * (i : ℕ) + 7 ≤ 79
    omega
  exact ⟨gdt, gdt' i, hmarked i, hgdt.segmentOf hnull hlocal hi hle⟩

/-- The kernel's and the user's segments fit their rings. -/
theorem TablesIn.code (h : TablesIn k img tss m) :
    (∃ s, X86.segmentOf m (bootRegs k) 0x08 = some s ∧ s.admitsCode 0) ∧
      ∃ s, X86.segmentOf m (bootRegs k) 0x1B = some s ∧ s.admitsCode 3 := by
  obtain ⟨gdt, e, hk, hkernel⟩ := h.segmentOf 0x08 (by decide) (by decide) 1 (by decide)
  obtain ⟨gdt', e', hu, huser⟩ := h.segmentOf 0x1B (by decide) (by decide) 3 (by decide)
  change (segmentEntry 0 0xFFFFF 0x9A 0xA0).Marked e at hk
  change (segmentEntry 0 0xFFFFF 0xFA 0xA0).Marked e' at hu
  refine ⟨⟨_, hkernel, ?_⟩, ⟨_, huser, ?_⟩⟩
  · rcases hk with rfl | ⟨-, rfl⟩ <;> decide
  · rcases hu with rfl | ⟨-, rfl⟩ <;> decide

theorem TablesIn.stack (h : TablesIn k img tss m) :
    (∃ s, X86.segmentOf m (bootRegs k) 0x10 = some s ∧ s.admitsStack 0) ∧
      ∃ s, X86.segmentOf m (bootRegs k) 0x23 = some s ∧ s.admitsStack 3 := by
  obtain ⟨gdt, e, hk, hkernel⟩ := h.segmentOf 0x10 (by decide) (by decide) 2 (by decide)
  obtain ⟨gdt', e', hu, huser⟩ := h.segmentOf 0x23 (by decide) (by decide) 4 (by decide)
  change (segmentEntry 0 0xFFFFF 0x92 0x80).Marked e at hk
  change (segmentEntry 0 0xFFFFF 0xF2 0x80).Marked e' at hu
  refine ⟨⟨_, hkernel, ?_⟩, ⟨_, huser, ?_⟩⟩
  · rcases hk with rfl | ⟨-, rfl⟩ <;> decide
  · rcases hu with rfl | ⟨-, rfl⟩ <;> decide

/-- The descriptor of the TSS is available or busy. -/
theorem marked_tss_iff {base : U64} {e : GdtEntry} :
    (segmentEntry base 103 0x89 0).Marked e ↔
      e = segmentEntry base 103 0x89 0 ∨ e = segmentEntry base 103 0x8B 0 := by
  have hbit : (0x89 : BitVec 8) ||| usedBit 0x89 = 0x8B := by decide
  have hbusy : { segmentEntry base 103 0x89 0 with access := 0x89 ||| usedBit 0x89 } =
      segmentEntry base 103 0x8B 0 := by
    rw [hbit]
    rfl
  rw [← hbusy]
  exact or_congr_right (and_iff_right (show (0x89 : BitVec 8).getLsbD 7 = true by decide))

theorem tssInitGdt_five (gdt : Gdt) : tssInitGdt k gdt 5 = segmentEntry k.tss 103 0x89 0 :=
  gdtSetTss_low 5 _

/-- The selector that `SYSRETQ` loads names the TSS. -/
theorem TablesIn.sysret (h : TablesIn k img tss m) :
    ∃ s, X86.segmentOf m (bootRegs k) 0x2B = some s ∧ s.isCode = false := by
  obtain ⟨gdt, e, hmarked, htss⟩ := h.segmentOf 0x2B (by decide) (by decide) 5 (by decide)
  rw [tssInitGdt_five, marked_tss_iff] at hmarked
  refine ⟨_, htss, ?_⟩
  rcases hmarked with rfl | rfl <;> rw [decode_segmentEntry]
  · show decide ((0x89 : BitVec 8) &&& 0x18 = 0x18) = false
    decide
  · show decide ((0x8B : BitVec 8) &&& 0x18 = 0x18) = false
    decide

/-- Marking the descriptor at index 5 is a store of one byte. -/
theorem GdtAt.mark_five {gdt : Gdt} {a : U64} (h : GdtAt m a gdt) (access : BitVec 8) :
    GdtAt (write8 m (gdtSlot a 5 + 5) access) a
      (Function.update gdt 5 { gdt 5 with access := access }) := by
  have hlen := length_gdtBytes gdt
  have hbytes : gdtBytes (Function.update gdt 5 { gdt 5 with access := access }) =
      (gdtBytes gdt).set 45 access := rfl
  have haddr : gdtSlot a 5 + 5 = a + BitVec.ofNat 64 45 := by
    rw [gdtSlot, BitVec.add_assoc]
    rfl
  rw [GdtAt, hbytes, haddr]
  exact BytesAt.set h (by rw [hlen]; decide) (by rw [hlen]; decide) access

/-- The descriptor of a TSS that nothing has loaded yet is the one that `tss_init` wrote. -/
theorem tss_of_free {gdt gdt' : Gdt} (h : GdtAt m k.gdt gdt')
    (hmarked : ∀ i, (tssInitGdt k (gdtInit gdt) i).Marked (gdt' i))
    (hfree : (tssAt m k.gdt 5).access = 0x89) :
    gdt' 5 = segmentEntry k.tss 103 0x89 0 ∧ gdt' 6 = tssHighEntry k.tss ∧
      tssAt m k.gdt 5 = .decode (gdt' 5).word (gdt' 6).word := by
  have hhigh : gdt' 6 = tssHighEntry k.tss := by
    rcases hmarked 6 with heq | ⟨hpresent, -⟩
    · exact heq
    · exact absurd hpresent (show ¬ (0 : BitVec 8).getLsbD 7 = true by decide)
  have hread : tssAt m k.gdt 5 = .decode (gdt' 5).word (gdt' 6).word := by
    have hlow := h.read64 5
    have hnext := h.read64 6
    change TssSegment.decode (read64 m (gdtSlot k.gdt 5)) (read64 m (gdtSlot k.gdt 6)) = _
    rw [← hlow, ← hnext]
    rfl
  refine ⟨?_, hhigh, hread⟩
  have hfive := hmarked 5
  rw [tssInitGdt_five, marked_tss_iff] at hfive
  rcases hfive with heq | heq
  · exact heq
  · rw [hread, heq, hhigh, decode_tss] at hfree
    exact absurd hfree (show ¬ (0x8B : BitVec 8) = 0x89 by decide)

/-- Marking the TSS as busy leaves the tables in order. -/
theorem TablesIn.mark_busy {gdt gdt' : Gdt} (h : TablesIn k img tss m) (hgdt : GdtAt m k.gdt gdt')
    (hmarked : ∀ i, (tssInitGdt k (gdtInit gdt) i).Marked (gdt' i))
    (hlow : gdt' 5 = segmentEntry k.tss 103 0x89 0) :
    TablesIn k img tss (write8 m (gdtSlot k.gdt 5 + 5) 0x8B) := by
  obtain ⟨-, htss, ⟨idt, hidt⟩⟩ := h
  have haddr : gdtSlot k.gdt 5 + 5 = k.gdt + 45 := by
    rw [gdtSlot, BitVec.add_assoc]
    rfl
  refine ⟨⟨gdt, _, fun i => ?_, hgdt.mark_five 0x8B⟩, htss.congr fun x hx => ?_,
    ⟨idt, hidt.congr (by decide) fun x hx => ?_⟩⟩
  · by_cases hi : i = 5
    · subst hi
      rw [Function.update_self, tssInitGdt_five, hlow]
      exact marked_tss_iff.mpr (.inr rfl)
    · rw [Function.update_of_ne hi]
      exact hmarked i
  · have hapart := k.tss_apart
    rw [haddr, write8, if_neg (by bv_omega)]
  · have hapart := k.idt_apart
    rw [haddr, write8, if_neg (by bv_omega)]

/-- `tss_flush` loads the TSS of `gdt.c`, if nothing has loaded it before. -/
theorem TablesIn.ltr (h : TablesIn k img tss m) (hfree : (tssAt m k.gdt 5).access = 0x89) :
    ∃ m', X86.ltr m (flushedRegs k) 0x28 = some (bootRegs k, m') ∧ TablesIn k img tss m' := by
  obtain ⟨gdt, gdt', hmarked, hgdt⟩ := h.gdt
  obtain ⟨hlow, hhigh, hread⟩ := tss_of_free hgdt hmarked hfree
  have hdecode : TssSegment.decode
      (read64 m ((flushedRegs k).gdtBase + BitVec.ofNat 64 (8 * selectorIndex 0x28)))
      (read64 m ((flushedRegs k).gdtBase + BitVec.ofNat 64 (8 * selectorIndex 0x28) + 8)) =
        tssAt m k.gdt 5 := by
    have hnext : gdtSlot k.gdt 5 + 8 = gdtSlot k.gdt (5 + 1) := by
      rw [gdtSlot, gdtSlot, BitVec.add_assoc]
      rfl
    change TssSegment.decode (read64 m (gdtSlot k.gdt 5)) (read64 m (gdtSlot k.gdt 5 + 8)) = _
    rw [hnext]
    rfl
  have hle : 8 * selectorIndex 0x28 + 15 ≤ (flushedRegs k).gdtLimit.toNat := by
    show 8 * 5 + 15 ≤ 79
    decide
  refine ⟨write8 m (gdtSlot k.gdt 5 + 5) 0x8B, ?_, h.mark_busy hgdt hmarked hlow⟩
  rw [X86.ltr, if_neg (by decide), if_pos hle]
  simp only [hdecode, hread, hlow, hhigh, decode_tss]
  rw [if_pos (by decide)]
  rfl

/-- The stack for ring 0 is the one last set. -/
theorem TablesIn.rsp0 (h : TablesIn k img tss m) : tssRsp0 m (bootRegs k) = tss.rsp0 := by
  have hbytes : BytesAt m k.tss (le32 tss.reserved0 ++ (le64 tss.rsp0 ++ _)) := h.tss
  have hread := read64_le32 hbytes.append_right.append_left
  change read64 m (k.tss + 4) = _ at hread
  change read64 m (k.tss + 4) = _
  rw [hread, BitVec.extractLsb'_append_extractLsb'_eq_extractLsb' (by rfl)]
  exact BitVec.extractLsb'_eq_self

/-- The bytes of the three tables. -/
def tableArea (k : KernelTables) : Set U64 :=
  {x | (x - k.gdt).toNat < 80 ∨ (x - k.tss).toNat < 104 ∨ (x - k.idt).toNat < 512}

theorem TablesIn.congr (h : TablesIn k img tss m) {m' : Mem}
    (hsame : ∀ x ∈ tableArea k, m' x = m x) : TablesIn k img tss m' := by
  obtain ⟨⟨gdt, gdt', hmarked, hgdt⟩, htss, ⟨idt, hidt⟩⟩ := h
  exact ⟨⟨gdt, gdt', hmarked, hgdt.congr (by decide) fun x hx => hsame x (.inl hx)⟩,
    htss.congr fun x hx => hsame x (.inr (.inl hx)),
    ⟨idt, hidt.congr (by decide) fun x hx => hsame x (.inr (.inr hx))⟩⟩

/-- Some addresses for the tables. -/
def KernelTables.sample : KernelTables where
  gdt := 0xffffffff80400000
  tss := 0xffffffff80401000
  idt := 0xffffffff80402000
  kernelStack := 0xffffffff80410000
  interruptStack := 0xffffffff80412000
  tss_apart := by decide
  idt_apart := by decide

def sampleGdt : Gdt := fun _ => segmentEntry 0 0 0 0

def sampleIdt : Idt := fun _ => gateEntry 0 0 0

/-- A memory with the tables at those addresses and zeros elsewhere. -/
def gdtMem : Mem :=
  overlay (fun _ => 0) KernelTables.sample.gdt (gdtBytes (tssInitGdt .sample (gdtInit sampleGdt)))

@[inherit_doc gdtMem]
def tssMem : Mem := overlay gdtMem KernelTables.sample.tss (tssInit .sample).bytes

@[inherit_doc gdtMem]
def bootMem : Mem := overlay tssMem KernelTables.sample.idt (idtBytes (idtInit .sample sampleIdt))

theorem gdtAt_bootMem :
    GdtAt bootMem KernelTables.sample.gdt (tssInitGdt .sample (gdtInit sampleGdt)) := by
  have hidtLen := length_idtBytes (idtInit .sample sampleIdt)
  have htssLen : (tssInit .sample).bytes.length = 104 := TssEntry.length_bytes _
  have hgdt : GdtAt gdtMem KernelTables.sample.gdt _ := gdtAt_overlay (by decide) _ _ _
  refine hgdt.congr (by decide) fun x hx => ?_
  simp only [KernelTables.sample] at hx
  rw [bootMem, overlay_outside, tssMem, overlay_outside]
  · rw [htssLen]
    simp only [KernelTables.sample]
    bv_omega
  · rw [hidtLen]
    simp only [KernelTables.sample]
    bv_omega

theorem tablesIn_bootMem : TablesIn .sample .sample (tssInit .sample) bootMem := by
  have hidtLen := length_idtBytes (idtInit .sample sampleIdt)
  have htssLen : (tssInit .sample).bytes.length = 104 := TssEntry.length_bytes _
  have htss : TssAt tssMem KernelTables.sample.tss _ :=
    bytesAt_overlay _ _ (by rw [htssLen]; decide)
  have hidt : IdtAt bootMem KernelTables.sample.idt _ := idtAt_overlay (by decide) _ _ _
  refine ⟨⟨_, _, fun _ => .inl rfl, gdtAt_bootMem⟩, htss.congr fun x hx => ?_, ⟨_, hidt⟩⟩
  simp only [KernelTables.sample] at hx
  refine overlay_outside _ ?_
  rw [hidtLen]
  simp only [KernelTables.sample]
  bv_omega

/-! ## Entering user mode -/

def rflagsRf : U64 := 1 <<< 16

/-- `clean_rflags`. The complement is taken in 32 bits, which also drops the upper
half. -/
def cleanRflags (rflags : U64) : U64 :=
  (rflags ||| rflagsIf ||| rflagsRf) &&& (~~~(1 <<< 8 : BitVec 32)).setWidth 64

/-- `enter_user` up to its `IRETQ`. The debug registers are not part of the model. -/
def enterUser (c : Cpu) (rip rsp rflags : U64) : Cpu :=
  let alignedRsp := rsp &&& ~~~0xF
  -- `IA32_DEBUGCTL`
  runOps { c with msr := writeMsr c.msr 0x1D9 0 }
    [.movImm .rax alignedRsp, .pushImm ((udataSel ||| 3).setWidth 64), .instr (.push .rax),
      .pushImm (cleanRflags rflags), .pushImm ((ucodeSel ||| 3).setWidth 64), .pushImm rip]

/-- The program that the frame of `enter_user` describes. -/
def enteredUser (c : Cpu) (rip rsp rflags : U64) : Cpu :=
  { c.set .rsp (rsp &&& ~~~0xF) with
    rip := rip, rflags := cleanRflags rflags, cs := 0x1B, ss := 0x23 }

theorem enterUser_stackTop (c : Cpu) (rip rsp rflags : U64) :
    (enterUser c rip rsp rflags).StackTop (frameWords (enteredUser c rip rsp rflags)) := by
  have hnil : Cpu.StackTop
      (({ c with msr := writeMsr c.msr 0x1D9 0 } : Cpu).set .rax (rsp &&& ~~~0xF)) [] :=
    trivial
  exact ((((hnil.pushWord _ (by simp)).pushWord _ (by simp)).pushWord _ (by simp)).pushWord _
    (by simp)).pushWord _ (by simp)

theorem enterUser_mem_outside (c : Cpu) (rip rsp rflags : U64) {x : U64}
    (hx : x ∉ stackArea (c.reg .rsp) 5) : (enterUser c rip rsp rflags).mem x = c.mem x :=
  pushedMem_outside c.mem (c.reg .rsp) [(udataSel ||| 3).setWidth 64, rsp &&& ~~~0xF,
    cleanRflags rflags, (ucodeSel ||| 3).setWidth 64, rip] (by simp) hx

theorem enterUser_reg (c : Cpu) (rip rsp rflags : U64) {r : Reg} (hax : r ≠ .rax) (hsp : r ≠ .rsp) :
    (enterUser c rip rsp rflags).reg r = c.reg r := by
  simp [enterUser, execOp, exec, hax, hsp]

theorem enterUser_rsp (c : Cpu) (rip rsp rflags : U64) :
    (enterUser c rip rsp rflags).reg .rsp = c.reg .rsp - 40 := by
  change c.reg .rsp - 8 - 8 - 8 - 8 - 8 = _
  bv_omega

/-- A frame with the user's selectors is accepted. -/
theorem TablesIn.iretq_accepted {u : Cpu} (h : TablesIn k img tss d.mem)
    (hframe : d.StackTop (frameWords u)) (hcs : u.cs = 0x1B) (hss : u.ss = 0x23)
    (hrip : canonical u.rip) : iretqProtected (bootRegs k) d = some (iretqLoaded d) := by
  obtain ⟨hrip', hcs', hss', -, -⟩ := iretqLoaded_frame hframe
  obtain ⟨-, code, hcode, hcodeOk⟩ := h.code
  obtain ⟨-, stack, hstack, hstackOk⟩ := h.stack
  have hcs'' : (iretqLoaded d).cs = 0x1B := hcs'.trans hcs
  have hss'' : (iretqLoaded d).ss = 0x23 := hss'.trans hss
  have hring : rpl (iretqLoaded d).cs = 3 := by
    rw [hcs'']
    rfl
  rw [← hcs''] at hcode
  rw [← hss''] at hstack
  rw [← hring] at hcodeOk hstackOk
  refine iretqProtected_accepted hcode hstack ?_ ?_ hcodeOk hstackOk (by rwa [hrip'])
  · rw [hss'']
    decide
  · rw [hss'', hcs'']
    rfl

/-- **Boot's tables let the kernel into user mode.** Whatever the tables held before
boot: the selectors that `gdt_flush` and `tss_flush` load are accepted by the processor,
the latter's as long as the TSS is marked available, and `tss_flush` leaves the tables in
order. From there on `enter_user` reaches ring 3 at the given address for any stack
pointer and flags, with the stack aligned, interrupts on and single-stepping off. All other
registers go along with what the kernel had in them. The kernel's stack is apart from the
tables. -/
theorem enter_user_reaches_user_mode (h : TablesIn k img tss m) :
    (∃ s, X86.segmentOf m (bootRegs k) kcodeSel = some s ∧ s.admitsCode 0) ∧
    (∃ s, X86.segmentOf m (bootRegs k) kdataSel = some s ∧ s.admitsStack 0) ∧
    ((tssAt m k.gdt 5).access = 0x89 →
      ∃ m', X86.ltr m (flushedRegs k) tssSel = some (bootRegs k, m') ∧ TablesIn k img tss m') ∧
    ∀ c : Cpu, TablesIn k img tss c.mem → (∀ x ∈ tableArea k, x ∉ stackArea (c.reg .rsp) 5) →
      ∀ rip rsp rflags, canonical rip →
        ∃ user, iretqProtected (bootRegs k) (enterUser c rip rsp rflags) = some user ∧
          user.cs = ucodeSel ||| 3 ∧ user.ss = udataSel ||| 3 ∧ user.rip = rip ∧
          user.reg .rsp = rsp &&& ~~~0xF ∧
          user.rflags.getLsbD 9 = true ∧ user.rflags.getLsbD 8 = false ∧
          ∀ r, r ≠ .rax → r ≠ .rsp → user.reg r = c.reg r := by
  refine ⟨h.code.1, h.stack.1, h.ltr, fun c hc hstack rip rsp rflags hrip => ?_⟩
  have hframe := enterUser_stackTop c rip rsp rflags
  have htables : TablesIn k img tss (enterUser c rip rsp rflags).mem :=
    hc.congr fun x hx => enterUser_mem_outside c rip rsp rflags (hstack x hx)
  obtain ⟨hrip', hcs, hss, hrsp, hflags⟩ := iretqLoaded_frame hframe
  refine ⟨_, htables.iretq_accepted hframe rfl rfl hrip, hcs, hss, hrip', ?_, ?_, ?_,
    fun r hax hsp => ?_⟩
  · rw [hrsp]
    simp [enteredUser]
  · rw [hflags]
    simp [enteredUser, cleanRflags, rflagsIf, rflagsRf, iretFlags]
  · rw [hflags]
    simp [enteredUser, cleanRflags, rflagsIf, rflagsRf, iretFlags]
  · rw [← enterUser_reg c rip rsp rflags hax hsp]
    exact iretq_reg _ hsp

/-- The kernel with its tables in memory, about to enter a user process. -/
def bootCpu : Cpu where
  reg
    | .rsp => 0xffffffff80420000
    | _ => 7
  rip := kernelVmaBase
  rflags := 2
  cs := 0x08
  ss := 0x10
  msr := setupSyscallMsrs .sample fun _ => 0
  mem := bootMem

theorem tableArea_stackArea {x sp : U64} {n : ℕ} (hx : x ∈ tableArea .sample)
    (hsp : 0xffffffff80410000 ≤ sp.toNat) (hn : n < 256) : x ∉ stackArea sp n := by
  intro hin
  rw [stackArea, Set.mem_ofPred_eq] at hin
  simp only [tableArea, KernelTables.sample, Set.mem_ofPred_eq] at hx
  bv_omega

/-- After `tss_flush`. -/
theorem bootCpu_enters_process :
    ∃ m' user, X86.ltr bootMem (flushedRegs .sample) tssSel = some (bootRegs .sample, m') ∧
      iretqProtected (bootRegs .sample)
        (enterUser { bootCpu with mem := m' } 0x10000 0x802000 0x202) = some user ∧
      user.cs = 0x1B ∧ user.ss = 0x23 ∧ user.rip = 0x10000 ∧ user.reg .rsp = 0x802000 ∧
      user.reg .rbx = 7 := by
  have hfree : (tssAt bootMem KernelTables.sample.gdt 5).access = 0x89 := by
    have htss : tssAt bootMem KernelTables.sample.gdt (5 : Fin 9) = _ := gdtAt_bootMem.tssAt_set
    exact congrArg TssSegment.access htss
  have hsp : 0xffffffff80410000 ≤ (bootCpu.reg .rsp).toNat := by decide
  obtain ⟨-, -, hflush, henter⟩ := enter_user_reaches_user_mode tablesIn_bootMem
  obtain ⟨m', hltr, htables⟩ := hflush hfree
  obtain ⟨user, hret, hcs, hss, hrip, hrsp, -, -, hreg⟩ :=
    henter { bootCpu with mem := m' } htables
      (fun x hx => tableArea_stackArea hx hsp (by decide)) 0x10000 0x802000 0x202 (by decide)
  exact ⟨m', user, hltr, hret, hcs, hss, hrip, hrsp, hreg .rbx (by decide) (by decide)⟩

/-! ## Exceptions in user mode -/

/-- The gates that the processor finds are those of `idt_init`, -/
theorem TablesIn.gateOf (h : TablesIn k img tss m) (v : Fin 32) :
    ∃ idt, X86.gateOf m (bootRegs k) v = some (gateAt m k.idt v) ∧
      IdtAt m k.idt (idtInit img idt) := by
  obtain ⟨idt, hidt⟩ := h.idt
  have hle : 16 * (v : ℕ) + 15 ≤ (bootRegs k).idtLimit.toNat := by
    change 16 * (v : ℕ) + 15 ≤ 511
    omega
  exact ⟨idt, gateOf_eq hle, hidt⟩

/-- open to ring 0 only. -/
theorem TablesIn.gateOf_gate (h : TablesIn k img tss m) {v : Fin 32} {stub : FaultStub}
    (hv : (v, stub) ∈ faultGates) :
    ∃ gate, X86.gateOf m (bootRegs k) v = some gate ∧ gate.offset = img.address stub ∧
      gate.selector = 0x08 ∧ gate.typeAttr = 0x8E ∧ gate.ist = 0 := by
  obtain ⟨idt, hgate, hidt⟩ := h.gateOf v
  refine ⟨_, hgate, ?_⟩
  rw [hidt.gate, idtInit_of_mem idt hv, offset_gateEntry]
  exact ⟨rfl, rfl, rfl, rfl⟩

/-- A vector with a gate is delivered to its stub. -/
theorem TablesIn.deliver_gate (h : TablesIn k img tss c.mem) {v : Fin 32} {stub : FaultStub}
    (hv : (v, stub) ∈ faultGates) (err : Option U64) :
    deliver (bootRegs k) c v err = some (interrupt c tss.rsp0 0x08 (img.address stub) err) := by
  obtain ⟨⟨code, hcode, hcodeOk⟩, -⟩ := h.code
  obtain ⟨gate, hgate, hoffset, hselector, htype, hist⟩ := h.gateOf_gate hv
  simp only [deliver, hgate, hselector, htype, hist, hcode, h.rsp0, hoffset]
  rw [if_pos (by decide), if_pos hcodeOk]

/-- A vector without one is not. -/
theorem TablesIn.deliver_no_gate (h : TablesIn k img tss c.mem) {v : ℕ}
    (hv : ∀ g ∈ faultGates, (g.1 : ℕ) ≠ v) (err : Option U64) :
    deliver (bootRegs k) c v err = none := by
  by_cases hlt : v < 32
  · obtain ⟨idt, hgate, hidt⟩ := h.gateOf ⟨v, hlt⟩
    have htype : (gateAt c.mem k.idt v).typeAttr = 0 := by
      have hentry := hidt.gate ⟨v, hlt⟩
      rw [idtInit_of_ne idt (fun g hg heq => hv g hg (congrArg Fin.val heq))] at hentry
      exact congrArg Gate.typeAttr hentry
    simp only [deliver, hgate, htype]
    rw [if_neg]
    rintro ⟨habs, -⟩
    exact absurd habs (by decide)
  · have hbeyond : X86.gateOf c.mem (bootRegs k) v = none := by
      refine if_neg ?_
      change ¬ 16 * v + 15 ≤ 511
      omega
    simp only [deliver, hbeyond]

/-- `INT3` in a program outside ring 0 is refused. -/
theorem TablesIn.int3_refused (h : TablesIn k img tss c.mem) (hring : rpl c.cs ≠ 0) :
    int3 (bootRegs k) c = deliver (bootRegs k) c 13 (some (gateError 3)) := by
  obtain ⟨gate, hgate, -, -, htype, -⟩ :=
    h.gateOf_gate (v := 3) (show (3, .genericFaultHandler) ∈ faultGates by decide)
  have hdpl : gate.dpl = 0 := by
    rw [Gate.dpl, htype]
    decide
  have hclosed : ¬ rpl c.cs ≤ gate.dpl := by
    rw [hdpl]
    exact fun hle => hring (BitVec.le_zero_iff.mp hle)
  have hgate' : X86.gateOf c.mem (bootRegs k) 3 = some gate := hgate
  simp only [int3, hgate', if_neg hclosed]

/-- Code in state `c` was stopped with the stub `stub` about to run in the kernel: with
interrupts and single-stepping off, the context of `c` on top of the stack, and no memory
changed but six words below the stack pointer in the TSS. -/
structure StoppedAt (img : FaultImage) (tss : TssEntry) (c : Cpu) (stub : FaultStub)
    (err : Option U64) (e : Cpu) : Prop where
  cs : e.cs = kcodeSel
  rip : e.rip = img.address stub
  interrupts : e.rflags.getLsbD 9 = false
  singleStep : e.rflags.getLsbD 8 = false
  frame : e.StackTop (err.toList ++ frameWords c)
  mem : ∀ x, x ∉ stackArea (getKernelStack tss &&& ~~~15) 6 → e.mem x = c.mem x

theorem stoppedAt_interrupt (hring : rpl c.cs ≠ 0) (stub : FaultStub) (err : Option U64) :
    StoppedAt img tss c stub err (interrupt c tss.rsp0 0x08 (img.address stub) err) := by
  have hmask : ¬ c.cs &&& 3 = 0 := by
    intro hzero
    apply hring
    have hbits := congrArg (BitVec.extractLsb' 0 2) hzero
    rw [BitVec.extractLsb'_and] at hbits
    have hthree : (3 : BitVec 16).extractLsb' 0 2 = BitVec.allOnes 2 := by decide
    rw [hthree, BitVec.and_allOnes] at hbits
    exact hbits
  have hstack : interruptStack c tss.rsp0 = getKernelStack tss &&& ~~~15 := by
    rw [interruptStack, if_neg hmask, getKernelStack]
  refine ⟨rfl, rfl, ?_, ?_, interrupt_stackTop _ _ _ _ _, fun x hx => ?_⟩
  · simp [interrupt, interruptGateClears]
  · simp [interrupt, interruptGateClears]
  · rw [interrupt_mem, hstack]
    refine pushedMem_outside _ _ _ ?_ fun hin => hx ?_
    · cases err <;> simp
    · cases err with
      | none => exact stackArea_mono (by simp) hin
      | some e => exact hin

/-- **Exceptions of user code run on the kernel's stack.** While the tables are as boot
left them, from any state of code outside ring 0: an exception that the processor raises
is delivered exactly if `idt_init` has set a gate for its vector, and to that gate's stub.
`INT3` gets the program a general protection fault, as the gate is not open to it. Either
way the stub runs on the stack that `tss_init` or `set_kernel_stack` put into the TSS. -/
theorem user_exceptions_on_kernel_stack (h : TablesIn k img tss c.mem) (hring : rpl c.cs ≠ 0) :
    (∀ (v : ℕ) (err : Option U64), v ≠ 3 →
      (deliver (bootRegs k) c v err = none ↔ ∀ g ∈ faultGates, (g.1 : ℕ) ≠ v) ∧
      ∀ e, deliver (bootRegs k) c v err = some e →
        ∃ g ∈ faultGates, (g.1 : ℕ) = v ∧ StoppedAt img tss c g.2 err e) ∧
    ∃ e, int3 (bootRegs k) c = some e ∧ StoppedAt img tss c .isr13 (some 0x1A) e := by
  refine ⟨fun v err _ => ?_, ?_⟩
  · by_cases hgate : ∀ g ∈ faultGates, (g.1 : ℕ) ≠ v
    · rw [h.deliver_no_gate hgate]
      exact ⟨⟨fun _ => hgate, fun _ => rfl⟩, fun _ habs => by cases habs⟩
    · push Not at hgate
      obtain ⟨⟨v', stub⟩, hmem, rfl⟩ := hgate
      rw [h.deliver_gate hmem]
      refine ⟨⟨fun habs => (by cases habs), fun hno => absurd rfl (hno _ hmem)⟩, ?_⟩
      rintro e he
      obtain rfl := Option.some.inj he
      exact ⟨_, hmem, rfl, stoppedAt_interrupt hring stub err⟩
  · have hgp := h.deliver_gate (show (13, .isr13) ∈ faultGates by decide) (some (gateError 3))
    exact ⟨_, (h.int3_refused hring).trans hgp, stoppedAt_interrupt hring .isr13 _⟩

/-- A page fault and a breakpoint of a user process. -/
theorem page_fault_on_kernel_stack :
    (∃ e, deliver (bootRegs .sample) { sampleUser with mem := bootMem } 14 (some 4) = some e ∧
      e.cs = 0x08 ∧ e.StackTop (4 :: frameWords { sampleUser with mem := bootMem })) ∧
    ∃ e, int3 (bootRegs .sample) { sampleUser with mem := bootMem } = some e ∧
      e.StackTop (0x1A :: frameWords { sampleUser with mem := bootMem }) := by
  obtain ⟨hraised, e', hint3, hstopped'⟩ :=
    user_exceptions_on_kernel_stack (c := { sampleUser with mem := bootMem }) tablesIn_bootMem
      (by decide)
  obtain ⟨hnone, hsome⟩ := hraised 14 (some 4) (by decide)
  have hdelivered :
      deliver (bootRegs .sample) { sampleUser with mem := bootMem } 14 (some 4) ≠ none :=
    fun habs => hnone.mp habs (14, .isr14) (by decide) rfl
  obtain ⟨e, he⟩ := Option.ne_none_iff_exists'.mp hdelivered
  obtain ⟨g, -, -, hstopped⟩ := hsome e he
  exact ⟨⟨e, he, hstopped.cs, hstopped.frame⟩, e', hint3, hstopped'.frame⟩

/-! ## Runs of user code -/

inductive UserEvent where
  | instr (i : Instr)
  | debug
  | syscall
deriving DecidableEq

variable (k img tss) (simg : SyscallImage)

/-- A debug exception in `c` whose handler returned, up to the `IRETQ` of `isr_1`. -/
def DebugHandled (c d : Cpu) : Prop :=
  TablesIn k img tss c.mem ∧ ∃ c', HandlerReturns 8 (handlerEntry img .isr1 c tss.rsp0 none) c' ∧
    TablesIn k img tss c'.mem ∧ d = runOps c' FaultStub.isr1.leave

inductive UserStep : Cpu → UserEvent → Cpu → Prop
  | instr (c : Cpu) (i : Instr) : UserStep c (.instr i) (exec c i)
  | debug {c d u : Cpu} : DebugHandled k img tss c d → iretqProtected (bootRegs k) d = some u →
    UserStep c .debug u
  | syscall {c u : Cpu} : SyscallReturns simg c u → UserStep c .syscall u

/-- What the kernel relies on in a user's selectors and MSRs, when system calls were
made or not. -/
structure UserContext (called : Bool) (u : Cpu) : Prop where
  cs : u.cs = if called then 0x2B else 0x1B
  ss : u.ss = 0x23
  star : u.msr msrStar = syscallStar

variable {k img tss simg} {u : Cpu} {es : List UserEvent} {e : UserEvent} {called : Bool}

theorem DebugHandled.frame (h : DebugHandled k img tss c d) :
    d.StackTop (frameWords c) ∧ d.msr = c.msr ∧ TablesIn k img tss d.mem := by
  obtain ⟨-, c', hret, htables, rfl⟩ := h
  refine ⟨(isr1_leave (hret.stackTop rfl isr1_stackTop)).1, ?_, ?_⟩
  · have hmsr : c'.msr = c.msr := hret.msr.trans rfl
    rw [← hmsr]
    rfl
  · exact htables

theorem syscallReturns_msr (h : SyscallReturns simg c u) : u.msr = c.msr := by
  obtain ⟨c', hret, rfl⟩ := h
  have hmsr : c'.msr = c.msr := by
    rw [hret.msr, dispatchEntry, run_msr, onKernelStack, run_msr]
    rfl
  rw [← hmsr, syscallReturn, sysretq, run_msr]

theorem UserContext.step (hc : UserContext called c) (h : UserStep k img tss simg c e u) :
    UserContext (called || e = .syscall) u := by
  cases h with
  | instr i =>
    simp only [reduceCtorEq, decide_false, Bool.or_false]
    exact ⟨by rw [exec_cs, hc.cs], by rw [exec_ss, hc.ss], by rw [exec_msr, hc.star]⟩
  | debug hd hret =>
    obtain ⟨hframe, hmsr, -⟩ := hd.frame
    obtain ⟨-, hcs, hss, -, -⟩ := iretqLoaded_frame hframe
    obtain rfl := eq_iretqLoaded hret
    simp only [reduceCtorEq, decide_false, Bool.or_false]
    refine ⟨hcs.trans hc.cs, hss.trans hc.ss, ?_⟩
    rw [← hc.star, ← hmsr]
    rfl
  | syscall hret =>
    obtain ⟨hcs, hss⟩ := hret.selectors
    rw [hc.star] at hcs hss
    simp only [decide_true, Bool.or_true]
    exact ⟨hcs, hss, by rw [syscallReturns_msr hret, hc.star]⟩

theorem UserContext.run (hc : UserContext called c)
    (h : Runs.Reach (UserStep k img tss simg) c es u) :
    UserContext (called || decide (.syscall ∈ es)) u := by
  induction h generalizing called with
  | nil c => simpa using hc
  | cons hstep _ ih => simpa [eq_comm, Bool.or_assoc] using ih (hc.step hstep)

theorem enterUser_context {user : Cpu} {rip rsp rflags : U64} {msr : U32 → U64}
    (hmsr : c.msr = setupSyscallMsrs simg msr)
    (hentered : iretqProtected (bootRegs k) (enterUser c rip rsp rflags) = some user) :
    UserContext false user := by
  obtain ⟨-, hcs, hss, -, -⟩ := iretqLoaded_frame (enterUser_stackTop c rip rsp rflags)
  obtain rfl := eq_iretqLoaded hentered
  have hstar : (iretqLoaded (enterUser c rip rsp rflags)).msr = writeMsr c.msr 0x1D9 0 := rfl
  refine ⟨hcs, hss, ?_⟩
  rw [hstar, hmsr]
  rfl

/-- The stub and the processor push nine words on the stack of the exception. -/
theorem isr1_entry_mem_outside {rsp0 x : U64} (hx : x ∉ stackArea (interruptStack c rsp0) 9) :
    (handlerEntry img .isr1 c rsp0 none).mem x = c.mem x :=
  pushedMem_outside c.mem (interruptStack c rsp0) [c.ss.setWidth 64, c.reg .rsp, c.rflags,
    c.cs.setWidth 64, c.rip, 0, c.reg .rax, c.reg .rdi, img.afterCall .isr1] (by simp) hx

end Myria.Arch
