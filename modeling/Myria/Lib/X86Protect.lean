import Myria.Lib.X86Descriptor
import Myria.Lib.X86Frame

/-! Protection in 64-bit mode. The processor reads descriptors from the tables its
registers point to, and checks them when it loads a selector: on delivery of an
exception to a handler in ring 0, and on an `IRETQ` from there. A check that fails is
`none`, where the real processor raises an exception instead. The processor also sets
the accessed bit of a segment that it loads, which no check looks at and which is left
out. -/
namespace X86

open ByteMem

/-- GDTR, IDTR and the base address in the task register. -/
structure TableRegs where
  gdtBase : BitVec 64
  gdtLimit : BitVec 16
  idtBase : BitVec 64
  idtLimit : BitVec 16
  tssBase : BitVec 64
deriving DecidableEq, Repr

/-! ## Selectors and descriptors -/

/-- The requested privilege level of a selector, which in CS is the current one. -/
def rpl (sel : BitVec 16) : BitVec 2 := sel.extractLsb' 0 2

def isNull (sel : BitVec 16) : Prop := sel &&& 0xFFFC = 0

instance (sel : BitVec 16) : Decidable (isNull sel) := inferInstanceAs (Decidable (_ = _))

def selectorIndex (sel : BitVec 16) : Nat := (sel >>> 3).toNat

def Segment.present (s : Segment) : Bool := s.access.getLsbD 7

def Segment.dpl (s : Segment) : BitVec 2 := s.access.extractLsb' 5 2

/-- A code segment, as opposed to data and system segments. -/
def Segment.isCode (s : Segment) : Bool := s.access &&& 0x18 = 0x18

def Segment.isConforming (s : Segment) : Bool := s.access.getLsbD 2

def Segment.isWritableData (s : Segment) : Bool := s.access &&& 0x1A = 0x12

/-- The L flag is set and the D flag is not. -/
def Segment.isLong (s : Segment) : Bool := s.flags &&& 6 = 2

/-- The segment can be CS at privilege `level`, in 64-bit mode. -/
def Segment.admitsCode (s : Segment) (level : BitVec 2) : Prop :=
  s.present ∧ s.isCode ∧ s.isLong ∧ (if s.isConforming then s.dpl ≤ level else s.dpl = level)

instance (s : Segment) (level : BitVec 2) : Decidable (s.admitsCode level) :=
  inferInstanceAs (Decidable (_ ∧ _ ∧ _ ∧ ite _ _ _))

/-- The segment can be SS at privilege `level`. -/
def Segment.admitsStack (s : Segment) (level : BitVec 2) : Prop :=
  s.present ∧ s.isWritableData ∧ s.dpl = level

instance (s : Segment) (level : BitVec 2) : Decidable (s.admitsStack level) :=
  inferInstanceAs (Decidable (_ ∧ _ ∧ _))

/-- The descriptor a selector names, in the global table only. -/
def segmentOf (m : Mem) (t : TableRegs) (sel : BitVec 16) : Option Segment :=
  if isNull sel ∨ sel.getLsbD 2 then none
  else if 8 * selectorIndex sel + 7 ≤ t.gdtLimit.toNat then
    some (.decode (read64 m (t.gdtBase + BitVec.ofNat 64 (8 * selectorIndex sel))))
  else none

/-! ## Loading the tables -/

/-- `LTR` of a 64-bit TSS that is not busy. The processor marks it busy, in the access
byte of its descriptor. -/
def ltr (m : Mem) (t : TableRegs) (sel : BitVec 16) : Option (TableRegs × Mem) :=
  if isNull sel ∨ sel.getLsbD 2 then none
  else if 8 * selectorIndex sel + 15 ≤ t.gdtLimit.toNat then
    let address := t.gdtBase + BitVec.ofNat 64 (8 * selectorIndex sel)
    let tss := TssSegment.decode (read64 m address) (read64 m (address + 8))
    if tss.access &&& 0x9F = 0x89 then
      some ({ t with tssBase := tss.base }, write8 m (address + 5) (tss.access ||| 2))
    else none
  else none

/-- The stack pointer for ring 0 in the TSS. -/
def tssRsp0 (m : Mem) (t : TableRegs) : BitVec 64 := read64 m (t.tssBase + 4)

/-! ## Exceptions -/

/-- The gate of a vector, if the table reaches that far. -/
def gateOf (m : Mem) (t : TableRegs) (vector : Nat) : Option Gate :=
  if 16 * vector + 15 ≤ t.idtLimit.toNat then
    let address := t.idtBase + BitVec.ofNat 64 (16 * vector)
    some (.decode (read64 m address) (read64 m (address + 8)))
  else none

def Gate.dpl (g : Gate) : BitVec 2 := g.typeAttr.extractLsb' 5 2

/-- Delivery of an interrupt, or of an exception that the processor itself raises,
through an interrupt gate to a handler in ring 0: on the stack for ring 0 when the
processor is in another ring. The privilege level of the gate does not matter. -/
def deliver (t : TableRegs) (c : Cpu) (vector : Nat) (errorCode : Option (BitVec 64)) :
    Option Cpu :=
  match gateOf c.mem t vector with
  | none => none
  | some gate =>
    if gate.typeAttr &&& 0x9F = 0x8E ∧ gate.ist = 0 then
      match segmentOf c.mem t gate.selector with
      | none => none
      | some code =>
        if code.admitsCode 0 then
          some (interrupt c (tssRsp0 c.mem t) gate.selector gate.offset errorCode)
        else none
    else none

/-- The error code of a general protection fault at a gate. -/
def gateError (vector : Nat) : BitVec 64 := BitVec.ofNat 64 (8 * vector + 2)

/-- `INT3` at the address in `rip`. A program in a ring that the gate is not open to gets
a general protection fault instead. -/
def int3 (t : TableRegs) (c : Cpu) : Option Cpu :=
  match gateOf c.mem t 3 with
  | none => deliver t c 13 (some (gateError 3))
  | some gate =>
    if rpl c.cs ≤ gate.dpl then deliver t { c with rip := c.rip + 1 } 3 none
    else deliver t c 13 (some (gateError 3))

/-- Bits 47 to 63 are equal. -/
def canonical (a : BitVec 64) : Prop := a.extractLsb' 47 17 = 0 ∨ a.extractLsb' 47 17 = 0x1FFFF

instance (a : BitVec 64) : Decidable (canonical a) := inferInstanceAs (Decidable (_ ∨ _))

/-- The flags that `IRETQ` loads in ring 0. -/
def iretFlags : BitVec 64 := 0x3D7FD5

/-- What `IRETQ` loads in ring 0, before any check. -/
def iretqLoaded (c : Cpu) : Cpu :=
  { iretq c with rflags := (iretq c).rflags &&& iretFlags ||| 2 }

/-- `IRETQ` in ring 0 to 64-bit code. -/
def iretqProtected (t : TableRegs) (c : Cpu) : Option Cpu :=
  let new := iretqLoaded c
  match segmentOf c.mem t new.cs with
  | none => none
  | some code =>
    if code.admitsCode (rpl new.cs) ∧ canonical new.rip then
      -- only below ring 3 may the stack segment be null
      if isNull new.ss ∧ rpl new.cs ≠ 3 then
        if rpl new.ss = rpl new.cs then some new else none
      else
        match segmentOf c.mem t new.ss with
        | none => none
        | some stack =>
          if rpl new.ss = rpl new.cs ∧ stack.admitsStack (rpl new.cs) then some new else none
    else none

variable {t : TableRegs} {c : Cpu}

/-- The flags are some that `IRETQ` can load. -/
def Cpu.FlagsLoadable (c : Cpu) : Prop := c.rflags &&& iretFlags ||| 2 = c.rflags

instance (c : Cpu) : Decidable c.FlagsLoadable := inferInstanceAs (Decidable (_ = _))

theorem addStatus_and_iretFlags (a b : BitVec 64) :
    addStatus a b &&& iretFlags = addStatus a b := by
  have hbit : ∀ (p : Bool) {flag : BitVec 64}, flag &&& iretFlags = flag →
      (if p then flag else 0) &&& iretFlags = if p then flag else 0 := by
    intro p flag hflag
    cases p with
    | false => exact BitVec.zero_and
    | true => exact hflag
  simp only [addStatus, BitVec.and_or_distrib_right]
  rw [hbit _ (by decide), hbit _ (by decide), hbit _ (by decide), hbit _ (by decide),
    hbit _ (by decide), hbit _ (by decide)]

/-- Instructions change status flags only. -/
theorem Cpu.FlagsLoadable.exec (h : c.FlagsLoadable) (i : Instr) : (exec c i).FlagsLoadable := by
  cases i with
  | mov dst src => exact h
  | load dst addr => exact h
  | store addr src => exact h
  | push src => exact h
  | pop dst => exact h
  | add dst imm =>
    have hkept : (c.rflags &&& iretFlags ||| 2) &&& ~~~statusMask =
        c.rflags &&& ~~~statusMask &&& iretFlags ||| 2 := by
      rw [BitVec.and_or_distrib_right, BitVec.and_assoc, BitVec.and_comm iretFlags,
        ← BitVec.and_assoc]
      rfl
    change (c.rflags &&& ~~~statusMask ||| addStatus _ imm) &&& iretFlags ||| 2 =
      c.rflags &&& ~~~statusMask ||| addStatus _ imm
    rw [BitVec.and_or_distrib_right, addStatus_and_iretFlags, BitVec.or_assoc,
      BitVec.or_comm (addStatus _ imm), ← BitVec.or_assoc, ← hkept, h]
  | call target next => exact h

/-- Whatever the tables hold, a delivery is one through some gate on some stack. -/
theorem deliver_eq_interrupt {vector : Nat} {errorCode : Option (BitVec 64)} {e : Cpu}
    (h : deliver t c vector errorCode = some e) :
    ∃ rsp0 selector offset, e = interrupt c rsp0 selector offset errorCode := by
  simp only [deliver] at h
  split at h
  · cases h
  · split at h
    · split at h
      · cases h
      · split at h
        · exact ⟨_, _, _, (Option.some.inj h).symm⟩
        · cases h
    · cases h

/-- A return is accepted when both selectors name segments that fit the ring. -/
theorem iretqProtected_accepted {code stack : Segment}
    (hcode : segmentOf c.mem t (iretqLoaded c).cs = some code)
    (hstack : segmentOf c.mem t (iretqLoaded c).ss = some stack)
    (hnull : ¬ isNull (iretqLoaded c).ss)
    (hrpl : rpl (iretqLoaded c).ss = rpl (iretqLoaded c).cs)
    (hcodeOk : code.admitsCode (rpl (iretqLoaded c).cs))
    (hstackOk : stack.admitsStack (rpl (iretqLoaded c).cs)) (hrip : canonical (iretqLoaded c).rip) :
    iretqProtected t c = some (iretqLoaded c) := by
  simp only [iretqProtected, hcode, hstack]
  rw [if_pos ⟨hcodeOk, hrip⟩, if_neg (fun h => hnull h.1), if_pos ⟨hrpl, hstackOk⟩]

/-- A return through a selector of anything but code is refused. -/
theorem iretqProtected_not_code {s : Segment} (hs : segmentOf c.mem t (iretqLoaded c).cs = some s)
    (hcode : s.isCode = false) : iretqProtected t c = none := by
  have hno : ¬ (s.admitsCode (rpl (iretqLoaded c).cs) ∧ canonical (iretqLoaded c).rip) := by
    rintro ⟨⟨-, habs, -⟩, -⟩
    rw [hcode] at habs
    cases habs
  simp only [iretqProtected, hs]
  rw [if_neg hno]

theorem eq_iretqLoaded {d : Cpu} (h : iretqProtected t c = some d) : d = iretqLoaded c := by
  simp only [iretqProtected] at h
  split at h
  · cases h
  · split at h
    · split at h
      · split at h
        · exact (Option.some.inj h).symm
        · cases h
      · split at h
        · cases h
        · split at h
          · exact (Option.some.inj h).symm
          · cases h
    · cases h

theorem iretqLoaded_mem (c : Cpu) : (iretqLoaded c).mem = c.mem := rfl

theorem iretqLoaded_msr (c : Cpu) : (iretqLoaded c).msr = c.msr := rfl

/-- `IRETQ` takes up the frame of `c'`, up to the flags it does not load. -/
theorem iretqLoaded_frame {c' : Cpu} (h : c.StackTop (frameWords c')) :
    (iretqLoaded c).rip = c'.rip ∧ (iretqLoaded c).cs = c'.cs ∧ (iretqLoaded c).ss = c'.ss ∧
      (iretqLoaded c).reg .rsp = c'.reg .rsp ∧
      (iretqLoaded c).rflags = c'.rflags &&& iretFlags ||| 2 := by
  obtain ⟨hrip, hflags, hrsp⟩ := iretq_frame h
  obtain ⟨hcs, hss⟩ := iretq_frame_selectors h
  exact ⟨hrip, hcs, hss, hrsp, by rw [← hflags]; rfl⟩

end X86
