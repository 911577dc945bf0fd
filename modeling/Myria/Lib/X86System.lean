import Myria.Lib.X86

/-! Kernel stubs over the fragment of `X86`: operands relative to a register,
immediates, the flags and the segment selectors, and the delivery of an
exception with its `IRETQ`. The stack is read as a list of words, top first. -/
namespace X86

open ByteMem

inductive Seg where
  | cs | ss
deriving DecidableEq, Repr

def Cpu.seg (c : Cpu) : Seg → BitVec 16
  | .cs => c.cs
  | .ss => c.ss

inductive Op where
  | instr (i : Instr)
  | movImm (dst : Reg) (v : BitVec 64)
  | pushImm (v : BitVec 64)
  /-- `mov dst, [base + disp]` -/
  | loadAt (dst base : Reg) (disp : BitVec 64)
  /-- `mov [base + disp], src` -/
  | storeAt (base : Reg) (disp : BitVec 64) (src : Reg)
  /-- a 16-bit move into the low word of `dst` -/
  | movSeg (dst : Reg) (src : Seg)
  /-- a 16-bit store of the low word of `src` -/
  | store16 (base : Reg) (disp : BitVec 64) (src : Reg)
  | pushfq
  | popfq
  | cli
  | ret
deriving DecidableEq, Repr

def flagIf : BitVec 64 := 0x200

/-- What `PUSHFQ` stores: everything but RF and VM. -/
def pushfMask : BitVec 64 := 0xFCFFFF

/-- What `POPFQ` loads in kernel mode. VM, VIF and VIP stay, RF is cleared. -/
def popfMask : BitVec 64 := 0x247FD5
def popfKeep : BitVec 64 := 0x1A0000

def loadFlags (old image : BitVec 64) : BitVec 64 :=
  old &&& popfKeep ||| image &&& popfMask ||| 2

def write16 (m : Mem) (a : BitVec 64) (v : BitVec 16) : Mem :=
  write8 (write8 m a (v.extractLsb' 0 8)) (a + 1) (v.extractLsb' 8 8)

def execOp (c : Cpu) : Op → Cpu
  | .instr i => exec c i
  | .movImm dst v => c.set dst v
  | .pushImm v => c.pushWord v
  | .loadAt dst base disp => c.set dst (read64 c.mem (c.reg base + disp))
  | .storeAt base disp src => { c with mem := write64 c.mem (c.reg base + disp) (c.reg src) }
  | .movSeg dst src => c.set dst ((c.reg dst).extractLsb' 16 48 ++ c.seg src)
  | .store16 base disp src =>
    { c with mem := write16 c.mem (c.reg base + disp) ((c.reg src).extractLsb' 0 16) }
  | .pushfq => c.pushWord (c.rflags &&& pushfMask)
  | .popfq =>
    { c.set .rsp (c.reg .rsp + 8) with
      rflags := loadFlags c.rflags (read64 c.mem (c.reg .rsp)) }
  | .cli => { c with rflags := c.rflags &&& ~~~flagIf }
  | .ret => { c.set .rsp (c.reg .rsp + 8) with rip := read64 c.mem (c.reg .rsp) }

def runOps (c : Cpu) (code : List Op) : Cpu := code.foldl execOp c

@[simp] theorem runOps_nil (c : Cpu) : runOps c [] = c := rfl

@[simp] theorem runOps_cons (c : Cpu) (o : Op) (code : List Op) :
    runOps c (o :: code) = runOps (execOp c o) code := rfl

theorem runOps_append (c : Cpu) (code code' : List Op) :
    runOps c (code ++ code') = runOps (runOps c code) code' := List.foldl_append

@[simp] theorem Cpu.set_rflags (c : Cpu) (r : Reg) (v : BitVec 64) :
    (c.set r v).rflags = c.rflags := rfl

@[simp] theorem Cpu.pushWord_rflags (c : Cpu) (v : BitVec 64) :
    (c.pushWord v).rflags = c.rflags := rfl

/-- The word a 16-bit move has put into a register. -/
@[simp] theorem low_append (x : BitVec 48) (v : BitVec 16) :
    (x ++ v : BitVec 64).extractLsb' 0 16 = v := BitVec.extractLsb'_append_eq_right

/-- Flags that went through `PUSHFQ` and `POPFQ` agree on all flags the latter
loads. -/
theorem loadFlags_pushed (old f : BitVec 64) :
    loadFlags old (f &&& pushfMask) &&& popfMask = f &&& popfMask := by
  have hkeep : popfKeep &&& popfMask = 0 := by decide
  have hpush : pushfMask &&& popfMask &&& popfMask = popfMask := by decide
  have htwo : (2 : BitVec 64) &&& popfMask = 0 := by decide
  rw [loadFlags, BitVec.and_or_distrib_right, BitVec.and_or_distrib_right, BitVec.and_assoc,
    hkeep, htwo, BitVec.and_assoc, BitVec.and_assoc f, ← BitVec.and_assoc pushfMask, hpush]
  simp

/-! ## The stack as a list of words -/

/-- The words from address `sp` upward are `vs`. -/
def WordsAt (m : Mem) (sp : BitVec 64) : List (BitVec 64) → Prop
  | [] => True
  | v :: vs => read64 m sp = v ∧ WordsAt m (sp + 8) vs

def Cpu.StackTop (c : Cpu) (vs : List (BitVec 64)) : Prop := WordsAt c.mem (c.reg .rsp) vs

/-- A word stays when a write is apart from it, here one that ends where the
words start and does not wrap around to their other end. -/
theorem WordsAt.write64_below {m : Mem} {sp : BitVec 64} {vs : List (BitVec 64)} (v : BitVec 64)
    {a : BitVec 64} (h : WordsAt m sp vs) (hbelow : 8 ≤ (sp - a).toNat)
    (hroom : (sp - a).toNat + 8 * vs.length ≤ 2 ^ 64) : WordsAt (write64 m a v) sp vs := by
  induction vs generalizing sp with
  | nil => trivial
  | cons w vs ih =>
    obtain ⟨hw, hvs⟩ := h
    rw [List.length_cons] at hroom
    constructor
    · rw [read64_write64_apart _ _ (by constructor <;> bv_omega), hw]
    · by_cases hlast : vs = []
      · rw [hlast]
        trivial
      · have hpos : 0 < vs.length := List.length_pos_of_ne_nil hlast
        exact ih hvs (by bv_omega) (by bv_omega)

theorem Cpu.StackTop.pushWord {c : Cpu} {vs : List (BitVec 64)} (v : BitVec 64)
    (h : c.StackTop vs) (hroom : 8 + 8 * vs.length ≤ 2 ^ 64) :
    (c.pushWord v).StackTop (v :: vs) := by
  have hsub : c.reg .rsp - (c.reg .rsp - 8) = 8 := by bv_omega
  refine ⟨by simp, ?_⟩
  simp only [Cpu.pushWord_mem, Cpu.pushWord_reg, if_true, BitVec.sub_add_cancel]
  exact WordsAt.write64_below v h (by rw [hsub]; decide) (by rw [hsub]; exact hroom)

/-! ## Saving and reloading fields -/

/-- Save registers at displacements from the address in `base`. -/
def storeFields (base : Reg) (fs : List (BitVec 64 × Reg)) : List Op :=
  fs.map fun f => .storeAt base f.1 f.2

def loadFields (base : Reg) (fs : List (BitVec 64 × Reg)) : List Op :=
  fs.map fun f => .loadAt f.2 base f.1

/-- The memory after the values `reg` of the fields were written from `a` on. -/
def writeFields (reg : Reg → BitVec 64) (a : BitVec 64) (m : Mem) (fs : List (BitVec 64 × Reg)) :
    Mem :=
  fs.foldl (fun m f => write64 m (a + f.1) (reg f.2)) m

theorem runOps_storeFields (c : Cpu) (base : Reg) (fs : List (BitVec 64 × Reg)) :
    runOps c (storeFields base fs) = { c with mem := writeFields c.reg (c.reg base) c.mem fs } := by
  induction fs generalizing c with
  | nil => rfl
  | cons f fs ih =>
    rw [storeFields, List.map_cons, runOps_cons, ← storeFields, ih]
    rfl

theorem writeFields_byte (reg : Reg → BitVec 64) {a x : BitVec 64} (m : Mem)
    {fs : List (BitVec 64 × Reg)} (h : ∀ f ∈ fs, 8 ≤ (x - (a + f.1)).toNat) :
    writeFields reg a m fs x = m x := by
  induction fs generalizing m with
  | nil => rfl
  | cons f fs ih =>
    rw [writeFields, List.foldl_cons, ← writeFields, ih _ fun g hg =>
      h g (List.mem_cons_of_mem f hg)]
    exact write64_byte_ne _ _ _ (h f List.mem_cons_self)

theorem read64_writeFields_apart (reg : Reg → BitVec 64) {a b : BitVec 64} (m : Mem)
    {fs : List (BitVec 64 × Reg)} (h : ∀ f ∈ fs, Apart (a + f.1) b) :
    read64 (writeFields reg a m fs) b = read64 m b := by
  induction fs generalizing m with
  | nil => rfl
  | cons f fs ih =>
    rw [writeFields, List.foldl_cons, ← writeFields, ih _ fun g hg =>
      h g (List.mem_cons_of_mem f hg)]
    exact read64_write64_apart _ _ (h f List.mem_cons_self)

/-- Fields that do not overlap read back as they were saved. -/
theorem read64_writeFields (reg : Reg → BitVec 64) (a : BitVec 64) (m : Mem)
    {fs : List (BitVec 64 × Reg)} (hapart : fs.Pairwise fun f g => Apart f.1 g.1)
    {f : BitVec 64 × Reg} (hf : f ∈ fs) :
    read64 (writeFields reg a m fs) (a + f.1) = reg f.2 := by
  induction fs generalizing m with
  | nil => simp at hf
  | cons g fs ih =>
    rw [List.pairwise_cons] at hapart
    rw [writeFields, List.foldl_cons, ← writeFields]
    rcases List.mem_cons.mp hf with rfl | hmem
    · rw [read64_writeFields_apart _ _ fun g hg => ((hapart.1 g hg).add_left a).symm]
      exact read64_write64_self _ _ _
    · exact ih _ hapart.2 hmem

/-- Loading changes the registers it names. -/
theorem runOps_loadFields (c : Cpu) {base : Reg} {fs : List (BitVec 64 × Reg)}
    (hbase : base ∉ fs.map Prod.snd) :
    ∃ reg, runOps c (loadFields base fs) = { c with reg := reg } ∧
      (∀ r ∉ fs.map Prod.snd, reg r = c.reg r) ∧
      ((fs.map Prod.snd).Nodup → ∀ f ∈ fs, reg f.2 = read64 c.mem (c.reg base + f.1)) := by
  induction fs generalizing c with
  | nil => exact ⟨c.reg, rfl, fun _ _ => rfl, fun _ f hf => by simp at hf⟩
  | cons f fs ih =>
    rw [List.map_cons, List.mem_cons, not_or] at hbase
    obtain ⟨reg, hrun, hother, hloaded⟩ := ih (execOp c (.loadAt f.2 base f.1)) hbase.2
    refine ⟨reg, hrun, fun r hr => ?_, fun hnodup g hg => ?_⟩
    · rw [List.map_cons, List.mem_cons, not_or] at hr
      rw [hother r hr.2]
      simp [execOp, hr.1]
    · rw [List.map_cons, List.nodup_cons] at hnodup
      rcases List.mem_cons.mp hg with rfl | hmem
      · rw [hother _ hnodup.1]
        simp [execOp]
      · rw [hloaded hnodup.2 g hmem]
        simp [execOp, hbase.1]

theorem write16_byte_ne (m : Mem) {a x : BitVec 64} (v : BitVec 16) (h : 2 ≤ (x - a).toNat) :
    write16 m a v x = m x := by
  have h0 : x ≠ a := by bv_omega
  have h1 : x ≠ a + 1 := by bv_omega
  simp only [write16, write8, if_neg h0, if_neg h1]

theorem read64_write16_apart (m : Mem) {a b : BitVec 64} (v : BitVec 16)
    (h : 2 ≤ (b - a).toNat ∧ 8 ≤ (a - b).toNat) : read64 (write16 m a v) b = read64 m b := by
  refine read64_congr fun k hk => write16_byte_ne m v ?_
  bv_omega

/-! ## Exceptions -/

/-- The vectors for which the CPU pushes an error code. -/
def errorCodeVectors : List Nat := [8, 10, 11, 12, 13, 14, 17, 21, 29, 30]

/-- The stack an exception is delivered on: `rsp0` of the task state segment
when user code was interrupted, the current one otherwise. -/
def interruptStack (c : Cpu) (rsp0 : BitVec 64) : BitVec 64 :=
  (if c.cs &&& 3 = 0 then c.reg .rsp else rsp0) &&& ~~~15

/-- After the CPU has pushed its frame, so that `rsp` is the address of the
saved `rip`. -/
def interruptFrame (c : Cpu) (rsp0 : BitVec 64) : Cpu :=
  (((((c.set .rsp (interruptStack c rsp0)).pushWord (c.ss.setWidth 64)).pushWord
    (c.reg .rsp)).pushWord c.rflags).pushWord (c.cs.setWidth 64)).pushWord c.rip

/-- TF, IF, NT, RF and VM. -/
def interruptGateClears : BitVec 64 := 0x34300

/-- Delivery through an interrupt gate of the kernel. -/
def interrupt (c : Cpu) (rsp0 : BitVec 64) (selector : BitVec 16) (offset : BitVec 64)
    (errorCode : Option (BitVec 64)) : Cpu :=
  let framed := interruptFrame c rsp0
  { errorCode.elim framed framed.pushWord with
    rip := offset
    cs := selector
    ss := if c.cs &&& 3 = 0 then c.ss else 0
    rflags := c.rflags &&& ~~~interruptGateClears }

/-- `IRETQ`, of a frame with the flags of an interrupted program. -/
def iretq (c : Cpu) : Cpu :=
  let sp := c.reg .rsp
  { c.set .rsp (read64 c.mem (sp + 8 + 8 + 8)) with
    rip := read64 c.mem sp
    cs := (read64 c.mem (sp + 8)).setWidth 16
    rflags := read64 c.mem (sp + 8 + 8)
    ss := (read64 c.mem (sp + 8 + 8 + 8 + 8)).setWidth 16 }

/-- The words of the frame, from the address of the saved `rip` on. -/
def frameWords (c : Cpu) : List (BitVec 64) :=
  [c.rip, c.cs.setWidth 64, c.rflags, c.reg .rsp, c.ss.setWidth 64]

theorem interruptFrame_stackTop (c : Cpu) (rsp0 : BitVec 64) :
    (interruptFrame c rsp0).StackTop (frameWords c) := by
  have hnil : (c.set .rsp (interruptStack c rsp0)).StackTop [] := trivial
  exact ((((hnil.pushWord _ (by simp)).pushWord _ (by simp)).pushWord _ (by simp)).pushWord _
    (by simp)).pushWord _ (by simp)

@[simp] theorem interruptFrame_reg (c : Cpu) (rsp0 : BitVec 64) {r : Reg} (hr : r ≠ .rsp) :
    (interruptFrame c rsp0).reg r = c.reg r := by
  simp [interruptFrame, hr]

theorem interrupt_reg (c : Cpu) (rsp0 : BitVec 64) (selector : BitVec 16) (offset : BitVec 64)
    (errorCode : Option (BitVec 64)) {r : Reg} (hr : r ≠ .rsp) :
    (interrupt c rsp0 selector offset errorCode).reg r = c.reg r := by
  cases errorCode <;> simp [interrupt, hr]

/-- An `IRETQ` that finds the frame of `c` takes up `c`'s instruction, stack
and flags. -/
theorem iretq_frame {c c' : Cpu} (h : c'.StackTop (frameWords c)) :
    (iretq c').rip = c.rip ∧ (iretq c').rflags = c.rflags ∧ (iretq c').reg .rsp = c.reg .rsp := by
  obtain ⟨hrip, -, hflags, hrsp, -⟩ := h
  exact ⟨hrip, hflags, hrsp⟩

/-- A callee that also leaves alone the `n` words its caller has on the stack,
above the return address. -/
structure SysvKeeps (n : Nat) (c c' : Cpu) : Prop extends SysvReturns c c' where
  stack : ∀ vs, vs.length = n → WordsAt c.mem (c.reg .rsp + 8) vs →
    WordsAt c'.mem (c.reg .rsp + 8) vs

theorem SysvKeeps.stackTop {n : Nat} {c c' : Cpu} (h : SysvKeeps n c c') {next : BitVec 64}
    {vs : List (BitVec 64)} (hn : vs.length = n) (hc : c.StackTop (next :: vs)) :
    c'.StackTop vs := by
  rw [Cpu.StackTop, h.rsp]
  exact h.stack vs hn hc.2

theorem sysvKeeps_returnWith (n : Nat) (c : Cpu) {r : Reg} (v : BitVec 64)
    (hr : r ∉ calleeSaved) : SysvKeeps n c (returnWith c r v) where
  toSysvReturns := sysvReturns_returnWith c v hr
  stack := fun _ _ h => h

end X86
