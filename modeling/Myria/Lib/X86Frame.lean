import Mathlib.Data.List.Nodup
import Mathlib.Data.Set.Basic
import Myria.Lib.X86System

/-! A stub from inside: it saves registers with a block of pushes and takes them back with
a block of pops, below the frame that the processor pushed. -/
namespace X86

open ByteMem

/-- The flags that `POPFQ` loads are those of the image. -/
theorem loadFlags_and_popfMask (old image : BitVec 64) :
    loadFlags old image &&& popfMask = image &&& popfMask := by
  have hkeep : popfKeep &&& popfMask = 0 := by decide
  have htwo : (2 : BitVec 64) &&& popfMask = 0 := by decide
  rw [loadFlags, BitVec.and_or_distrib_right, BitVec.and_or_distrib_right, BitVec.and_assoc,
    hkeep, htwo, BitVec.and_assoc, BitVec.and_self]
  simp

/-! ## Pushing words -/

/-- The memory after the words `vs` were pushed from the stack pointer `sp` down. -/
def pushedMem (m : Mem) (sp : BitVec 64) : List (BitVec 64) → Mem
  | [] => m
  | v :: vs => pushedMem (write64 m (sp - 8) v) (sp - 8) vs

/-- The `n` words below `sp`. -/
def stackArea (sp : BitVec 64) (n : Nat) : Set (BitVec 64) :=
  {x | (x - (sp - BitVec.ofNat 64 (8 * n))).toNat < 8 * n}

/-- Their bytes one by one. -/
def stackBytes (sp : BitVec 64) (n : Nat) : List (BitVec 64) :=
  (List.range (8 * n)).map fun i => sp - BitVec.ofNat 64 (8 * n) + BitVec.ofNat 64 i

theorem mem_stackBytes {sp x : BitVec 64} {n : Nat} :
    x ∈ stackBytes sp n ↔ x ∈ stackArea sp n := by
  rw [stackBytes, List.mem_map, stackArea, Set.mem_ofPred_eq]
  constructor
  · rintro ⟨i, hi, rfl⟩
    rw [List.mem_range] at hi
    rw [add_sub_cancel_left, BitVec.toNat_ofNat]
    omega
  · intro hx
    refine ⟨_, List.mem_range.mpr hx, ?_⟩
    rw [BitVec.ofNat_toNat, BitVec.setWidth_eq, add_sub_cancel]

theorem mem_stackArea_first {sp x : BitVec 64} {n : Nat} (hn : 8 * (n + 1) ≤ 2 ^ 64)
    (h : (x - (sp - 8)).toNat < 8) : x ∈ stackArea sp (n + 1) := by
  rw [stackArea, Set.mem_ofPred_eq]
  bv_omega

theorem mem_stackArea_next {sp x : BitVec 64} {n : Nat} (h : x ∈ stackArea (sp - 8) n) :
    x ∈ stackArea sp (n + 1) := by
  rw [stackArea, Set.mem_ofPred_eq] at h ⊢
  bv_omega

theorem stackArea_mono {sp : BitVec 64} {n n' : Nat} (hle : n ≤ n') :
    stackArea sp n ⊆ stackArea sp n' := by
  intro x hx
  rw [stackArea, Set.mem_ofPred_eq] at hx ⊢
  bv_omega

theorem pushedMem_outside (m : Mem) (sp : BitVec 64) (vs : List (BitVec 64))
    (hvs : 8 * vs.length ≤ 2 ^ 64) {x : BitVec 64} (hx : x ∉ stackArea sp vs.length) :
    pushedMem m sp vs x = m x := by
  induction vs generalizing m sp with
  | nil => rfl
  | cons v vs ih =>
    rw [List.length_cons] at hvs hx
    rw [pushedMem, ih _ _ (by omega) fun h => hx (mem_stackArea_next h)]
    refine write64_byte_ne _ _ _ ?_
    by_contra hlt
    exact hx (mem_stackArea_first hvs (by omega))

theorem pushedMem_append (m : Mem) (sp : BitVec 64) (vs ws : List (BitVec 64)) :
    pushedMem m sp (vs ++ ws) =
      pushedMem (pushedMem m sp vs) (sp - BitVec.ofNat 64 (8 * vs.length)) ws := by
  induction vs generalizing m sp with
  | nil => simp [pushedMem]
  | cons v vs ih =>
    have hsp : sp - 8 - BitVec.ofNat 64 (8 * vs.length) =
        sp - BitVec.ofNat 64 (8 * (vs.length + 1)) := by
      rw [BitVec.sub_sub, Nat.mul_succ, Nat.add_comm, BitVec.ofNat_add]
      rfl
    rw [List.cons_append, pushedMem, ih, pushedMem, List.length_cons, hsp]

theorem interruptFrame_mem (c : Cpu) (rsp0 : BitVec 64) :
    (interruptFrame c rsp0).mem =
      pushedMem c.mem (interruptStack c rsp0)
        [c.ss.setWidth 64, c.reg .rsp, c.rflags, c.cs.setWidth 64, c.rip] := rfl

theorem interruptFrame_rsp (c : Cpu) (rsp0 : BitVec 64) :
    (interruptFrame c rsp0).reg .rsp = interruptStack c rsp0 - 40 := by
  simp only [interruptFrame, Cpu.pushWord_reg, Cpu.set_reg, if_true, BitVec.sub_sub]
  rfl

theorem interrupt_mem (c : Cpu) (rsp0 : BitVec 64) (selector : BitVec 16) (offset : BitVec 64)
    (errorCode : Option (BitVec 64)) :
    (interrupt c rsp0 selector offset errorCode).mem =
      pushedMem c.mem (interruptStack c rsp0)
        ([c.ss.setWidth 64, c.reg .rsp, c.rflags, c.cs.setWidth 64, c.rip] ++
          errorCode.toList) := by
  cases errorCode with
  | none => rfl
  | some e => rfl

theorem interrupt_stackTop (c : Cpu) (rsp0 : BitVec 64) (selector : BitVec 16) (offset : BitVec 64)
    (errorCode : Option (BitVec 64)) :
    (interrupt c rsp0 selector offset errorCode).StackTop (errorCode.toList ++ frameWords c) := by
  have hframe := interruptFrame_stackTop c rsp0
  cases errorCode with
  | none => exact hframe
  | some e => exact hframe.pushWord e (by simp [frameWords])

@[simp] theorem interrupt_msr (c : Cpu) (rsp0 : BitVec 64) (selector : BitVec 16)
    (offset : BitVec 64) (errorCode : Option (BitVec 64)) :
    (interrupt c rsp0 selector offset errorCode).msr = c.msr := by
  cases errorCode <;> rfl

theorem iretq_reg (c : Cpu) {r : Reg} (hr : r ≠ .rsp) : (iretq c).reg r = c.reg r := by
  simp [iretq, hr]

theorem iretq_frame_selectors {c c' : Cpu} (h : c'.StackTop (frameWords c)) :
    (iretq c').cs = c.cs ∧ (iretq c').ss = c.ss := by
  obtain ⟨-, hcs, -, -, hss, -⟩ := h
  rw [iretq, hcs, hss]
  simp

/-! ## Calls of C functions -/

theorem WordsAt.congr {m m' : Mem} {sp : BitVec 64} {vs : List (BitVec 64)} (h : WordsAt m sp vs)
    (hroom : 8 * vs.length ≤ 2 ^ 64) (hsame : ∀ x, (x - sp).toNat < 8 * vs.length → m' x = m x) :
    WordsAt m' sp vs := by
  induction vs generalizing sp with
  | nil => trivial
  | cons v vs ih =>
    obtain ⟨hv, hvs⟩ := h
    rw [List.length_cons] at hroom hsame
    refine ⟨(read64_congr fun j hj => hsame _ ?_).trans hv, ?_⟩
    · rw [add_sub_cancel_left]
      omega
    · refine ih hvs (by omega) fun x hx => hsame x ?_
      bv_omega

/-- A C function entered in `c` returns in `c'`, having done `f` to memory. Its own frame is
`depth` words below the return address. -/
structure SysvDoes (f : Mem → Mem) (depth : Nat) (c c' : Cpu) : Prop extends SysvReturns c c' where
  mem : ∀ x ∉ stackArea (c.reg .rsp) depth, c'.mem x = f c.mem x

/-- What its caller has on the stack stays, if the function itself leaves it alone. -/
theorem SysvDoes.stackTop {f : Mem → Mem} {depth : Nat} {c c' : Cpu} (h : SysvDoes f depth c c')
    {next : BitVec 64} {vs : List (BitVec 64)} (hc : c.StackTop (next :: vs))
    (hroom : 8 * (vs.length + depth + 1) ≤ 2 ^ 64)
    (hsame : ∀ x, (x - (c.reg .rsp + 8)).toNat < 8 * vs.length → f c.mem x = c.mem x) :
    c'.StackTop vs := by
  rw [Cpu.StackTop, h.rsp]
  refine WordsAt.congr hc.2 (by omega) fun x hx => ?_
  rw [h.mem x ?_, hsame x hx]
  rw [stackArea, Set.mem_ofPred_eq]
  bv_omega

/-- There is such a function: it does `f` and returns with zero in `rax`. -/
theorem exists_sysvDoes (f : Mem → Mem) (depth : Nat) (c : Cpu) : ∃ c', SysvDoes f depth c c' := by
  obtain ⟨hrip, hrsp, hsaved, hcs, hss, hmsr⟩ :=
    sysvReturns_returnWith c (r := .rax) 0 (by decide)
  exact ⟨{ returnWith c .rax 0 with mem := f c.mem }, ⟨hrip, hrsp, hsaved, hcs, hss, hmsr⟩,
    fun _ _ => rfl⟩

/-! ## Blocks of pushes and pops -/

theorem run_pushes_mem (c : Cpu) {rs : List Reg} (hsp : .rsp ∉ rs) :
    (run c (rs.map .push)).mem = pushedMem c.mem (c.reg .rsp) (rs.map c.reg) := by
  induction rs generalizing c with
  | nil => rfl
  | cons r rs ih =>
    rw [List.mem_cons, not_or] at hsp
    have hregs : rs.map (c.pushWord (c.reg r)).reg = rs.map c.reg := by
      refine List.map_congr_left fun x hx => ?_
      have hne : x ≠ .rsp := by
        rintro rfl
        exact hsp.2 hx
      rw [Cpu.pushWord_reg, if_neg hne]
    rw [List.map_cons, run_cons, exec, ih _ hsp.2, hregs]
    rfl

theorem run_pushes_rsp (c : Cpu) (rs : List Reg) :
    (run c (rs.map .push)).reg .rsp = c.reg .rsp - BitVec.ofNat 64 (8 * rs.length) := by
  induction rs generalizing c with
  | nil => simp
  | cons r rs ih =>
    rw [List.map_cons, run_cons, ih, exec, Cpu.pushWord_reg, if_pos rfl, BitVec.sub_sub,
      List.length_cons, Nat.mul_succ, Nat.add_comm, BitVec.ofNat_add]
    rfl

/-- The saved registers lie on the stack, the last one on top. -/
theorem run_pushes_stackTop {c : Cpu} {rs : List Reg} {vs : List (BitVec 64)} (hsp : .rsp ∉ rs)
    (h : c.StackTop vs) (hroom : 8 * (rs.length + vs.length) ≤ 2 ^ 64) :
    (run c (rs.map .push)).StackTop ((rs.map c.reg).reverse ++ vs) := by
  induction rs generalizing c vs with
  | nil => exact h
  | cons r rs ih =>
    rw [List.mem_cons, not_or] at hsp
    rw [List.length_cons] at hroom
    have hregs : rs.map (c.pushWord (c.reg r)).reg = rs.map c.reg := by
      refine List.map_congr_left fun x hx => ?_
      have hne : x ≠ .rsp := by
        rintro rfl
        exact hsp.2 hx
      rw [Cpu.pushWord_reg, if_neg hne]
    have hpush := ih hsp.2 (h.pushWord (c.reg r) (by omega)) (by rw [List.length_cons]; omega)
    rw [hregs] at hpush
    rw [List.map_cons, List.map_cons, List.reverse_cons, List.append_assoc]
    exact hpush

/-- Pops bring back what lies on the stack, and change nothing but registers. -/
theorem run_pops_spec {c : Cpu} {f : Reg → BitVec 64} {rs : List Reg} {vs : List (BitVec 64)}
    (hsp : .rsp ∉ rs) (hnodup : rs.Nodup) (h : c.StackTop (rs.map f ++ vs)) :
    (∀ r ∈ rs, (run c (rs.map .pop)).reg r = f r) ∧ (run c (rs.map .pop)).StackTop vs ∧
      (run c (rs.map .pop)).mem = c.mem := by
  induction rs generalizing c with
  | nil => exact ⟨fun r hr => absurd hr List.not_mem_nil, h, rfl⟩
  | cons r rs ih =>
    rw [List.mem_cons, not_or] at hsp
    rw [List.nodup_cons] at hnodup
    obtain ⟨htop, hrest⟩ := h
    have hpop : (exec c (.pop r)).StackTop (rs.map f ++ vs) := by
      have hrsp : (exec c (.pop r)).reg .rsp = c.reg .rsp + 8 := by
        rw [exec, Cpu.set_reg, if_neg hsp.1, Cpu.set_reg, if_pos rfl]
      rw [Cpu.StackTop, hrsp]
      exact hrest
    obtain ⟨hregs, hstack, hmem⟩ := ih hsp.2 hnodup.2 hpop
    rw [List.map_cons, run_cons]
    refine ⟨fun x hx => ?_, hstack, hmem⟩
    rcases List.mem_cons.mp hx with rfl | hx
    · rw [run_pops_reg _ _ (Ne.symm hsp.1) hnodup.1, exec, Cpu.set_reg, if_pos rfl]
      exact htop
    · exact hregs x hx

@[simp] theorem exec_cs (c : Cpu) (i : Instr) : (exec c i).cs = c.cs := by
  cases i <;> rfl

@[simp] theorem exec_ss (c : Cpu) (i : Instr) : (exec c i).ss = c.ss := by
  cases i <;> rfl

end X86
