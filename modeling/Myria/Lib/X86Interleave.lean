import Myria.Lib.X86Frame

/-! A program in ring 0 that is interrupted. The handlers run on the program's own stack,
so an interruption can leave anything below the stack pointer. A program that reads
nothing there before it has written it again computes what it computes undisturbed, however
often and wherever it is interrupted. -/
namespace X86

open ByteMem

/-! ## A machine seen from outside a region -/

/-- `d` is `c` but for memory in `K`. -/
structure Agree (K : Set (BitVec 64)) (c d : Cpu) : Prop where
  reg : d.reg = c.reg
  rip : d.rip = c.rip
  rflags : d.rflags = c.rflags
  cs : d.cs = c.cs
  ss : d.ss = c.ss
  msr : d.msr = c.msr
  mem : ∀ x ∉ K, d.mem x = c.mem x

variable {K K' : Set (BitVec 64)} {c d e : Cpu}

theorem Agree.refl (K : Set (BitVec 64)) (c : Cpu) : Agree K c c :=
  ⟨rfl, rfl, rfl, rfl, rfl, rfl, fun _ _ => rfl⟩

theorem Agree.trans (h : Agree K c d) (h' : Agree K d e) : Agree K c e :=
  ⟨h'.reg.trans h.reg, h'.rip.trans h.rip, h'.rflags.trans h.rflags, h'.cs.trans h.cs,
    h'.ss.trans h.ss, h'.msr.trans h.msr, fun x hx => (h'.mem x hx).trans (h.mem x hx)⟩

theorem Agree.mono (h : Agree K c d) (hsub : K ⊆ K') : Agree K' c d :=
  ⟨h.reg, h.rip, h.rflags, h.cs, h.ss, h.msr, fun x hx => h.mem x fun hin => hx (hsub hin)⟩

/-- The words an instruction reads. -/
def readsOf (c : Cpu) : Instr → List (BitVec 64)
  | .load _ addr => [addr]
  | .pop _ => [c.reg .rsp]
  | .mov _ _ | .store _ _ | .push _ | .add _ _ | .call _ _ => []

/-- The words it writes. -/
def writesOf (c : Cpu) : Instr → List (BitVec 64)
  | .store addr _ => [addr]
  | .push _ | .call _ _ => [c.reg .rsp - 8]
  | .mov _ _ | .load _ _ | .pop _ | .add _ _ => []

/-- The bytes of some words. -/
def wordsArea (as : List (BitVec 64)) : Set (BitVec 64) := {x | ∃ a ∈ as, (x - a).toNat < 8}

theorem mem_wordsArea_singleton {a x : BitVec 64} : x ∈ wordsArea [a] ↔ (x - a).toNat < 8 := by
  simp [wordsArea]

theorem wordsArea_nil : wordsArea [] = ∅ := by simp [wordsArea]

theorem Agree.read64 (h : Agree K c d) {a : BitVec 64} (ha : ∀ x ∈ wordsArea [a], x ∉ K) :
    ByteMem.read64 d.mem a = ByteMem.read64 c.mem a := by
  refine read64_congr fun j hj => h.mem _ (ha _ ?_)
  rwa [mem_wordsArea_singleton, add_sub_cancel_left]

theorem Agree.set (h : Agree K c d) (r : Reg) (v : BitVec 64) :
    Agree K (c.set r v) (d.set r v) := by
  refine ⟨?_, h.rip, h.rflags, h.cs, h.ss, h.msr, h.mem⟩
  funext x
  rw [Cpu.set_reg, Cpu.set_reg, h.reg]

/-- What both write, they agree on. -/
theorem Agree.write (h : Agree K c d) (a v : BitVec 64) :
    Agree (K \ wordsArea [a]) { c with mem := write64 c.mem a v }
      { d with mem := write64 d.mem a v } := by
  refine ⟨h.reg, h.rip, h.rflags, h.cs, h.ss, h.msr, fun x hx => ?_⟩
  show write64 d.mem a v x = write64 c.mem a v x
  by_cases hin : (x - a).toNat < 8
  · rw [write64, write64, if_pos hin, if_pos hin]
  · rw [write64, write64, if_neg hin, if_neg hin]
    exact h.mem x fun hK => hx ⟨hK, mt mem_wordsArea_singleton.mp hin⟩

theorem Agree.pushWord (h : Agree K c d) (v : BitVec 64) :
    Agree (K \ wordsArea [c.reg .rsp - 8]) (c.pushWord v) (d.pushWord v) := by
  have hset := h.set .rsp (c.reg .rsp - 8)
  have hsp : d.reg .rsp = c.reg .rsp := by rw [h.reg]
  rw [Cpu.pushWord, Cpu.pushWord, hsp]
  exact hset.write (c.reg .rsp - 8) v

theorem Agree.exec {i : Instr} (h : Agree K c d) (hreads : ∀ x ∈ wordsArea (readsOf c i), x ∉ K) :
    Agree (K \ wordsArea (writesOf c i)) (exec c i) (exec d i) := by
  have hreg : ∀ r, d.reg r = c.reg r := fun r => by rw [h.reg]
  cases i with
  | mov dst src =>
    rw [X86.exec, X86.exec, hreg, writesOf, wordsArea_nil, Set.sdiff_empty]
    exact h.set dst _
  | load dst addr =>
    rw [X86.exec, X86.exec, h.read64 hreads, writesOf, wordsArea_nil, Set.sdiff_empty]
    exact h.set dst _
  | store addr src =>
    rw [X86.exec, X86.exec, hreg]
    exact h.write addr _
  | push src =>
    rw [X86.exec, X86.exec, hreg]
    exact h.pushWord _
  | pop dst =>
    rw [X86.exec, X86.exec, hreg, h.read64 hreads, writesOf, wordsArea_nil, Set.sdiff_empty]
    exact (h.set .rsp _).set dst _
  | add dst imm =>
    have hset := h.set dst (c.reg dst + imm)
    rw [X86.exec, X86.exec, hreg, h.rflags, writesOf, wordsArea_nil, Set.sdiff_empty]
    exact ⟨hset.reg, hset.rip, rfl, hset.cs, hset.ss, hset.msr, hset.mem⟩
  | call target next =>
    have hpush := h.pushWord next
    exact ⟨hpush.reg, rfl, hpush.rflags, hpush.cs, hpush.ss, hpush.msr, hpush.mem⟩

/-- An instruction changes nothing but the words it writes. -/
theorem exec_mem_of_not_mem {i : Instr} {x : BitVec 64} (hx : x ∉ wordsArea (writesOf c i)) :
    (exec c i).mem x = c.mem x := by
  have hfar : ∀ a, writesOf c i = [a] → 8 ≤ (x - a).toNat := by
    intro a ha
    rw [ha, mem_wordsArea_singleton] at hx
    omega
  cases i with
  | mov dst src => rfl
  | load dst addr => rfl
  | store addr src => exact write64_byte_ne _ _ _ (hfar addr rfl)
  | push src => exact write64_byte_ne _ _ _ (hfar _ rfl)
  | pop dst => rfl
  | add dst imm => rfl
  | call target next => exact write64_byte_ne _ _ _ (hfar _ rfl)

/-! ## What is on the stack -/

section Stack

variable (lo : BitVec 64)

/-- The stack below the stack pointer, where `lo` is its lower end. -/
def belowStack (c : Cpu) : Set (BitVec 64) := {x | (x - lo).toNat < (c.reg .rsp - lo).toNat}

/-- What a program must not read after an instruction, if before it that was `D`. The words
it writes are good again, and all below the new stack pointer is not. -/
def staleAfter (D : Set (BitVec 64)) (c : Cpu) (i : Instr) : Set (BitVec 64) :=
  (D \ wordsArea (writesOf c i)) ∪ belowStack lo (exec c i)

/-- The same after a whole program. -/
def staleRun : Set (BitVec 64) → Cpu → List Instr → Set (BitVec 64)
  | D, _, [] => D
  | D, c, i :: code => staleRun (staleAfter lo D c i) (exec c i) code

/-- A program that reads nothing stale and keeps out of `K`. -/
def Careful (K : Set (BitVec 64)) : Set (BitVec 64) → Cpu → List Instr → Prop
  | _, _, [] => True
  | D, c, i :: code =>
    (∀ x ∈ wordsArea (readsOf c i), x ∉ D ∪ K) ∧ (∀ x ∈ wordsArea (writesOf c i), x ∉ K) ∧
      Careful K (staleAfter lo D c i) (exec c i) code

end Stack

/-- Every state that a program passes through is as `P` says. -/
def PassesThrough (P : Cpu → Prop) : Cpu → List Instr → Prop
  | c, [] => P c
  | c, i :: code => P c ∧ PassesThrough P (exec c i) code

theorem PassesThrough.head {P : Cpu → Prop} {code : List Instr} (h : PassesThrough P c code) :
    P c := by
  cases code with
  | nil => exact h
  | cons i code => exact h.1

/-- Together with what every instruction keeps. -/
theorem PassesThrough.and {P Q : Cpu → Prop} {code : List Instr} (h : PassesThrough P c code)
    (hc : Q c) (hexec : ∀ c i, Q c → Q (X86.exec c i)) :
    PassesThrough (fun c => P c ∧ Q c) c code := by
  induction code generalizing c with
  | nil => exact ⟨h, hc⟩
  | cons i code ih => exact ⟨⟨h.1, hc⟩, ih h.2 (hexec c i hc)⟩

/-! ## Interruptions -/

/-- A run of `code` from `c` to `d` that is interrupted `n` times, between any two
instructions, each time as `R` says. -/
inductive Interleaved (R : Cpu → Cpu → Prop) : Nat → Cpu → List Instr → Cpu → Prop
  | done (c : Cpu) : Interleaved R 0 c [] c
  | step {n : Nat} {c d : Cpu} {i : Instr} {code : List Instr} :
    Interleaved R n (exec c i) code d → Interleaved R n c (i :: code) d
  | interrupt {n : Nat} {c c' d : Cpu} {code : List Instr} :
    R c c' → Interleaved R n c' code d → Interleaved R (n + 1) c code d

section Interleaved

variable {R : Cpu → Cpu → Prop} {P : Cpu → Prop} {lo : BitVec 64} {D : Set (BitVec 64)} {n : Nat}
  {x : Cpu} {code : List Instr}

/-- Interruptions that change only `K` and the stack below the stack pointer do not change
what the program computes. -/
theorem Interleaved.agree (h : Interleaved R n x code d) (hx : Agree (D ∪ K) c x)
    (hD : belowStack lo c ⊆ D) (hcode : Careful lo K D c code) (hP : PassesThrough P c code)
    (hR : ∀ c D y y', P c → Agree D c y → R y y' → Agree (belowStack lo c ∪ K) y y') :
    Agree (staleRun lo D c code ∪ K) (run c code) d := by
  induction h generalizing c D with
  | done x => exact hx
  | step _ ih =>
    obtain ⟨hreads, -, hrest⟩ := hcode
    refine ih ((hx.exec hreads).mono ?_) Set.subset_union_right hrest hP.2
    rintro y ⟨hy | hy, hnot⟩
    · exact .inl (.inl ⟨hy, hnot⟩)
    · exact .inr hy
  | interrupt hirq _ ih =>
    have hround := hR _ _ _ _ hP.head hx hirq
    exact ih (hx.trans (hround.mono (Set.union_subset_union_left K hD))) hD hcode hP

/-- A quantity that the program leaves alone and each interruption advances counts the
interruptions. -/
theorem Interleaved.counts (h : Interleaved R n x code d) (hx : Agree (D ∪ K) c x)
    (hD : belowStack lo c ⊆ D) (hcode : Careful lo K D c code) (hP : PassesThrough P c code)
    {q : Cpu → BitVec 64}
    (hstep : ∀ y i, (∀ x ∈ wordsArea (writesOf y i), x ∉ K) → q (exec y i) = q y)
    (hR : ∀ c D y y', P c → Agree D c y → R y y' →
      Agree (belowStack lo c ∪ K) y y' ∧ q y' = q y + 1) :
    q d = q x + BitVec.ofNat 64 n := by
  induction h generalizing c D with
  | done x => simp
  | @step _ y _ i _ _ ih =>
    obtain ⟨hreads, hwrites, hrest⟩ := hcode
    have hsame : writesOf y i = writesOf c i := by cases i <;> simp only [writesOf, hx.reg]
    rw [← hsame] at hwrites
    rw [ih ((hx.exec hreads).mono ?_) Set.subset_union_right hrest hP.2, hstep y i hwrites]
    rintro z ⟨hz | hz, hnot⟩
    · exact .inl (.inl ⟨hz, hnot⟩)
    · exact .inr hz
  | interrupt hirq _ ih =>
    obtain ⟨hround, hone⟩ := hR _ _ _ _ hP.head hx hirq
    rw [ih (hx.trans (hround.mono (Set.union_subset_union_left K hD))) hD hcode hP, hone,
      BitVec.ofNat_add, add_assoc, add_comm 1]
    rfl

end Interleaved

end X86
