import Mathlib.Algebra.BigOperators.Ring.Finset
import Mathlib.Data.BitVec
import Myria.Sched.RoundRobin
import Myria.Syscall.Dispatch

/-! Whole runs of the kernel: system calls of any thread in any order with what the
kernel does on its own account, which are ticks, creations, terminations and
requests to the heap. A system call is broken into the scheduler and heap calls it
makes, so that what holds of the scheduler under those holds of the kernel. -/
namespace Myria.Syscall

open Mm Sched ByteMem

/-- The kernel after `sched_init` and `syscall_init`, whatever the statics held. -/
def KernelState.boot (k : KernelState) : KernelState :=
  syscallInit { k with sched := schedInit k.sched }

inductive KernelOp where
  /-- a system call, with the memory of the caller at that time -/
  | syscall (mem : Mem) (num : U64) (args : Args)
  | kernel (op : CreateOp)

/-- The table entry that serves an operation. -/
def KernelOp.served : KernelOp → Option (Fin maxSyscalls)
  | .syscall _ num _ => Syscall.served num
  | .kernel _ => none

section

variable (threadWrapper : U64)

/-- A call of the scheduler or of `kmalloc`, whatever its size. -/
def primitiveStep (s : SchedState) : CreateOp → Option SchedState
  | .call op => schedStep threadWrapper s op
  | .kmalloc size => some { s with heap := (kmalloc s.heap size).2 }

/-- A system call that never returns ends the run. -/
def kernelStep (k : KernelState) : KernelOp → Option KernelState
  | .syscall mem num args => (syscallDispatch mem k num args).result.map Prod.snd
  | .kernel op => (primitiveStep threadWrapper k.sched op).map fun s => { k with sched := s }

end

variable {threadWrapper : U64} {k k' : KernelState} {op : KernelOp} {ops : List KernelOp}

/-! ## What a system call is made of -/

/-- The calls a handler makes. -/
def handlerPrimitives (args : Args) : Fin maxSyscalls → List CreateOp
  | 8 => List.replicate (args.arg1 / 10).toNat (.call .schedYield)
  | 9 => [.call .schedYield]
  | 10 => [.kmalloc args.arg1]
  | _ => []

def KernelOp.primitives : KernelOp → List CreateOp
  | .syscall _ num args => ((Syscall.served num).map (handlerPrimitives args)).getD []
  | .kernel op => [op]

theorem run_yields (s : SchedState) (n : ℕ) :
    Runs.run (primitiveStep threadWrapper) s (List.replicate n (.call .schedYield)) =
      some (schedYield^[n] s) := by
  induction n generalizing s with
  | zero => rfl
  | succ n ih =>
    have hstep : primitiveStep threadWrapper s (.call .schedYield) = some (schedYield s) := rfl
    rw [List.replicate_succ, Runs.run_cons_of_step hstep, ih, Function.iterate_succ_apply]

theorem handler_primitives {n : Fin maxSyscalls} {handler : Handler}
    (h : syscallTable n = some handler) {mem : Mem} {s s' : SchedState} {args : Args} {value : U64}
    (hr : (handler mem s args).result = some (value, s')) :
    Runs.run (primitiveStep threadWrapper) s (handlerPrimitives args n) = some s' := by
  match n, h with
  | 0, h => cases h; cases hr
  | 1, h =>
    cases h
    rw [sysWrite_result] at hr
    cases hr
    rfl
  | 2, h => cases h; cases hr; rfl
  | 7, h => cases h; cases hr; rfl
  | 8, h => cases h; cases hr; exact run_yields ..
  | 9, h => cases h; cases hr; rfl
  | 10, h => cases h; cases hr; rfl
  | 11, h => cases h; cases hr; rfl

/-- Everything a step of the kernel does. -/
structure Stepped (threadWrapper : U64) (k : KernelState) (op : KernelOp) (k' : KernelState) :
    Prop where
  sched : Runs.run (primitiveStep threadWrapper) k.sched op.primitives = some k'.sched
  unserved : op.served = none →
    k'.syscallCounts = k.syscallCounts ∧ k'.totalSyscalls = k.totalSyscalls
  counted : ∀ n, op.served = some n →
    k'.syscallCounts = (k.count n).syscallCounts ∧ k'.totalSyscalls = (k.count n).totalSyscalls

theorem stepped (hs : kernelStep threadWrapper k op = some k') : Stepped threadWrapper k op k' := by
  cases op with
  | kernel op =>
    obtain ⟨s, hprim, rfl⟩ := Option.map_eq_some_iff.mp hs
    refine ⟨?_, fun _ => ⟨rfl, rfl⟩, fun n hn => by cases hn⟩
    rw [KernelOp.primitives, Runs.run_cons_of_step hprim, Runs.run_nil]
  | syscall mem num args =>
    obtain ⟨⟨value, k''⟩, hr, rfl⟩ := Option.map_eq_some_iff.mp hs
    cases hserved : Syscall.served num with
    | none =>
      rw [(dispatch_refused hserved mem k args).1] at hr
      cases hr
      refine ⟨?_, fun _ => ⟨rfl, rfl⟩, fun n hn => ?_⟩
      · simp [KernelOp.primitives, hserved]
      · rw [KernelOp.served, hserved] at hn
        cases hn
    | some n =>
      obtain ⟨hnum, handler, htable⟩ := served_eq_some hserved
      rw [(dispatch_served num hnum htable mem k args).1] at hr
      obtain ⟨⟨value', s'⟩, hh, heq⟩ := Option.map_eq_some_iff.mp hr
      cases heq
      refine ⟨?_, fun hn => ?_, fun m hm => ?_⟩
      · simpa [KernelOp.primitives, hserved] using handler_primitives htable hh
      · rw [KernelOp.served, hserved] at hn
        cases hn
      · rw [KernelOp.served, hserved] at hm
        cases hm
        exact ⟨rfl, rfl⟩

/-- A run of the kernel is a run of the scheduler and the heap. -/
theorem run_primitives {k₀ : KernelState}
    (hrun : Runs.run (kernelStep threadWrapper) k₀ ops = some k) :
    Runs.run (primitiveStep threadWrapper) k₀.sched (ops.flatMap KernelOp.primitives) =
      some k.sched := by
  refine Runs.run_invariant
    (P := fun ops k => Runs.run (primitiveStep threadWrapper) k₀.sched
      (ops.flatMap KernelOp.primitives) = some k.sched) rfl ?_ ops k hrun
  intro ops t op t' _ ih hs
  rw [List.flatMap_append, Runs.run_append, ih, List.flatMap_singleton]
  exact (stepped hs).sched

/-! ## Statistics -/

/-- The calls that were served in a run, by table entry. -/
def servedCalls (ops : List KernelOp) : List (Fin maxSyscalls) := ops.filterMap KernelOp.served

theorem run_statistics {k₀ : KernelState}
    (hrun : Runs.run (kernelStep threadWrapper) (syscallInit k₀) ops = some k) :
    (∀ n, k.syscallCounts n = BitVec.ofNat 64 ((servedCalls ops).count n)) ∧
      k.totalSyscalls = BitVec.ofNat 64 (servedCalls ops).length := by
  refine Runs.run_invariant
    (P := fun ops k => (∀ n, k.syscallCounts n = BitVec.ofNat 64 ((servedCalls ops).count n)) ∧
      k.totalSyscalls = BitVec.ofNat 64 (servedCalls ops).length)
    ⟨fun _ => rfl, rfl⟩ ?_ ops k hrun
  rintro ops t op t' - ⟨hcounts, htotal⟩ hs
  have hstep := stepped hs
  cases hserved : op.served with
  | none =>
    have hsame : servedCalls (ops ++ [op]) = servedCalls ops := by
      simp [servedCalls, List.filterMap_append, hserved]
    rw [hsame, (hstep.unserved hserved).1, (hstep.unserved hserved).2]
    exact ⟨hcounts, htotal⟩
  | some m =>
    have hmore : servedCalls (ops ++ [op]) = servedCalls ops ++ [m] := by
      simp [servedCalls, List.filterMap_append, hserved]
    rw [hmore, (hstep.counted m hserved).1, (hstep.counted m hserved).2]
    refine ⟨fun n => ?_, ?_⟩
    · by_cases hn : n = m
      · subst hn
        simp [KernelState.count, hcounts, BitVec.ofNat_add]
      · simp [KernelState.count, hn, hcounts, Ne.symm hn]
    · simp [KernelState.count, htotal, BitVec.ofNat_add]

/-- `SYS_EXIT` is the one call that does not return. -/
theorem dispatch_result_eq_none_iff (mem : Mem) (k : KernelState) (num : U64) (args : Args) :
    (syscallDispatch mem k num args).result = none ↔ num = 0 := by
  cases hserved : served num with
  | none =>
    rw [(dispatch_refused hserved mem k args).1]
    refine iff_of_false (by simp) ?_
    rintro rfl
    cases hserved
  | some n =>
    obtain ⟨hnum, handler, htable⟩ := served_eq_some hserved
    have hzero : num = 0 ↔ n = 0 := by
      rw [Fin.ext_iff, ← hnum, BitVec.toNat_eq]
      rfl
    rw [(dispatch_served num hnum htable mem k args).1, Option.map_eq_none_iff, hzero]
    match n, htable with
    | 0, h => cases h; exact iff_of_true rfl rfl
    | 1, h => cases h; exact iff_of_false (by simp) (by decide)
    | 2, h => cases h; exact iff_of_false (by simp [sysRead]) (by decide)
    | 7, h => cases h; exact iff_of_false (by simp [sysGetpid]) (by decide)
    | 8, h => cases h; exact iff_of_false (by simp [sysSleep]) (by decide)
    | 9, h => cases h; exact iff_of_false (by simp [sysYield]) (by decide)
    | 10, h => cases h; exact iff_of_false (by simp [sysMalloc]) (by decide)
    | 11, h => cases h; exact iff_of_false (by simp [sysFree]) (by decide)

theorem servedCalls_table {n : Fin maxSyscalls} (h : n ∈ servedCalls ops) :
    ∃ handler, syscallTable n = some handler := by
  obtain ⟨op, -, hop⟩ := List.mem_filterMap.mp h
  cases op with
  | kernel op => cases hop
  | syscall mem num args => exact (served_eq_some hop).2

/-- **The statistics are exact.** From `syscall_init` on, however system calls are
mixed with what the kernel does itself: each counter is the number of calls its
entry has served, up to wrapping at 64 bits, the total is their sum, and an entry
without a handler is never counted. A number without a handler is answered with
`-1` and leaves the whole kernel as it was, and every call but `SYS_EXIT` returns.
Every address can be read in this model; a `SYS_WRITE` that page-faults is not in it. -/
theorem syscall_statistics_exact {k₀ : KernelState}
    (hrun : Runs.run (kernelStep threadWrapper) (syscallInit k₀) ops = some k) :
    (∀ n, k.syscallCounts n = BitVec.ofNat 64 ((servedCalls ops).count n)) ∧
    k.totalSyscalls = BitVec.ofNat 64 (servedCalls ops).length ∧
    k.totalSyscalls = ∑ n, k.syscallCounts n ∧
    (∀ n, syscallTable n = none → k.syscallCounts n = 0) ∧
    ∀ mem num args,
      (served num = none → (syscallDispatch mem k num args).result = some (errno, k)) ∧
      ((syscallDispatch mem k num args).result = none ↔ num = 0) := by
  obtain ⟨hcounts, htotal⟩ := run_statistics hrun
  refine ⟨hcounts, htotal, ?_, fun n hn => ?_, fun mem num args =>
    ⟨fun hnone => (dispatch_refused hnone mem k args).1,
      dispatch_result_eq_none_iff mem k num args⟩⟩
  · have hlen : ∑ n, (servedCalls ops).count n = (servedCalls ops).length := by
      have hcard : ∑ n, (servedCalls ops : Multiset (Fin maxSyscalls)).count n = _ :=
        Multiset.sum_count_eq_card fun n _ => Finset.mem_univ n
      simpa using hcard
    have hcast : ∀ m : ℕ, BitVec.ofNat 64 m = (m : U64) := fun _ => rfl
    simp only [htotal, hcounts, hcast]
    rw [← hlen, Nat.cast_sum]
  · have hnot : n ∉ servedCalls ops := by
      intro hmem
      obtain ⟨handler, htable⟩ := servedCalls_table hmem
      rw [hn] at htable
      cases htable
    rw [hcounts, List.count_eq_zero.mpr hnot]
    rfl

/-- The BSS image of the kernel's statics. -/
def KernelState.bss : KernelState where
  sched := .bss
  syscallCounts _ := 0
  totalSyscalls := 0

/-- Two yields, a file that cannot be opened and a request for memory. -/
theorem syscall_statistics_four_calls :
    ∃ k, Runs.run (kernelStep 0x100000) (syscallInit .bss)
        [.syscall (fun _ => 0) 9 ⟨0, 0, 0, 0, 0, 0⟩, .syscall (fun _ => 0) 3 ⟨0, 0, 0, 0, 0, 0⟩,
          .kernel (.call .schedTick), .syscall (fun _ => 0) 10 ⟨24, 0, 0, 0, 0, 0⟩,
          .syscall (fun _ => 0) 9 ⟨0, 0, 0, 0, 0, 0⟩] = some k ∧
      k.syscallCounts 9 = 2 ∧ k.totalSyscalls = 3 ∧ k.syscallCounts 3 = 0 := by
  have hrun : Runs.run (kernelStep 0x100000) (syscallInit .bss)
      [.syscall (fun _ => 0) 9 ⟨0, 0, 0, 0, 0, 0⟩, .syscall (fun _ => 0) 3 ⟨0, 0, 0, 0, 0, 0⟩,
        .kernel (.call .schedTick), .syscall (fun _ => 0) 10 ⟨24, 0, 0, 0, 0, 0⟩,
        .syscall (fun _ => 0) 9 ⟨0, 0, 0, 0, 0, 0⟩] = some _ := rfl
  obtain ⟨hcounts, htotal, -, hunserved, -⟩ := syscall_statistics_exact hrun
  exact ⟨_, hrun, (hcounts 9).trans (by decide), htotal.trans (by decide), hunserved 3 rfl⟩

/-! ## The scheduler under system calls -/

theorem handlerPrimitives_cases {args : Args} {n : Fin maxSyscalls} {prim : CreateOp}
    (h : prim ∈ handlerPrimitives args n) :
    prim = .call .schedYield ∨ n = 10 ∧ ∃ size, prim = .kmalloc size := by
  unfold handlerPrimitives at h
  split at h
  · exact .inl (List.eq_of_mem_replicate h)
  · exact .inl (List.mem_singleton.mp h)
  · exact .inr ⟨rfl, _, List.mem_singleton.mp h⟩
  · cases h

/-- A system call keeps what yields keep and, if it is `SYS_MALLOC`, requests to the
heap. -/
theorem syscall_keeps {I : SchedState → Prop} {mem : Mem} {num : U64} {args : Args}
    (hyield : ∀ s, I s → I (schedYield s)) (hheap : num = 10 → ∀ s heap, I s → I { s with heap })
    (hs : kernelStep threadWrapper k (.syscall mem num args) = some k') (h : I k.sched) :
    I k'.sched := by
  have hprims : ∀ prim ∈ (KernelOp.syscall mem num args).primitives,
      prim = .call .schedYield ∨ num = 10 ∧ ∃ size, prim = .kmalloc size := by
    intro prim hmem
    rw [KernelOp.primitives] at hmem
    cases hserved : served num with
    | none => simp [hserved] at hmem
    | some n =>
      refine (handlerPrimitives_cases (by simpa [hserved] using hmem)).imp_right ?_
      rintro ⟨rfl, hsize⟩
      exact ⟨BitVec.eq_of_toNat_eq (served_eq_some hserved).1, hsize⟩
  refine Runs.run_invariant
    (P := fun prims s =>
      (∀ prim ∈ prims, prim = .call .schedYield ∨ num = 10 ∧ ∃ size, prim = .kmalloc size) → I s)
    (fun _ => h) ?_ _ _ (stepped hs).sched hprims
  intro prims s prim s' _ ih hprim hall
  have hI : I s := ih fun p hp => hall p (List.mem_append_left _ hp)
  rcases hall prim (List.mem_append_right _ List.mem_cons_self) with rfl | ⟨hnum, size, rfl⟩
  · cases hprim
    exact hyield s hI
  · cases hprim
    exact hheap hnum s _ hI

theorem OnlyCurrentRuns.withHeap {s : SchedState} (h : OnlyCurrentRuns s) (heap : Heap) :
    OnlyCurrentRuns { s with heap } :=
  ⟨h.current, h.tid, h.idle⟩

/-- One step of the kernel, with `sched_start` only while the scheduler is off. -/
theorem onlyCurrentRuns_step (h : OnlyCurrentRuns k.sched)
    (hstart : op = .kernel (.call .schedStart) → k.sched.enabled = false)
    (hs : kernelStep threadWrapper k op = some k') : OnlyCurrentRuns k'.sched := by
  cases op with
  | syscall mem num args =>
    exact syscall_keeps (fun _ hI => onlyCurrentRuns_switchStable.schedYield hI fun _ _ _ =>
      trivial)
      (fun _ _ heap hI => OnlyCurrentRuns.withHeap hI heap) hs h
  | kernel prim =>
    obtain ⟨s, hprim, rfl⟩ := Option.map_eq_some_iff.mp hs
    cases prim with
    | kmalloc size =>
      cases hprim
      exact OnlyCurrentRuns.withHeap h _
    | call op =>
      exact h.step hprim fun hop => hstart (by rw [hop])

/-- **Every interleaving is a run of the scheduler.** A run of system calls mixed
with the kernel's own calls acts on the scheduler and the heap as the list of the
calls it is made of: a sleep is a yield for every full ten milliseconds, and calls
without a handler are nothing. With `sched_start` only called while the scheduler
is off, at most one thread is RUNNING after any such run, and `SYS_GETPID` answers
with its number. -/
theorem kernel_run_refines_scheduler {k₀ : KernelState}
    (hrun : Runs.run (kernelStep threadWrapper) k₀.boot ops = some k) :
    Runs.run (primitiveStep threadWrapper) (schedInit k₀.sched) (ops.flatMap KernelOp.primitives) =
      some k.sched ∧
    (Runs.StepsMeet (kernelStep threadWrapper) k₀.boot
        (fun k op => op = .kernel (.call .schedStart) → k.sched.enabled = false) ops →
      (∀ i j, (k.sched.threadTable i).state = .running → (k.sched.threadTable j).state = .running →
        i = j) ∧
      ∀ i, (k.sched.threadTable i).state = .running → ∀ mem args,
        (syscallDispatch mem k 7 args).result =
          some ((k.sched.threadTable i).tid.setWidth 64, k.count 7)) := by
  refine ⟨run_primitives hrun, fun hstart => ?_⟩
  have hI : OnlyCurrentRuns k.sched :=
    hstart.invariant (I := fun k => OnlyCurrentRuns k.sched) (.init k₀.sched)
      (fun _ _ _ h hC hs => onlyCurrentRuns_step h hC hs) ops k (List.prefix_refl _) hrun
  refine ⟨fun i j hi hj => ?_, fun i hi mem args => ?_⟩
  · have hij := (hI.current i hi).symm.trans (hI.current j hj)
    exact Option.some.inj hij
  · rw [dispatch_getpid, currentPid, hI.current i hi]

/-- Two threads; the first asks for memory and sleeps for ten milliseconds. -/
def twoThreadRun : List KernelOp :=
  [.kernel (.call (.threadCreate 0x1000 0 none)), .kernel (.call (.threadCreate 0x2000 0 none)),
    .kernel (.call .schedStart), .syscall (fun _ => 0) 10 ⟨24, 0, 0, 0, 0, 0⟩,
    .syscall (fun _ => 0) 8 ⟨10, 0, 0, 0, 0, 0⟩]

theorem kernel_run_refines_two_threads :
    ∃ k, Runs.run (kernelStep 0x100000) KernelState.bss.boot twoThreadRun = some k ∧
      Runs.run (primitiveStep 0x100000) (schedInit KernelState.bss.sched)
        [.call (.threadCreate 0x1000 0 none), .call (.threadCreate 0x2000 0 none),
          .call .schedStart, .kmalloc 24, .call .schedYield] = some k.sched ∧
      (k.sched.threadTable 1).state = .running ∧
      (syscallDispatch (fun _ => 0) k 7 ⟨0, 0, 0, 0, 0, 0⟩).result = some (2, k.count 7) := by
  have hrun : Runs.run (kernelStep 0x100000) KernelState.bss.boot twoThreadRun = some _ := rfl
  have hstart : Runs.StepsMeet (kernelStep 0x100000) KernelState.bss.boot
      (fun k op => op = .kernel (.call .schedStart) → k.sched.enabled = false) twoThreadRun :=
    .cons (fun h => by cases h) rfl (.cons (fun h => by cases h) rfl (.cons (fun _ => rfl) rfl
      (.cons (fun h => by cases h) rfl (.cons (fun h => by cases h) rfl (.nil _ _ _)))))
  obtain ⟨hrefines, hrunning⟩ := kernel_run_refines_scheduler hrun
  exact ⟨_, hrun, hrefines, by decide, (hrunning hstart).2 1 (by decide) _ _⟩

/-! ## Sleeping -/

/-- Without terminations there are at most eight threads, each with a number of
its own. -/
structure EachNumbered (s : SchedState) : Prop where
  live : NoneFinished s
  tids : DistinctTids s

theorem EachNumbered.nextTid_le {s : SchedState} (h : EachNumbered s) : s.nextTid.toNat ≤ 9 := by
  have hcard : s.threads.card ≤ 8 := Finset.card_le_univ _
  rw [h.live.nextTid, counter_succ_toNat h.live.count (by omega)]
  omega

theorem EachNumbered.init (s : SchedState) : EachNumbered (schedInit s) :=
  ⟨.init s, .init s s.heap⟩

theorem EachNumbered.withHeap {s : SchedState} (h : EachNumbered s) (heap : Heap) :
    EachNumbered { s with heap } :=
  ⟨⟨⟨h.live.live, h.live.free, h.live.current, h.live.idle, h.live.count⟩, h.live.nextTid⟩,
    ⟨h.tids.below, h.tids.inj⟩⟩

theorem EachNumbered.step {s t : SchedState} {op : SchedOp} (h : EachNumbered s)
    (hs : schedStep threadWrapper s op = some t) (hop : op ≠ .threadExit) : EachNumbered t := by
  refine ⟨h.live.step hs hop, ?_⟩
  cases op with
  | schedInit => cases hs; exact .init s s.heap
  | threadCreate entryPoint arg name =>
    cases hs
    cases hslot : refilledSlot s entryPoint with
    | none =>
      rcases threadCreate_cases threadWrapper s entryPoint arg name with ⟨-, heap, heq⟩ | hfilled
      · rw [heq]
        exact ⟨h.tids.below, h.tids.inj⟩
      · obtain ⟨slot, -, -, hsome, -⟩ := hfilled
        rw [hslot] at hsome
        cases hsome
    | some slot =>
      obtain ⟨-, -, -, hnew⟩ := threadCreate_of_refilled threadWrapper hslot arg name
      have hsmall := h.nextTid_le
      refine h.tids.create hnew rfl ?_
      rw [hnew.nextTid]
      exact counter_succ_toNat rfl (by omega)
  | schedStart => cases hs; exact h.tids.keep (keepsIdentity_start s)
  | schedYield => cases hs; exact h.tids.keep (keepsIdentity_yield s)
  | schedTick => cases hs; exact h.tids.keep (keepsIdentity_tick s)
  | threadExit => exact absurd rfl hop

theorem EachNumbered.kernelStep (h : EachNumbered k.sched) (hop : op ≠ .kernel (.call .threadExit))
    (hs : Syscall.kernelStep threadWrapper k op = some k') : EachNumbered k'.sched := by
  cases op with
  | syscall mem num args =>
    have hyield : ∀ s, EachNumbered s → EachNumbered (schedYield s) := by
      intro s hI
      have hstep : schedStep threadWrapper s .schedYield = some (schedYield s) := rfl
      exact hI.step hstep (by decide)
    exact syscall_keeps hyield (fun _ _ heap hI => hI.withHeap heap) hs h
  | kernel prim =>
    obtain ⟨s, hprim, rfl⟩ := Option.map_eq_some_iff.mp hs
    cases prim with
    | kmalloc size => cases hprim; exact h.withHeap _
    | call op =>
      refine h.step hprim ?_
      rintro rfl
      exact hop rfl

theorem run_eachNumbered {k₀ : KernelState} (hexit : .kernel (.call .threadExit) ∉ ops)
    (hrun : Runs.run (kernelStep threadWrapper) k₀.boot ops = some k) : EachNumbered k.sched := by
  refine Runs.run_invariant
    (P := fun ops k => .kernel (.call .threadExit) ∉ ops → EachNumbered k.sched)
    (fun _ => .init k₀.sched) ?_ ops k hrun hexit
  intro ops t op t' _ ih hs hexit
  rw [List.mem_append, not_or] at hexit
  refine (ih hexit.1).kernelStep ?_ hs
  rintro rfl
  exact hexit.2 (List.mem_singleton.mpr rfl)

/-- `SYS_GETPID` tells the threads apart. -/
theorem EachNumbered.currentPid_inj {s t : SchedState} (hs : EachNumbered s) {c d : Slot}
    (hc : s.current = some c) (hd : t.current = some d)
    (htid : ∀ i, (t.threadTable i).tid = (s.threadTable i).tid) :
    currentPid t = currentPid s ↔ d = c := by
  rw [currentPid, currentPid, hc, hd]
  change (t.threadTable d).tid.setWidth 64 = (s.threadTable c).tid.setWidth 64 ↔ _
  rw [htid]
  constructor
  · intro heq
    have htids : (s.threadTable d).tid = (s.threadTable c).tid := by
      have hnat := congrArg BitVec.toNat heq
      rw [BitVec.toNat_setWidth_of_le (by decide), BitVec.toNat_setWidth_of_le (by decide)] at hnat
      exact BitVec.eq_of_toNat_eq hnat
    exact (hs.tids.inj c d (hs.live.current c hc).1 htids.symm).symm
  · rintro rfl
    rfl

theorem iterate_schedYield_tid (n : ℕ) (s : SchedState) (i : Slot) :
    ((schedYield^[n] s).threadTable i).tid = (s.threadTable i).tid := by
  induction n with
  | zero => rfl
  | succ n ih => rw [Function.iterate_succ_apply', schedYield_tid, ih]

theorem sleep_yields (ms : U64) : (ms / 10).toNat = ms.toNat / 10 := BitVec.toNat_udiv

/-- **What a sleep does.** In every state reached without a termination, `SYS_SLEEP`
returns at once and has passed the CPU on by one place in the turn order for every
full ten milliseconds, so the program that slept goes on under the number of another
thread unless that is a whole number of rounds. A sleep of 70 ms or more has given
every READY thread the CPU on the way. -/
theorem sleep_moves_the_cpu {k₀ : KernelState} (hexit : .kernel (.call .threadExit) ∉ ops)
    (hrun : Runs.run (kernelStep threadWrapper) k₀.boot ops = some k) {c : Slot}
    (hc : k.sched.current = some c) (mem : Mem) (args : Args) {ready : ℕ}
    (hready : (Finset.univ.filter fun i => (k.sched.threadTable i).Runnable).card = ready) :
    ∃ k', (syscallDispatch mem k 8 args).result = some (0, k') ∧
      k'.sched.current = (k.sched.rotation c)[args.arg1.toNat / 10 % (ready + 1)]? ∧
      ((syscallDispatch mem k' 7 args).result.map Prod.fst =
        (syscallDispatch mem k 7 args).result.map Prod.fst ↔ ready + 1 ∣ args.arg1.toNat / 10) ∧
      (70 ≤ args.arg1.toNat → ∀ w, (k.sched.threadTable w).Runnable →
        ∃ j ≤ args.arg1.toNat / 10, (schedYield^[j] k.sched).current = some w) := by
  have hI := run_eachNumbered hexit hrun
  have hcpu := hI.live.hasCpu hc
  have hlen : (k.sched.rotation c).length = ready + 1 := by
    rw [hcpu.length_rotation, hready]
  refine ⟨_, dispatch_sleep mem k args, ?_, ?_, fun hlong w hw => ?_⟩
  · rw [← hlen, sleep_yields]
    exact hcpu.current_iterate _
  · obtain ⟨d, hd, -⟩ := hcpu.iterate (args.arg1 / 10).toNat
    rw [dispatch_getpid, dispatch_getpid, Option.map_some, Option.map_some, Option.some.injEq,
      hI.currentPid_inj hc hd.current (iterate_schedYield_tid _ _), ← hlen, ← sleep_yields,
      ← hcpu.returns_iff, hd.current, Option.some.injEq]
  · -- the place of `w` in the turn order is at most the seventh
    have hmem : w ∈ k.sched.rotation c := CyclicOrder.mem_members.mpr (.inl hw)
    obtain ⟨j, hj, hget⟩ := List.getElem_of_mem hmem
    have height : (k.sched.rotation c).length ≤ 8 := by
      have hnodup : (k.sched.rotation c).Nodup := CyclicOrder.nodup_members _ _
      exact (List.Nodup.length_le_card hnodup).trans (by simp)
    refine ⟨j, by omega, ?_⟩
    rw [hcpu.current_iterate, Nat.mod_eq_of_lt hj, List.getElem?_eq_getElem hj, hget]

/-- Two threads take turns: after a sleep of 30 ms the other one has the CPU. -/
theorem sleep_moves_the_cpu_two_threads :
    ∃ k k', Runs.run (kernelStep 0x100000) KernelState.bss.boot (twoThreadRun.take 3) = some k ∧
      (syscallDispatch (fun _ => 0) k 8 ⟨30, 0, 0, 0, 0, 0⟩).result = some (0, k') ∧
      k.sched.current = some 0 ∧ k'.sched.current = some 1 := by
  have hrun : Runs.run (kernelStep 0x100000) KernelState.bss.boot (twoThreadRun.take 3) = some _ :=
    rfl
  have hexit : KernelOp.kernel (.call .threadExit) ∉ twoThreadRun.take 3 := by
    simp [twoThreadRun]
  obtain ⟨k', hresult, hcurrent, -⟩ := sleep_moves_the_cpu hexit hrun rfl (fun _ => 0)
    ⟨30, 0, 0, 0, 0, 0⟩ (show Finset.card _ = 1 by decide)
  exact ⟨_, k', hrun, hresult, rfl, hcurrent.trans (by decide)⟩

end Myria.Syscall
