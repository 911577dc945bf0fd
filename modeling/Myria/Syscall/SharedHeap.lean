import Myria.Syscall.KernelRuns

/-! The heap is one for all: `SYS_MALLOC` hands out blocks of it to programs, the
kernel takes blocks for itself, and `thread_create` takes its stacks from it. All of
them are kept in one history beside the kernel, whatever the order they come in. -/
namespace Myria.Syscall

open Mm Sched ByteMem

/-! ## What a request takes -/

/-- A size as the heap rounds it. -/
def rounded (size : U64) : ℕ := (size.toNat + 7) / 8 * 8

/-- The bytes taken by some blocks. -/
def bytesTaken (blocks : List Block) : ℕ := (blocks.map fun b => rounded b.size).sum

@[simp] theorem bytesTaken_cons (b : Block) (blocks : List Block) :
    bytesTaken (b :: blocks) = rounded b.size + bytesTaken blocks := by
  simp [bytesTaken]

/-- The heap as its history tells it: sound, and used up to the sum of all blocks. -/
structure Accounted (s : HeapHistory) : Prop where
  inv : s.Inv
  ptr : s.heap.ptr.toNat = kernelHeapStart.toNat + bytesTaken s.blocks

theorem accounted_boot : Accounted .boot := ⟨HeapHistory.boot_inv, rfl⟩

/-- When a request that fits is refused, and what it is given otherwise. -/
theorem Accounted.kmalloc_result {s : HeapHistory} (h : Accounted s) {size : U64}
    (hfit : s.SumFits (.kmalloc size)) :
    ((kmalloc s.heap size).1 = 0 ↔ size = 0 ∨ 2 ^ 20 ≤ bytesTaken s.blocks + rounded size) ∧
      ((kmalloc s.heap size).1 ≠ 0 →
        (kmalloc s.heap size).1.toNat = kernelHeapStart.toNat + bytesTaken s.blocks) := by
  have hptr := h.ptr
  have hlo := h.inv.start_le
  have hne := h.inv.ptr_ne_zero
  have hup : (alignUp size 8).toNat = rounded size := by
    simp only [kernelHeapStart_toNat, HeapHistory.SumFits] at hlo hfit
    exact alignUp_eight_of_fits (by omega)
  have hsum : (s.heap.ptr + alignUp size 8).toNat =
      kernelHeapStart.toNat + (bytesTaken s.blocks + rounded size) := by
    have hlt : s.heap.ptr.toNat + rounded size < 2 ^ 64 := hfit
    rw [BitVec.toNat_add, hup, Nat.mod_eq_of_lt hlt, hptr, Nat.add_assoc]
  have hlim : kernelHeapLimit ≤ s.heap.ptr + alignUp size 8 ↔
      2 ^ 20 ≤ bytesTaken s.blocks + rounded size := by
    rw [BitVec.le_def, hsum, kernelHeapLimit_toNat, kernelHeapStart_toNat]
    omega
  unfold kmalloc
  by_cases h0 : size = 0
  · rw [if_pos h0]
    exact ⟨iff_of_true rfl (.inl h0), fun habs => absurd rfl habs⟩
  rw [if_neg h0]
  by_cases hfull : kernelHeapLimit ≤ s.heap.ptr + alignUp size 8
  · rw [if_pos hfull]
    exact ⟨iff_of_true rfl (.inr (hlim.mp hfull)), fun habs => absurd rfl habs⟩
  · rw [if_neg hfull]
    exact ⟨iff_of_false hne (not_or.mpr ⟨h0, mt hlim.mpr hfull⟩), fun _ => hptr⟩

theorem Accounted.kmalloc {s s' : HeapHistory} (h : Accounted s) {size : U64}
    (hfit : s.SumFits (.kmalloc size)) (hs : heapStep s (.kmalloc size) = some s') :
    Accounted s' := by
  refine ⟨h.inv.kmalloc hfit hs, ?_⟩
  have hptr := h.ptr
  rcases kmalloc_cases h.inv hfit with ⟨hz, hp⟩ | ⟨hr, hp, -⟩
  · simp only [heapStep, hz, if_true] at hs
    cases Option.some.inj hs
    rw [hp, hptr]
  · rw [heapStep_served hr h.inv.ptr_ne_zero] at hs
    cases Option.some.inj hs
    simp only [bytesTaken_cons]
    rw [hp, hptr, rounded]
    omega

/-! ## The history -/

/-- The kernel with all blocks handed out so far, newest first. -/
structure KernelHistory where
  kernel : KernelState
  blocks : List Block

def KernelHistory.heap (h : KernelHistory) : HeapHistory := ⟨h.kernel.sched.heap, h.blocks⟩

/-- A fresh heap and a fresh kernel. -/
def KernelHistory.boot (k : KernelState) : KernelHistory :=
  ⟨syscallInit { k with sched := { schedInit k.sched with heap := ⟨0⟩ } }, []⟩

/-- The blocks after an operation; `k` is the kernel it leaves. -/
def blocksAfter (h : KernelHistory) (k : KernelState) : KernelOp → List Block
  | .syscall mem num args =>
    if num = 10 then
      match (syscallDispatch mem h.kernel num args).result with
      | some (ptr, _) => if ptr = 0 then h.blocks else ⟨ptr, args.arg1⟩ :: h.blocks
      | none => h.blocks
    else h.blocks
  | .kernel (.kmalloc size) =>
    if (kmalloc h.kernel.sched.heap size).1 = 0 then h.blocks
    else ⟨(kmalloc h.kernel.sched.heap size).1, size⟩ :: h.blocks
  | .kernel (.call (.threadCreate entryPoint _ _)) =>
    match refilledSlot h.kernel.sched entryPoint with
    | some slot => ⟨(k.sched.threadTable slot).stackBase, threadStackSize⟩ :: h.blocks
    | none => h.blocks
  | .kernel (.call _) => h.blocks

def kernelHistoryStep (threadWrapper : U64) (h : KernelHistory) (op : KernelOp) :
    Option KernelHistory :=
  (kernelStep threadWrapper h.kernel op).map fun k => ⟨k, blocksAfter h k op⟩

/-- The size a system call or the kernel asks the heap for; stacks are not chosen by
anyone. -/
def KernelOp.asks : KernelOp → Option U64
  | .syscall _ num args => if num = 10 then some args.arg1 else none
  | .kernel (.kmalloc size) => some size
  | .kernel (.call _) => none

/-- No request wraps in the address space. -/
def RequestFits (h : KernelHistory) (op : KernelOp) : Prop :=
  ∀ size, op.asks = some size → h.heap.SumFits (.kmalloc size)

variable {threadWrapper : U64} {h h' : KernelHistory} {op : KernelOp} {ops : List KernelOp}

/-- A creation that fails has made no request, or one that was refused. -/
theorem threadCreate_heap_of_none (threadWrapper : U64) {s : SchedState} {entryPoint : U64}
    (hnone : refilledSlot s entryPoint = none) (arg : U64) (name : Option (List (BitVec 8))) :
    (threadCreate threadWrapper s entryPoint arg name).2.heap = s.heap ∨
      (kmalloc s.heap threadStackSize).1 = 0#64 ∧
        (threadCreate threadWrapper s entryPoint arg name).2.heap =
          (kmalloc s.heap threadStackSize).2 := by
  revert hnone
  rw [refilledSlot, threadCreate]
  obtain ⟨stackBase, heap⟩ := kmalloc s.heap threadStackSize
  intro hnone
  by_cases hentry : entryPoint = 0#64
  · rw [if_pos hentry]
    exact .inl rfl
  rw [if_neg hentry]
  cases hfree : freeSlot s with
  | none => exact .inl rfl
  | some slot =>
    by_cases hstack : stackBase = 0#64
    · exact .inr ⟨hstack, by simp only [if_pos hstack]⟩
    · rw [if_neg (not_or.mpr ⟨hentry, hstack⟩), hfree] at hnone
      cases hnone

theorem threadCreate_heapStep (threadWrapper : U64) (h : KernelHistory) (entryPoint arg : U64)
    (name : Option (List (BitVec 8))) {k : KernelState}
    (hk : k.sched = (threadCreate threadWrapper h.kernel.sched entryPoint arg name).2) :
    KernelHistory.heap ⟨k, blocksAfter h k (.kernel (.call (.threadCreate entryPoint arg name)))⟩ =
        h.heap ∨
      heapStep h.heap (.kmalloc threadStackSize) =
        some (KernelHistory.heap
          ⟨k, blocksAfter h k (.kernel (.call (.threadCreate entryPoint arg name)))⟩) := by
  cases hslot : refilledSlot h.kernel.sched entryPoint with
  | some slot =>
    obtain ⟨hne, -, -, hnew⟩ := threadCreate_of_refilled threadWrapper hslot arg name
    rw [← hk] at hnew
    have hbase : (k.sched.threadTable slot).stackBase =
        (kmalloc h.kernel.sched.heap threadStackSize).1 := by
      rw [hnew.table, if_pos rfl, newThread]
    simp only [KernelHistory.heap, blocksAfter, hslot, hbase, hnew.heap]
    exact .inr (heapStep_served rfl hne)
  | none =>
    simp only [KernelHistory.heap, blocksAfter, hslot, hk]
    refine (threadCreate_heap_of_none threadWrapper hslot arg name).imp (fun hsame => ?_) ?_
    · rw [hsame]
    · rintro ⟨hz, hheap⟩
      have hrefused : (kmalloc h.kernel.sched.heap threadStackSize).1 = 0 := hz
      simp only [heapStep, hrefused, if_true, hheap]

/-- What an operation does to the heap and the blocks: nothing, or one request that
was asked for or is for a stack. -/
theorem kernelHistoryStep_heap (hs : kernelHistoryStep threadWrapper h op = some h') :
    op.asks = none ∧ h'.heap = h.heap ∨
      ∃ size, (op.asks = some size ∨ op.asks = none ∧ size = threadStackSize) ∧
        heapStep h.heap (.kmalloc size) = some h'.heap := by
  obtain ⟨k, hk, rfl⟩ := Option.map_eq_some_iff.mp hs
  cases op with
  | syscall mem num args =>
    by_cases hnum : num = 10
    · subst hnum
      rw [kernelStep, dispatch_malloc] at hk
      cases hk
      refine .inr ⟨args.arg1, .inl rfl, ?_⟩
      simp only [KernelHistory.heap, blocksAfter, dispatch_malloc, heapStep, if_true]
      rfl
    · refine .inl ⟨if_neg hnum, ?_⟩
      have hheap : k.sched.heap = h.kernel.sched.heap :=
        syscall_keeps (I := fun s => s.heap = h.kernel.sched.heap)
          (fun s hs => (schedYield_alloc s).2.trans hs) (fun habs => absurd habs hnum) hk rfl
      simp only [KernelHistory.heap, blocksAfter, if_neg hnum, hheap]
  | kernel prim =>
    obtain ⟨t, ht, rfl⟩ := Option.map_eq_some_iff.mp hk
    cases prim with
    | kmalloc size =>
      cases ht
      exact .inr ⟨size, .inl rfl, rfl⟩
    | call op =>
      cases op with
      | threadCreate entryPoint arg name =>
        cases ht
        exact (threadCreate_heapStep threadWrapper h entryPoint arg name rfl).imp
          (fun heq => ⟨rfl, heq⟩) fun heq => ⟨_, .inr ⟨rfl, rfl⟩, heq⟩
      | schedInit => cases ht; exact .inl ⟨rfl, rfl⟩
      | schedStart =>
        cases ht
        exact .inl ⟨rfl, by simp only [KernelHistory.heap, blocksAfter,
          (keepsIdentity_start _).heap]⟩
      | schedYield =>
        cases ht
        exact .inl ⟨rfl, by simp only [KernelHistory.heap, blocksAfter,
          (keepsIdentity_yield _).heap]⟩
      | schedTick =>
        cases ht
        exact .inl ⟨rfl, by simp only [KernelHistory.heap, blocksAfter,
          (keepsIdentity_tick _).heap]⟩
      | threadExit =>
        obtain ⟨i, -, rfl⟩ := Option.map_eq_some_iff.mp ht
        exact .inl ⟨rfl, by
          simp only [KernelHistory.heap, blocksAfter, (keepsIdentity_finish _ i).heap]⟩

/-! ## Whole runs -/

theorem Accounted.step (hI : Accounted h.heap) (hfit : RequestFits h op)
    (hs : kernelHistoryStep threadWrapper h op = some h') : Accounted h'.heap := by
  rcases kernelHistoryStep_heap hs with ⟨-, hsame⟩ | ⟨size, hsize, hstep⟩
  · rwa [hsame]
  · refine hI.kmalloc ?_ hstep
    rcases hsize with hasked | ⟨-, rfl⟩
    · exact hfit size hasked
    · -- the heap ends far enough below the top of the address space for a stack
      have hlimit := hI.inv.lt_limit
      rw [kernelHeapLimit_toNat] at hlimit
      change h.heap.heap.ptr.toNat + (8192 + 7) / 8 * 8 < 2 ^ 64
      omega

/-- A request that wraps is served from beyond the heap. -/
theorem Accounted.step_unsafe (hI : Accounted h.heap) (hwrap : ¬ RequestFits h op)
    (hs : kernelHistoryStep threadWrapper h op = some h') : ¬ h'.heap.Safe := by
  obtain ⟨size, hasks, hsize⟩ : ∃ size, op.asks = some size ∧ ¬ h.heap.SumFits (.kmalloc size) := by
    simpa [RequestFits] using hwrap
  rcases kernelHistoryStep_heap hs with ⟨hnone, -⟩ | ⟨size', hsize', hstep⟩
  · rw [hasks] at hnone
    cases hnone
  · obtain rfl : size' = size := by
      rcases hsize' with hasks' | ⟨hnone, -⟩
      · exact Option.some.inj (hasks'.symm.trans hasks)
      · rw [hasks] at hnone
        cases hnone
    obtain ⟨hr, hout⟩ := kmalloc_wrapped hI.inv hsize
    rw [heapStep_served hr hI.inv.ptr_ne_zero] at hstep
    intro hsafe
    rw [← Option.some.inj hstep] at hsafe
    exact hout (hsafe.1 _ List.mem_cons_self)

/-- **One heap for programs, kernel and stacks.** In every run from boot, however
system calls are mixed with ticks, creations and the kernel's own requests: all blocks
of `SYS_MALLOC`, of the kernel and of `thread_create` lie in the heap and do not
overlap, always, if and only if no size asked for wraps when it is added to the heap
pointer. Stacks never do. -/
theorem shared_heap_safe_iff {k₀ : KernelState}
    (hrun : Runs.run (kernelHistoryStep threadWrapper) (.boot k₀) ops = some h) :
    Runs.Always (kernelHistoryStep threadWrapper) (.boot k₀) (fun h => h.heap.Safe) ops ↔
      Runs.StepsMeet (kernelHistoryStep threadWrapper) (.boot k₀) RequestFits ops :=
  Runs.always_iff_stepsMeet (I := fun h => Accounted h.heap) accounted_boot
    (fun _ hI => hI.inv.safe)
    (fun _ _ _ hI hfit hs => hI.step hfit hs)
    (fun _ _ _ hI hwrap hs => hI.step_unsafe hwrap hs) hrun

/-- A thread and a program's 24 bytes are safe; a program that asks for `2^64 - 1`
bytes is given the address of the next stack. -/
theorem shared_heap_thread_and_malloc :
    Runs.Always (kernelHistoryStep 0x100000) (.boot .bss) (fun h => h.heap.Safe)
        [.kernel (.call (.threadCreate 0x1000 0 none)),
          .syscall (fun _ => 0) 10 ⟨24, 0, 0, 0, 0, 0⟩] ∧
      ¬ Runs.Always (kernelHistoryStep 0x100000) (.boot .bss) (fun h => h.heap.Safe)
        [.syscall (fun _ => 0) 10 ⟨0xffffffffffffffff, 0, 0, 0, 0, 0⟩] := by
  have hthread : Runs.run (kernelHistoryStep 0x100000) (.boot .bss)
      [.kernel (.call (.threadCreate 0x1000 0 none)),
        .syscall (fun _ => 0) 10 ⟨24, 0, 0, 0, 0, 0⟩] = some _ := rfl
  have hwrap : Runs.run (kernelHistoryStep 0x100000) (.boot .bss)
      [.syscall (fun _ => 0) 10 ⟨0xffffffffffffffff, 0, 0, 0, 0, 0⟩] = some _ := rfl
  refine ⟨(shared_heap_safe_iff hthread).mpr ?_, fun hsafe => ?_⟩
  · refine .cons (fun size hsize => by cases hsize) rfl (.cons ?_ rfl (.nil _ _ _))
    rintro size ⟨⟩
    decide
  · have hfits := (shared_heap_safe_iff hwrap).mp hsafe [] _ _ (List.prefix_refl _) rfl _ rfl
    exact absurd hfits (by decide)

theorem createInv_forget {g : CreateHistory} (hI : g.Inv) : CreateHistory.Inv ⟨g.sched, []⟩ where
  tids := hI.tids
  blocks := ⟨hI.blocks.aligned, hI.blocks.start_le,
    hI.blocks.lt_limit, by simp [CreateHistory.blocks],
    by simp [CreateHistory.blocks], by simp [CreateHistory.blocks]⟩
  tops := by simp
  nextTid_pos := hI.nextTid_pos
  paid := hI.paid

theorem createInv_kmalloc {s : SchedState} (hI : CreateHistory.Inv ⟨s, []⟩) {size : U64}
    (hfit : HeapHistory.SumFits ⟨s.heap, []⟩ (.kmalloc size)) :
    CreateHistory.Inv ⟨{ s with heap := (kmalloc s.heap size).2 }, []⟩ := by
  obtain ⟨hblocks, hmore⟩ := hI.blocks.advance hfit
  exact ⟨⟨hI.tids.below, hI.tids.inj⟩, hblocks, hI.tops, hI.nextTid_pos, Nat.le_trans hI.paid hmore⟩

theorem createInv_step (hI : CreateHistory.Inv ⟨h.kernel.sched, []⟩) (hfit : RequestFits h op)
    (hs : kernelHistoryStep threadWrapper h op = some h') :
    CreateHistory.Inv ⟨h'.kernel.sched, []⟩ := by
  obtain ⟨k, hk, rfl⟩ := Option.map_eq_some_iff.mp hs
  cases op with
  | syscall mem num args =>
    by_cases hnum : num = 10
    · subst hnum
      rw [kernelStep, dispatch_malloc] at hk
      cases hk
      exact createInv_kmalloc hI (hfit args.arg1 rfl)
    · exact syscall_keeps (I := fun s => CreateHistory.Inv ⟨s, []⟩)
        (fun s hs => hs.keep (keepsIdentity_yield s)) (fun habs => absurd habs hnum) hk hI
  | kernel prim =>
    obtain ⟨t, ht, rfl⟩ := Option.map_eq_some_iff.mp hk
    cases prim with
    | kmalloc size =>
      cases ht
      exact createInv_kmalloc hI (hfit size rfl)
    | call op =>
      have hstep : createStep threadWrapper ⟨h.kernel.sched, []⟩ (.call op) =
          some ⟨t, stacksAfter ⟨h.kernel.sched, []⟩ t op⟩ := by
        rw [createStep, show schedStep threadWrapper h.kernel.sched op = some t from ht]
        rfl
      exact createInv_forget (hI.step hstep)

theorem createInv_boot (k₀ : KernelState) :
    CreateHistory.Inv ⟨(KernelHistory.boot k₀).kernel.sched, []⟩ :=
  CreateHistory.boot_inv k₀.sched

/-- **Memory is used up.** In every run from boot in which no size wraps, the heap
has given away the sum of all rounded sizes ever served: the next block of `SYS_MALLOC`
starts there, and a request or a thread is refused for lack of memory exactly when it
would take that sum to 1 MiB. `SYS_FREE` answers `0` and gives nothing back. -/
theorem heap_is_used_up {k₀ : KernelState}
    (hrun : Runs.run (kernelHistoryStep threadWrapper) (.boot k₀) ops = some h)
    (hfits : Runs.StepsMeet (kernelHistoryStep threadWrapper) (.boot k₀) RequestFits ops) :
    (∀ mem args, h.heap.SumFits (.kmalloc args.arg1) →
      ∃ ptr k, (syscallDispatch mem h.kernel 10 args).result = some (ptr, k) ∧
        (ptr = 0 ↔ args.arg1 = 0 ∨ 2 ^ 20 ≤ bytesTaken h.blocks + rounded args.arg1) ∧
        (ptr ≠ 0 → ptr.toNat = kernelHeapStart.toNat + bytesTaken h.blocks)) ∧
    (∀ entryPoint arg name,
      (threadCreate threadWrapper h.kernel.sched entryPoint arg name).1 = 0#32 ↔
        entryPoint = 0#64 ∨ (∀ i, (h.kernel.sched.threadTable i).tid ≠ 0#32) ∨
          2 ^ 20 ≤ bytesTaken h.blocks + 8192) ∧
    ∀ mem args, (syscallDispatch mem h.kernel 11 args).result = some (0, h.kernel.count 11) := by
  have hboth : Accounted h.heap ∧ CreateHistory.Inv ⟨h.kernel.sched, []⟩ :=
    hfits.invariant (I := fun h => Accounted h.heap ∧ CreateHistory.Inv ⟨h.kernel.sched, []⟩)
      ⟨accounted_boot, createInv_boot k₀⟩
      (fun _ _ _ hI hfit hs => ⟨hI.1.step hfit hs, createInv_step hI.2 hfit hs⟩)
      ops h (List.prefix_refl _) hrun
  obtain ⟨hacc, hcreate⟩ := hboth
  refine ⟨fun mem args hfit => ⟨_, _, dispatch_malloc mem h.kernel args, hacc.kmalloc_result hfit⟩,
    fun entryPoint arg name => ?_, fun mem args => dispatch_free mem h.kernel args⟩
  have hstack : (kmalloc h.kernel.sched.heap threadStackSize).1 = 0#64 ↔
      2 ^ 20 ≤ bytesTaken h.blocks + 8192 := by
    have hfit : h.heap.SumFits (.kmalloc threadStackSize) :=
      hcreate.sumFits (show threadStackSize ≤ 0x100000#64 by decide)
    have hresult := (hacc.kmalloc_result hfit).1
    have hne : threadStackSize ≠ 0 := by decide
    exact hresult.trans (or_iff_right hne)
  rw [← hstack, ← refilledSlot_eq_none_iff]
  cases hslot : refilledSlot h.kernel.sched entryPoint with
  | none =>
    rw [hcreate.create_fails hslot]
    exact iff_of_true rfl rfl
  | some slot =>
    obtain ⟨-, -, htid, -⟩ := threadCreate_of_refilled threadWrapper hslot arg name
    have hpos := hcreate.nextTid_pos
    refine iff_of_false (fun h0 => ?_) (by simp)
    rw [htid] at h0
    rw [h0] at hpos
    exact absurd hpos (by decide)

/-- A thread and 24 bytes of a program: the next block starts 8216 bytes into the
heap. -/
theorem heap_is_used_up_thread_and_malloc :
    ∃ h, Runs.run (kernelHistoryStep 0x100000) (.boot .bss)
        [.kernel (.call (.threadCreate 0x1000 0 none)),
          .syscall (fun _ => 0) 10 ⟨24, 0, 0, 0, 0, 0⟩] = some h ∧
      ∃ ptr k, (syscallDispatch (fun _ => 0) h.kernel 10 ⟨1, 0, 0, 0, 0, 0⟩).result =
        some (ptr, k) ∧
        ptr.toNat = kernelHeapStart.toNat + 8216 := by
  have hrun : Runs.run (kernelHistoryStep 0x100000) (.boot .bss)
      [.kernel (.call (.threadCreate 0x1000 0 none)),
        .syscall (fun _ => 0) 10 ⟨24, 0, 0, 0, 0, 0⟩] = some _ := rfl
  have hfits : Runs.StepsMeet (kernelHistoryStep 0x100000) (.boot .bss) RequestFits
      [.kernel (.call (.threadCreate 0x1000 0 none)),
        .syscall (fun _ => 0) 10 ⟨24, 0, 0, 0, 0, 0⟩] := by
    refine .cons (fun size hsize => by cases hsize) rfl (.cons ?_ rfl (.nil _ _ _))
    rintro size ⟨⟩
    decide
  obtain ⟨ptr, k, hresult, hnull, hptr⟩ := (heap_is_used_up hrun hfits).1 (fun _ => 0)
    ⟨1, 0, 0, 0, 0, 0⟩ (by decide)
  refine ⟨_, hrun, ptr, k, hresult, hptr ?_⟩
  rw [Ne, hnull]
  decide

end Myria.Syscall
