import Mathlib.Data.List.GetD
import Mathlib.Data.List.TakeWhile
import Myria.Sched.WorkConserving

/-! What `thread_create` hands out: thread numbers, stacks and names. A slot is
used again once its thread has been reclaimed, but numbers and stacks never are,
since `kfree` gives nothing back. The stacks of all threads ever created are kept
in a history beside the scheduler, and other code may call `kmalloc` in between. -/
namespace Myria.Sched

open Mm

variable {threadWrapper : U64} {s t : SchedState} {op : SchedOp}

/-! ## The name -/

/-- The copy loop of `thread_create` with `n` bytes of the field left; the source
string ends at its first zero byte or at the end of the list. -/
def copyName (src : List (BitVec 8)) : ℕ → ℕ → List (BitVec 8) → List (BitVec 8)
  | 0, _, field => field
  | n + 1, i, field =>
    if src.getD i 0 ≠ 0 then copyName src n (i + 1) (field.set i (src.getD i 0)) else field

/-- How `thread_create` fills the name field. -/
def setName (name : Option (List (BitVec 8))) : List (BitVec 8) :=
  match name with
  | none => List.replicate 32 0
  | some src => copyName src 31 0 (List.replicate 32 0)

/-- A C string up to its terminator. -/
def cString (bytes : List (BitVec 8)) : List (BitVec 8) := bytes.takeWhile (· ≠ 0)

theorem cString_drop_of_zero {src : List (BitVec 8)} {i : ℕ} (h : src.getD i 0 = 0) :
    cString (src.drop i) = [] := by
  by_cases hi : i < src.length
  · rw [List.getD_eq_getElem _ _ hi] at h
    rw [List.drop_eq_getElem_cons hi, cString, List.takeWhile_cons_of_neg (by simpa using h)]
  · rw [List.drop_of_length_le (Nat.le_of_not_lt hi)]
    rfl

theorem cString_drop_of_ne_zero {src : List (BitVec 8)} {i : ℕ} (h : src.getD i 0 ≠ 0) :
    cString (src.drop i) = src.getD i 0 :: cString (src.drop (i + 1)) := by
  have hi : i < src.length := by
    by_contra hge
    rw [List.getD_eq_default _ _ (Nat.le_of_not_lt hge)] at h
    exact h rfl
  rw [List.getD_eq_getElem _ _ hi] at h ⊢
  rw [List.drop_eq_getElem_cons hi, cString, List.takeWhile_cons_of_pos (by simpa using h)]
  rfl

/-- The loop from byte `i` on, with `m` zero bytes left of which it may use `n`. -/
theorem copyName_eq (src : List (BitVec 8)) (n : ℕ) (done : List (BitVec 8)) {m : ℕ} (hm : n ≤ m) :
    copyName src n done.length (done ++ List.replicate m 0) =
      done ++ (cString (src.drop done.length)).take n ++
        List.replicate (m - ((cString (src.drop done.length)).take n).length) 0 := by
  induction n generalizing done m with
  | zero => simp [copyName]
  | succ n ih =>
    rw [copyName]
    split
    · rename_i hne
      -- the byte goes to the first of the zero bytes
      obtain ⟨m, rfl⟩ : ∃ k, m = k + 1 := ⟨m - 1, by omega⟩
      have hset : (done ++ List.replicate (m + 1) 0).set done.length (src.getD done.length 0) =
          (done ++ [src.getD done.length 0]) ++ List.replicate m 0 := by
        rw [List.set_append_right _ _ (Nat.le_refl _), Nat.sub_self, List.replicate_succ]
        simp
      have hrest := ih (done ++ [src.getD done.length 0]) (m := m) (by omega)
      rw [List.length_append, List.length_singleton] at hrest
      rw [hset, hrest, cString_drop_of_ne_zero hne, List.take_succ_cons, List.length_cons,
        Nat.add_sub_add_right]
      simp
    · rename_i hzero
      rw [cString_drop_of_zero (not_not.mp hzero)]
      simp

/-- The loop leaves the first 31 characters and zeros. -/
theorem threadName_eq_setName (name : Option (List (BitVec 8))) :
    threadName name = setName name := by
  cases name with
  | none => rfl
  | some src =>
    have hloop := copyName_eq src 31 [] (m := 32) (by omega)
    rw [List.nil_append, List.length_nil, List.drop_zero] at hloop
    rw [setName, hloop]
    rfl

/-- Read back as a C string, the field is the name cut to 31 characters. -/
theorem cString_threadName (name : Option (List (BitVec 8))) :
    cString (threadName name) = (cString (name.getD [])).take 31 ∧
      (threadName name).length = 32 ∧ (threadName name)[31]? = some 0 := by
  have hchars : ∀ b ∈ (cString (name.getD [])).take 31,
      (fun b : BitVec 8 => decide (b ≠ 0)) b = true := by
    intro b hb
    have hmem : b ∈ (name.getD []).takeWhile fun b => decide (b ≠ 0) := List.mem_of_mem_take hb
    have hne := List.mem_takeWhile_imp hmem
    exact hne
  have hlen : ((cString (name.getD [])).take 31).length ≤ 31 := List.length_take_le ..
  have heq : threadName name = (cString (name.getD [])).take 31 ++
      List.replicate (32 - ((cString (name.getD [])).take 31).length) 0 := rfl
  generalize (cString (name.getD [])).take 31 = chars at hchars hlen heq ⊢
  obtain ⟨k, hk⟩ : ∃ k, 32 - chars.length = k + 1 := ⟨31 - chars.length, by omega⟩
  rw [heq, hk]
  refine ⟨?_, ?_, ?_⟩
  · rw [cString, List.takeWhile_append_of_pos hchars, List.replicate_succ,
      List.takeWhile_cons_of_neg (by simp), List.append_nil]
  · rw [List.length_append, List.length_replicate]
    omega
  · rw [List.getElem?_append_right (by omega), List.getElem?_replicate_of_lt (by omega)]

/-! ## Numbers and stacks -/

/-- The scheduler with the stacks `[base, top)` of all threads created so far,
newest first. -/
structure CreateHistory where
  sched : SchedState
  stackLog : List (U64 × U64)

/-- A fresh heap and a fresh table. -/
def CreateHistory.boot (s : SchedState) : CreateHistory := ⟨{ schedInit s with heap := ⟨0⟩ }, []⟩

inductive CreateOp where
  | call (op : SchedOp)
  | kmalloc (size : U64)

/-- The stacks after a call; `t` is the state it leaves. -/
def stacksAfter (h : CreateHistory) (t : SchedState) : SchedOp → List (U64 × U64)
  | .threadCreate entryPoint _ _ =>
    match refilledSlot h.sched entryPoint with
    | some slot => ((t.threadTable slot).stackBase, (t.threadTable slot).stackTop) :: h.stackLog
    | none => h.stackLog
  | _ => h.stackLog

/-- One call of the scheduler, or a request of at most 1 MiB by other code. -/
def createStep (threadWrapper : U64) (h : CreateHistory) : CreateOp → Option CreateHistory
  | .call op => (schedStep threadWrapper h.sched op).map fun t => ⟨t, stacksAfter h t op⟩
  | .kmalloc size =>
    if size ≤ 0x100000#64 then
      some { h with sched := { h.sched with heap := (kmalloc h.sched.heap size).2 } }
    else none

/-- The stacks as heap blocks. -/
def CreateHistory.blocks (h : CreateHistory) : HeapHistory :=
  ⟨h.sched.heap, h.stackLog.map fun p => ⟨p.1, threadStackSize⟩⟩

/-- Threads have different numbers, all given out already. -/
structure DistinctTids (s : SchedState) : Prop where
  below : ∀ i, (s.threadTable i).tid ≠ 0#32 → (s.threadTable i).tid.toNat < s.nextTid.toNat
  inj : ∀ i j, (s.threadTable i).tid ≠ 0#32 → (s.threadTable i).tid = (s.threadTable j).tid → i = j

/-- The heap has served every stack, and every thread number since the last
`sched_init` has cost one. -/
structure CreateHistory.Inv (h : CreateHistory) : Prop where
  tids : DistinctTids h.sched
  blocks : h.blocks.Inv
  tops : ∀ p ∈ h.stackLog, p.2.toNat = p.1.toNat + 8192
  nextTid_pos : 1 ≤ h.sched.nextTid.toNat
  paid : kernelHeapStart.toNat + (h.sched.nextTid.toNat - 1) * 8192 ≤ h.sched.heap.ptr.toNat

@[simp] theorem threadStackSize_toNat : threadStackSize.toNat = 8192 := rfl

/-- `t` has the numbers and the heap of `s`, with some threads reclaimed. -/
structure KeepsIdentity (s t : SchedState) : Prop where
  nextTid : t.nextTid = s.nextTid
  heap : t.heap = s.heap
  tid : ∀ i, (t.threadTable i).tid = (s.threadTable i).tid ∨ (t.threadTable i).tid = 0#32

theorem schedYield_tid (s : SchedState) (i : Slot) :
    ((schedYield s).threadTable i).tid = (s.threadTable i).tid := by
  rw [schedYield_eq]
  split
  · rfl
  · exact switchTo_tid ..

theorem tickCurrent_tid (s : SchedState) (i : Slot) :
    ((tickCurrent s).threadTable i).tid = (s.threadTable i).tid := by
  rcases tickCurrent_cases s with ⟨-, hsame⟩ | ⟨u, -, hsame, heq⟩
  · exact hsame.tid i
  · rw [heq, schedYield_tid, hsame.tid]

theorem keepsIdentity_yield (s : SchedState) : KeepsIdentity s (schedYield s) :=
  ⟨(schedYield_alloc s).1, (schedYield_alloc s).2, fun i => .inl (schedYield_tid s i)⟩

theorem keepsIdentity_tick (s : SchedState) : KeepsIdentity s (schedTick s) := by
  refine ⟨(schedTick_alloc s).1, (schedTick_alloc s).2, fun i => ?_⟩
  rcases schedTick_cases s with ⟨-, heq⟩ | ⟨-, -, heq⟩ | ⟨-, -, heq⟩
  · rw [heq]
    exact .inl rfl
  · rw [heq]
    exact .inl (tickCurrent_tid s i)
  · rw [heq, cleanupZombieThreads_eq, ← tickCurrent_tid s i]
    change ((tickCurrent s).threadTable i).reclaim.tid = _ ∨
      ((tickCurrent s).threadTable i).reclaim.tid = 0#32
    rw [Thread.reclaim]
    split
    · exact .inr rfl
    · exact .inl rfl

theorem keepsIdentity_start (s : SchedState) : KeepsIdentity s (schedStart s) := by
  rcases schedStart_cases s with heq | ⟨first, -, heq⟩
  · rw [heq]
    exact ⟨rfl, rfl, fun _ => .inl rfl⟩
  · rw [heq]
    refine ⟨rfl, rfl, fun i => .inl ?_⟩
    by_cases hi : i = first <;> simp [SchedState.setState, hi]

theorem keepsIdentity_finish (s : SchedState) (i : Slot) : KeepsIdentity s (finishThread s i) := by
  have h := keepsIdentity_yield
    { s.setState i .zombie with activeThreadCount := s.activeThreadCount - 1 }
  refine ⟨h.nextTid, h.heap, fun j => .inl ?_⟩
  rw [finishThread, schedYield_tid]
  by_cases hj : j = i <;> simp [SchedState.setState, hj]

theorem DistinctTids.keep (h : DistinctTids s) (hkeep : KeepsIdentity s t) : DistinctTids t := by
  have htid : ∀ i, (t.threadTable i).tid ≠ 0#32 → (t.threadTable i).tid = (s.threadTable i).tid :=
    fun i hi => (hkeep.tid i).resolve_right hi
  refine ⟨fun i hi => ?_, fun i j hi hij => ?_⟩
  · rw [htid i hi, hkeep.nextTid]
    exact h.below i (htid i hi ▸ hi)
  · have hj : (t.threadTable j).tid ≠ 0#32 := hij ▸ hi
    exact h.inj i j (htid i hi ▸ hi) ((htid i hi).symm.trans (hij.trans (htid j hj)))

theorem CreateHistory.Inv.keep {h : CreateHistory} (hI : h.Inv) (hkeep : KeepsIdentity h.sched t) :
    CreateHistory.Inv ⟨t, h.stackLog⟩ := by
  refine ⟨hI.tids.keep hkeep, ?_, hI.tops, ?_, ?_⟩
  · rw [CreateHistory.blocks, hkeep.heap]
    exact hI.blocks
  · rw [hkeep.nextTid]
    exact hI.nextTid_pos
  · rw [hkeep.nextTid, hkeep.heap]
    exact hI.paid

theorem DistinctTids.init (s : SchedState) (heap : Heap) :
    DistinctTids { schedInit s with heap } :=
  ⟨fun _ hi => absurd rfl hi, fun _ _ hi _ => absurd rfl hi⟩

theorem CreateHistory.boot_inv (s : SchedState) : (CreateHistory.boot s).Inv where
  tids := .init s ⟨0⟩
  blocks := HeapHistory.boot_inv
  tops := by simp [boot]
  nextTid_pos := by
    show 1 ≤ (1#32).toNat
    decide
  paid := by
    show kernelHeapStart.toNat + 0 * 8192 ≤ (Heap.mk 0).ptr.toNat
    decide

/-- The heap never runs out of thread numbers: 1 MiB is 128 stacks. -/
theorem CreateHistory.Inv.nextTid_le {h : CreateHistory} (hI : h.Inv) :
    h.sched.nextTid.toNat ≤ 128 := by
  have hpaid := hI.paid
  have hlimit := hI.blocks.lt_limit
  change h.sched.heap.ptr.toNat < _ at hlimit
  simp only [kernelHeapStart_toNat, kernelHeapLimit_toNat] at hpaid hlimit
  omega

theorem CreateHistory.Inv.sumFits {h : CreateHistory} (hI : h.Inv) {size : U64}
    (hsize : size ≤ 0x100000#64) : h.blocks.SumFits (.kmalloc size) := by
  have hlimit := hI.blocks.lt_limit
  rw [BitVec.le_def] at hsize
  change h.sched.heap.ptr.toNat + (size.toNat + 7) / 8 * 8 < 2 ^ 64
  change h.sched.heap.ptr.toNat < _ at hlimit
  simp only [kernelHeapLimit_toNat] at hlimit
  change size.toNat ≤ 0x100000 at hsize
  omega

/-- A request for a stack that fails leaves the heap as it was: the very first
request cannot fail. -/
theorem CreateHistory.Inv.kmalloc_fails {h : CreateHistory} (hI : h.Inv)
    (hz : (kmalloc h.sched.heap threadStackSize).1 = 0#64) :
    (kmalloc h.sched.heap threadStackSize).2 = h.sched.heap := by
  have hptr : h.sched.heap.ptr ≠ 0 := hI.blocks.ptr_ne_zero
  rw [kmalloc, if_neg (by decide)] at hz ⊢
  by_cases hlim : kernelHeapLimit ≤ h.sched.heap.ptr + alignUp threadStackSize 8
  · rw [if_pos hlim]
    have hne : h.sched.heap.simpleHeapPtr ≠ 0 := by
      intro h0
      rw [Heap.ptr, if_pos h0] at hlim
      exact absurd hlim (by decide)
    rw [Heap.ptr, if_neg hne]
  · rw [if_neg hlim] at hz
    exact absurd hz hptr

/-- What a request for a stack does when it succeeds. -/
theorem CreateHistory.Inv.kmalloc_stack {h : CreateHistory} (hI : h.Inv)
    (hne : (kmalloc h.sched.heap threadStackSize).1 ≠ 0#64) :
    (kmalloc h.sched.heap threadStackSize).1 = h.sched.heap.ptr ∧
      (kmalloc h.sched.heap threadStackSize).2.ptr.toNat = h.sched.heap.ptr.toNat + 8192 := by
  have hfit := hI.sumFits (show threadStackSize ≤ 0x100000#64 by decide)
  rcases kmalloc_cases hI.blocks hfit with ⟨hz, -⟩ | ⟨hr, hp, -⟩
  · exact absurd hz hne
  · exact ⟨hr, hp⟩

/-! ## One creation -/

/-- `t` is `s` with a new thread in `slot`. -/
structure Created (s : SchedState) (slot : Slot) (thread : Thread) (heap : Heap) (t : SchedState) :
    Prop where
  table : ∀ i, t.threadTable i = if i = slot then thread else s.threadTable i
  current : t.current = s.current
  nextTid : t.nextTid = s.nextTid + 1
  active : t.activeThreadCount = s.activeThreadCount + 1
  ticks : t.schedulerTicks = s.schedulerTicks
  enabled : t.enabled = s.enabled
  heap : t.heap = heap

/-- What `thread_create` returns and leaves when it fills a slot. -/
theorem threadCreate_of_refilled (threadWrapper : U64) {slot : Slot} {entryPoint : U64}
    (h : refilledSlot s entryPoint = some slot) (arg : U64) (name : Option (List (BitVec 8))) :
    (kmalloc s.heap threadStackSize).1 ≠ 0#64 ∧ freeSlot s = some slot ∧
    (threadCreate threadWrapper s entryPoint arg name).1 = s.nextTid ∧
    Created s slot (newThread threadWrapper s.nextTid entryPoint arg name
      (kmalloc s.heap threadStackSize).1) (kmalloc s.heap threadStackSize).2
      (threadCreate threadWrapper s entryPoint arg name).2 := by
  revert h
  rw [refilledSlot, threadCreate]
  obtain ⟨stackBase, heap⟩ := kmalloc s.heap threadStackSize
  intro h
  split at h
  · cases h
  · rename_i hok
    rw [not_or] at hok
    rw [if_neg hok.1, h]
    simp only [if_neg hok.2]
    refine ⟨hok.2, trivial, trivial, fun i => ?_, rfl, rfl, rfl, rfl, rfl, rfl⟩
    simp only [SchedState.modify_threadTable]

theorem refilledSlot_eq_none_iff {entryPoint : U64} :
    refilledSlot s entryPoint = none ↔ entryPoint = 0#64 ∨
      (∀ i, (s.threadTable i).tid ≠ 0#32) ∨ (kmalloc s.heap threadStackSize).1 = 0#64 := by
  have hfree : freeSlot s = none ↔ ∀ i, (s.threadTable i).tid ≠ 0#32 := by
    simp [freeSlot, List.find?_eq_none]
  rw [refilledSlot, ← hfree]
  generalize (kmalloc s.heap threadStackSize).1 = stackBase
  split
  · rename_i h
    exact iff_of_true rfl (h.imp_right .inr)
  · rename_i h
    rw [not_or] at h
    exact ⟨fun hf => .inr (.inl hf), fun hor => (hor.resolve_left h.1).resolve_right h.2⟩

/-- A creation that fails changes nothing. -/
theorem CreateHistory.Inv.create_fails {h : CreateHistory} (hI : h.Inv) {entryPoint : U64}
    (hnone : refilledSlot h.sched entryPoint = none) (arg : U64)
    (name : Option (List (BitVec 8))) :
    threadCreate threadWrapper h.sched entryPoint arg name = (0, h.sched) := by
  rw [threadCreate]
  split
  · rfl
  · rename_i hentry
    split
    · rfl
    · rename_i slot hslot
      have hz : (kmalloc h.sched.heap threadStackSize).1 = 0#64 := by
        rw [refilledSlot, hslot] at hnone
        by_contra hne
        rw [if_neg (not_or.mpr ⟨hentry, hne⟩)] at hnone
        cases hnone
      simp only [hz, if_true, hI.kmalloc_fails hz]

/-- The new thread's number is larger than those in use. -/
theorem DistinctTids.create (h : DistinctTids s) {slot : Slot} {thread : Thread} {heap : Heap}
    (hnew : Created s slot thread heap t) (htid : thread.tid = s.nextTid)
    (hnext : t.nextTid.toNat = s.nextTid.toNat + 1) : DistinctTids t := by
  have hold : ∀ i, i ≠ slot → (t.threadTable i).tid = (s.threadTable i).tid := by
    intro i hi
    rw [hnew.table, if_neg hi]
  have hslot : (t.threadTable slot).tid = s.nextTid := by
    rw [hnew.table, if_pos rfl, htid]
  have hfresh : ∀ i, i ≠ slot → (t.threadTable slot).tid ≠ 0#32 →
      (t.threadTable slot).tid ≠ (t.threadTable i).tid := by
    intro i hi hne heq
    have hbelow := h.below i (by rw [← hold i hi, ← heq]; exact hne)
    rw [← hold i hi, ← heq, hslot] at hbelow
    exact Nat.lt_irrefl _ hbelow
  refine ⟨fun i hi => ?_, fun i j hi heq => ?_⟩
  · by_cases his : i = slot
    · rw [his, hslot, hnext]
      exact Nat.lt_succ_self _
    · rw [hold i his] at hi ⊢
      rw [hnext]
      exact Nat.lt_succ_of_lt (h.below i hi)
  · by_cases his : i = slot
    · by_contra hij
      subst his
      exact hfresh j (Ne.symm hij) hi heq
    · by_cases hjs : j = slot
      · subst hjs
        exact absurd heq.symm (hfresh i his (heq ▸ hi))
      · rw [hold i his] at hi heq
        rw [hold j hjs] at heq
        exact h.inj i j hi heq

/-- The top of the next stack, if it is handed out. -/
theorem CreateHistory.Inv.stack_top {h : CreateHistory} (hI : h.Inv) :
    (h.sched.heap.ptr + threadStackSize).toNat = h.sched.heap.ptr.toNat + 8192 := by
  have hlimit := hI.blocks.lt_limit
  change h.sched.heap.ptr.toNat < kernelHeapLimit.toNat at hlimit
  rw [kernelHeapLimit_toNat] at hlimit
  rw [BitVec.toNat_add, threadStackSize_toNat]
  omega

theorem CreateHistory.Inv.create {h : CreateHistory} (hI : h.Inv) (entryPoint arg : U64)
    (name : Option (List (BitVec 8))) :
    CreateHistory.Inv ⟨(threadCreate threadWrapper h.sched entryPoint arg name).2,
      stacksAfter h (threadCreate threadWrapper h.sched entryPoint arg name).2
        (.threadCreate entryPoint arg name)⟩ := by
  cases hslot : refilledSlot h.sched entryPoint with
  | none =>
    simp only [hI.create_fails hslot, stacksAfter, hslot]
    exact hI
  | some slot =>
    obtain ⟨hne, hfree, -, hnew⟩ := threadCreate_of_refilled threadWrapper hslot arg name
    obtain ⟨hbase, hptr⟩ := hI.kmalloc_stack hne
    simp only [stacksAfter, hslot]
    have hblocks : HeapHistory.Inv ⟨(kmalloc h.sched.heap threadStackSize).2,
        ⟨(kmalloc h.sched.heap threadStackSize).1, threadStackSize⟩ :: h.blocks.blocks⟩ :=
      hI.blocks.kmalloc (hI.sumFits (show threadStackSize ≤ 0x100000#64 by decide))
        (heapStep_served rfl hne)
    generalize (threadCreate threadWrapper h.sched entryPoint arg name).2 = t at hnew ⊢
    generalize kmalloc h.sched.heap threadStackSize = r at *
    obtain ⟨stackBase, heap⟩ := r
    obtain rfl : stackBase = h.sched.heap.ptr := hbase
    have hsmall := hI.nextTid_le
    have hpos := hI.nextTid_pos
    have hpaid := hI.paid
    have hnext : t.nextTid.toNat = h.sched.nextTid.toNat + 1 := by
      rw [hnew.nextTid]
      exact counter_succ_toNat rfl (by omega)
    have hslotTable : t.threadTable slot =
        newThread threadWrapper h.sched.nextTid entryPoint arg name h.sched.heap.ptr := by
      rw [hnew.table, if_pos rfl]
    refine ⟨hI.tids.create hnew rfl hnext, ?_, ?_, ?_, ?_⟩
    · rw [CreateHistory.blocks, hnew.heap, hslotTable]
      exact hblocks
    · intro p hp
      rcases List.mem_cons.mp hp with rfl | hp
      · rw [hslotTable]
        exact hI.stack_top
      · exact hI.tops p hp
    · rw [hnext]
      omega
    · have hmoved : t.heap.ptr.toNat = h.sched.heap.ptr.toNat + 8192 := by
        rw [hnew.heap]
        exact hptr
      have hcost : (h.sched.nextTid.toNat + 1 - 1) * 8192 =
          (h.sched.nextTid.toNat - 1) * 8192 + 8192 := by
        omega
      rw [hnext, hmoved, hcost, ← Nat.add_assoc]
      exact Nat.add_le_add_right hpaid 8192

/-! ## Whole runs -/

theorem CreateHistory.Inv.step {h h' : CreateHistory} {op : CreateOp} (hI : h.Inv)
    (hs : createStep threadWrapper h op = some h') : h'.Inv := by
  cases op with
  | call op =>
    obtain ⟨t, ht, rfl⟩ := Option.map_eq_some_iff.mp hs
    cases op with
    | schedInit =>
      cases ht
      have hone : (schedInit h.sched).nextTid.toNat = 1 := rfl
      refine ⟨.init h.sched h.sched.heap, hI.blocks, hI.tops, hone.ge, ?_⟩
      rw [hone, Nat.sub_self, Nat.zero_mul, Nat.add_zero]
      exact hI.blocks.start_le
    | threadCreate entryPoint arg name => cases ht; exact hI.create entryPoint arg name
    | schedStart => cases ht; exact hI.keep (keepsIdentity_start _)
    | schedYield => cases ht; exact hI.keep (keepsIdentity_yield _)
    | schedTick => cases ht; exact hI.keep (keepsIdentity_tick _)
    | threadExit =>
      obtain ⟨i, -, rfl⟩ := Option.map_eq_some_iff.mp ht
      exact hI.keep (keepsIdentity_finish _ i)
  | kmalloc size =>
    rw [createStep] at hs
    split at hs
    · rename_i hsize
      cases Option.some.inj hs
      obtain ⟨hblocks, hmore⟩ := hI.blocks.advance (hI.sumFits hsize)
      exact ⟨⟨hI.tids.below, hI.tids.inj⟩, hblocks, hI.tops, hI.nextTid_pos,
        Nat.le_trans hI.paid hmore⟩
    · cases hs

theorem run_createInv {s₀ : SchedState} {ops : List CreateOp} {h : CreateHistory}
    (hrun : Runs.run (createStep threadWrapper) (.boot s₀) ops = some h) : h.Inv :=
  Runs.run_invariant (P := fun _ h => h.Inv) (CreateHistory.boot_inv s₀)
    (fun _ _ _ _ _ ih hs => ih.step hs) ops h hrun

/-- A successful creation, in full: the new thread is in the lowest free slot
under the number that is returned, and nothing else has changed but the two
counters and the heap; its stack pointer is aligned and points into its stack; and
its name is the given one, cut to 31 characters and terminated. -/
structure CreatesThread (s : SchedState) (name : Option (List (BitVec 8))) (tid : U32)
    (t : SchedState) (slot : Slot) : Prop where
  free : (s.threadTable slot).tid = 0#32
  lowest : ∀ j < slot, (s.threadTable j).tid ≠ 0#32
  tid : (t.threadTable slot).tid = tid
  others : ∀ i, i ≠ slot → t.threadTable i = s.threadTable i
  current : t.current = s.current
  ticks : t.schedulerTicks = s.schedulerTicks
  enabled : t.enabled = s.enabled
  nextTid : t.nextTid = s.nextTid + 1
  active : t.activeThreadCount = s.activeThreadCount + 1
  rsp_aligned : ((t.threadTable slot).context.reg .rsp).toNat % 16 = 0
  rsp_inside : (t.threadTable slot).stackBase.toNat ≤
    ((t.threadTable slot).context.reg .rsp).toNat ∧
    ((t.threadTable slot).context.reg .rsp).toNat < (t.threadTable slot).stackTop.toNat
  name_copied : (t.threadTable slot).name = setName name
  name_chars : cString (t.threadTable slot).name = (cString (name.getD [])).take 31
  name_length : (t.threadTable slot).name.length = 32
  name_end : (t.threadTable slot).name[31]? = some 0

theorem freeSlot_eq_some {slot : Slot} (h : freeSlot s = some slot) :
    (s.threadTable slot).tid = 0#32 ∧ ∀ j < slot, (s.threadTable j).tid ≠ 0#32 := by
  obtain ⟨hfree, before, after, hsplit, hskip⟩ := List.find?_eq_some_iff_append.mp h
  refine ⟨by simpa using hfree, fun j hj => ?_⟩
  simpa using hskip j ((mem_before_iff hsplit j).mpr hj)

theorem alignedStack_toNat (stackTop : U64) :
    ((stackTop - 16) &&& ~~~0xF).toNat = (stackTop - 16).toNat / 16 * 16 := by
  have hmask : ~~~(0xF : U64) = BitVec.allOnes 64 <<< 4 := by decide
  rw [hmask, BitField.and_high_toNat, show 2 ^ 4 = 16 from rfl]

theorem CreateHistory.Inv.createsThread {h : CreateHistory} (hI : h.Inv) {entryPoint : U64}
    {slot : Slot} (hslot : refilledSlot h.sched entryPoint = some slot) (arg : U64)
    (name : Option (List (BitVec 8))) :
    CreatesThread h.sched name (threadCreate threadWrapper h.sched entryPoint arg name).1
      (threadCreate threadWrapper h.sched entryPoint arg name).2 slot := by
  obtain ⟨hne, hfree, htid, hnew⟩ := threadCreate_of_refilled threadWrapper hslot arg name
  obtain ⟨hbase, -⟩ := hI.kmalloc_stack hne
  obtain ⟨hchars, hlen, hend⟩ := cString_threadName name
  have htable : (threadCreate threadWrapper h.sched entryPoint arg name).2.threadTable slot =
      newThread threadWrapper h.sched.nextTid entryPoint arg name h.sched.heap.ptr := by
    rw [hnew.table, if_pos rfl, hbase]
  have hrsp : (((threadCreate threadWrapper h.sched entryPoint arg name).2.threadTable
      slot).context.reg .rsp).toNat = (h.sched.heap.ptr.toNat + 8176) / 16 * 16 := by
    have htop := hI.stack_top
    rw [htable]
    change ((h.sched.heap.ptr + threadStackSize - 16) &&& ~~~0xF).toNat = _
    have hle : (16 : U64) ≤ h.sched.heap.ptr + threadStackSize := by
      rw [BitVec.le_def, htop]
      show 16 ≤ _
      omega
    rw [alignedStack_toNat, BitVec.toNat_sub_of_le hle, htop]
    rfl
  have htop := hI.stack_top
  refine ⟨(freeSlot_eq_some hfree).1, (freeSlot_eq_some hfree).2, ?_, ?_, hnew.current, hnew.ticks,
    hnew.enabled, hnew.nextTid, hnew.active, ?_, ?_, ?_, ?_, ?_, ?_⟩
  · rw [htable, htid]
    rfl
  · intro i hi
    rw [hnew.table, if_neg hi]
  · rw [hrsp]
    omega
  · rw [hrsp, htable]
    change h.sched.heap.ptr.toNat ≤ _ ∧ _ < (h.sched.heap.ptr + threadStackSize).toNat
    rw [htop]
    omega
  · rw [htable, ← threadName_eq_setName]
    rfl
  · rw [htable]
    exact hchars
  · rw [htable]
    exact hlen
  · rw [htable]
    exact hend

/-- The stacks handed out so far do not overlap. -/
theorem CreateHistory.Inv.stacks_disjoint {h : CreateHistory} (hI : h.Inv) :
    h.stackLog.Pairwise fun p q => p.2.toNat ≤ q.1.toNat ∨ q.2.toNat ≤ p.1.toNat := by
  have hblocks := List.pairwise_map.mp hI.blocks.disjoint
  refine hblocks.imp_of_mem fun {p q} hp hq hpq => ?_
  rw [hI.tops p hp, hI.tops q hq]
  exact hpq

/-- **Creation is atomic, and threads share neither number nor stack.** In every
run from `sched_init`, with `kmalloc` calls of at most 1 MiB by other code: the
threads in the table have different numbers below `next_tid`; `thread_create` returns
`0` exactly when the entry point is null, every slot is taken or `kmalloc` fails,
and then changes nothing at all; otherwise it creates one thread in the lowest free
slot; and the stacks of all threads ever created are disjoint. -/
theorem thread_creation_atomic {s₀ : SchedState} {ops : List CreateOp} {h : CreateHistory}
    (hrun : Runs.run (createStep threadWrapper) (.boot s₀) ops = some h) :
    (∀ i, (h.sched.threadTable i).tid ≠ 0#32 →
      (h.sched.threadTable i).tid.toNat < h.sched.nextTid.toNat) ∧
    (∀ i j, (h.sched.threadTable i).tid ≠ 0#32 →
      (h.sched.threadTable i).tid = (h.sched.threadTable j).tid → i = j) ∧
    (h.stackLog.Pairwise fun p q => p.2.toNat ≤ q.1.toNat ∨ q.2.toNat ≤ p.1.toNat) ∧
    (∀ p ∈ h.stackLog, p.2.toNat = p.1.toNat + 8192) ∧
    ∀ entryPoint arg name,
      ((threadCreate threadWrapper h.sched entryPoint arg name).1 = 0#32 ↔
        entryPoint = 0#64 ∨ (∀ i, (h.sched.threadTable i).tid ≠ 0#32) ∨
          (kmalloc h.sched.heap threadStackSize).1 = 0#64) ∧
      ((threadCreate threadWrapper h.sched entryPoint arg name).1 = 0#32 →
        (threadCreate threadWrapper h.sched entryPoint arg name).2 = h.sched) ∧
      ((threadCreate threadWrapper h.sched entryPoint arg name).1 ≠ 0#32 →
        ∃ slot, CreatesThread h.sched name
          (threadCreate threadWrapper h.sched entryPoint arg name).1
          (threadCreate threadWrapper h.sched entryPoint arg name).2 slot) := by
  have hI := run_createInv hrun
  refine ⟨hI.tids.below, hI.tids.inj, hI.stacks_disjoint, hI.tops, fun entryPoint arg name => ?_⟩
  rw [← refilledSlot_eq_none_iff]
  cases hslot : refilledSlot h.sched entryPoint with
  | none =>
    rw [hI.create_fails hslot]
    exact ⟨iff_of_true rfl rfl, fun _ => rfl, fun hne => absurd rfl hne⟩
  | some slot =>
    have htid : (threadCreate threadWrapper h.sched entryPoint arg name).1 ≠ 0#32 := by
      obtain ⟨-, -, htid, -⟩ := threadCreate_of_refilled threadWrapper hslot arg name
      have hpos := hI.nextTid_pos
      rw [htid]
      intro h0
      rw [h0] at hpos
      exact absurd hpos (by decide)
    exact ⟨iff_of_false htid (by simp), fun h0 => absurd h0 htid,
      fun _ => ⟨slot, hI.createsThread hslot arg name⟩⟩

/-- A thread, 24 bytes for other code and a second thread: two numbers and two
stacks. -/
theorem thread_creation_two_threads :
    ∃ h, Runs.run (createStep 0x100000) (.boot .bss)
        [.call (.threadCreate 0x1000 0 none), .kmalloc 24, .call (.threadCreate 0x2000 0 none)] =
          some h ∧
      h.stackLog = [(0xffffffff81002018, 0xffffffff81004018),
        (0xffffffff81000000, 0xffffffff81002000)] ∧
      h.stackLog.Pairwise fun p q => p.2.toNat ≤ q.1.toNat ∨ q.2.toNat ≤ p.1.toNat := by
  have hrun : Runs.run (createStep 0x100000) (.boot .bss)
      [.call (.threadCreate 0x1000 0 none), .kmalloc 24, .call (.threadCreate 0x2000 0 none)] =
        some _ := rfl
  exact ⟨_, hrun, by decide, (thread_creation_atomic hrun).2.2.1⟩

end Myria.Sched
