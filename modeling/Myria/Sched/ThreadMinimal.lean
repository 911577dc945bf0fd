import Mathlib.Data.List.FinRange
import Myria.Lib.X86
import Myria.Mm.Heap

/-! The scheduler of `thread_minimal.c`: a table of eight thread slots, a
pointer to the slot of the current thread, and a round-robin search. A switch
only exchanges the states of two slots and moves the pointer; no registers are
swapped. Null pointers are `0`, or `none` for `current_thread`; the serial
messages are left out. -/
namespace Myria.Sched

open Mm

inductive ThreadState where
  | ready | running | blocked | zombie
deriving DecidableEq, Repr

/-- `cpu_context_t`: the sixteen general registers, `rip` and `rflags`. -/
structure CpuContext where
  reg : X86.Reg → U64
  rip : U64
  rflags : U64

structure Thread where
  tid : U32
  state : ThreadState
  priority : BitVec 8
  /-- the 32 bytes of the name -/
  name : List (BitVec 8)
  entryPoint : U64
  arg : U64
  stackBase : U64
  stackTop : U64
  context : CpuContext
  timeSlice : U64
  totalRuntime : U64

abbrev maxThreads : Nat := 8

instance : NeZero maxThreads := ⟨by decide⟩

def threadStackSize : U64 := 8192
def defaultTimeSlice : U64 := 10

abbrev Slot := Fin maxThreads

/-- The statics of `thread_minimal.c`, and the heap that stacks come from. -/
structure SchedState where
  threadTable : Slot → Thread
  current : Option Slot
  nextTid : U32
  activeThreadCount : U32
  schedulerTicks : U32
  enabled : Bool
  heap : Heap

/-- Change one slot of the table. -/
def SchedState.modify (s : SchedState) (i : Slot) (f : Thread → Thread) : SchedState :=
  { s with threadTable := Function.update s.threadTable i (f (s.threadTable i)) }

def SchedState.setState (s : SchedState) (i : Slot) (state : ThreadState) : SchedState :=
  s.modify i fun t => { t with state }

/-- `sched_init`, whatever the statics held before; saved contexts stay. -/
def schedInit (s : SchedState) : SchedState :=
  { s with
    current := none
    nextTid := 1
    activeThreadCount := 0
    schedulerTicks := 0
    enabled := false
    threadTable := fun i =>
      { s.threadTable i with
        tid := 0
        state := .zombie
        priority := 1
        entryPoint := 0
        arg := 0
        stackBase := 0
        stackTop := 0
        timeSlice := 0
        totalRuntime := 0
        name := List.replicate 32 0 } }

/-- The slots in the order `find_next_thread` looks at them. -/
def searchOrder (current : Option Slot) : List Slot :=
  let start := match current with
    | some i => i + 1
    | none => 0
  (List.finRange maxThreads).map (start + ·)

/-- A thread that `find_next_thread` would choose. -/
def Thread.Runnable (t : Thread) : Prop := t.tid ≠ 0#32 ∧ t.state = .ready

instance (t : Thread) : Decidable t.Runnable := inferInstanceAs (Decidable (_ ∧ _))

def findNextThread (s : SchedState) : Option Slot :=
  if s.activeThreadCount = 0#32 then none
  else (searchOrder s.current).find? fun i => (s.threadTable i).Runnable

/-- The assignments of a switch. -/
def SchedState.switchTo (s : SchedState) (old next : Slot) : SchedState :=
  -- the old slot becomes READY whatever its state was
  ({ s with current := some next }.setState next .running).setState old .ready

def schedYield (s : SchedState) : SchedState :=
  if !s.enabled then s
  else
    match s.current with
    | none => s
    | some old =>
      match findNextThread s with
      | none => s
      | some next => if next = old then s else s.switchTo old next

/-- The loop body of `cleanup_zombie_threads`. -/
def cleanupSlot (s : SchedState) (i : Slot) : SchedState :=
  let t := s.threadTable i
  if t.state = .zombie ∧ t.tid ≠ 0#32 then
    let s := if t.stackBase ≠ 0#64 then { s with heap := kfree s.heap t.stackBase } else s
    s.modify i fun t =>
      { t with tid := 0, state := .zombie, entryPoint := 0, stackBase := 0, stackTop := 0 }
  else s

def cleanupZombieThreads (s : SchedState) : SchedState :=
  (List.finRange maxThreads).foldl cleanupSlot s

/-- Charge the tick to the current thread. -/
def SchedState.charge (s : SchedState) (i : Slot) : SchedState :=
  s.modify i fun t =>
    { t with totalRuntime := t.totalRuntime + 1, timeSlice := t.timeSlice - 1 }

/-- Refill an expired time slice. -/
def SchedState.refill (s : SchedState) (i : Slot) : SchedState :=
  s.modify i fun t => { t with timeSlice := defaultTimeSlice }

/-- `sched_tick` up to the periodic cleanup. -/
def tickCurrent (s : SchedState) : SchedState :=
  let s := { s with schedulerTicks := s.schedulerTicks + 1 }
  match s.current with
  | none => s
  | some i =>
    let s := s.charge i
    -- `time_slice` is unsigned, so `<= 0` is `== 0`
    if (s.threadTable i).timeSlice = 0#64 then schedYield (s.refill i) else s

def schedTick (s : SchedState) : SchedState :=
  if !s.enabled then s
  else
    let s := tickCurrent s
    if s.schedulerTicks % 100 = 0#32 then cleanupZombieThreads s else s

/-- The first 31 characters of a C string, padded with zeros to 32 bytes; a null
name is empty. -/
def threadName (name : Option (List (BitVec 8))) : List (BitVec 8) :=
  let chars := ((name.getD []).takeWhile (· ≠ 0)).take 31
  chars ++ List.replicate (32 - chars.length) 0

/-- The context of a thread that has not run yet. -/
def initialContext (threadWrapper stackTop : U64) : CpuContext :=
  let alignedStack := (stackTop - 16) &&& ~~~0xF
  { reg := fun
      | .rsp | .rbp => alignedStack
      | _ => 0
    rip := threadWrapper
    rflags := 0x202 }

def freeSlot (s : SchedState) : Option Slot :=
  (List.finRange maxThreads).find? fun i => (s.threadTable i).tid = 0#32

section

-- the address of `thread_wrapper`
variable (threadWrapper : U64)

/-- What `thread_create` writes into its slot. -/
def newThread (tid : U32) (entryPoint arg : U64) (name : Option (List (BitVec 8)))
    (stackBase : U64) : Thread where
  tid := tid
  state := .ready
  priority := 1
  name := threadName name
  entryPoint := entryPoint
  arg := arg
  stackBase := stackBase
  stackTop := stackBase + threadStackSize
  context := initialContext threadWrapper (stackBase + threadStackSize)
  timeSlice := defaultTimeSlice
  totalRuntime := 0

def threadCreate (s : SchedState) (entryPoint arg : U64) (name : Option (List (BitVec 8))) :
    U32 × SchedState :=
  if entryPoint = 0#64 then (0, s)
  else
    match freeSlot s with
    | none => (0, s)
    | some slot =>
      let (stackBase, heap) := kmalloc s.heap threadStackSize
      let s := { s with heap }
      if stackBase = 0#64 then (0, s)
      else
        (s.nextTid,
          { s.modify slot fun _ => newThread threadWrapper s.nextTid entryPoint arg name
            stackBase with
            nextTid := s.nextTid + 1
            activeThreadCount := s.activeThreadCount + 1 })

def schedStart (s : SchedState) : SchedState :=
  let s := { s with enabled := true }
  match findNextThread s with
  | some first => { s with current := some first }.setState first .running
  | none => s

/-- The tail of `thread_wrapper`, for the thread in slot `i`. -/
def finishThread (s : SchedState) (i : Slot) : SchedState :=
  schedYield { s.setState i .zombie with activeThreadCount := s.activeThreadCount - 1 }

inductive SchedOp where
  | schedInit
  | threadCreate (entryPoint arg : U64) (name : Option (List (BitVec 8)))
  | schedStart
  | schedYield
  | schedTick
  | threadExit
deriving DecidableEq

/-- One call. A thread can only finish while it is the current one. -/
def schedStep (s : SchedState) : SchedOp → Option SchedState
  | .schedInit => some (schedInit s)
  | .threadCreate entryPoint arg name => some (threadCreate threadWrapper s entryPoint arg name).2
  | .schedStart => some (schedStart s)
  | .schedYield => some (schedYield s)
  | .schedTick => some (schedTick s)
  | .threadExit => s.current.map (finishThread s)

end

/-! ## What each function can do -/

@[simp] theorem SchedState.modify_threadTable (s : SchedState) (i j : Slot) (f : Thread → Thread) :
    (s.modify i f).threadTable j = if j = i then f (s.threadTable i) else s.threadTable j :=
  Function.update_apply _ _ _ _

@[simp] theorem SchedState.modify_current (s : SchedState) (i : Slot) (f : Thread → Thread) :
    (s.modify i f).current = s.current := rfl

theorem findNextThread_runnable {s : SchedState} {i : Slot} (h : findNextThread s = some i) :
    (s.threadTable i).Runnable := by
  rw [findNextThread] at h
  split at h
  · cases h
  · simpa using List.find?_some h

/-- The search looks at every slot. -/
theorem mem_searchOrder (current : Option Slot) (j : Slot) : j ∈ searchOrder current := by
  simp only [searchOrder, List.mem_map]
  exact ⟨j - _, List.mem_finRange _, add_sub_cancel _ _⟩

/-- A loop over the table reaches slot `i` after exactly the slots below it. -/
theorem mem_before_iff {is rest : List Slot} {i : Slot}
    (h : List.finRange maxThreads = is ++ i :: rest) (j : Slot) : j ∈ is ↔ j < i := by
  have hsorted := List.pairwise_lt_finRange maxThreads
  have hmem := List.mem_finRange j
  rw [h] at hsorted hmem
  obtain ⟨-, hrest, hacross⟩ := List.pairwise_append.mp hsorted
  constructor
  · intro hj
    exact hacross j hj i List.mem_cons_self
  · intro hlt
    rcases List.mem_append.mp hmem with hj | hj
    · exact hj
    · rcases List.mem_cons.mp hj with rfl | hj
      · exact absurd hlt (lt_irrefl _)
      · exact absurd hlt (lt_asymm ((List.pairwise_cons.mp hrest).1 j hj))

theorem exists_findNextThread_iff (s : SchedState) :
    (∃ next, findNextThread s = some next) ↔
      s.activeThreadCount ≠ 0#32 ∧ ∃ j, (s.threadTable j).Runnable := by
  constructor
  · rintro ⟨next, h⟩
    refine ⟨fun h0 => ?_, next, findNextThread_runnable h⟩
    rw [findNextThread, if_pos h0] at h
    cases h
  · rintro ⟨hcount, j, hj⟩
    rw [findNextThread, if_neg hcount, ← Option.isSome_iff_exists, List.find?_isSome]
    exact ⟨j, mem_searchOrder _ j, by simpa using hj⟩

/-- The pair of slots `sched_yield` switches between, when it does. -/
def yieldSwitch (s : SchedState) : Option (Slot × Slot) :=
  if !s.enabled then none
  else
    match s.current, findNextThread s with
    | some old, some next => if next = old then none else some (old, next)
    | _, _ => none

theorem schedYield_eq (s : SchedState) :
    schedYield s =
      match yieldSwitch s with
      | none => s
      | some (old, next) => s.switchTo old next := by
  rw [schedYield, yieldSwitch]
  split
  · rfl
  · cases s.current with
    | none => rfl
    | some old =>
      cases findNextThread s with
      | none => rfl
      | some next => by_cases h : next = old <;> simp [h]

theorem yieldSwitch_eq_some {s : SchedState} {old next : Slot}
    (h : yieldSwitch s = some (old, next)) :
    s.enabled = true ∧ s.current = some old ∧ findNextThread s = some next ∧ next ≠ old := by
  rw [yieldSwitch] at h
  split at h
  · cases h
  · rename_i hen
    split at h
    · rename_i o n hc hf
      split at h
      · cases h
      · rename_i hne
        cases h
        exact ⟨by simpa using hen, hc, hf, hne⟩
    · cases h

/-- A ZOMBIE slot is left whenever any thread can be chosen. -/
theorem exists_yieldSwitch_iff {s : SchedState} {old : Slot}
    (hz : (s.threadTable old).state = .zombie) :
    (∃ next, yieldSwitch s = some (old, next)) ↔
      s.enabled = true ∧ s.current = some old ∧
        s.activeThreadCount ≠ 0#32 ∧ ∃ j, (s.threadTable j).Runnable := by
  rw [← exists_findNextThread_iff]
  constructor
  · rintro ⟨next, h⟩
    obtain ⟨hen, hc, hf, -⟩ := yieldSwitch_eq_some h
    exact ⟨hen, hc, next, hf⟩
  · rintro ⟨hen, hc, next, hf⟩
    have hne : next ≠ old := by
      rintro rfl
      have hready := (findNextThread_runnable hf).2
      rw [hz] at hready
      cases hready
    exact ⟨next, by simp only [yieldSwitch, hen, hc, hf, if_neg hne]; rfl⟩

@[simp] theorem schedYield_enabled (s : SchedState) : (schedYield s).enabled = s.enabled := by
  rw [schedYield_eq]
  split <;> rfl

@[simp] theorem schedYield_schedulerTicks (s : SchedState) :
    (schedYield s).schedulerTicks = s.schedulerTicks := by
  rw [schedYield_eq]
  split <;> rfl

@[simp] theorem schedYield_active (s : SchedState) :
    (schedYield s).activeThreadCount = s.activeThreadCount := by
  rw [schedYield_eq]
  split <;> rfl

/-- A yield allocates nothing. -/
theorem schedYield_alloc (s : SchedState) :
    (schedYield s).nextTid = s.nextTid ∧ (schedYield s).heap = s.heap := by
  rw [schedYield_eq]
  split <;> exact ⟨rfl, rfl⟩

theorem switchTo_threadTable (s : SchedState) (old next i : Slot) :
    (s.switchTo old next).threadTable i =
      if i = old then { (if old = next then { s.threadTable next with state := .running }
        else s.threadTable old) with state := .ready }
      else if i = next then { s.threadTable next with state := .running } else s.threadTable i := by
  simp only [SchedState.switchTo, SchedState.setState, SchedState.modify_threadTable]

/-- `s'` has the same threads as `s`: identity, state and stack of every slot,
the current slot, the number of active threads, and whether the scheduler runs.
Only the accounting differs. -/
structure SameThreads (s s' : SchedState) : Prop where
  tid : ∀ i, (s'.threadTable i).tid = (s.threadTable i).tid
  state : ∀ i, (s'.threadTable i).state = (s.threadTable i).state
  stackBase : ∀ i, (s'.threadTable i).stackBase = (s.threadTable i).stackBase
  current : s'.current = s.current
  active : s'.activeThreadCount = s.activeThreadCount
  enabled : s'.enabled = s.enabled

theorem SameThreads.trans {s t u : SchedState} (h : SameThreads s t) (h' : SameThreads t u) :
    SameThreads s u where
  tid i := (h'.tid i).trans (h.tid i)
  state i := (h'.state i).trans (h.state i)
  stackBase i := (h'.stackBase i).trans (h.stackBase i)
  current := h'.current.trans h.current
  active := h'.active.trans h.active
  enabled := h'.enabled.trans h.enabled

theorem SameThreads.runnable {s s' : SchedState} (h : SameThreads s s') (i : Slot) :
    (s'.threadTable i).Runnable ↔ (s.threadTable i).Runnable := by
  rw [Thread.Runnable, Thread.Runnable, h.tid, h.state]

theorem SameThreads.modify (s : SchedState) (i : Slot) {f : Thread → Thread}
    (htid : (f (s.threadTable i)).tid = (s.threadTable i).tid)
    (hstate : (f (s.threadTable i)).state = (s.threadTable i).state)
    (hstack : (f (s.threadTable i)).stackBase = (s.threadTable i).stackBase) :
    SameThreads s (s.modify i f) := by
  refine ⟨fun j => ?_, fun j => ?_, fun j => ?_, rfl, rfl, rfl⟩ <;>
  · rw [SchedState.modify_threadTable]
    split
    · rename_i h
      rw [h]
      assumption
    · rfl

/-- The state in which `sched_tick` calls `sched_yield`, if the tick uses up the
time slice. -/
def tickYields (s : SchedState) : Option SchedState :=
  s.current.bind fun i =>
    let s := ({ s with schedulerTicks := s.schedulerTicks + 1 } : SchedState).charge i
    if (s.threadTable i).timeSlice = 0#64 then some (s.refill i) else none

theorem exists_tickYields_iff {s : SchedState} {i : Slot} (hc : s.current = some i) :
    (∃ u, tickYields s = some u) ↔ (s.threadTable i).timeSlice = 1#64 := by
  have hslice : ∀ x : U64, x - 1#64 = 0#64 ↔ x = 1#64 := by
    intro x
    constructor <;> intro h <;> bv_omega
  simp [tickYields, hc, SchedState.charge, hslice]

/-- A tick either only counts, or counts and yields. -/
theorem tickCurrent_cases (s : SchedState) :
    (tickYields s = none ∧ SameThreads s (tickCurrent s)) ∨
    ∃ u, tickYields s = some u ∧ SameThreads s u ∧ tickCurrent s = schedYield u := by
  have hcount : SameThreads s { s with schedulerTicks := s.schedulerTicks + 1 } :=
    ⟨fun _ => rfl, fun _ => rfl, fun _ => rfl, rfl, rfl, rfl⟩
  cases hc : s.current with
  | none =>
    refine .inl ⟨by simp [tickYields, hc], ?_⟩
    simp only [tickCurrent, hc]
    rw [← hc]
    exact hcount
  | some i =>
    simp only [tickYields, tickCurrent, hc, Option.bind_some]
    rw [← hc]
    split
    · refine .inr ⟨_, rfl, ?_, rfl⟩
      exact (hcount.trans (.modify _ i rfl rfl rfl)).trans (.modify _ i rfl rfl rfl)
    · exact .inl ⟨rfl, hcount.trans (.modify _ i rfl rfl rfl)⟩

theorem tickYields_sameThreads {s u : SchedState} (h : tickYields s = some u) :
    SameThreads s u ∧ tickCurrent s = schedYield u := by
  rcases tickCurrent_cases s with ⟨hnone, -⟩ | ⟨u', hu', hsame, heq⟩
  · rw [hnone] at h
    cases h
  · cases Option.some.inj (hu'.symm.trans h)
    exact ⟨hsame, heq⟩

theorem tickCurrent_schedulerTicks (s : SchedState) :
    (tickCurrent s).schedulerTicks = s.schedulerTicks + 1 := by
  simp only [tickCurrent]
  split
  · rfl
  · split
    · rw [schedYield_schedulerTicks]
      rfl
    · rfl

theorem tickCurrent_active (s : SchedState) :
    (tickCurrent s).activeThreadCount = s.activeThreadCount := by
  rcases tickCurrent_cases s with ⟨-, hsame⟩ | ⟨u, -, hsame, heq⟩
  · exact hsame.active
  · rw [heq, schedYield_active]
    exact hsame.active

theorem tickCurrent_alloc (s : SchedState) :
    (tickCurrent s).nextTid = s.nextTid ∧ (tickCurrent s).heap = s.heap := by
  simp only [tickCurrent]
  split
  · exact ⟨rfl, rfl⟩
  · split
    · rw [(schedYield_alloc _).1, (schedYield_alloc _).2]
      exact ⟨rfl, rfl⟩
    · exact ⟨rfl, rfl⟩

/-- What the cleanup does to one thread. -/
def Thread.reclaim (t : Thread) : Thread :=
  if t.state = .zombie ∧ t.tid ≠ 0#32 then
    { t with tid := 0, state := .zombie, entryPoint := 0, stackBase := 0, stackTop := 0 }
  else t

@[simp] theorem Thread.reclaim_state (t : Thread) : t.reclaim.state = t.state := by
  rw [reclaim]
  split
  · rename_i h
    exact h.1.symm
  · rfl

theorem Thread.reclaim_of_ne_zombie {t : Thread} (h : t.state ≠ .zombie) : t.reclaim = t :=
  if_neg fun hc => h hc.1

theorem cleanupSlot_eq (s : SchedState) (i : Slot) :
    cleanupSlot s i = s.modify i Thread.reclaim := by
  simp only [cleanupSlot, kfree, ite_self]
  by_cases h : (s.threadTable i).state = .zombie ∧ (s.threadTable i).tid ≠ 0#32
  · rw [if_pos h]
    simp only [SchedState.modify, Thread.reclaim, if_pos h]
  · rw [if_neg h]
    simp [SchedState.modify, Thread.reclaim, if_neg h]

/-- The cleanup reclaims every slot and changes nothing else. -/
theorem cleanupZombieThreads_eq (s : SchedState) :
    cleanupZombieThreads s = { s with threadTable := fun i => (s.threadTable i).reclaim } := by
  have hloop : ∀ (is : List Slot) (s : SchedState), is.Nodup →
      is.foldl cleanupSlot s =
        { s with threadTable := fun i => if i ∈ is then (s.threadTable i).reclaim
          else s.threadTable i } := by
    intro is
    induction is with
    | nil => intro s _; simp
    | cons j is ih =>
      intro s hnd
      -- the rest of the loop does not come back to slot `j`
      rw [List.nodup_cons] at hnd
      rw [List.foldl_cons, cleanupSlot_eq, ih _ hnd.2]
      simp only [SchedState.modify]
      congr 1
      funext i
      by_cases hij : i = j
      · subst hij
        simp [hnd.1]
      · simp [hij]
  rw [cleanupZombieThreads, hloop _ s (List.nodup_finRange _)]
  simp [List.mem_finRange]

/-- The slot that `thread_create` fills, when it succeeds. -/
def refilledSlot (s : SchedState) (entryPoint : U64) : Option Slot :=
  if entryPoint = 0#64 ∨ (kmalloc s.heap threadStackSize).1 = 0#64 then none else freeSlot s

/-- A counter that does not wrap. -/
theorem counter_succ_toNat {c : U32} {n : ℕ} (hc : c.toNat = n) (hn : n + 1 < 2 ^ 32) :
    (c + 1).toNat = n + 1 := by
  rw [BitVec.toNat_add, hc]
  show (n + 1) % 2 ^ 32 = _
  omega

/-- `thread_create` fails, with at most the heap pointer initialised, or fills a
free slot with a ready thread that has a stack. -/
theorem threadCreate_cases (threadWrapper : U64) (s : SchedState) (entryPoint arg : U64)
    (name : Option (List (BitVec 8))) :
    (refilledSlot s entryPoint = none ∧
      ∃ heap, threadCreate threadWrapper s entryPoint arg name = (0, { s with heap })) ∨
    ∃ slot stackBase heap, refilledSlot s entryPoint = some slot ∧
      (s.threadTable slot).tid = 0#32 ∧ stackBase ≠ 0#64 ∧
      threadCreate threadWrapper s entryPoint arg name =
        (s.nextTid,
          { s.modify slot fun _ => newThread threadWrapper s.nextTid entryPoint arg name
            stackBase with
            nextTid := s.nextTid + 1
            activeThreadCount := s.activeThreadCount + 1
            heap }) := by
  rw [threadCreate, refilledSlot]
  by_cases hentry : entryPoint = 0#64
  · exact .inl ⟨if_pos (.inl hentry), s.heap, if_pos hentry⟩
  rw [if_neg hentry]
  obtain ⟨stackBase, heap⟩ := kmalloc s.heap threadStackSize
  cases hslot : freeSlot s with
  | none => exact .inl ⟨ite_self _, s.heap, rfl⟩
  | some slot =>
    have htid : (s.threadTable slot).tid = 0#32 := by simpa using List.find?_some hslot
    by_cases hstack : stackBase = 0#64
    · exact .inl ⟨if_pos (.inr hstack), heap, if_pos hstack⟩
    · exact .inr ⟨slot, stackBase, heap, if_neg (not_or.mpr ⟨hentry, hstack⟩), htid, hstack,
        if_neg hstack⟩

/-- A tick while the scheduler runs: the current thread's part, then possibly
the cleanup. -/
theorem schedTick_cases (s : SchedState) :
    (s.enabled = false ∧ schedTick s = s) ∨
    (s.enabled = true ∧ (s.schedulerTicks + 1) % 100 ≠ 0#32 ∧ schedTick s = tickCurrent s) ∨
    (s.enabled = true ∧ (s.schedulerTicks + 1) % 100 = 0#32 ∧
      schedTick s = cleanupZombieThreads (tickCurrent s)) := by
  simp only [schedTick, tickCurrent_schedulerTicks]
  cases s.enabled with
  | false => exact .inl ⟨rfl, rfl⟩
  | true =>
    by_cases h : (s.schedulerTicks + 1) % 100 = 0#32
    · exact .inr (.inr ⟨rfl, h, if_pos h⟩)
    · exact .inr (.inl ⟨rfl, h, if_neg h⟩)

theorem schedTick_alloc (s : SchedState) :
    (schedTick s).nextTid = s.nextTid ∧ (schedTick s).heap = s.heap := by
  rcases schedTick_cases s with ⟨-, heq⟩ | ⟨-, -, heq⟩ | ⟨-, -, heq⟩
  · rw [heq]
    exact ⟨rfl, rfl⟩
  · rw [heq]
    exact tickCurrent_alloc s
  · rw [heq, cleanupZombieThreads_eq]
    exact tickCurrent_alloc s

/-- `sched_start` makes the first runnable thread current, if there is one. -/
theorem schedStart_cases (s : SchedState) :
    schedStart s = { s with enabled := true } ∨
    ∃ first, (s.threadTable first).Runnable ∧
      schedStart s =
        ({ s with enabled := true, current := some first } : SchedState).setState first
          .running := by
  rw [schedStart]
  split
  · rename_i first h
    exact .inr ⟨first, findNextThread_runnable h, rfl⟩
  · exact .inl rfl

/-! ## Invariants of a switch -/

/-- `I` looks at threads only, and a switch away from a slot that meets `Leave`
keeps it. -/
structure SwitchStable (I : SchedState → Prop) (Leave : Thread → Prop) : Prop where
  same : ∀ {s s'}, SameThreads s s' → I s → I s'
  switch : ∀ {s old next}, I s → s.enabled = true → s.current = some old →
    (s.threadTable next).Runnable → next ≠ old → Leave (s.threadTable old) →
    I (s.switchTo old next)

variable {I : SchedState → Prop} {Leave : Thread → Prop}

theorem SwitchStable.schedYield (h : SwitchStable I Leave) {s : SchedState} (hI : I s)
    (hleave : ∀ old next, yieldSwitch s = some (old, next) → Leave (s.threadTable old)) :
    I (schedYield s) := by
  rw [schedYield_eq]
  cases hsw : yieldSwitch s with
  | none => exact hI
  | some p =>
    obtain ⟨hen, hc, hf, hne⟩ := yieldSwitch_eq_some hsw
    exact h.switch hI hen hc (findNextThread_runnable hf) hne (hleave _ _ hsw)

theorem SwitchStable.tickCurrent (h : SwitchStable I Leave) {s : SchedState} (hI : I s)
    (hleave : ∀ u old next, tickYields s = some u → yieldSwitch u = some (old, next) →
      Leave (u.threadTable old)) :
    I (tickCurrent s) := by
  rcases tickCurrent_cases s with ⟨-, hsame⟩ | ⟨u, hu, hsame, heq⟩
  · exact h.same hsame hI
  · rw [heq]
    exact h.schedYield (h.same hsame hI) fun old next => hleave u old next hu

end Myria.Sched
