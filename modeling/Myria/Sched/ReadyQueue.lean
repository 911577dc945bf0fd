import Myria.Lib.LinkedQueue
import Myria.Lib.Runs
import Myria.Sched.ThreadMinimal

/-! The scheduler of `thread.c`: threads in blocks from the kernel heap, linked
into a ready queue through their own `next` and `prev` fields. A null pointer is
`none`. The switch of registers itself is `context_switch`; here a switch moves
`current_thread`. -/
namespace Myria.Sched.ReadyQueue

open LinkedQueue

inductive ThreadState where
  | ready | running | blocked | zombie | terminated
deriving DecidableEq, Repr

/-- `cpu_context_t`. -/
structure CpuContext where
  reg : X86.Reg → U64
  rip : U64
  rflags : U64
  cs : BitVec 16
  ss : BitVec 16
  fpuState : U64

/-- `thread_t`. -/
structure Thread where
  tid : U32
  pid : U32
  state : ThreadState
  priority : BitVec 8
  timeSlice : U64
  totalRuntime : U64
  context : CpuContext
  stackBase : U64
  stackSize : U64
  kernelStack : U64
  next : Option U64
  prev : Option U64
  lastScheduled : U64
  name : List (BitVec 8)

/-- The statics of `thread.c`, and the threads by the address of their block. -/
structure State where
  threads : U64 → Option Thread
  currentThread : Option U64
  idleThread : Option U64
  readyQueueHead : Option U64
  readyQueueTail : Option U64
  nextTid : U32
  schedulerTicks : U64
  threadTable : Fin 8 → Option U64
  threadCount : U32

def threadPriorityNormal : BitVec 8 := 2

/-- Assign to fields of the thread at `p`. -/
def State.modify (s : State) (p : U64) (f : Thread → Thread) : State :=
  { s with threads := Function.update s.threads p ((s.threads p).map f) }

def State.stateOf (s : State) (p : U64) : Option ThreadState := (s.threads p).map (·.state)

/-- `sched_init` of `thread.c`. It leaves `next_tid` and the tick counter, and
the blocks of threads created before stay where they are. -/
def schedInit (s : State) : State :=
  { s with
    threadTable := fun _ => none
    currentThread := none
    idleThread := none
    readyQueueHead := none
    readyQueueTail := none
    threadCount := 0 }

def addToReadyQueue (s : State) (thread : U64) : State :=
  let s := s.modify thread fun t =>
    { t with state := .ready, next := none, prev := s.readyQueueTail }
  let s := match s.readyQueueTail with
    | some tail => s.modify tail fun t => { t with next := some thread }
    | none => { s with readyQueueHead := some thread }
  { s with readyQueueTail := some thread }

def State.nextOf (s : State) (p : U64) : Option U64 := (s.threads p).bind (·.next)
def State.prevOf (s : State) (p : U64) : Option U64 := (s.threads p).bind (·.prev)

def removeFromReadyQueue (s : State) (thread : U64) : State :=
  let s := match s.prevOf thread with
    | some prev => s.modify prev fun t => { t with next := s.nextOf thread }
    | none => { s with readyQueueHead := s.nextOf thread }
  let s := match s.nextOf thread with
    | some next => s.modify next fun t => { t with prev := s.prevOf thread }
    | none => { s with readyQueueTail := s.prevOf thread }
  s.modify thread fun t => { t with next := none, prev := none }

def getNextThread (s : State) : Option U64 × State :=
  match s.readyQueueHead with
  | some thread => (some thread, removeFromReadyQueue s thread)
  | none => (s.idleThread, s)

/-- Put the old thread back, unless it stopped running or is the idle thread. -/
def requeue (s : State) (old : U64) : State :=
  if s.stateOf old = some .running ∧ s.idleThread ≠ some old then addToReadyQueue s old else s

/-- The assignments to the new thread. -/
def dispatch (s : State) (new : U64) : State :=
  { s.modify new fun t =>
      { t with
        state := .running
        timeSlice := defaultTimeSlice
        lastScheduled := s.schedulerTicks } with
    currentThread := some new }

/-- `sched_yield`. A switch reads through `old_thread` and writes through `new_thread`, and
it is `none` if one of them is null. -/
def schedYield (s : State) : Option State :=
  let old := s.currentThread
  let (new, s) := getNextThread s
  if new = old then some s
  else
    match old, new with
    | some old, some new => some (dispatch (requeue s old) new)
    | some _, none | none, some _ | none, none => none

/-- Charge a tick to the thread at `p`. -/
def charge (s : State) (p : U64) : State :=
  s.modify p fun t =>
    { t with
      totalRuntime := t.totalRuntime + 1
      timeSlice := if 0 < t.timeSlice then t.timeSlice - 1 else t.timeSlice }

def schedTick (s : State) : Option State :=
  let s := { s with schedulerTicks := s.schedulerTicks + 1 }
  match s.currentThread with
  | none => some s
  | some p =>
    let s := charge s p
    if (s.threads p).map (·.timeSlice) = some 0 ∧ s.readyQueueHead ≠ none then schedYield s
    else some s

/-- The first free entry of `thread_table`; entry 0 is not looked at. -/
def freeEntry (s : State) : Option (Fin 8) :=
  ((List.finRange 8).drop 1).find? fun i => s.threadTable i = none

/-- Add to `thread_table`. A thread that finds no free entry is not counted. -/
def enterTable (s : State) (thread : U64) : State :=
  match freeEntry s with
  | some i => { s with
      threadTable := Function.update s.threadTable i (some thread)
      threadCount := s.threadCount + 1 }
  | none => s

def threadStackBytes : U64 := 8 * 1024

/-- The fields of a new thread, its block's links included. -/
def newThread (threadWrapper : U64) (tid : U32) (entryPoint arg : U64)
    (name : Option (List (BitVec 8))) (stack : U64) : Thread where
  tid := tid
  pid := 0
  state := .ready
  priority := threadPriorityNormal
  timeSlice := defaultTimeSlice
  totalRuntime := 0
  context :=
    { reg := fun
        | .rsi => arg
        | .rdi => entryPoint
        | .rsp => stack + threadStackBytes - 8
        | _ => 0
      rip := threadWrapper
      rflags := 0x202
      cs := 0x08
      ss := 0x10
      fpuState := 0 }
  stackBase := stack
  stackSize := threadStackBytes
  kernelStack := stack
  next := none
  prev := none
  lastScheduled := 0
  name := threadName name

/-- `thread_create`, with the two answers of `kmalloc`. The thread is queued
also when the table has no free entry. -/
def threadCreate (threadWrapper : U64) (s : State) (entryPoint arg : U64)
    (name : Option (List (BitVec 8))) (block stack : Option U64) : U32 × State :=
  if 8 ≤ s.threadCount then (0, s)
  else
    match block, stack with
    | some thread, some stack =>
      let tid := s.nextTid
      let s := { s with
        threads := Function.update s.threads thread
          (some (newThread threadWrapper tid entryPoint arg name stack))
        nextTid := tid + 1 }
      (tid, addToReadyQueue (enterTable s thread) thread)
    | _, _ => (0, s)

/-! ## Clients -/

/-- Why a thread leaves the processor for good or until it is woken. -/
inductive Leave where
  | zombie | blocked
deriving DecidableEq, Repr

def Leave.state : Leave → ThreadState
  | .zombie => .zombie
  | .blocked => .blocked

inductive Op where
  | create (threadWrapper entryPoint arg : U64) (name : Option (List (BitVec 8)))
      (block stack : Option U64)
  | yield
  | tick
  /-- mark the current thread, as `thread_wrapper` does, and yield -/
  | leave (why : Leave)

/-- `kmalloc` hands out blocks of no other thread, and the idle thread never
leaves. -/
def step (s : State) : Op → Option State
  | .create threadWrapper entryPoint arg name block stack =>
    if ∀ p ∈ block, s.threads p = none then
      some (threadCreate threadWrapper s entryPoint arg name block stack).2
    else none
  | .yield => schedYield s
  | .tick => schedTick s
  | .leave why =>
    match s.currentThread with
    | some p =>
      if s.idleThread = some p then none
      else schedYield (s.modify p fun t => { t with state := why.state })
    | none => none

/-! ## The links -/

def State.links (s : State) : Links U64 where
  head := s.readyQueueHead
  tail := s.readyQueueTail
  next := s.nextOf
  prev := s.prevOf

variable {s : State} {p : U64}

@[simp] theorem State.modify_threads (s : State) (p q : U64) (f : Thread → Thread) :
    (s.modify p f).threads q = if q = p then (s.threads p).map f else s.threads q :=
  Function.update_apply _ _ _ _

/-- Assignments that leave the state of the thread alone. -/
theorem State.stateOf_modify (s : State) (p q : U64) (f : Thread → Thread)
    (h : ∀ t, (f t).state = t.state) : (s.modify p f).stateOf q = s.stateOf q := by
  by_cases hq : q = p
  · subst hq
    rw [State.stateOf, State.modify_threads, if_pos rfl, Option.map_map]
    congr 1
    funext t
    exact h t
  · rw [State.stateOf, State.modify_threads, if_neg hq, State.stateOf]

/-- Assignments that leave the links of the thread alone. -/
theorem State.links_modify (s : State) (p : U64) (f : Thread → Thread)
    (hnext : ∀ t, (f t).next = t.next) (hprev : ∀ t, (f t).prev = t.prev) :
    (s.modify p f).links = s.links := by
  refine Links.ext rfl rfl (funext fun q => ?_) (funext fun q => ?_)
  · show ((s.modify p f).threads q).bind (·.next) = s.nextOf q
    rw [State.modify_threads]
    by_cases hq : q = p
    · cases ht : s.threads p <;> simp [State.nextOf, hq, ht, hnext]
    · rw [if_neg hq]
      rfl
  · show ((s.modify p f).threads q).bind (·.prev) = s.prevOf q
    rw [State.modify_threads]
    by_cases hq : q = p
    · cases ht : s.threads p <;> simp [State.prevOf, hq, ht, hprev]
    · rw [if_neg hq]
      rfl

theorem State.exists_of_stateOf {st : ThreadState} (h : s.stateOf p = some st) :
    ∃ t, s.threads p = some t := by
  obtain ⟨t, ht, -⟩ := Option.map_eq_some_iff.mp h
  exact ⟨t, ht⟩

/-- The block of the thread and that of the old tail are written. -/
theorem addToReadyQueue_threads (hne : s.readyQueueTail ≠ some p) (q : U64) :
    (addToReadyQueue s p).threads q =
      if s.readyQueueTail = some q then (s.threads q).map fun t => { t with next := some p }
      else if q = p then (s.threads q).map fun t =>
        { t with state := .ready, next := none, prev := s.readyQueueTail }
      else s.threads q := by
  cases hw : s.readyQueueTail with
  | none =>
    by_cases hq : q = p
    · simp [addToReadyQueue, State.modify, hw, hq]
    · simp [addToReadyQueue, State.modify, hw, hq]
  | some w =>
    have hwp : w ≠ p := fun h => hne (by rw [hw, h])
    by_cases hq : q = w
    · simp [addToReadyQueue, State.modify, hw, hq, hwp]
    · by_cases hqp : q = p
      · simp [addToReadyQueue, State.modify, hw, hqp, hwp, hwp.symm]
      · simp [addToReadyQueue, State.modify, hw, hq, hqp, Ne.symm hq]

theorem addToReadyQueue_stateOf {t : Thread} (hp : s.threads p = some t)
    (hne : s.readyQueueTail ≠ some p) (q : U64) :
    (addToReadyQueue s p).stateOf q = if q = p then some .ready else s.stateOf q := by
  rw [State.stateOf, addToReadyQueue_threads hne, State.stateOf]
  by_cases hq : q = p
  · simp [hq, hne, hp]
  · by_cases htail : s.readyQueueTail = some q
    · rw [if_pos htail, if_neg hq, Option.map_map]
      rfl
    · rw [if_neg htail, if_neg hq, if_neg hq]

theorem addToReadyQueue_head (s : State) (p : U64) :
    (addToReadyQueue s p).readyQueueHead =
      if s.readyQueueTail = none then some p else s.readyQueueHead := by
  cases hw : s.readyQueueTail <;> simp [addToReadyQueue, State.modify, hw]

theorem addToReadyQueue_links {t : Thread} (hp : s.threads p = some t)
    (hne : s.readyQueueTail ≠ some p)
    (htail : ∀ w, s.readyQueueTail = some w → ∃ t, s.threads w = some t) :
    (addToReadyQueue s p).links = s.links.pushBack p := by
  refine Links.ext ?_ ?_ (funext fun q => ?_) (funext fun q => ?_)
  · rw [Links.pushBack_head]
    exact addToReadyQueue_head s p
  · rw [Links.pushBack_tail]
    rfl
  · rw [Links.pushBack_next]
    show ((addToReadyQueue s p).threads q).bind (·.next) = if s.readyQueueTail = some q then some p
      else if q = p then none else s.nextOf q
    rw [addToReadyQueue_threads hne]
    by_cases hq : s.readyQueueTail = some q
    · obtain ⟨tq, htq⟩ := htail q hq
      simp [hq, htq]
    · by_cases hqp : q = p
      · simp [hqp, hne, hp]
      · simp [hq, hqp, State.nextOf]
  · rw [Links.pushBack_prev]
    show ((addToReadyQueue s p).threads q).bind (·.prev) = if q = p then s.readyQueueTail
      else s.prevOf q
    rw [addToReadyQueue_threads hne]
    by_cases hqp : q = p
    · simp [hqp, hne, hp]
    · by_cases hq : s.readyQueueTail = some q
      · rw [if_pos hq, if_neg hqp, Option.bind_map]
        rfl
      · rw [if_neg hq, if_neg hqp, if_neg hqp]
        rfl

/-- Removing a thread with nothing before it. -/
theorem removeFromReadyQueue_of_first (hprev : s.prevOf p = none) :
    removeFromReadyQueue s p =
      ((match s.nextOf p with
        | some next => { s with readyQueueHead := some next }.modify next fun t =>
            { t with prev := none }
        | none => { s with readyQueueHead := none, readyQueueTail := none } : State).modify p
          fun t => { t with next := none, prev := none }) := by
  have hnext : ({ s with readyQueueHead := s.nextOf p } : State).nextOf p = s.nextOf p := rfl
  have hprev' : ({ s with readyQueueHead := s.nextOf p } : State).prevOf p = none := hprev
  rw [removeFromReadyQueue, hprev]
  simp only [hnext, hprev']
  cases s.nextOf p <;> rfl

theorem removeFromReadyQueue_threads (hprev : s.prevOf p = none) (hne : s.nextOf p ≠ some p)
    (q : U64) :
    (removeFromReadyQueue s p).threads q =
      if q = p then (s.threads q).map fun t => { t with next := none, prev := none }
      else if s.nextOf p = some q then (s.threads q).map fun t => { t with prev := none }
      else s.threads q := by
  rw [removeFromReadyQueue_of_first hprev]
  cases hn : s.nextOf p with
  | none =>
    by_cases hq : q = p
    · simp [hq]
    · simp [hq]
  | some y =>
    have hyp : y ≠ p := fun h => hne (by rw [hn, h])
    by_cases hq : q = p
    · simp [hq, hyp.symm]
    · by_cases hqy : q = y
      · simp [hqy, hyp]
      · simp [hq, hqy, Ne.symm hqy]

theorem removeFromReadyQueue_stateOf (hprev : s.prevOf p = none) (hne : s.nextOf p ≠ some p)
    (q : U64) : (removeFromReadyQueue s p).stateOf q = s.stateOf q := by
  rw [State.stateOf, removeFromReadyQueue_threads hprev hne, State.stateOf]
  by_cases hq : q = p
  · rw [if_pos hq, Option.map_map]
    rfl
  · rw [if_neg hq]
    by_cases hqy : s.nextOf p = some q
    · rw [if_pos hqy, Option.map_map]
      rfl
    · rw [if_neg hqy]

theorem removeFromReadyQueue_links (hprev : s.prevOf p = none) (hne : s.nextOf p ≠ some p) :
    (removeFromReadyQueue s p).links = s.links.popFront p := by
  refine Links.ext ?_ ?_ (funext fun q => ?_) (funext fun q => ?_)
  · rw [Links.popFront_head, removeFromReadyQueue_of_first hprev]
    show _ = s.nextOf p
    cases s.nextOf p <;> rfl
  · rw [Links.popFront_tail, removeFromReadyQueue_of_first hprev]
    show _ = if s.nextOf p = none then none else s.readyQueueTail
    cases s.nextOf p <;> rfl
  · rw [Links.popFront_next]
    show ((removeFromReadyQueue s p).threads q).bind (·.next) = if q = p then none else s.nextOf q
    rw [removeFromReadyQueue_threads hprev hne]
    by_cases hq : q = p
    · rw [if_pos hq, if_pos hq, Option.bind_map]
      exact Option.bind_fun_none _
    · rw [if_neg hq, if_neg hq]
      by_cases hqy : s.nextOf p = some q
      · rw [if_pos hqy, Option.bind_map]
        rfl
      · rw [if_neg hqy]
        rfl
  · rw [Links.popFront_prev]
    show ((removeFromReadyQueue s p).threads q).bind (·.prev) = if q = p then none
      else if s.nextOf p = some q then none else s.prevOf q
    rw [removeFromReadyQueue_threads hprev hne]
    by_cases hq : q = p
    · rw [if_pos hq, if_pos hq, Option.bind_map]
      exact Option.bind_fun_none _
    · rw [if_neg hq, if_neg hq]
      by_cases hqy : s.nextOf p = some q
      · rw [if_pos hqy, if_pos hqy, Option.bind_map]
        exact Option.bind_fun_none _
      · rw [if_neg hqy, if_neg hqy]
        rfl

end Myria.Sched.ReadyQueue
