import Myria.Sched.Lifecycle
import Myria.Sched.RunThreads

/-! The time slice of the current thread. `sched_tick` decrements an unsigned
field and tests it with `<= 0`, so it must never see a zero. Entry points that
`sched_run_threads` calls may call anything in turn and are interrupted by ticks;
here its loop is therefore one that is entered, and left when an entry point
returns, with any calls in between. -/
namespace Myria.Sched

open Mm

variable {threadWrapper : U64} {s t : SchedState} {i : Slot}

/-! ## Calls within calls -/

/-- A call of `sched_run_threads` whose loop is not over: the slot whose entry
point is running and the slots that come after it. -/
structure Loop where
  slot : Slot
  rest : List Slot

structure Machine where
  sched : SchedState
  loops : List Loop

/-- The loop goes on with the slots `is`, up to the next entry point to call. -/
def enterLoop (s : SchedState) (loops : List Loop) : List Slot → Machine
  | [] => ⟨s, loops⟩
  | i :: rest =>
    if (s.threadTable i).Runnable then ⟨s.dispatch i, ⟨i, rest⟩ :: loops⟩
    else enterLoop s loops rest

inductive MachineOp where
  | call (op : SchedOp)
  | schedRunThreads
  | entryReturns
deriving DecidableEq

def machineStep (threadWrapper : U64) (m : Machine) : MachineOp → Option Machine
  | .call op => (schedStep threadWrapper m.sched op).map (⟨·, m.loops⟩)
  | .schedRunThreads => some (enterLoop m.sched m.loops (List.finRange maxThreads))
  | .entryReturns =>
    match m.loops with
    | [] => none
    | l :: loops =>
      some (enterLoop { m.sched.setState l.slot .zombie with current := none } loops l.rest)

def Machine.boot (s : SchedState) : Machine := ⟨schedInit s, []⟩

/-- The loop with entry points that only yield is a run of this kind. -/
theorem run_foldl_runSlot (threadWrapper : U64) (yields : Slot → ℕ) (is : List Slot)
    (s : SchedState) (loops : List Loop) (calls : List Call) :
    ∃ ops, Runs.run (machineStep threadWrapper) (enterLoop s loops is) ops =
      some ⟨(is.foldl (runSlot yields) (s, calls)).1, loops⟩ := by
  induction is generalizing s calls with
  | nil => exact ⟨[], rfl⟩
  | cons i is ih =>
    rw [List.foldl_cons]
    by_cases hrun : (s.threadTable i).Runnable
    · rw [runSlot_of_runnable (p := (s, calls)) hrun, enterLoop, if_pos hrun]
      have hyield : ∀ n u, Runs.run (machineStep threadWrapper) ⟨u, ⟨i, is⟩ :: loops⟩
          (List.replicate n (.call .schedYield)) = some ⟨schedYield^[n] u, ⟨i, is⟩ :: loops⟩ := by
        intro n
        induction n with
        | zero => exact fun u => rfl
        | succ n ih =>
          intro u
          rw [List.replicate_succ, Runs.run_cons_of_step
            (t := (⟨schedYield u, ⟨i, is⟩ :: loops⟩ : Machine)) rfl, ih]
          rfl
      obtain ⟨ops, hops⟩ := ih { (schedYield^[yields i] (s.dispatch i)).setState i .zombie with
        current := none } (calls ++ [⟨i, (s.threadTable i).entryPoint, (s.threadTable i).arg⟩])
      refine ⟨List.replicate (yields i) (.call .schedYield) ++ .entryReturns :: ops, ?_⟩
      rw [Runs.run_append, hyield]
      exact (Runs.run_cons_of_step rfl ops).trans hops
    · rw [runSlot_of_not_runnable (p := (s, calls)) hrun, enterLoop, if_neg hrun]
      exact ih s calls

theorem run_schedRunThreads (threadWrapper : U64) (yields : Slot → ℕ) (s : SchedState)
    (loops : List Loop) :
    ∃ ops, Runs.run (machineStep threadWrapper) ⟨s, loops⟩ (.schedRunThreads :: ops) =
      some ⟨(schedRunThreads yields s).1, loops⟩ := by
  obtain ⟨ops, hops⟩ := run_foldl_runSlot threadWrapper yields (List.finRange maxThreads) s loops []
  exact ⟨ops, (Runs.run_cons_of_step rfl ops).trans hops⟩

/-! ## The slice stays in range -/

/-- Every thread, and whatever the current slot holds, has between one tick and a
full slice left. -/
def SlicesInRange (s : SchedState) : Prop :=
  ∀ i, (s.threadTable i).tid ≠ 0#32 ∨ s.current = some i →
    1 ≤ (s.threadTable i).timeSlice.toNat ∧
      (s.threadTable i).timeSlice.toNat ≤ defaultTimeSlice.toNat

/-- No slice changes, and no other slot gets a thread or becomes current. -/
theorem SlicesInRange.of_kept (h : SlicesInRange s)
    (hslice : ∀ i, (t.threadTable i).timeSlice = (s.threadTable i).timeSlice)
    (hheld : ∀ i, (t.threadTable i).tid ≠ 0#32 ∨ t.current = some i →
      (s.threadTable i).tid ≠ 0#32 ∨ s.current = some i) : SlicesInRange t := by
  intro i hi
  rw [hslice]
  exact h i (hheld i hi)

/-- Setting a state leaves the other fields of every thread. -/
theorem setState_kept (s : SchedState) (j : Slot) (state : ThreadState) (i : Slot) :
    ∃ state', (s.setState j state).threadTable i = { s.threadTable i with state := state' } := by
  rw [SchedState.setState, SchedState.modify_threadTable]
  split
  · rename_i h
    rw [h]
    exact ⟨state, rfl⟩
  · exact ⟨(s.threadTable i).state, rfl⟩

theorem setState_timeSlice (s : SchedState) (j : Slot) (state : ThreadState) (i : Slot) :
    ((s.setState j state).threadTable i).timeSlice = (s.threadTable i).timeSlice := by
  obtain ⟨state', heq⟩ := setState_kept s j state i
  rw [heq]

theorem schedYield_timeSlice (s : SchedState) (i : Slot) :
    ((schedYield s).threadTable i).timeSlice = (s.threadTable i).timeSlice := by
  rw [schedYield_eq]
  split
  · rfl
  · rw [SchedState.switchTo, setState_timeSlice, setState_timeSlice]

theorem schedStart_timeSlice (s : SchedState) (i : Slot) :
    ((schedStart s).threadTable i).timeSlice = (s.threadTable i).timeSlice := by
  rcases schedStart_cases s with heq | ⟨first, -, heq⟩
  · rw [heq]
  · rw [heq, setState_timeSlice]

theorem finishThread_timeSlice (s : SchedState) (j i : Slot) :
    ((finishThread s j).threadTable i).timeSlice = (s.threadTable i).timeSlice := by
  rw [finishThread, schedYield_timeSlice]
  exact setState_timeSlice s j .zombie i

theorem Thread.reclaim_timeSlice (t : Thread) : t.reclaim.timeSlice = t.timeSlice := by
  rw [reclaim]
  split <;> rfl

theorem enterLoop_timeSlice (s : SchedState) (loops : List Loop) (is : List Slot) (i : Slot) :
    ((enterLoop s loops is).sched.threadTable i).timeSlice = (s.threadTable i).timeSlice := by
  induction is with
  | nil => rfl
  | cons j is ih =>
    rw [enterLoop]
    split
    · exact setState_timeSlice _ j .running i
    · exact ih

theorem SlicesInRange.setState (h : SlicesInRange s) (j : Slot) (state : ThreadState) :
    SlicesInRange (s.setState j state) := by
  refine h.of_kept (setState_timeSlice s j state) fun i hi => ?_
  obtain ⟨state', heq⟩ := setState_kept s j state i
  rwa [heq] at hi

/-- The thread that becomes current is one that was in the table. -/
theorem SlicesInRange.setCurrent (h : SlicesInRange s) {j : Slot}
    (hj : (s.threadTable j).tid ≠ 0#32) : SlicesInRange { s with current := some j } := by
  refine h.of_kept (fun _ => rfl) fun i hi => ?_
  rcases hi with hi | hi
  · exact .inl hi
  · cases Option.some.inj hi
    exact .inl hj

theorem SlicesInRange.yield (h : SlicesInRange s) : SlicesInRange (schedYield s) := by
  rw [schedYield_eq]
  split
  · exact h
  · rename_i old next hsw
    have hnext := findNextThread_runnable (yieldSwitch_eq_some hsw).2.2.1
    exact ((h.setCurrent hnext.1).setState next .running).setState old .ready

theorem SlicesInRange.init (s : SchedState) : SlicesInRange (schedInit s) := by
  rintro i (hi | hi)
  · exact absurd rfl hi
  · cases hi

theorem SlicesInRange.start (h : SlicesInRange s) : SlicesInRange (schedStart s) := by
  have hon : SlicesInRange { s with enabled := true } := h.of_kept (fun _ => rfl) fun _ hi => hi
  rcases schedStart_cases s with heq | ⟨first, hrun, heq⟩
  · rw [heq]
    exact hon
  · rw [heq]
    exact (hon.setCurrent hrun.1).setState first .running

/-- A new thread starts with a full slice. -/
theorem SlicesInRange.create (h : SlicesInRange s) (entryPoint arg : U64)
    (name : Option (List (BitVec 8))) :
    SlicesInRange (threadCreate threadWrapper s entryPoint arg name).2 := by
  rcases threadCreate_cases threadWrapper s entryPoint arg name with
    ⟨-, heap, heq⟩ | ⟨slot, stackBase, heap, -, -, -, heq⟩
  · rw [heq]
    exact h.of_kept (fun _ => rfl) fun _ hi => hi
  · rw [heq]
    intro i hi
    simp only [SchedState.modify_threadTable, SchedState.modify_current] at hi ⊢
    split
    · show 1 ≤ defaultTimeSlice.toNat ∧ defaultTimeSlice.toNat ≤ defaultTimeSlice.toNat
      exact ⟨by decide, Nat.le_refl _⟩
    · rename_i hne
      rw [if_neg hne] at hi
      exact h i hi

/-- The tick counts the current slice down, and a slice of one is refilled. -/
theorem SlicesInRange.tickCurrent (h : SlicesInRange s) : SlicesInRange (tickCurrent s) := by
  have hcount : SlicesInRange { s with schedulerTicks := s.schedulerTicks + 1 } :=
    h.of_kept (fun _ => rfl) fun _ hi => hi
  unfold Myria.Sched.tickCurrent
  dsimp only
  split
  · exact hcount
  · rename_i i hc
    have hi := h i (.inr hc)
    split
    · -- the refilled slot is in range, and the others are as before
      refine SlicesInRange.yield fun j hj => ?_
      simp only [SchedState.refill, SchedState.charge, SchedState.modify_threadTable,
        SchedState.modify_current] at hj ⊢
      split
      · show 1 ≤ defaultTimeSlice.toNat ∧ defaultTimeSlice.toNat ≤ defaultTimeSlice.toNat
        exact ⟨by decide, Nat.le_refl _⟩
      · rename_i hne
        rw [if_neg hne, if_neg hne] at hj
        exact h j hj
    · rename_i hleft
      intro j hj
      simp only [SchedState.charge, SchedState.modify_threadTable, SchedState.modify_current,
        if_true] at hj hleft ⊢
      split
      · show 1 ≤ ((s.threadTable i).timeSlice - 1).toNat ∧
          ((s.threadTable i).timeSlice - 1).toNat ≤ _
        bv_omega
      · rename_i hne
        rw [if_neg hne] at hj
        exact h j hj

theorem SlicesInRange.tick (h : SlicesInRange s) : SlicesInRange (schedTick s) := by
  rcases schedTick_cases s with ⟨-, heq⟩ | ⟨-, -, heq⟩ | ⟨-, -, heq⟩
  · rw [heq]
    exact h
  · rw [heq]
    exact h.tickCurrent
  · rw [heq, cleanupZombieThreads_eq]
    refine h.tickCurrent.of_kept (fun i => Thread.reclaim_timeSlice _) fun i hi => ?_
    -- a slot that lost its thread counts as long as it is the current one
    rcases hi with hi | hi
    · refine .inl fun h0 => hi ?_
      show ((Myria.Sched.tickCurrent s).threadTable i).reclaim.tid = 0#32
      rw [Thread.reclaim]
      split
      · rfl
      · exact h0
    · exact .inr hi

theorem SlicesInRange.step (h : SlicesInRange s) {op : SchedOp}
    (hs : schedStep threadWrapper s op = some t) : SlicesInRange t := by
  cases op with
  | schedInit =>
    cases hs
    exact .init s
  | threadCreate entryPoint arg name =>
    cases hs
    exact h.create entryPoint arg name
  | schedStart =>
    cases hs
    exact h.start
  | schedYield =>
    cases hs
    exact h.yield
  | schedTick =>
    cases hs
    exact h.tick
  | threadExit =>
    obtain ⟨i, -, rfl⟩ := Option.map_eq_some_iff.mp hs
    exact SlicesInRange.yield ((h.setState i .zombie).of_kept (fun _ => rfl) fun _ hi => hi)

theorem SlicesInRange.enterLoop (h : SlicesInRange s) (loops : List Loop) (is : List Slot) :
    SlicesInRange (enterLoop s loops is).sched := by
  induction is with
  | nil => exact h
  | cons i is ih =>
    rw [Myria.Sched.enterLoop]
    split
    · rename_i hrun
      exact (h.setCurrent hrun.1).setState i .running
    · exact ih

theorem SlicesInRange.machineStep {m m' : Machine} (h : SlicesInRange m.sched) {op : MachineOp}
    (hs : machineStep threadWrapper m op = some m') : SlicesInRange m'.sched := by
  cases op with
  | call op =>
    obtain ⟨t, ht, rfl⟩ := Option.map_eq_some_iff.mp hs
    exact h.step ht
  | schedRunThreads =>
    cases hs
    exact h.enterLoop _ _
  | entryReturns =>
    rw [Myria.Sched.machineStep] at hs
    split at hs
    · cases hs
    · cases hs
      refine SlicesInRange.enterLoop ?_ _ _
      refine (h.setState _ .zombie).of_kept (fun _ => rfl) fun i hi => ?_
      rcases hi with hi | hi
      · exact .inl hi
      · cases hi

theorem run_slicesInRange {s₀ : SchedState} {ops : List MachineOp} {m : Machine}
    (hrun : Runs.run (machineStep threadWrapper) (Machine.boot s₀) ops = some m) :
    SlicesInRange m.sched :=
  Runs.run_invariant (P := fun _ m => SlicesInRange m.sched) (.init s₀)
    (fun _ _ _ _ _ h hs => h.machineStep hs) ops m hrun

/-! ## A window of ticks -/

section

variable (threadWrapper : U64) (i : Slot)

/-- All operations of the window are made with the scheduler on and slot `i`
current, and the window goes through. -/
def staysCurrent : Machine → List MachineOp → Bool
  | _, [] => true
  | m, op :: ops =>
    m.sched.enabled && m.sched.current = some i &&
      match machineStep threadWrapper m op with
      | some m' => staysCurrent m' ops
      | none => false

/-- Some `sched_tick` of the window calls `sched_yield`. -/
def tickCallsYield : Machine → List MachineOp → Bool
  | _, [] => false
  | m, op :: ops =>
    (op = .call .schedTick && m.sched.enabled && (tickYields m.sched).isSome) ||
      match machineStep threadWrapper m op with
      | some m' => tickCallsYield m' ops
      | none => false

def tickCount (ops : List MachineOp) : ℕ := ops.count (.call .schedTick)

/-- The operation puts a new thread into slot `i`. -/
def reuses (s : SchedState) : MachineOp → Bool
  | .call (.threadCreate entryPoint _ _) => refilledSlot s entryPoint = some i
  | _ => false

/-- The ticks of the window before a new thread is put into slot `i`, or all of
them if none is. -/
def ticksBeforeReuse : Machine → List MachineOp → ℕ
  | _, [] => 0
  | m, op :: ops =>
    if reuses i m.sched op then 0
    else
      tickCount [op] +
        match machineStep threadWrapper m op with
        | some m' => ticksBeforeReuse m' ops
        | none => 0

end

/-- What a tick does to the slice of the current slot when it does not yield. -/
theorem schedTick_timeSlice (hen : s.enabled = true) (hc : s.current = some i)
    (hno : tickYields s = none) :
    ((schedTick s).threadTable i).timeSlice = (s.threadTable i).timeSlice - 1 := by
  have htick : ((tickCurrent s).threadTable i).timeSlice = (s.threadTable i).timeSlice - 1 := by
    have hleft : ¬ (s.threadTable i).timeSlice - 1#64 = 0#64 := by
      intro h0
      have hsome := (exists_tickYields_iff hc).mpr (by bv_omega)
      rw [hno] at hsome
      exact absurd hsome (by simp)
    simp [Myria.Sched.tickCurrent, hc, SchedState.charge, hleft]
  rcases schedTick_cases s with ⟨hoff, -⟩ | ⟨-, -, heq⟩ | ⟨-, -, heq⟩
  · rw [hen] at hoff
    cases hoff
  · rw [heq, htick]
  · rw [heq, cleanupZombieThreads_eq]
    exact (Thread.reclaim_timeSlice _).trans htick

/-- A `thread_create` that fills another slot leaves slot `i` alone. -/
theorem threadCreate_timeSlice {entryPoint : U64} (hne : refilledSlot s entryPoint ≠ some i)
    (arg : U64) (name : Option (List (BitVec 8))) :
    ((threadCreate threadWrapper s entryPoint arg name).2.threadTable i).timeSlice =
      (s.threadTable i).timeSlice := by
  rcases threadCreate_cases threadWrapper s entryPoint arg name with
    ⟨-, heap, heq⟩ | ⟨slot, stackBase, heap, hslot, -, -, heq⟩
  · rw [heq]
  · rw [heq]
    have hother : i ≠ slot := by
      rintro rfl
      exact hne hslot
    simp [hother]

theorem threadCreate_timeSlice_self {entryPoint : U64} (hslot : refilledSlot s entryPoint = some i)
    (arg : U64) (name : Option (List (BitVec 8))) :
    ((threadCreate threadWrapper s entryPoint arg name).2.threadTable i).timeSlice =
      defaultTimeSlice := by
  rcases threadCreate_cases threadWrapper s entryPoint arg name with
    ⟨hnone, -⟩ | ⟨slot, stackBase, heap, hslot', -, -, heq⟩
  · rw [hslot] at hnone
    cases hnone
  · cases Option.some.inj (hslot.symm.trans hslot')
    rw [heq]
    simp [newThread]

/-- Every other operation keeps the slice of the slot that stays current. -/
theorem machineStep_timeSlice {m m' : Machine} {op : MachineOp}
    (hs : machineStep threadWrapper m op = some m') (htick : op ≠ .call .schedTick)
    (hreuse : reuses i m.sched op = false) (hc : m'.sched.current = some i) :
    (m'.sched.threadTable i).timeSlice = (m.sched.threadTable i).timeSlice := by
  cases op with
  | call op =>
    obtain ⟨t, ht, rfl⟩ := Option.map_eq_some_iff.mp hs
    cases op with
    | schedInit =>
      cases ht
      cases hc
    | threadCreate entryPoint arg name =>
      cases ht
      exact threadCreate_timeSlice (by simpa [reuses] using hreuse) arg name
    | schedStart =>
      cases ht
      exact schedStart_timeSlice _ i
    | schedYield =>
      cases ht
      exact schedYield_timeSlice _ i
    | schedTick => exact absurd rfl htick
    | threadExit =>
      obtain ⟨j, -, rfl⟩ := Option.map_eq_some_iff.mp ht
      exact finishThread_timeSlice _ j i
  | schedRunThreads =>
    cases hs
    exact enterLoop_timeSlice _ _ _ i
  | entryReturns =>
    rw [machineStep] at hs
    split at hs
    · cases hs
    · cases hs
      exact (enterLoop_timeSlice _ _ _ i).trans (setState_timeSlice _ _ .zombie i)

/-- One operation of a window. -/
theorem staysCurrent_cons {m : Machine} {op : MachineOp} {ops : List MachineOp}
    (h : staysCurrent threadWrapper i m (op :: ops) = true) :
    m.sched.enabled = true ∧ m.sched.current = some i ∧
      ∃ m', machineStep threadWrapper m op = some m' ∧
        staysCurrent threadWrapper i m' ops = true := by
  rw [staysCurrent, Bool.and_eq_true, Bool.and_eq_true] at h
  obtain ⟨⟨hen, hc⟩, hrest⟩ := h
  refine ⟨hen, by simpa using hc, ?_⟩
  cases hs : machineStep threadWrapper m op with
  | none =>
    rw [hs] at hrest
    cases hrest
  | some m' =>
    rw [hs] at hrest
    exact ⟨m', rfl, hrest⟩

section

variable {m m' : Machine} {op : MachineOp} {ops : List MachineOp}

theorem tickCallsYield_cons (hs : machineStep threadWrapper m op = some m')
    (hen : m.sched.enabled = true) (hc : m.sched.current = some i) :
    tickCallsYield threadWrapper m (op :: ops) = true ↔
      (op = .call .schedTick ∧ (m.sched.threadTable i).timeSlice = 1#64) ∨
        tickCallsYield threadWrapper m' ops = true := by
  have hyields : (tickYields m.sched).isSome = true ↔ (m.sched.threadTable i).timeSlice = 1#64 := by
    rw [Option.isSome_iff_exists]
    exact exists_tickYields_iff hc
  rw [tickCallsYield, hs, ← hyields]
  simp [hen]

theorem ticksBeforeReuse_cons (hs : machineStep threadWrapper m op = some m') :
    ticksBeforeReuse threadWrapper i m (op :: ops) =
      if reuses i m.sched op then 0
      else tickCount [op] + ticksBeforeReuse threadWrapper i m' ops := by
  rw [ticksBeforeReuse, hs]

theorem tickCount_cons (op : MachineOp) (ops : List MachineOp) :
    tickCount (op :: ops) = tickCount [op] + tickCount ops := by
  rw [tickCount, tickCount, tickCount, ← List.count_append]
  rfl

theorem tickCount_tick : tickCount [.call .schedTick] = 1 := rfl

theorem tickCount_of_ne (h : op ≠ .call .schedTick) : tickCount [op] = 0 := by
  rw [tickCount, List.count_singleton]
  simp [h]

theorem ticksBeforeReuse_le (m : Machine) (ops : List MachineOp) :
    ticksBeforeReuse threadWrapper i m ops ≤ tickCount ops := by
  induction ops generalizing m with
  | nil => exact Nat.le_refl _
  | cons op ops ih =>
    have hcount := tickCount_cons op ops
    rw [ticksBeforeReuse]
    split
    · exact Nat.zero_le _
    · split
      · have hrest := ih ‹Machine›
        omega
      · omega

/-- The slice after one operation: counted down by a tick, full after a reuse,
and otherwise as it was. -/
theorem timeSlice_step (hs : machineStep threadWrapper m op = some m')
    (hen : m.sched.enabled = true) (hc : m.sched.current = some i) (hc' : m'.sched.current = some i)
    (hone : op = .call .schedTick → (m.sched.threadTable i).timeSlice ≠ 1#64) :
    (m'.sched.threadTable i).timeSlice =
      if reuses i m.sched op then defaultTimeSlice
      else if op = .call .schedTick then (m.sched.threadTable i).timeSlice - 1
      else (m.sched.threadTable i).timeSlice := by
  by_cases htick : op = .call .schedTick
  · subst htick
    rw [if_neg (by simp [reuses]), if_pos rfl]
    cases hs
    refine schedTick_timeSlice hen hc ?_
    by_contra hsome
    exact hone rfl ((exists_tickYields_iff hc).mp (Option.ne_none_iff_exists'.mp hsome))
  · rw [if_neg htick]
    split
    · rename_i hreuse
      cases op with
      | call op =>
        cases op with
        | threadCreate entryPoint arg name =>
          cases hs
          exact threadCreate_timeSlice_self (by simpa [reuses] using hreuse) arg name
        | _ => cases hreuse
      | _ => cases hreuse
    · rename_i hreuse
      exact machineStep_timeSlice hs htick (by simpa using hreuse) hc'

/-- A window of fewer ticks than a full slice has a tick that yields exactly when
the slice left at its beginning runs out before a new thread refills it. -/
theorem tickCallsYield_iff_of_short (h : SlicesInRange m.sched)
    (hstay : staysCurrent threadWrapper i m (op :: ops) = true)
    (hshort : tickCount (op :: ops) < defaultTimeSlice.toNat) :
    tickCallsYield threadWrapper m (op :: ops) = true ↔
      (m.sched.threadTable i).timeSlice.toNat ≤ ticksBeforeReuse threadWrapper i m (op :: ops) := by
  induction ops generalizing m op with
  | nil =>
    obtain ⟨hen, hc, m', hs, -⟩ := staysCurrent_cons hstay
    have hslice := h i (.inr hc)
    rw [tickCallsYield_cons hs hen hc, ticksBeforeReuse_cons hs]
    by_cases htick : op = .call .schedTick
    · subst htick
      rw [if_neg (by simp [reuses]), tickCount_tick]
      simp only [tickCallsYield, ticksBeforeReuse]
      rw [← BitVec.toNat_inj]
      simp
      omega
    · rw [tickCount_of_ne htick]
      simp only [htick, tickCallsYield, ticksBeforeReuse, ite_self]
      simp
      omega
  | cons op₂ ops ih =>
    obtain ⟨hen, hc, m', hs, hrest⟩ := staysCurrent_cons hstay
    obtain ⟨-, hc', -⟩ := staysCurrent_cons hrest
    have hslice := h i (.inr hc)
    rw [tickCount_cons] at hshort
    rw [tickCallsYield_cons hs hen hc, ticksBeforeReuse_cons hs,
      ih (h.machineStep hs) hrest (by omega)]
    have hle : ticksBeforeReuse threadWrapper i m' (op₂ :: ops) ≤ _ := ticksBeforeReuse_le m' _
    by_cases htick : op = .call .schedTick
    · subst htick
      rw [if_neg (by simp [reuses]), tickCount_tick]
      by_cases hone : (m.sched.threadTable i).timeSlice = 1#64
      · rw [hone]
        exact ⟨fun _ => Nat.le_add_right 1 _, fun _ => .inl ⟨rfl, rfl⟩⟩
      · have hstep := timeSlice_step hs hen hc hc' fun _ => hone
        rw [if_neg (by simp [reuses]), if_pos rfl] at hstep
        rw [hstep]
        simp only [hone, and_false, false_or]
        bv_omega
    · have hstep := timeSlice_step hs hen hc hc' fun h => absurd h htick
      rw [if_neg htick] at hstep
      simp only [htick, false_and, false_or, tickCount_of_ne htick, Nat.zero_add]
      split
      · -- a full slice outlasts the rest of the window
        rename_i hreuse
        rw [if_pos hreuse] at hstep
        rw [hstep]
        omega
      · rename_i hreuse
        rw [if_neg hreuse] at hstep
        rw [hstep]

end

/-- **The slice never underflows, and expires unless it is refilled.** In every
state of every run the slice of the current slot lies between one and
`DEFAULT_TIME_SLICE`. Over `DEFAULT_TIME_SLICE` ticks with that slot current, some
tick calls `sched_yield` exactly when the slice left at the first of them runs out
before `thread_create` puts a new thread into the slot. -/
theorem time_slice_expires_iff {s₀ : SchedState} {ops : List MachineOp} {m : Machine}
    (hrun : Runs.run (machineStep threadWrapper) (Machine.boot s₀) ops = some m) :
    (∀ i, m.sched.current = some i →
      1 ≤ (m.sched.threadTable i).timeSlice.toNat ∧
      (m.sched.threadTable i).timeSlice.toNat ≤ defaultTimeSlice.toNat ∧
      ((m.sched.threadTable i).timeSlice - 1).toNat + 1 = (m.sched.threadTable i).timeSlice.toNat) ∧
    ∀ i w, staysCurrent threadWrapper i m (.call .schedTick :: w) = true →
      tickCount (.call .schedTick :: w) = defaultTimeSlice.toNat →
      (tickCallsYield threadWrapper m (.call .schedTick :: w) = true ↔
        (m.sched.threadTable i).timeSlice.toNat ≤
          ticksBeforeReuse threadWrapper i m (.call .schedTick :: w)) := by
  have h := run_slicesInRange hrun
  refine ⟨fun i hc => ?_, fun i w hstay hticks => ?_⟩
  · obtain ⟨hlo, hhi⟩ := h i (.inr hc)
    exact ⟨hlo, hhi, by bv_omega⟩
  obtain ⟨hen, hc, m', hs, hrest⟩ := staysCurrent_cons hstay
  rw [tickCount_cons, tickCount_tick] at hticks
  rw [tickCallsYield_cons hs hen hc, ticksBeforeReuse_cons hs, if_neg (by simp [reuses]),
    tickCount_tick]
  by_cases hone : (m.sched.threadTable i).timeSlice = 1#64
  · rw [hone]
    exact ⟨fun _ => Nat.le_add_right 1 _, fun _ => .inl ⟨rfl, rfl⟩⟩
  cases w with
  | nil => exact absurd hticks (by decide)
  | cons op w =>
    -- the first tick leaves fewer ticks than a full slice
    obtain ⟨-, hc', -⟩ := staysCurrent_cons hrest
    have hslice := h i (.inr hc)
    have hstep := timeSlice_step hs hen hc hc' fun _ => hone
    rw [if_neg (by simp [reuses]), if_pos rfl] at hstep
    rw [tickCallsYield_iff_of_short (h.machineStep hs) hrest (by omega), hstep]
    simp only [hone, and_false, false_or]
    bv_omega

/-- The calls up to the hundredth tick, with one thread that terminates. -/
def loneThread : List MachineOp :=
  [.call (.threadCreate 0x1000 0 none), .call .schedStart, .call .threadExit] ++
    List.replicate 100 (.call .schedTick)

theorem time_slice_expires_one_thread :
    ∃ m, Runs.run (machineStep 0x100000) (Machine.boot .bss)
        [.call (.threadCreate 0x1000 0 none), .call .schedStart] = some m ∧
      m.sched.current = some 0 ∧ 1 ≤ (m.sched.threadTable 0).timeSlice.toNat ∧
      tickCallsYield 0x100000 m (List.replicate 10 (.call .schedTick)) = true := by
  have hrun : Runs.run (machineStep 0x100000) (Machine.boot .bss)
      [.call (.threadCreate 0x1000 0 none), .call .schedStart] = some _ := rfl
  obtain ⟨hrange, hwindow⟩ := time_slice_expires_iff hrun
  refine ⟨_, hrun, rfl, (hrange 0 rfl).1, ?_⟩
  exact (hwindow 0 (List.replicate 9 (.call .schedTick)) (by decide +kernel) (by decide)).mpr
    (by decide +kernel)

/-- The only thread terminates and the hundredth tick reclaims its slot, which
stays current. Five ticks later a new thread takes that slot over: ten ticks pass
without a switch and without a call of `sched_yield`. -/
theorem ten_ticks_without_yield :
    ∃ m, Runs.run (machineStep 0x100000) (Machine.boot .bss) loneThread = some m ∧
      m.sched.current = some 0 ∧
      let w : List MachineOp := List.replicate 5 (.call .schedTick) ++
        .call (.threadCreate 0x2000 0 none) :: List.replicate 5 (.call .schedTick)
      tickCount w = defaultTimeSlice.toNat ∧ staysCurrent 0x100000 0 m w = true ∧
        tickCallsYield 0x100000 m w = false := by
  have hview : (Runs.run (machineStep 0x100000) (Machine.boot .bss) loneThread).map
      (fun m => (m.sched.current,
        staysCurrent 0x100000 0 m (List.replicate 5 (.call .schedTick) ++
          .call (.threadCreate 0x2000 0 none) :: List.replicate 5 (.call .schedTick)),
        tickCallsYield 0x100000 m (List.replicate 5 (.call .schedTick) ++
          .call (.threadCreate 0x2000 0 none) :: List.replicate 5 (.call .schedTick)))) =
      some (some 0, true, false) := by decide +kernel
  obtain ⟨m, hrun, hm⟩ := Option.map_eq_some_iff.mp hview
  simp only [Prod.mk.injEq] at hm
  exact ⟨m, hrun, hm.1, by decide, hm.2.1, hm.2.2⟩

end Myria.Sched
