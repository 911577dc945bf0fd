import Myria.Lib.Runs
import Myria.Sched.ThreadMinimal

/-! Which slot runs, which slots are finished, and which slot may be reclaimed,
over whole runs of the scheduler. -/
namespace Myria.Sched

open Mm

variable {threadWrapper : U64} {s t : SchedState} {op : SchedOp}

/-! ## Only the current thread runs -/

/-- A running slot is the current one and holds a thread; before `sched_start`
there is no current thread. -/
structure OnlyCurrentRuns (s : SchedState) : Prop where
  current : ∀ i, (s.threadTable i).state = .running → s.current = some i
  tid : ∀ i, (s.threadTable i).state = .running → (s.threadTable i).tid ≠ 0#32
  idle : s.enabled = false → s.current = none

theorem onlyCurrentRuns_switchStable : SwitchStable OnlyCurrentRuns fun _ => True where
  same := by
    intro s s' hsame h
    refine ⟨fun i hi => ?_, fun i hi => ?_, fun hen => ?_⟩
    · rw [hsame.current]
      exact h.current i (hsame.state i ▸ hi)
    · rw [hsame.tid]
      exact h.tid i (hsame.state i ▸ hi)
    · rw [hsame.current]
      exact h.idle (hsame.enabled ▸ hen)
  switch := by
    intro s old next h hen hc hnext hne _
    have hslot : ∀ i, ((s.switchTo old next).threadTable i).state = .running → i = next := by
      intro i hi
      rw [switchTo_threadTable] at hi
      split at hi
      · cases hi
      · split at hi
        · assumption
        · rename_i hold _
          exact absurd (Option.some.inj (hc.symm.trans (h.current i hi))).symm hold
    refine ⟨fun i hi => congrArg some (hslot i hi).symm, fun i hi => ?_, fun hdis => ?_⟩
    · rw [hslot i hi, switchTo_threadTable, if_neg hne, if_pos rfl]
      exact hnext.1
    · exact absurd hen (by rw [show s.enabled = false from hdis]; decide)

theorem OnlyCurrentRuns.init (s : SchedState) : OnlyCurrentRuns (schedInit s) where
  current _ hi := by cases hi
  tid _ hi := by cases hi
  idle _ := rfl

theorem OnlyCurrentRuns.create (h : OnlyCurrentRuns s) (entryPoint arg : U64)
    (name : Option (List (BitVec 8))) :
    OnlyCurrentRuns (threadCreate threadWrapper s entryPoint arg name).2 := by
  rcases threadCreate_cases threadWrapper s entryPoint arg name with
    ⟨-, heap, heq⟩ | ⟨slot, stackBase, heap, -, -, -, heq⟩
  · rw [heq]
    exact ⟨h.current, h.tid, h.idle⟩
  · rw [heq]
    refine ⟨fun i hi => ?_, fun i hi => ?_, h.idle⟩ <;>
      simp only [SchedState.modify_threadTable, SchedState.modify_current] at hi ⊢ <;>
      split at hi
    · cases hi
    · exact h.current i hi
    · cases hi
    · rename_i hne
      rw [if_neg hne]
      exact h.tid i hi

theorem OnlyCurrentRuns.start (h : OnlyCurrentRuns s) (hidle : s.enabled = false) :
    OnlyCurrentRuns (schedStart s) := by
  have hnone : ∀ i, (s.threadTable i).state ≠ .running := by
    intro i hi
    have := h.current i hi
    rw [h.idle hidle] at this
    cases this
  rcases schedStart_cases s with heq | ⟨first, hrun, heq⟩
  · rw [heq]
    exact ⟨fun i hi => absurd hi (hnone i), fun i hi => absurd hi (hnone i),
      fun hen => by cases hen⟩
  · rw [heq]
    have hslot : ∀ i, ((({ s with enabled := true, current := some first } : SchedState).setState
        first .running).threadTable i).state = .running → i = first := by
      intro i hi
      simp only [SchedState.setState, SchedState.modify_threadTable] at hi
      split at hi
      · assumption
      · exact absurd hi (hnone i)
    refine ⟨fun i hi => congrArg some (hslot i hi).symm, fun i hi => ?_, fun hen => by cases hen⟩
    rw [hslot i hi]
    simpa [SchedState.setState] using hrun.1

theorem OnlyCurrentRuns.finish (h : OnlyCurrentRuns s) {i : Slot} :
    OnlyCurrentRuns (finishThread s i) := by
  refine onlyCurrentRuns_switchStable.schedYield ?_ fun _ _ _ => trivial
  refine ⟨fun j hj => ?_, fun j hj => ?_, h.idle⟩ <;>
    simp only [SchedState.setState, SchedState.modify_threadTable,
      SchedState.modify_current] at hj ⊢ <;>
    split at hj
  · cases hj
  · exact h.current j hj
  · cases hj
  · rename_i hne
    rw [if_neg hne]
    exact h.tid j hj

theorem OnlyCurrentRuns.tick (h : OnlyCurrentRuns s) : OnlyCurrentRuns (schedTick s) := by
  have htick := onlyCurrentRuns_switchStable.tickCurrent h fun _ _ _ _ _ => trivial
  rcases schedTick_cases s with ⟨-, heq⟩ | ⟨-, -, heq⟩ | ⟨-, -, heq⟩
  · rwa [heq]
  · rwa [heq]
  · -- a running slot is not ZOMBIE, so the cleanup leaves it alone
    rw [heq, cleanupZombieThreads_eq]
    refine ⟨fun i hi => htick.current i (Thread.reclaim_state _ ▸ hi), fun i hi => ?_, htick.idle⟩
    rw [Thread.reclaim_state] at hi
    change ((tickCurrent s).threadTable i).reclaim.tid ≠ 0#32
    rw [Thread.reclaim_of_ne_zombie (by rw [hi]; decide)]
    exact htick.tid i hi

theorem OnlyCurrentRuns.step (h : OnlyCurrentRuns s) (hs : schedStep threadWrapper s op = some t)
    (hstart : op = .schedStart → s.enabled = false) : OnlyCurrentRuns t := by
  cases op with
  | schedInit => cases hs; exact .init s
  | threadCreate entryPoint arg name => cases hs; exact h.create entryPoint arg name
  | schedStart => cases hs; exact h.start (hstart rfl)
  | schedYield => cases hs; exact onlyCurrentRuns_switchStable.schedYield h fun _ _ _ => trivial
  | schedTick => cases hs; exact h.tick
  | threadExit =>
    obtain ⟨i, -, rfl⟩ := Option.map_eq_some_iff.mp hs
    exact h.finish

/-- Only `sched_start` enables the scheduler. -/
theorem schedStep_enabled (hs : schedStep threadWrapper s op = some t) (hop : op ≠ .schedStart)
    (hen : t.enabled = true) : s.enabled = true := by
  cases op with
  | schedInit => cases hs; cases hen
  | threadCreate entryPoint arg name =>
    cases hs
    rcases threadCreate_cases threadWrapper s entryPoint arg name with
      ⟨-, heap, heq⟩ | ⟨slot, stackBase, heap, -, -, -, heq⟩ <;>
    · rw [heq] at hen
      exact hen
  | schedStart => exact absurd rfl hop
  | schedYield => cases hs; rwa [schedYield_enabled] at hen
  | schedTick =>
    cases hs
    rcases schedTick_cases s with ⟨hdis, heq⟩ | ⟨hen', -⟩ | ⟨hen', -⟩
    · rwa [heq] at hen
    · exact hen'
    · exact hen'
  | threadExit =>
    obtain ⟨i, -, rfl⟩ := Option.map_eq_some_iff.mp hs
    rwa [finishThread, schedYield_enabled] at hen

/-- **Running means current.** After `sched_init`, whatever threads are created,
yield, are ticked or finish, and with `sched_start` called at most once, a slot in
state RUNNING is the one `current_thread` points to, so there is at most one, and
`thread_create` leaves it alone. -/
theorem running_is_current {s₀ : SchedState} {ops : List SchedOp} (hinit : .schedInit ∉ ops)
    (hstart : ops.count .schedStart ≤ 1)
    (hrun : Runs.run (schedStep threadWrapper) (schedInit s₀) ops = some s) :
    (∀ i, (s.threadTable i).state = .running → s.current = some i) ∧
    ∀ entryPoint arg name i, (s.threadTable i).state = .running →
      (threadCreate threadWrapper s entryPoint arg name).2.threadTable i = s.threadTable i := by
  have h : OnlyCurrentRuns s ∧ (s.enabled = true → .schedStart ∈ ops) := by
    refine Runs.run_invariant
      (P := fun ops s => .schedInit ∉ ops → ops.count .schedStart ≤ 1 →
        OnlyCurrentRuns s ∧ (s.enabled = true → .schedStart ∈ ops))
      (fun _ _ => ⟨.init s₀, fun hen => by cases hen⟩) ?_ ops s hrun hinit hstart
    intro ops t op t' _ ih hs hinit hcount
    rw [List.count_append] at hcount
    obtain ⟨hI, hmem⟩ := ih (fun h => hinit (List.mem_append_left _ h)) (by omega)
    refine ⟨hI.step hs ?_, fun hen => ?_⟩
    · -- a second `sched_start` would make the count two
      rintro rfl
      by_contra hen
      have hpos := List.count_pos_iff.mpr (hmem (by simpa using hen))
      simp at hcount
      omega
    · by_cases hop : op = .schedStart
      · exact List.mem_append_right _ (by simp [hop])
      · exact List.mem_append_left _ (hmem (schedStep_enabled hs hop hen))
  refine ⟨h.1.current, fun entryPoint arg name i hi => ?_⟩
  rcases threadCreate_cases threadWrapper s entryPoint arg name with
    ⟨-, heap, heq⟩ | ⟨slot, stackBase, heap, -, htid, -, heq⟩
  · rw [heq]
  · have hne : i ≠ slot := by
      rintro rfl
      exact h.1.tid i hi htid
    simp only [heq, SchedState.modify_threadTable, if_neg hne]

/-- The BSS image of the scheduler's statics. -/
def SchedState.bss : SchedState where
  threadTable _ :=
    { tid := 0, state := .ready, priority := 0, name := List.replicate 32 0, entryPoint := 0
      arg := 0, stackBase := 0, stackTop := 0, context := ⟨fun _ => 0, 0, 0⟩, timeSlice := 0
      totalRuntime := 0 }
  current := none
  nextTid := 1
  activeThreadCount := 0
  schedulerTicks := 0
  enabled := false
  heap := ⟨0⟩

/-- Three threads; the first yields to the second, which finishes. -/
theorem running_is_current_three_threads :
    ∃ s, Runs.run (schedStep 0x100000) (schedInit .bss)
        [.threadCreate 0x1000 0 none, .threadCreate 0x2000 0 none, .schedStart, .schedYield,
          .threadCreate 0x3000 0 none, .schedTick, .threadExit] = some s ∧
      s.current = some 2 ∧ ∀ i, (s.threadTable i).state = .running → s.current = some i := by
  have hrun : Runs.run (schedStep 0x100000) (schedInit .bss)
      [.threadCreate 0x1000 0 none, .threadCreate 0x2000 0 none, .schedStart, .schedYield,
        .threadCreate 0x3000 0 none, .schedTick, .threadExit] = some _ := rfl
  exact ⟨_, hrun, rfl, (running_is_current (by decide) (by decide) hrun).1⟩

/-! ## Leaving a finished thread -/

/-- The operation makes `sched_yield` leave a ZOMBIE slot for another thread: a
yield of a finished thread, the tick that uses up its time slice, or a
termination, whenever a thread can be chosen. -/
def LeavesZombie (s : SchedState) (op : SchedOp) : Prop :=
  s.enabled = true ∧ ∃ i, s.current = some i ∧
    match op with
    | .schedYield =>
      (s.threadTable i).state = .zombie ∧ s.activeThreadCount ≠ 0#32 ∧
        ∃ j, (s.threadTable j).Runnable
    | .schedTick =>
      (s.threadTable i).state = .zombie ∧ (s.threadTable i).timeSlice = 1#64 ∧
        s.activeThreadCount ≠ 0#32 ∧ ∃ j, (s.threadTable j).Runnable
    | .threadExit => s.activeThreadCount ≠ 1#32 ∧ ∃ j, j ≠ i ∧ (s.threadTable j).Runnable
    | _ => False

/-- The state in which an operation calls `sched_yield`, if it does. -/
def yieldCall (s : SchedState) : SchedOp → Option SchedState
  | .schedYield => some s
  | .schedTick => if s.enabled then tickYields s else none
  | .threadExit => s.current.map fun i =>
      { s.setState i .zombie with activeThreadCount := s.activeThreadCount - 1 }
  | _ => none

/-- The operation makes `sched_yield` switch away from a ZOMBIE slot. -/
def SwitchesFromZombie (s : SchedState) (op : SchedOp) : Prop :=
  ∃ u old next, yieldCall s op = some u ∧ yieldSwitch u = some (old, next) ∧
    (u.threadTable old).state = .zombie

theorem switchesFromZombie_yield (s : SchedState) :
    SwitchesFromZombie s .schedYield ↔ LeavesZombie s .schedYield := by
  constructor
  · rintro ⟨u, old, next, hcall, hy, hz⟩
    cases Option.some.inj hcall
    obtain ⟨hen, hc, hnext⟩ := (exists_yieldSwitch_iff hz).mp ⟨next, hy⟩
    exact ⟨hen, old, hc, hz, hnext⟩
  · rintro ⟨hen, old, hc, hz, hnext⟩
    obtain ⟨next, hy⟩ := (exists_yieldSwitch_iff hz).mpr ⟨hen, hc, hnext⟩
    exact ⟨s, old, next, rfl, hy, hz⟩

theorem switchesFromZombie_tick (s : SchedState) :
    SwitchesFromZombie s .schedTick ↔ LeavesZombie s .schedTick := by
  constructor
  · rintro ⟨u, old, next, hcall, hy, hz⟩
    rw [yieldCall] at hcall
    split at hcall
    · rename_i hen
      obtain ⟨hsame, -⟩ := tickYields_sameThreads hcall
      obtain ⟨-, hc, hcount, j, hj⟩ := (exists_yieldSwitch_iff hz).mp ⟨next, hy⟩
      rw [hsame.current] at hc
      rw [hsame.state] at hz
      rw [hsame.active] at hcount
      exact ⟨hen, old, hc, hz, (exists_tickYields_iff hc).mp ⟨u, hcall⟩, hcount, j,
        (hsame.runnable j).mp hj⟩
    · cases hcall
  · rintro ⟨hen, old, hc, hz, hslice, hcount, j, hj⟩
    obtain ⟨u, hu⟩ := (exists_tickYields_iff hc).mpr hslice
    obtain ⟨hsame, -⟩ := tickYields_sameThreads hu
    have hz' : (u.threadTable old).state = .zombie := (hsame.state old).trans hz
    have hcount' : u.activeThreadCount ≠ 0#32 := by rwa [hsame.active]
    obtain ⟨next, hy⟩ := (exists_yieldSwitch_iff hz').mpr
      ⟨hsame.enabled.trans hen, hsame.current.trans hc, hcount', j, (hsame.runnable j).mpr hj⟩
    exact ⟨u, old, next, (if_pos hen).trans hu, hy, hz'⟩

/-- A slot marked ZOMBIE is not runnable, the others are as before. -/
theorem runnable_setState_zombie (s : SchedState) (i j : Slot) :
    ((s.setState i .zombie).threadTable j).Runnable ↔ j ≠ i ∧ (s.threadTable j).Runnable := by
  by_cases hji : j = i <;> simp [SchedState.setState, Thread.Runnable, hji]

theorem switchesFromZombie_exit (s : SchedState) :
    SwitchesFromZombie s .threadExit ↔ LeavesZombie s .threadExit := by
  have hcount : s.activeThreadCount - 1 ≠ 0#32 ↔ s.activeThreadCount ≠ 1#32 := by
    constructor <;> intro h <;> bv_omega
  constructor
  · rintro ⟨u, old, next, hcall, hy, hz⟩
    obtain ⟨i, hi, rfl⟩ := Option.map_eq_some_iff.mp hcall
    obtain ⟨hen, -, hact, j, hj⟩ := (exists_yieldSwitch_iff hz).mp ⟨next, hy⟩
    exact ⟨hen, i, hi, hcount.mp hact, j, (runnable_setState_zombie s i j).mp hj⟩
  · rintro ⟨hen, i, hi, hact, j, hj⟩
    have hz : ((s.setState i .zombie).threadTable i).state = .zombie := by
      simp [SchedState.setState]
    obtain ⟨next, hy⟩ := (exists_yieldSwitch_iff
      (s := { s.setState i .zombie with activeThreadCount := s.activeThreadCount - 1 }) hz).mpr
      ⟨hen, hi, hcount.mpr hact, j, (runnable_setState_zombie s i j).mpr hj⟩
    exact ⟨_, i, next, by rw [yieldCall, hi]; rfl, hy, hz⟩

theorem switchesFromZombie_iff (s : SchedState) (op : SchedOp) :
    SwitchesFromZombie s op ↔ LeavesZombie s op := by
  cases op with
  | schedInit => simp [SwitchesFromZombie, LeavesZombie, yieldCall]
  | threadCreate entryPoint arg name => simp [SwitchesFromZombie, LeavesZombie, yieldCall]
  | schedStart => simp [SwitchesFromZombie, LeavesZombie, yieldCall]
  | schedYield => exact switchesFromZombie_yield s
  | schedTick => exact switchesFromZombie_tick s
  | threadExit => exact switchesFromZombie_exit s

/-- After a tick the current slot is ZOMBIE when it was before and the tick did
not leave it. -/
theorem tickCurrent_zombie_iff (hen : s.enabled = true) (i : Slot) :
    (tickCurrent s).current = some i ∧ ((tickCurrent s).threadTable i).state = .zombie ↔
      s.current = some i ∧ (s.threadTable i).state = .zombie ∧ ¬ LeavesZombie s .schedTick := by
  rw [← switchesFromZombie_iff]
  have hcall : yieldCall s .schedTick = tickYields s := if_pos hen
  rcases tickCurrent_cases s with ⟨hnone, hsame⟩ | ⟨u, hu, hsame, heq⟩
  · rw [hsame.current, hsame.state]
    refine ⟨fun ⟨hc, hz⟩ => ⟨hc, hz, ?_⟩, fun ⟨hc, hz, _⟩ => ⟨hc, hz⟩⟩
    rintro ⟨u, old, next, hu, -⟩
    rw [hcall, hnone] at hu
    cases hu
  · rw [heq, schedYield_eq]
    cases hy : yieldSwitch u with
    | none =>
      simp only [hsame.current, hsame.state]
      refine ⟨fun ⟨hc, hz⟩ => ⟨hc, hz, ?_⟩, fun ⟨hc, hz, _⟩ => ⟨hc, hz⟩⟩
      rintro ⟨u', old, next, hu', hy', -⟩
      cases Option.some.inj (hu.symm.trans (hcall.symm.trans hu'))
      rw [hy] at hy'
      cases hy'
    | some p =>
      obtain ⟨old, next⟩ := p
      obtain ⟨-, hc, -, hne⟩ := yieldSwitch_eq_some hy
      constructor
      · rintro ⟨hi, hz⟩
        cases Option.some.inj hi
        rw [switchTo_threadTable, if_neg hne, if_pos rfl] at hz
        cases hz
      · rintro ⟨hi, hz, hleave⟩
        cases Option.some.inj (hi.symm.trans (hsame.current.symm.trans hc))
        exact absurd ⟨u, i, next, hcall.trans hu, hy, (hsame.state i).trans hz⟩ hleave

/-! ## The current slot is not reclaimed -/

/-- What the slot `current_thread` points to must keep. -/
def CurrentAlive (s : SchedState) : Prop :=
  ∀ i, s.current = some i → (s.threadTable i).tid ≠ 0#32 ∧ (s.threadTable i).stackBase ≠ 0#64

/-- Every thread has a stack, and the current slot holds a thread. -/
structure CurrentHolds (s : SchedState) : Prop where
  stack : ∀ i, (s.threadTable i).tid ≠ 0#32 → (s.threadTable i).stackBase ≠ 0#64
  current : ∀ i, s.current = some i → (s.threadTable i).tid ≠ 0#32

theorem CurrentHolds.alive (h : CurrentHolds s) : CurrentAlive s :=
  fun i hi => ⟨h.current i hi, h.stack i (h.current i hi)⟩

/-- Setting a state touches neither identity nor stack. -/
theorem CurrentHolds.setState (h : CurrentHolds s) (i : Slot) (state : ThreadState) :
    CurrentHolds (s.setState i state) := by
  refine ⟨fun j hj => ?_, fun j hj => ?_⟩ <;>
    simp only [SchedState.setState, SchedState.modify_threadTable] at hj ⊢ <;> split
  · rename_i hji
    rw [if_pos hji] at hj
    exact h.stack i hj
  · rename_i hji
    rw [if_neg hji] at hj
    exact h.stack j hj
  · rename_i hji
    exact h.current i (hji ▸ hj)
  · exact h.current j hj

theorem CurrentHolds.setCurrent (h : CurrentHolds s) {i : Slot}
    (hi : (s.threadTable i).tid ≠ 0#32) (enabled : Bool) :
    CurrentHolds { s with current := some i, enabled } :=
  ⟨h.stack, fun _ hj => Option.some.inj hj ▸ hi⟩

theorem currentHolds_switchStable : SwitchStable CurrentHolds fun _ => True where
  same := by
    intro s s' hsame h
    refine ⟨fun i hi => ?_, fun i hi => ?_⟩
    · rw [hsame.stackBase]
      exact h.stack i (hsame.tid i ▸ hi)
    · rw [hsame.tid]
      exact h.current i (hsame.current ▸ hi)
  switch := by
    intro s old next h _ _ hnext _ _
    exact ((h.setCurrent hnext.1 s.enabled).setState next .running).setState old .ready

theorem CurrentHolds.create (h : CurrentHolds s) (entryPoint arg : U64)
    (name : Option (List (BitVec 8))) :
    CurrentHolds (threadCreate threadWrapper s entryPoint arg name).2 := by
  rcases threadCreate_cases threadWrapper s entryPoint arg name with
    ⟨-, heap, heq⟩ | ⟨slot, stackBase, heap, -, htid, hstack, heq⟩
  · rw [heq]
    exact ⟨h.stack, h.current⟩
  · rw [heq]
    refine ⟨fun i hi => ?_, fun i hi => ?_⟩ <;>
      simp only [SchedState.modify_threadTable, SchedState.modify_current] at hi ⊢
    · split
      · exact hstack
      · rename_i hne
        rw [if_neg hne] at hi
        exact h.stack i hi
    · have hne : i ≠ slot := by
        rintro rfl
        exact h.current i hi htid
      rw [if_neg hne]
      exact h.current i hi

theorem CurrentHolds.start (h : CurrentHolds s) : CurrentHolds (schedStart s) := by
  rcases schedStart_cases s with heq | ⟨first, hrun, heq⟩
  · rw [heq]
    exact ⟨h.stack, h.current⟩
  · rw [heq]
    exact (h.setCurrent hrun.1 true).setState first .running

/-- This tick runs the cleanup with the current slot ZOMBIE, and does not leave
that slot for another thread before. -/
def CleansCurrent (s : SchedState) : Prop :=
  s.enabled = true ∧ (s.schedulerTicks + 1) % 100 = 0#32 ∧
    ∃ i, s.current = some i ∧ (s.threadTable i).state = .zombie ∧ ¬ LeavesZombie s .schedTick

theorem CurrentHolds.cleanup (h : CurrentHolds s)
    (hcur : ∀ i, s.current = some i → (s.threadTable i).state ≠ .zombie) :
    CurrentHolds (cleanupZombieThreads s) := by
  rw [cleanupZombieThreads_eq]
  refine ⟨fun i hi => ?_, fun i hi => ?_⟩
  · change (s.threadTable i).reclaim.stackBase ≠ 0#64
    change (s.threadTable i).reclaim.tid ≠ 0#32 at hi
    rw [Thread.reclaim] at hi ⊢
    split at hi
    · exact absurd rfl hi
    · rename_i hkeep
      rw [if_neg hkeep]
      exact h.stack i hi
  · change (s.threadTable i).reclaim.tid ≠ 0#32
    rw [Thread.reclaim_of_ne_zombie (hcur i hi)]
    exact h.current i hi

theorem CurrentHolds.tick (h : CurrentHolds s) (hclean : ¬ CleansCurrent s) :
    CurrentHolds (schedTick s) := by
  have htick := currentHolds_switchStable.tickCurrent h fun _ _ _ _ _ => trivial
  rcases schedTick_cases s with ⟨-, heq⟩ | ⟨-, -, heq⟩ | ⟨hen, hticks, heq⟩
  · rwa [heq]
  · rwa [heq]
  · rw [heq]
    exact htick.cleanup fun i hi hz =>
      hclean ⟨hen, hticks, i, (tickCurrent_zombie_iff hen i).mp ⟨hi, hz⟩⟩

theorem CurrentHolds.step (h : CurrentHolds s) (hs : schedStep threadWrapper s op = some t)
    (hclean : op = .schedTick → ¬ CleansCurrent s) : CurrentHolds t := by
  cases op with
  | schedInit =>
    cases hs
    exact ⟨fun _ hi => absurd rfl hi, fun _ hi => by cases hi⟩
  | threadCreate entryPoint arg name => cases hs; exact h.create entryPoint arg name
  | schedStart => cases hs; exact h.start
  | schedYield => cases hs; exact currentHolds_switchStable.schedYield h fun _ _ _ => trivial
  | schedTick => cases hs; exact h.tick (hclean rfl)
  | threadExit =>
    obtain ⟨i, -, rfl⟩ := Option.map_eq_some_iff.mp hs
    have hmark := h.setState i .zombie
    exact currentHolds_switchStable.schedYield ⟨hmark.stack, hmark.current⟩ fun _ _ _ => trivial

theorem CleansCurrent.not_alive (h : CleansCurrent s) : ¬ CurrentAlive (schedTick s) := by
  obtain ⟨hen, hticks, i, hzombie⟩ := h
  obtain ⟨hi, hz⟩ := (tickCurrent_zombie_iff hen i).mpr hzombie
  have heq : schedTick s = cleanupZombieThreads (tickCurrent s) := by
    rw [schedTick, if_neg (by simp [hen])]
    exact if_pos (by rw [tickCurrent_schedulerTicks, hticks])
  rw [heq, cleanupZombieThreads_eq]
  intro halive
  refine (halive i hi).1 ?_
  change ((tickCurrent s).threadTable i).reclaim.tid = 0#32
  rw [Thread.reclaim]
  split
  · rfl
  · rename_i hkeep
    by_contra htid
    exact hkeep ⟨hz, htid⟩

/-- **The executing thread is reclaimed when it is finished.** Along a run, the
slot `current_thread` points to always holds a thread with a stack exactly when
no tick runs the cleanup while that slot is ZOMBIE and is not left for another
thread in the same tick. -/
theorem current_alive_iff {s₀ : SchedState} {ops : List SchedOp}
    (hrun : Runs.run (schedStep threadWrapper) (schedInit s₀) ops = some s) :
    Runs.Always (schedStep threadWrapper) (schedInit s₀) CurrentAlive ops ↔
      Runs.StepsMeet (schedStep threadWrapper) (schedInit s₀)
        (fun s op => op = .schedTick → ¬ CleansCurrent s) ops := by
  refine Runs.always_iff_stepsMeet (I := CurrentHolds)
    ⟨fun _ hi => absurd rfl hi, fun _ hi => by cases hi⟩ (fun _ h => h.alive)
    (fun _ _ _ h hC hs => h.step hs hC) ?_ hrun
  intro t op t' _ hC hs
  rw [Classical.not_imp, not_not] at hC
  obtain ⟨rfl, hclean⟩ := hC
  cases hs
  exact hclean.not_alive

theorem current_alive_iff_two_threads :
    ∃ s, Runs.run (schedStep 0x100000) (schedInit .bss)
        [.threadCreate 0x1000 0 none, .threadCreate 0x2000 0 none, .schedStart, .threadExit,
          .schedTick] = some s ∧
      (Runs.Always (schedStep 0x100000) (schedInit .bss) CurrentAlive
          [.threadCreate 0x1000 0 none, .threadCreate 0x2000 0 none, .schedStart, .threadExit,
            .schedTick] ↔
        Runs.StepsMeet (schedStep 0x100000) (schedInit .bss)
          (fun s op => op = .schedTick → ¬ CleansCurrent s)
          [.threadCreate 0x1000 0 none, .threadCreate 0x2000 0 none, .schedStart, .threadExit,
            .schedTick]) := by
  have hrun : Runs.run (schedStep 0x100000) (schedInit .bss)
      [.threadCreate 0x1000 0 none, .threadCreate 0x2000 0 none, .schedStart, .threadExit,
        .schedTick] = some _ := rfl
  exact ⟨_, hrun, current_alive_iff hrun⟩

/-- The only thread finishes, and the hundredth tick takes its slot and stack
away while `current_thread` still points to it. -/
theorem lone_thread_reclaimed :
    ∃ s, Runs.run (schedStep 0x100000) (schedInit .bss)
        ([.threadCreate 0x1000 0 none, .schedStart, .threadExit] ++
          List.replicate 100 .schedTick) = some s ∧
      s.current = some 0 ∧ (s.threadTable 0).tid = 0 ∧ (s.threadTable 0).stackBase = 0 := by
  have hview : (Runs.run (schedStep 0x100000) (schedInit .bss)
      ([.threadCreate 0x1000 0 none, .schedStart, .threadExit] ++
        List.replicate 100 .schedTick)).map
        (fun s => (s.current, (s.threadTable 0).tid, (s.threadTable 0).stackBase)) =
      some (some 0, 0, 0) := by decide +kernel
  obtain ⟨s, hrun, hs⟩ := Option.map_eq_some_iff.mp hview
  simp only [Prod.mk.injEq] at hs
  exact ⟨s, hrun, hs⟩

/-! ## Finished threads -/

/-- The scheduler together with the slots whose thread has terminated and that
have not been refilled since. -/
structure SchedHistory where
  sched : SchedState
  finished : Slot → Bool

/-- How an operation changes that set: termination adds the current slot and
`thread_create` takes out the slot it fills, which only a cleared `tid` lets it
choose. -/
def finishedAfter (h : SchedHistory) : SchedOp → Slot → Bool
  | .threadCreate entryPoint _ _, i =>
    h.finished i && decide (refilledSlot h.sched entryPoint ≠ some i)
  | .threadExit, i => h.finished i || decide (h.sched.current = some i)
  | _, i => h.finished i

def historyStep (threadWrapper : U64) (h : SchedHistory) (op : SchedOp) : Option SchedHistory :=
  (schedStep threadWrapper h.sched op).map fun t => ⟨t, finishedAfter h op⟩

def SchedHistory.boot (s : SchedState) : SchedHistory := ⟨schedInit s, fun _ => false⟩

/-- No finished thread is READY, RUNNING or about to be chosen. -/
def FinishedStay (h : SchedHistory) : Prop :=
  ∀ i, h.finished i = true → (h.sched.threadTable i).state ≠ .ready ∧
    (h.sched.threadTable i).state ≠ .running ∧ findNextThread h.sched ≠ some i

/-- Finished slots are ZOMBIE, and a ZOMBIE current slot is a finished one. -/
structure FinishedZombie (finished : Slot → Bool) (s : SchedState) : Prop where
  zombie : ∀ i, finished i = true → (s.threadTable i).state = .zombie
  current : ∀ i, s.current = some i → (s.threadTable i).state = .zombie → finished i = true

variable {finished : Slot → Bool}

theorem FinishedZombie.stay {h : SchedHistory} (hI : FinishedZombie h.finished h.sched) :
    FinishedStay h := by
  intro i hi
  have hz := hI.zombie i hi
  refine ⟨by rw [hz]; decide, by rw [hz]; decide, fun hnext => ?_⟩
  have hready := (findNextThread_runnable hnext).2
  rw [hz] at hready
  cases hready

theorem finishedZombie_switchStable (finished : Slot → Bool) :
    SwitchStable (FinishedZombie finished) fun t => t.state ≠ .zombie where
  same := by
    intro s s' hsame h
    refine ⟨fun i hi => ?_, fun i hi hz => ?_⟩
    · rw [hsame.state]
      exact h.zombie i hi
    · exact h.current i (hsame.current ▸ hi) (hsame.state i ▸ hz)
  switch := by
    intro s old next h _ _ hnext hne hold
    refine ⟨fun i hi => ?_, fun i hi hz => ?_⟩
    · have hio : i ≠ old := by
        rintro rfl
        exact hold (h.zombie i hi)
      have hin : i ≠ next := by
        rintro rfl
        have hready := hnext.2
        rw [h.zombie i hi] at hready
        cases hready
      rw [switchTo_threadTable, if_neg hio, if_neg hin]
      exact h.zombie i hi
    · cases Option.some.inj hi
      rw [switchTo_threadTable, if_neg hne, if_pos rfl] at hz
      cases hz

theorem FinishedZombie.cleanup (h : FinishedZombie finished s) :
    FinishedZombie finished (cleanupZombieThreads s) := by
  rw [cleanupZombieThreads_eq]
  refine ⟨fun i hi => (Thread.reclaim_state _).trans (h.zombie i hi), fun i hi hz => ?_⟩
  exact h.current i hi ((Thread.reclaim_state _).symm.trans hz)

theorem FinishedZombie.tick (h : FinishedZombie finished s)
    (hsw : ¬ SwitchesFromZombie s .schedTick) : FinishedZombie finished (schedTick s) := by
  rcases schedTick_cases s with ⟨-, heq⟩ | ⟨hen, -, heq⟩ | ⟨hen, -, heq⟩
  · rwa [heq]
  all_goals
    have htick : FinishedZombie finished (tickCurrent s) :=
      (finishedZombie_switchStable finished).tickCurrent h fun u old next hu hs hz =>
        hsw ⟨u, old, next, (if_pos hen).trans hu, hs, hz⟩
    rw [heq]
  · exact htick
  · exact htick.cleanup

theorem FinishedZombie.create (h : FinishedZombie finished s) (entryPoint arg : U64)
    (name : Option (List (BitVec 8))) :
    FinishedZombie (finishedAfter ⟨s, finished⟩ (.threadCreate entryPoint arg name))
      (threadCreate threadWrapper s entryPoint arg name).2 := by
  rcases threadCreate_cases threadWrapper s entryPoint arg name with
    ⟨hnone, heap, heq⟩ | ⟨slot, stackBase, heap, hslot, -, -, heq⟩
  · rw [heq]
    refine ⟨fun i hi => ?_, fun i hi hz => ?_⟩ <;> simp only [finishedAfter, hnone] at hi ⊢
    · exact h.zombie i (by simpa using hi)
    · simpa using h.current i hi hz
  · rw [heq]
    refine ⟨fun i hi => ?_, fun i hi hz => ?_⟩ <;>
      simp only [finishedAfter, hslot, SchedState.modify_threadTable, SchedState.modify_current,
        Bool.and_eq_true, decide_eq_true_eq] at hi ⊢
    · obtain ⟨hf, hne⟩ := hi
      rw [if_neg (fun heq => hne (congrArg some heq.symm))]
      exact h.zombie i hf
    · simp only [SchedState.modify_threadTable] at hz
      split at hz
      · cases hz
      · rename_i hne
        exact ⟨h.current i hi hz, fun heq => hne (Option.some.inj heq).symm⟩

theorem FinishedZombie.start (h : FinishedZombie finished s) :
    FinishedZombie finished (schedStart s) := by
  rcases schedStart_cases s with heq | ⟨first, hrun, heq⟩
  · rw [heq]
    exact ⟨h.zombie, h.current⟩
  · rw [heq]
    refine ⟨fun i hi => ?_, fun i hi hz => ?_⟩ <;>
      simp only [SchedState.setState, SchedState.modify_threadTable, SchedState.modify_current] at *
    · have hne : i ≠ first := by
        rintro rfl
        have hready := hrun.2
        rw [h.zombie i hi] at hready
        cases hready
      rw [if_neg hne]
      exact h.zombie i hi
    · rw [if_pos (Option.some.inj hi).symm] at hz
      cases hz

/-- Marking the current slot adds it to the finished ones. -/
theorem FinishedZombie.mark (h : FinishedZombie finished s) {i : Slot} (hi : s.current = some i) :
    FinishedZombie (finishedAfter ⟨s, finished⟩ .threadExit)
      { s.setState i .zombie with activeThreadCount := s.activeThreadCount - 1 } := by
  refine ⟨fun j hj => ?_, fun j hj _ => ?_⟩ <;>
    simp only [finishedAfter, SchedState.setState, SchedState.modify_threadTable,
      SchedState.modify_current, Bool.or_eq_true, decide_eq_true_eq] at hj ⊢
  · split
    · rfl
    · rename_i hne
      rcases hj with hj | hj
      · exact h.zombie j hj
      · exact absurd (Option.some.inj (hj.symm.trans hi)) hne
  · exact .inr hj

/-- `sched_init` leaves every slot ZOMBIE and none current. -/
theorem FinishedZombie.init (finished : Slot → Bool) (s : SchedState) :
    FinishedZombie finished (schedInit s) where
  zombie _ _ := rfl
  current _ hi := by cases hi

theorem FinishedZombie.step {h h' : SchedHistory} (hI : FinishedZombie h.finished h.sched)
    (hleave : ¬ LeavesZombie h.sched op) (hstep : historyStep threadWrapper h op = some h') :
    FinishedZombie h'.finished h'.sched := by
  have hsw : ¬ SwitchesFromZombie h.sched op := (switchesFromZombie_iff _ _).not.mpr hleave
  obtain ⟨t, hs, rfl⟩ := Option.map_eq_some_iff.mp hstep
  cases op with
  | schedInit => cases hs; exact .init h.finished h.sched
  | threadCreate entryPoint arg name => cases hs; exact hI.create entryPoint arg name
  | schedStart => cases hs; exact hI.start
  | schedYield =>
    cases hs
    exact (finishedZombie_switchStable _).schedYield hI fun old next hy hz =>
      hsw ⟨_, old, next, rfl, hy, hz⟩
  | schedTick => cases hs; exact hI.tick hsw
  | threadExit =>
    obtain ⟨i, hi, rfl⟩ := Option.map_eq_some_iff.mp hs
    exact (finishedZombie_switchStable _).schedYield (hI.mark hi) fun old next hy hz =>
      hsw ⟨_, old, next, by rw [yieldCall, hi]; rfl, hy, hz⟩

/-- `sched_yield` makes the slot it leaves READY, finished or not. -/
theorem schedYield_old_ready {old next : Slot} (h : yieldSwitch s = some (old, next)) :
    ((schedYield s).threadTable old).state = .ready := by
  simp only [schedYield_eq, h, switchTo_threadTable, if_true]

theorem LeavesZombie.not_stay {h h' : SchedHistory} (hI : FinishedZombie h.finished h.sched)
    (hleave : LeavesZombie h.sched op) (hstep : historyStep threadWrapper h op = some h') :
    ¬ FinishedStay h' := by
  obtain ⟨t, hs, rfl⟩ := Option.map_eq_some_iff.mp hstep
  obtain ⟨u, old, next, hcall, hy, hz⟩ := (switchesFromZombie_iff _ _).mpr hleave
  have hcur := (yieldSwitch_eq_some hy).2.1
  have hready := schedYield_old_ready hy
  suffices hbad : finishedAfter h op old = true ∧ (t.threadTable old).state = .ready from
    fun hstay => (hstay old hbad.1).1 hbad.2
  cases op with
  | schedInit => cases hcall
  | threadCreate entryPoint arg name => cases hcall
  | schedStart => cases hcall
  | schedYield =>
    cases hs
    cases hcall
    exact ⟨hI.current old hcur hz, hready⟩
  | schedTick =>
    cases hs
    rw [yieldCall] at hcall
    split at hcall
    · rename_i hen
      obtain ⟨hsame, htick⟩ := tickYields_sameThreads hcall
      refine ⟨hI.current old (hsame.current ▸ hcur) (hsame.state old ▸ hz), ?_⟩
      rcases schedTick_cases h.sched with ⟨hdis, -⟩ | ⟨-, -, heq⟩ | ⟨-, -, heq⟩
      · rw [hdis] at hen
        cases hen
      · rw [heq, htick]
        exact hready
      · -- the slot is READY by now, so the cleanup of the same tick misses it
        rw [heq, htick, cleanupZombieThreads_eq]
        exact (Thread.reclaim_state _).trans hready
    · cases hcall
  | threadExit =>
    obtain ⟨i, hi, rfl⟩ := Option.map_eq_some_iff.mp hs
    rw [yieldCall, hi] at hcall
    cases Option.some.inj hcall
    exact ⟨(hI.mark hi).current old hcur hz, hready⟩

/-- **A finished thread comes back when it is switched away from.** Along a run,
finished threads stay finished until their slot is refilled exactly when no
operation leaves a ZOMBIE current slot for another thread, as every termination
with another thread ready does. -/
theorem finished_stay_iff {s₀ : SchedState} {ops : List SchedOp} {h : SchedHistory}
    (hrun : Runs.run (historyStep threadWrapper) (.boot s₀) ops = some h) :
    Runs.Always (historyStep threadWrapper) (.boot s₀) FinishedStay ops ↔
      Runs.StepsMeet (historyStep threadWrapper) (.boot s₀)
        (fun h op => ¬ LeavesZombie h.sched op) ops :=
  Runs.always_iff_stepsMeet (I := fun h => FinishedZombie h.finished h.sched)
    (.init _ s₀) (fun _ hI => hI.stay) (fun _ _ _ hI hleave hs => hI.step hleave hs)
    (fun _ _ _ hI hleave hs => (not_not.mp hleave).not_stay hI hs) hrun

theorem finished_stay_iff_lone_thread :
    ∃ h, Runs.run (historyStep 0x100000) (.boot .bss)
        [.threadCreate 0x1000 0 none, .schedStart, .threadExit] = some h ∧
      (Runs.Always (historyStep 0x100000) (.boot .bss) FinishedStay
          [.threadCreate 0x1000 0 none, .schedStart, .threadExit] ↔
        Runs.StepsMeet (historyStep 0x100000) (.boot .bss)
          (fun h op => ¬ LeavesZombie h.sched op)
          [.threadCreate 0x1000 0 none, .schedStart, .threadExit]) := by
  have hrun : Runs.run (historyStep 0x100000) (.boot .bss)
      [.threadCreate 0x1000 0 none, .schedStart, .threadExit] = some _ := rfl
  exact ⟨_, hrun, finished_stay_iff hrun⟩

/-- The first of two threads finishes, becomes READY in the switch to the second
one, and is chosen next. -/
theorem finished_thread_chosen_again :
    ∃ h, Runs.run (historyStep 0x100000) (.boot .bss)
        [.threadCreate 0x1000 0 none, .threadCreate 0x2000 0 none, .schedStart, .threadExit] =
          some h ∧
      h.finished 0 = true ∧ (h.sched.threadTable 0).state = .ready ∧
      findNextThread h.sched = some 0 :=
  ⟨_, rfl, rfl, rfl, rfl⟩

end Myria.Sched
