import Mathlib.Data.Fintype.Card
import Myria.Sched.Lifecycle

/-! Runs in which no thread finishes. Every thread is then READY or RUNNING, and
the question is who gives the CPU its first thread: `sched_yield` and
`sched_tick` do nothing without a current thread, so only `sched_start` does, and
only if a thread is READY when it is called. -/
namespace Myria.Sched

open Mm

variable {threadWrapper : U64} {s t : SchedState} {op : SchedOp} {ops : List SchedOp}

/-- The slots that hold a thread. -/
def SchedState.threads (s : SchedState) : Finset Slot :=
  Finset.univ.filter fun i => (s.threadTable i).tid ≠ 0#32

@[simp] theorem SchedState.mem_threads {i : Slot} :
    i ∈ s.threads ↔ (s.threadTable i).tid ≠ 0#32 := by
  simp [threads]

theorem SchedState.threads_congr (h : ∀ i, (t.threadTable i).tid = (s.threadTable i).tid) :
    t.threads = s.threads := by
  ext i
  rw [mem_threads, mem_threads, h]

/-- A slot that holds a thread is READY or RUNNING, a free one ZOMBIE, the
current thread is RUNNING, and the active threads are counted. -/
structure SlotsLive (s : SchedState) : Prop where
  live : ∀ i, (s.threadTable i).tid ≠ 0#32 →
    (s.threadTable i).state = .ready ∨ (s.threadTable i).state = .running
  free : ∀ i, (s.threadTable i).tid = 0#32 → (s.threadTable i).state = .zombie
  current : ∀ i, s.current = some i →
    (s.threadTable i).tid ≠ 0#32 ∧ (s.threadTable i).state = .running
  idle : s.enabled = false → s.current = none
  count : s.activeThreadCount.toNat = s.threads.card

/-- In addition thread numbers have been given out one by one. -/
structure NoneFinished (s : SchedState) : Prop extends SlotsLive s where
  nextTid : s.nextTid = s.activeThreadCount + 1

theorem switchTo_tid (s : SchedState) (old next i : Slot) :
    ((s.switchTo old next).threadTable i).tid = (s.threadTable i).tid := by
  rw [switchTo_threadTable]
  split
  · rename_i h
    rw [h]
    split
    · rename_i h'
      rw [h']
    · rfl
  · split
    · rename_i h
      rw [h]
    · rfl

theorem slotsLive_switchStable : SwitchStable SlotsLive fun _ => True where
  same := by
    intro s s' hsame h
    refine ⟨fun i hi => ?_, fun i hi => ?_, fun i hi => ?_, fun hen => ?_, ?_⟩
    · rw [hsame.state]
      exact h.live i (hsame.tid i ▸ hi)
    · rw [hsame.state]
      exact h.free i (hsame.tid i ▸ hi)
    · rw [hsame.tid, hsame.state]
      exact h.current i (hsame.current ▸ hi)
    · rw [hsame.current]
      exact h.idle (hsame.enabled ▸ hen)
    · rw [hsame.active, SchedState.threads_congr hsame.tid]
      exact h.count
  switch := by
    intro s old next h hen hc hnext hne _
    have hold := (h.current old hc).1
    refine ⟨fun i hi => ?_, fun i hi => ?_, fun i hi => ?_, fun hdis => ?_, ?_⟩
    · rw [switchTo_tid] at hi
      rw [switchTo_threadTable]
      split
      · exact .inl rfl
      · split
        · exact .inr rfl
        · exact h.live i hi
    · rw [switchTo_tid] at hi
      have hio : i ≠ old := by
        rintro rfl
        exact hold hi
      have hin : i ≠ next := by
        rintro rfl
        exact hnext.1 hi
      rw [switchTo_threadTable, if_neg hio, if_neg hin]
      exact h.free i hi
    · cases Option.some.inj hi
      rw [switchTo_threadTable, if_neg hne, if_pos rfl]
      exact ⟨hnext.1, rfl⟩
    · rw [show s.enabled = false from hdis] at hen
      cases hen
    · rw [SchedState.threads_congr (switchTo_tid s old next)]
      exact h.count

theorem SlotsLive.active_ne_zero (h : SlotsLive s) {i : Slot}
    (hi : (s.threadTable i).tid ≠ 0#32) : s.activeThreadCount ≠ 0#32 := by
  intro h0
  have hpos := Finset.card_pos.mpr ⟨i, SchedState.mem_threads.mpr hi⟩
  rw [← h.count, h0] at hpos
  exact absurd hpos (by decide)

/-- No slot is reclaimed while no thread has finished. -/
theorem SlotsLive.cleanup (h : SlotsLive s) : cleanupZombieThreads s = s := by
  have hkeep : ∀ i, (s.threadTable i).reclaim = s.threadTable i := by
    intro i
    rw [Thread.reclaim, if_neg]
    rintro ⟨hz, htid⟩
    rcases h.live i htid with hl | hl <;>
    · rw [hz] at hl
      cases hl
  rw [cleanupZombieThreads_eq]
  simp only [hkeep]

theorem SlotsLive.schedYield (h : SlotsLive s) : SlotsLive (schedYield s) :=
  slotsLive_switchStable.schedYield h fun _ _ _ => trivial

theorem SlotsLive.tickCurrent (h : SlotsLive s) : SlotsLive (tickCurrent s) :=
  slotsLive_switchStable.tickCurrent h fun _ _ _ _ _ => trivial

/-- A tick is its effect on the current thread: there is nothing to clean up. -/
theorem SlotsLive.schedTick_eq (h : SlotsLive s) (hen : s.enabled = true) :
    schedTick s = Sched.tickCurrent s := by
  rcases schedTick_cases s with ⟨hdis, -⟩ | ⟨-, -, heq⟩ | ⟨-, -, heq⟩
  · rw [hen] at hdis
    cases hdis
  · exact heq
  · rw [heq, h.tickCurrent.cleanup]

theorem NoneFinished.init (s : SchedState) : NoneFinished (schedInit s) where
  live _ hi := absurd rfl hi
  free _ _ := rfl
  current _ hi := by cases hi
  idle _ := rfl
  count := by
    symm
    rw [show (schedInit s).activeThreadCount.toNat = 0 from rfl, Finset.card_eq_zero]
    ext i
    simp [schedInit]
  nextTid := rfl

/-- Filling a free slot makes one thread more. -/
theorem card_threads_modify {slot : Slot} (hfree : (s.threadTable slot).tid = 0#32) {t : Thread}
    (ht : t.tid ≠ 0#32) : (s.modify slot fun _ => t).threads.card = s.threads.card + 1 := by
  have hslot : slot ∉ s.threads := by simpa using hfree
  rw [← Finset.card_insert_of_notMem hslot]
  congr 1
  ext i
  by_cases hi : i = slot
  · simp [hi, ht]
  · simp [hi]

theorem NoneFinished.create (h : NoneFinished s) (entryPoint arg : U64)
    (name : Option (List (BitVec 8))) :
    NoneFinished (threadCreate threadWrapper s entryPoint arg name).2 := by
  rcases threadCreate_cases threadWrapper s entryPoint arg name with
    ⟨-, heap, heq⟩ | ⟨slot, stackBase, heap, -, hfree, -, heq⟩
  · rw [heq]
    exact ⟨⟨h.live, h.free, h.current, h.idle, h.count⟩, h.nextTid⟩
  · -- a free slot leaves room for one more thread, so neither counter wraps
    have hroom : s.threads.card < 8 := by
      have hlt := Finset.card_lt_univ_of_notMem (s := s.threads) (x := slot) (by simpa using hfree)
      simpa using hlt
    have hsum : (s.activeThreadCount + 1).toNat = s.threads.card + 1 :=
      counter_succ_toNat h.count (by omega)
    have hnew : s.nextTid ≠ 0#32 := by
      intro h0
      rw [← h.nextTid, h0] at hsum
      exact absurd hsum (by simp)
    rw [heq]
    refine ⟨⟨fun i hi => ?_, fun i hi => ?_, fun i hi => ?_, h.idle, ?_⟩, ?_⟩
    · simp only [SchedState.modify_threadTable] at hi ⊢
      split
      · exact .inl rfl
      · rename_i hne
        rw [if_neg hne] at hi
        exact h.live i hi
    · simp only [SchedState.modify_threadTable] at hi ⊢
      split
      · rename_i heq
        rw [if_pos heq] at hi
        exact absurd hi hnew
      · rename_i hne
        rw [if_neg hne] at hi
        exact h.free i hi
    · have hne : i ≠ slot := by
        rintro rfl
        exact (h.current i hi).1 hfree
      simp only [SchedState.modify_threadTable, if_neg hne]
      exact h.current i hi
    · exact hsum.trans (card_threads_modify hfree hnew).symm
    · show s.nextTid + 1 = s.activeThreadCount + 1 + 1
      rw [h.nextTid]

theorem NoneFinished.start (h : NoneFinished s) : NoneFinished (schedStart s) := by
  rcases schedStart_cases s with heq | ⟨first, hrun, heq⟩
  · rw [heq]
    exact ⟨⟨h.live, h.free, h.current, (fun hen => by cases hen), h.count⟩, h.nextTid⟩
  · rw [heq]
    refine ⟨⟨fun i hi => ?_, fun i hi => ?_, fun i hi => ?_, (fun hen => by cases hen), ?_⟩,
      h.nextTid⟩ <;>
      simp only [SchedState.setState, SchedState.modify_threadTable, SchedState.modify_current] at *
    · split
      · exact .inr rfl
      · rename_i hne
        rw [if_neg hne] at hi
        exact h.live i hi
    · split
      · rename_i heq
        rw [if_pos heq] at hi
        exact absurd hi hrun.1
      · rename_i hne
        rw [if_neg hne] at hi
        exact h.free i hi
    · rw [if_pos (Option.some.inj hi).symm]
      exact ⟨hrun.1, rfl⟩
    · refine h.count.trans (congrArg Finset.card ?_)
      ext i
      by_cases hi : i = first
      · simp [hi]
      · simp [hi]

theorem NoneFinished.tick (h : NoneFinished s) : NoneFinished (schedTick s) := by
  cases hen : s.enabled with
  | false =>
    rw [schedTick, hen]
    exact h
  | true =>
    rw [h.schedTick_eq hen]
    refine ⟨h.tickCurrent, ?_⟩
    rw [(tickCurrent_alloc s).1, tickCurrent_active]
    exact h.nextTid

theorem NoneFinished.step (h : NoneFinished s) (hs : schedStep threadWrapper s op = some t)
    (hop : op ≠ .threadExit) : NoneFinished t := by
  cases op with
  | schedInit => cases hs; exact .init s
  | threadCreate entryPoint arg name => cases hs; exact h.create entryPoint arg name
  | schedStart => cases hs; exact h.start
  | schedYield =>
    cases hs
    refine ⟨h.schedYield, ?_⟩
    rw [(schedYield_alloc s).1, schedYield_active]
    exact h.nextTid
  | schedTick => cases hs; exact h.tick
  | threadExit => exact absurd rfl hop

theorem run_noneFinished {s₀ : SchedState} (hexit : .threadExit ∉ ops)
    (hrun : Runs.run (schedStep threadWrapper) (schedInit s₀) ops = some s) : NoneFinished s := by
  refine Runs.run_invariant (P := fun ops s => .threadExit ∉ ops → NoneFinished s)
    (fun _ => .init s₀) ?_ ops s hrun hexit
  intro ops u op u' _ ih hs hexit
  rw [List.mem_append, not_or] at hexit
  refine (ih hexit.1).step hs ?_
  rintro rfl
  exact hexit.2 (List.mem_singleton.mpr rfl)

/-! ## Who has the CPU -/

/-- Since the last `sched_init`, `sched_start` was called while a thread was
READY. -/
def StartedReady (threadWrapper : U64) (s₀ : SchedState) (ops : List SchedOp) : Prop :=
  ∃ before after u, ops = before ++ .schedStart :: after ∧ .schedInit ∉ after ∧
    Runs.run (schedStep threadWrapper) (schedInit s₀) before = some u ∧
    ∃ j, (u.threadTable j).Runnable

theorem startedReady_concat {s₀ : SchedState}
    (hrun : Runs.run (schedStep threadWrapper) (schedInit s₀) ops = some s) :
    StartedReady threadWrapper s₀ (ops ++ [op]) ↔
      (op ≠ .schedInit ∧ StartedReady threadWrapper s₀ ops) ∨
      (op = .schedStart ∧ ∃ j, (s.threadTable j).Runnable) := by
  constructor
  · rintro ⟨before, after, u, hsplit, hinit, hu, hj⟩
    rcases List.eq_nil_or_concat' after with rfl | ⟨after, last, rfl⟩
    · -- the call that counts is the last one
      obtain ⟨rfl, rfl⟩ : ops = before ∧ op = .schedStart := by simpa using hsplit
      cases Option.some.inj (hrun.symm.trans hu)
      exact .inr ⟨rfl, hj⟩
    · rw [← List.cons_append, ← List.append_assoc] at hsplit
      obtain ⟨rfl, hlast⟩ := List.append_inj' hsplit rfl
      cases List.singleton_inj.mp hlast
      rw [List.mem_append, not_or] at hinit
      refine .inl ⟨?_, before, after, u, rfl, hinit.1, hu, hj⟩
      rintro rfl
      exact hinit.2 (List.mem_singleton.mpr rfl)
  · rintro (⟨hop, before, after, u, rfl, hinit, hu, hj⟩ | ⟨rfl, hj⟩)
    · refine ⟨before, after ++ [op], u, by simp, ?_, hu, hj⟩
      rw [List.mem_append, List.mem_singleton]
      rintro (h | h)
      · exact hinit h
      · exact hop h.symm
    · exact ⟨ops, [], s, rfl, List.not_mem_nil, hrun, hj⟩

theorem schedYield_current_isSome (s : SchedState) :
    (schedYield s).current.isSome = s.current.isSome := by
  rw [schedYield_eq]
  cases hsw : yieldSwitch s with
  | none => rfl
  | some p =>
    rw [(yieldSwitch_eq_some hsw).2.1]
    rfl

theorem schedTick_current_isSome (s : SchedState) :
    (schedTick s).current.isSome = s.current.isSome := by
  have htick : (tickCurrent s).current.isSome = s.current.isSome := by
    rcases tickCurrent_cases s with ⟨-, hsame⟩ | ⟨u, -, hsame, heq⟩
    · rw [hsame.current]
    · rw [heq, schedYield_current_isSome, hsame.current]
  rcases schedTick_cases s with ⟨-, heq⟩ | ⟨-, -, heq⟩ | ⟨-, -, heq⟩
  · rw [heq]
  · rw [heq, htick]
  · rw [heq, cleanupZombieThreads_eq]
    exact htick

theorem threadCreate_current (s : SchedState) (entryPoint arg : U64)
    (name : Option (List (BitVec 8))) :
    (threadCreate threadWrapper s entryPoint arg name).2.current = s.current := by
  rcases threadCreate_cases threadWrapper s entryPoint arg name with
    ⟨-, heap, heq⟩ | ⟨slot, stackBase, heap, -, -, -, heq⟩
  · rw [heq]
  · rw [heq, SchedState.modify_current]

/-- `sched_start` gives the CPU a thread if one is READY. -/
theorem SlotsLive.schedStart_current_isSome (h : SlotsLive s) :
    (schedStart s).current.isSome = true ↔
      s.current.isSome = true ∨ ∃ j, (s.threadTable j).Runnable := by
  have hfind := exists_findNextThread_iff { s with enabled := true }
  rw [schedStart]
  cases hnext : findNextThread { s with enabled := true } with
  | some first =>
    simp only [SchedState.setState, SchedState.modify_current, Option.isSome_some, true_iff]
    exact .inr ⟨first, findNextThread_runnable hnext⟩
  | none =>
    simp only [hnext, reduceCtorEq, exists_false, false_iff, not_and] at hfind
    refine ⟨.inl, fun hor => hor.resolve_right ?_⟩
    rintro ⟨j, hj⟩
    exact hfind (h.active_ne_zero hj.1) ⟨j, hj⟩

/-- How the calls change whether there is a current thread. -/
theorem NoneFinished.current_isSome_step (h : NoneFinished s)
    (hs : schedStep threadWrapper s op = some t) (hop : op ≠ .threadExit) :
    t.current.isSome = true ↔ (op ≠ .schedInit ∧ s.current.isSome = true) ∨
      (op = .schedStart ∧ ∃ j, (s.threadTable j).Runnable) := by
  cases op with
  | schedInit => cases hs; simp [schedInit]
  | threadCreate entryPoint arg name => cases hs; simp [threadCreate_current]
  | schedStart => cases hs; simp [h.schedStart_current_isSome]
  | schedYield => cases hs; simp [schedYield_current_isSome]
  | schedTick => cases hs; simp [schedTick_current_isSome]
  | threadExit => exact absurd rfl hop

/-- **Work conservation, after a start that found work.** While no thread
finishes, `sched_yield` leaves a RUNNING current thread exactly when, since the
last `sched_init`, `sched_start` was called with a thread READY. Otherwise there
is no current thread and `sched_yield` does nothing, whatever is READY. -/
theorem yield_leaves_running_iff {s₀ : SchedState} (hexit : .threadExit ∉ ops)
    (hrun : Runs.run (schedStep threadWrapper) (schedInit s₀) ops = some s) :
    ((∃ i, (schedYield s).current = some i ∧ ((schedYield s).threadTable i).state = .running) ↔
      StartedReady threadWrapper s₀ ops) ∧
    (¬ StartedReady threadWrapper s₀ ops → s.current = none ∧ schedYield s = s) := by
  have hstarted : s.current.isSome = true ↔ StartedReady threadWrapper s₀ ops := by
    refine Runs.run_invariant
      (P := fun ops s => .threadExit ∉ ops →
        (s.current.isSome = true ↔ StartedReady threadWrapper s₀ ops))
      (fun _ => ?_) ?_ ops s hrun hexit
    · simp [StartedReady, schedInit]
    · intro ops u op u' hu ih hs hexit
      rw [List.mem_append, not_or, List.mem_singleton] at hexit
      rw [startedReady_concat hu, ← ih hexit.1]
      exact (run_noneFinished hexit.1 hu).current_isSome_step hs (Ne.symm hexit.2)
  rw [← hstarted]
  refine ⟨?_, fun hnone => ?_⟩
  · rw [← schedYield_current_isSome, Option.isSome_iff_exists]
    refine exists_congr fun i => and_iff_left_of_imp fun hi => ?_
    exact ((run_noneFinished hexit hrun).schedYield.current i hi).2
  · have hcur : s.current = none := by simpa using hnone
    refine ⟨hcur, ?_⟩
    rw [schedYield, hcur]
    exact ite_self s

/-- Two threads, then the start: a yield leaves a running thread. -/
theorem yield_leaves_running_two_threads :
    ∃ s, Runs.run (schedStep 0x100000) (schedInit .bss)
        [.threadCreate 0x1000 0 none, .threadCreate 0x2000 0 none, .schedStart] = some s ∧
      StartedReady 0x100000 .bss
        [.threadCreate 0x1000 0 none, .threadCreate 0x2000 0 none, .schedStart] ∧
      ∃ i, (schedYield s).current = some i ∧ ((schedYield s).threadTable i).state = .running := by
  have hrun : Runs.run (schedStep 0x100000) (schedInit .bss)
      [.threadCreate 0x1000 0 none, .threadCreate 0x2000 0 none, .schedStart] = some _ := rfl
  have hstarted : StartedReady 0x100000 .bss
      [.threadCreate 0x1000 0 none, .threadCreate 0x2000 0 none, .schedStart] := by
    refine ⟨[.threadCreate 0x1000 0 none, .threadCreate 0x2000 0 none], [], _, rfl,
      List.not_mem_nil, rfl, 0, ?_⟩
    decide
  exact ⟨_, hrun, hstarted, (yield_leaves_running_iff (by decide) hrun).1.mpr hstarted⟩

/-- The scheduler is started before the first thread exists: the thread is
READY, and yielding leaves the CPU without a current thread. -/
theorem start_before_create_idles :
    ∃ s, Runs.run (schedStep 0x100000) (schedInit .bss)
        [.schedStart, .threadCreate 0x1000 0 none] = some s ∧
      s.enabled = true ∧ (s.threadTable 0).Runnable ∧ (schedYield s).current = none :=
  ⟨_, rfl, rfl, by decide, rfl⟩

end Myria.Sched
