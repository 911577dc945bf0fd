import Myria.Sched.RoundRobin

/-! `sched_run_threads`, the cooperative loop over the table. It calls each READY
thread's entry point directly, but the entry point may call `sched_yield`, and
with the scheduler on that passes the RUNNING mark to a slot further up that the
loop has not reached. Unless the mark is back when the entry point returns, the
slot that holds it is skipped. -/
namespace Myria.Sched

open Mm CyclicOrder

variable {threadWrapper : U64} {s : SchedState} {ops : List SchedOp} {yields : Slot → ℕ}

/-- A call of an entry point. -/
structure Call where
  slot : Slot
  entryPoint : U64
  arg : U64
deriving DecidableEq

/-- The loop body of `sched_run_threads`. The entry point of slot `i` is one that
calls `sched_yield` `yields i` times and returns. -/
def runSlot (yields : Slot → ℕ) (p : SchedState × List Call) (i : Slot) : SchedState × List Call :=
  let t := p.1.threadTable i
  if t.Runnable then
    let s := ({ p.1 with current := some i } : SchedState).setState i .running
    let s := schedYield^[yields i] s
    -- the slot of the loop is marked, wherever `current_thread` points by now
    ({ s.setState i .zombie with current := none }, p.2 ++ [⟨i, t.entryPoint, t.arg⟩])
  else p

/-- `sched_run_threads`: the state it leaves and the entry points it called. -/
def schedRunThreads (yields : Slot → ℕ) (s : SchedState) : SchedState × List Call :=
  (List.finRange maxThreads).foldl (runSlot yields) (s, [])

/-- The calls that are due for the slots `is`. -/
def dueCalls (s : SchedState) (is : List Slot) : List Call :=
  (is.filter fun i => (s.threadTable i).Runnable).map fun i =>
    ⟨i, (s.threadTable i).entryPoint, (s.threadTable i).arg⟩

/-- What `sched_run_threads` promises: every READY thread is called once, in slot
order, and finished; a slot left RUNNING was not touched; no thread is current. -/
structure RanOnce (s : SchedState) (r : SchedState × List Call) : Prop where
  calls : r.2 = dueCalls s (List.finRange maxThreads)
  finished : ∀ i, (s.threadTable i).Runnable → (r.1.threadTable i).state = .zombie
  untouched : ∀ i, (r.1.threadTable i).state = .running → r.1.threadTable i = s.threadTable i
  current : r.1.current = none

/-- The threads from slot `i` on that are READY when the loop starts. -/
def readyFrom (s : SchedState) (i : Slot) : Finset Slot :=
  Finset.univ.filter fun j => i ≤ j ∧ (s.threadTable j).Runnable

/-- The yields of the thread in slot `i` bring the RUNNING mark back to it. -/
def MarkReturns (yields : Slot → ℕ) (s : SchedState) (i : Slot) : Prop :=
  (s.threadTable i).Runnable → s.enabled = true → (readyFrom s i).card ∣ yields i

/-- The state after every READY thread among the slots `is` has run. -/
def SchedState.ran (s : SchedState) (is : List Slot) : SchedState :=
  { s with
    threadTable := fun i =>
      if i ∈ is ∧ (s.threadTable i).Runnable then { s.threadTable i with state := .zombie }
      else s.threadTable i
    current := if ∃ i ∈ is, (s.threadTable i).Runnable then none else s.current }

/-! ## One slot -/

/-- The state in which the entry point of slot `i` is called. -/
def SchedState.dispatch (s : SchedState) (i : Slot) : SchedState :=
  ({ s with current := some i } : SchedState).setState i .running

theorem runSlot_of_runnable {p : SchedState × List Call} {i : Slot}
    (h : (p.1.threadTable i).Runnable) :
    runSlot yields p i =
      ({ (schedYield^[yields i] (p.1.dispatch i)).setState i .zombie with current := none },
        p.2 ++ [⟨i, (p.1.threadTable i).entryPoint, (p.1.threadTable i).arg⟩]) :=
  if_pos h

theorem runSlot_of_not_runnable {p : SchedState × List Call} {i : Slot}
    (h : ¬ (p.1.threadTable i).Runnable) : runSlot yields p i = p :=
  if_neg h

theorem schedYield_iterate_of_disabled (h : s.enabled = false) (n : ℕ) :
    schedYield^[n] s = s := by
  have hid : schedYield s = s := by
    rw [schedYield, h]
    rfl
  exact Function.iterate_fixed hid n

theorem hasCpu_dispatch {i : Slot} (hen : s.enabled = true) (hi : (s.threadTable i).tid ≠ 0#32)
    (hactive : s.activeThreadCount ≠ 0#32) : HasCpu (s.dispatch i) i := by
  refine ⟨hen, rfl, ?_, ?_, hactive⟩
  · simpa [SchedState.dispatch, SchedState.setState] using hi
  · simp [SchedState.dispatch, SchedState.setState]

theorem runnable_dispatch (s : SchedState) (i j : Slot) :
    ((s.dispatch i).threadTable j).Runnable ↔ j ≠ i ∧ (s.threadTable j).Runnable := by
  by_cases hji : j = i
  · simp [SchedState.dispatch, SchedState.setState, Thread.Runnable, hji]
  · simp [SchedState.dispatch, SchedState.setState, hji]

/-- The loop has reached slot `i` when it has passed exactly the slots below. -/
theorem ran_runnable_iff {is : List Slot} {i j : Slot} (hbefore : ∀ j, j ∈ is ↔ j < i) :
    (((s.ran is).threadTable j).Runnable) ↔ i ≤ j ∧ (s.threadTable j).Runnable := by
  by_cases hj : j < i
  · simp only [SchedState.ran, hbefore, hj, true_and]
    split
    · simp [Thread.Runnable, not_le.mpr hj]
    · simp_all
  · simp [SchedState.ran, hbefore, hj, not_lt.mp hj]

/-- While slot `i` runs, the turn is taken by the READY threads from there on. -/
theorem length_rotation_dispatch {is : List Slot} {i : Slot} (hbefore : ∀ j, j ∈ is ↔ j < i)
    (hi : (s.threadTable i).Runnable) (hcpu : HasCpu ((s.ran is).dispatch i) i) :
    (((s.ran is).dispatch i).rotation i).length = (readyFrom s i).card := by
  have hset : readyFrom s i = insert i (Finset.univ.filter fun j =>
      (((s.ran is).dispatch i).threadTable j).Runnable) := by
    ext j
    simp only [readyFrom, Finset.mem_filter_univ, Finset.mem_insert, runnable_dispatch,
      ran_runnable_iff hbefore]
    by_cases hji : j = i
    · simp [hji, hi]
    · simp [hji]
  rw [hcpu.length_rotation, hset, Finset.card_insert_of_notMem]
  simp [runnable_dispatch]

/-- The mark is back at slot `i`: the entry point leaves the state as it found it. -/
theorem entry_returns (h : SlotsLive s) {is : List Slot} {i : Slot}
    (hbefore : ∀ j, j ∈ is ↔ j < i) (hi : (s.threadTable i).Runnable)
    (hmark : MarkReturns yields s i) :
    schedYield^[yields i] ((s.ran is).dispatch i) = (s.ran is).dispatch i := by
  cases hen : s.enabled with
  | false => exact schedYield_iterate_of_disabled (s := (s.ran is).dispatch i) hen _
  | true =>
    have hcpu : HasCpu ((s.ran is).dispatch i) i :=
      hasCpu_dispatch hen ((ran_runnable_iff hbefore).mpr ⟨le_refl i, hi⟩).1 (h.active_ne_zero hi.1)
    obtain ⟨d, hd, hmoved, -⟩ := hcpu.iterate (yields i)
    have hback := (hcpu.returns_iff (yields i)).mpr (by
      rw [length_rotation_dispatch hbefore hi hcpu]
      exact hmark hi hen)
    obtain rfl : d = i := Option.some.inj (hd.current.symm.trans hback)
    rw [hmoved, SchedState.movedTo, if_pos rfl]

/-- The mark is not back: a READY thread the loop has not reached is RUNNING. -/
theorem entry_strands (h : SlotsLive s) {is : List Slot} {i : Slot}
    (hbefore : ∀ j, j ∈ is ↔ j < i) (hmark : ¬ MarkReturns yields s i) :
    ∃ d, d ≠ i ∧ (s.threadTable d).Runnable ∧
      ((schedYield^[yields i] ((s.ran is).dispatch i)).threadTable d).state = .running := by
  simp only [MarkReturns, Classical.not_imp] at hmark
  obtain ⟨hi, hen, hdvd⟩ := hmark
  have hcpu : HasCpu ((s.ran is).dispatch i) i :=
    hasCpu_dispatch hen ((ran_runnable_iff hbefore).mpr ⟨le_refl i, hi⟩).1 (h.active_ne_zero hi.1)
  obtain ⟨d, hd, -, hturn, -⟩ := hcpu.iterate (yields i)
  have hne : d ≠ i := by
    rintro rfl
    have hback := (hcpu.returns_iff (yields d)).mp hd.current
    rw [length_rotation_dispatch hbefore hi hcpu] at hback
    exact hdvd hback
  refine ⟨d, hne, ?_, hd.running⟩
  have hrun := ((hturn d).mp (.inr rfl)).resolve_right hne
  exact ((ran_runnable_iff hbefore).mp ((runnable_dispatch _ i d).mp hrun).2).2

/-! ## The loop -/

theorem ran_concat_of_not_runnable (is : List Slot) {i : Slot} (h : ¬ (s.threadTable i).Runnable) :
    s.ran (is ++ [i]) = s.ran is := by
  have hmem : ∀ j, (j ∈ is ++ [i] ∧ (s.threadTable j).Runnable) ↔
      (j ∈ is ∧ (s.threadTable j).Runnable) := by
    intro j
    rw [List.mem_append, List.mem_singleton]
    refine and_congr_left fun hj => or_iff_left ?_
    rintro rfl
    exact h hj
  simp only [SchedState.ran, hmem]

theorem ran_concat_of_runnable (is : List Slot) {i : Slot} (h : (s.threadTable i).Runnable) :
    s.ran (is ++ [i]) = { ((s.ran is).dispatch i).setState i .zombie with current := none } := by
  have hcurrent : ∃ j ∈ is ++ [i], (s.threadTable j).Runnable := ⟨i, by simp, h⟩
  have htable : (s.ran (is ++ [i])).threadTable =
      (((s.ran is).dispatch i).setState i .zombie).threadTable := by
    funext j
    by_cases hji : j = i
    · subst hji
      by_cases hmem : j ∈ is <;> simp [SchedState.ran, SchedState.dispatch,
        SchedState.setState, h, hmem]
    · simp [SchedState.ran, SchedState.dispatch, SchedState.setState, hji]
  calc s.ran (is ++ [i])
      = { s with threadTable := (s.ran (is ++ [i])).threadTable, current := none } := by
        simp only [SchedState.ran, if_pos hcurrent]
    _ = { ((s.ran is).dispatch i).setState i .zombie with current := none } := by
        rw [htable]
        rfl

/-- A slot that is RUNNING and not current is stranded: the loop never gets to
it. -/
structure Stranded (d : Slot) (s : SchedState) : Prop where
  running : (s.threadTable d).state = .running
  current : s.current ≠ some d

theorem stranded_switchStable (d : Slot) : SwitchStable (Stranded d) fun _ => True where
  same := by
    intro s s' hsame h
    refine ⟨?_, ?_⟩
    · rw [hsame.state]
      exact h.running
    · rw [hsame.current]
      exact h.current
  switch := by
    intro s old next h _ hc hnext hne _
    have hold : d ≠ old := by
      rintro rfl
      exact h.current hc
    have hnext' : d ≠ next := by
      rintro rfl
      have hready := hnext.2
      rw [h.running] at hready
      cases hready
    refine ⟨?_, fun heq => hnext' (Option.some.inj heq).symm⟩
    rw [switchTo_threadTable, if_neg hold, if_neg hnext']
    exact h.running

theorem Stranded.iterate {d : Slot} (h : Stranded d s) (n : ℕ) : Stranded d (schedYield^[n] s) := by
  induction n with
  | zero => exact h
  | succ n ih =>
    rw [Function.iterate_succ_apply']
    exact (stranded_switchStable d).schedYield ih fun _ _ _ => trivial

theorem Stranded.runSlot {d : Slot} {p : SchedState × List Call} (h : Stranded d p.1) (i : Slot) :
    Stranded d (runSlot yields p i).1 := by
  by_cases hi : (p.1.threadTable i).Runnable
  · have hne : d ≠ i := by
      rintro rfl
      have hready := hi.2
      rw [h.running] at hready
      cases hready
    have hcall : Stranded d (p.1.dispatch i) := by
      refine ⟨?_, fun heq => hne (Option.some.inj heq).symm⟩
      simpa [SchedState.dispatch, SchedState.setState, hne] using h.running
    rw [runSlot_of_runnable hi]
    refine ⟨?_, by simp⟩
    simpa [SchedState.setState, hne] using (hcall.iterate (yields i)).running
  · rw [runSlot_of_not_runnable hi]
    exact h

theorem dueCalls_concat (s : SchedState) (is : List Slot) (i : Slot) :
    dueCalls s (is ++ [i]) = dueCalls s is ++
      if (s.threadTable i).Runnable then [⟨i, (s.threadTable i).entryPoint, (s.threadTable i).arg⟩]
      else [] := by
  by_cases hi : (s.threadTable i).Runnable <;> simp [dueCalls, List.filter_append, hi]

/-- The loop up to some slot: either every mark came back and exactly the due
calls were made, or some READY thread is stranded. -/
theorem SlotsLive.loop (h : SlotsLive s) (yields : Slot → ℕ) (is rest : List Slot)
    (hsplit : List.finRange maxThreads = is ++ rest) :
    ((∀ i ∈ is, MarkReturns yields s i) ∧
      is.foldl (Sched.runSlot yields) (s, []) = (s.ran is, dueCalls s is)) ∨
    ((∃ i ∈ is, ¬ MarkReturns yields s i) ∧ ∃ d, (s.threadTable d).Runnable ∧
      Stranded d (is.foldl (Sched.runSlot yields) (s, [])).1) := by
  induction is using List.reverseRecOn generalizing rest with
  | nil =>
    refine .inl ⟨by simp, ?_⟩
    simp [SchedState.ran, dueCalls]
  | append_singleton is i ih =>
    rw [List.append_assoc] at hsplit
    have hbefore := mem_before_iff hsplit
    rw [List.foldl_append, List.foldl_cons, List.foldl_nil]
    rcases ih _ hsplit with ⟨hmarks, heq⟩ | ⟨⟨j, hj, hmark⟩, d, hd, hstr⟩
    · by_cases hi : (s.threadTable i).Runnable
      · have hslot : ((s.ran is).threadTable i).Runnable :=
          (ran_runnable_iff hbefore).mpr ⟨le_refl i, hi⟩
        have hsame : (s.ran is).threadTable i = s.threadTable i := by
          simp [SchedState.ran, hbefore]
        rw [heq, runSlot_of_runnable hslot]
        by_cases hmark : MarkReturns yields s i
        · refine .inl ⟨?_, ?_⟩
          · intro j hj
            rcases List.mem_append.mp hj with hj | hj
            · exact hmarks j hj
            · rw [List.mem_singleton.mp hj]
              exact hmark
          · rw [entry_returns h hbefore hi hmark, ran_concat_of_runnable is hi, dueCalls_concat,
              if_pos hi, hsame]
        · obtain ⟨d, hne, hd, hrunning⟩ := entry_strands h hbefore hmark
          refine .inr ⟨⟨i, by simp, hmark⟩, d, hd, ?_, by simp⟩
          simpa [SchedState.setState, hne] using hrunning
      · have hslot : ¬ ((s.ran is).threadTable i).Runnable :=
          fun hrun => hi ((ran_runnable_iff hbefore).mp hrun).2
        rw [heq, runSlot_of_not_runnable hslot, ran_concat_of_not_runnable is hi, dueCalls_concat,
          if_neg hi, List.append_nil]
        refine .inl ⟨?_, rfl⟩
        intro j hj
        rcases List.mem_append.mp hj with hj | hj
        · exact hmarks j hj
        · rw [List.mem_singleton.mp hj]
          exact fun hrun => absurd hrun hi
    · exact .inr ⟨⟨j, List.mem_append_left _ hj, hmark⟩, d, hd, hstr.runSlot i⟩

/-- **Every ready thread runs once, exactly when the mark comes back.** From every
state reached without a termination, `sched_run_threads` calls each READY thread
once in slot order, leaves them all ZOMBIE, leaves no slot it touched RUNNING and
no thread current, if and only if: with the scheduler on, each of them yields a
multiple of the number of READY threads from its slot on; and if nothing is READY,
no thread is current. -/
theorem run_threads_once_iff {s₀ : SchedState} (hexit : .threadExit ∉ ops)
    (hrun : Runs.run (schedStep threadWrapper) (schedInit s₀) ops = some s) (yields : Slot → ℕ) :
    RanOnce s (schedRunThreads yields s) ↔
      ((∀ i, ¬ (s.threadTable i).Runnable) → s.current = none) ∧
      (s.enabled = true → ∀ i, (s.threadTable i).Runnable → (readyFrom s i).card ∣ yields i) := by
  have hlive := (run_noneFinished hexit hrun).toSlotsLive
  rcases hlive.loop yields (List.finRange maxThreads) [] (by simp) with
    ⟨hmarks, heq⟩ | ⟨⟨i, -, hmark⟩, d, hd, hstr⟩
  · rw [schedRunThreads, heq]
    have hyields : s.enabled = true →
        ∀ i, (s.threadTable i).Runnable → (readyFrom s i).card ∣ yields i :=
      fun hen i hi => hmarks i (List.mem_finRange i) hi hen
    constructor
    · intro hranOnce
      refine ⟨fun hnone => ?_, hyields⟩
      have hcurrent := hranOnce.current
      simpa [SchedState.ran, hnone] using hcurrent
    · rintro ⟨hnone, -⟩
      refine ⟨rfl, fun i hi => ?_, fun i hi => ?_, ?_⟩
      · simp [SchedState.ran, hi]
      · simp only [SchedState.ran, List.mem_finRange, true_and] at hi ⊢
        split at hi
        · cases hi
        · rename_i hkeep
          rw [if_neg hkeep]
      · simp only [SchedState.ran, List.mem_finRange, true_and]
        split
        · rfl
        · rename_i hready
          exact hnone (not_exists.mp hready)
  · constructor
    · intro hranOnce
      have hz := hranOnce.finished d hd
      rw [schedRunThreads, hstr.running] at hz
      cases hz
    · rintro ⟨-, hyields⟩
      exact absurd (fun hi hen => hyields hen i hi) hmark

/-- The yields of `test_thread1`, `test_thread2` and `test_thread3`, in the slots
they get. -/
def testYields (i : Slot) : ℕ := if i = 2 then 2 else 3

/-- With the scheduler off yields do nothing, and three threads run in turn. -/
theorem run_threads_once_three_threads :
    ∃ s, Runs.run (schedStep 0x100000) (schedInit .bss)
        [.threadCreate 0x1000 0 none, .threadCreate 0x2000 0 none, .threadCreate 0x3000 0 none] =
          some s ∧
      RanOnce s (schedRunThreads testYields s) := by
  have hrun : Runs.run (schedStep 0x100000) (schedInit .bss)
      [.threadCreate 0x1000 0 none, .threadCreate 0x2000 0 none, .threadCreate 0x3000 0 none] =
        some _ := rfl
  refine ⟨_, hrun, (run_threads_once_iff (by decide) hrun _).mpr ⟨fun _ => rfl, fun hen => ?_⟩⟩
  cases hen

/-- The same three threads after `sched_start`, yielding three, three and two
times: the second leaves the mark with the third, which is never called and stays
RUNNING. -/
theorem run_threads_strands_third :
    ∃ s, Runs.run (schedStep 0x100000) (schedInit .bss)
        [.schedStart, .threadCreate 0x1000 0 none, .threadCreate 0x2000 0 none,
          .threadCreate 0x3000 0 none] = some s ∧
      (s.threadTable 2).Runnable ∧
      (schedRunThreads testYields s).2 = [⟨0, 0x1000, 0⟩, ⟨1, 0x2000, 0⟩] ∧
      ((schedRunThreads testYields s).1.threadTable 2).state = .running :=
  ⟨_, rfl, by decide, by decide, by decide⟩

end Myria.Sched
