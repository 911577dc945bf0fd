import Myria.Sched.ReadyFifo

/-! How long a READY thread of `thread.c` waits. Every tick takes from the time slice of
the thread that runs, and every switch brings the queue up by one place, so the place in
the queue bounds the ticks until a thread is dispatched. -/
namespace Myria.Sched.ReadyQueue

open LinkedQueue

variable {s s' : State} {p cur idle w : U64} {st : ThreadState} {q : List U64} {op : Op} {i : ℕ}

/-! ## Time slices -/

def State.sliceOf (s : State) (p : U64) : ℕ := ((s.threads p).map (·.timeSlice.toNat)).getD 0

theorem addToReadyQueue_sliceOf (hne : s.readyQueueTail ≠ some p) (t : U64) :
    (addToReadyQueue s p).sliceOf t = s.sliceOf t := by
  rw [State.sliceOf, State.sliceOf, addToReadyQueue_threads hne]
  split
  · rw [Option.map_map]
    rfl
  · split
    · rw [Option.map_map]
      rfl
    · rfl

/-- The thread that a yield dispatches starts with a full slice. -/
theorem Shape.sliceOf_head (h : Shape s st cur idle (w :: q))
    (hst : st = .running ∨ cur ≠ idle ∧ st ≠ .ready) (hyield : schedYield s = some s') :
    s'.sliceOf w = 10 := by
  have hne : (w :: q).headD idle ≠ cur := fun heq => h.current_notMem (heq ▸ List.mem_cons_self)
  have hstate : s'.stateOf w = some .running :=
    ((h.after_yield hst hyield).2 w).trans (if_pos rfl)
  obtain ⟨s₁, -, hyield'⟩ := schedYield_of_ne h hne
  obtain rfl : s' = dispatch (requeue s₁ cur) w := Option.some_inj.mp (hyield.symm.trans hyield')
  generalize requeue s₁ cur = s₂ at hstate ⊢
  cases hw : s₂.threads w with
  | none => simp [dispatch, State.stateOf, State.modify, hw] at hstate
  | some t =>
    simp [dispatch, State.sliceOf, State.modify, hw]
    rfl

/-! ## One step -/

/-- The ticks that the thread at place `i` of the queue waits at most. A slice that is
used up already ends with the next tick. -/
def State.waitTicks (s : State) (cur : U64) (i : ℕ) : ℕ := max (s.sliceOf cur) 1 + 10 * i

/-- The thread at place `i` was dispatched, or it has one tick less to wait. -/
def Nearer (s s' : State) (cur idle w : U64) (i : ℕ) : Prop :=
  w ∈ dispatched s s' ∨ ∃ cur' q' i', Shape s' .running cur' idle q' ∧ q'[i']? = some w ∧
    s'.waitTicks cur' i' + 1 ≤ s.waitTicks cur i

theorem Nearer.weaken (h : Nearer s s' cur idle w i) {n : ℕ} (hn : n ≤ 1) :
    w ∈ dispatched s s' ∨ ∃ cur' q' i', Shape s' .running cur' idle q' ∧ q'[i']? = some w ∧
      s'.waitTicks cur' i' + n ≤ s.waitTicks cur i := by
  rcases h with hnow | ⟨cur', q', i', hshape, hplace, hle⟩
  · exact .inl hnow
  · exact .inr ⟨cur', q', i', hshape, hplace, by omega⟩

theorem nearer_of_yield {s₁ : State} (h : Shape s₁ st cur idle q)
    (hst : st = .running ∨ cur ≠ idle ∧ st ≠ .ready) (hyield : schedYield s₁ = some s')
    (h₀ : Shape s .running cur idle q) (hw : q[i]? = some w) : Nearer s s' cur idle w i := by
  have hshape := (h.after_yield hst hyield).1
  cases q with
  | nil => cases hw
  | cons x q =>
    cases i with
    | zero =>
      left
      rw [dispatched_eq_head h h₀.current h₀.idle_eq hshape.current]
      obtain rfl : x = w := Option.some_inj.mp hw
      exact List.mem_singleton_self x
    | succ i =>
      right
      have hlt : i < q.length := Nat.lt_of_succ_lt_succ (List.getElem?_eq_some_iff.mp hw).1
      refine ⟨_, _, i, hshape, ?_, ?_⟩
      · rw [List.tail_cons, List.getElem?_append_left hlt]
        exact hw
      · have hslice : s'.sliceOf ((x :: q).headD idle) = 10 := h.sliceOf_head hst hyield
        simp only [State.waitTicks, hslice]
        omega

/-- A new thread changes neither the current thread nor its slice. -/
theorem NewBlock.keeps {s₁ : State} {n : Thread} (h : Shape s .running cur idle q)
    (hnew : NewBlock s s₁ p n) :
    (addToReadyQueue s₁ p).currentThread = s.currentThread ∧
      (addToReadyQueue s₁ p).sliceOf cur = s.sliceOf cur := by
  have hcur : cur ≠ p := fun heq => by
    cases hnew.stateOf_none.symm.trans (heq ▸ h.current_state)
  have htail : s.readyQueueTail ≠ some p := fun heq => by
    cases hnew.stateOf_none.symm.trans (h.ready p (h.tail_mem heq))
  refine ⟨by rw [addToReadyQueue_current, hnew.current], ?_⟩
  rw [addToReadyQueue_sliceOf (by rwa [hnew.tail]), State.sliceOf, hnew.threads,
    Function.update_of_ne hcur, State.sliceOf]

/-- A tick that does not end the slice of the current thread takes one from it. -/
theorem nearer_of_charged (h : Shape s .running cur idle q) (hw : q[i]? = some w)
    (hslice : ¬ (s.charged cur).Preempts cur) : Nearer s (s.charged cur) cur idle w i := by
  have hhead : (s.charged cur).readyQueueHead ≠ none := by
    rw [show (s.charged cur).readyQueueHead = q.head? from h.represents.head]
    cases q with
    | nil => cases hw
    | cons x q => exact Option.some_ne_none x
  obtain ⟨t, ht⟩ := State.exists_of_stateOf h.current_state
  refine .inr ⟨cur, q, i, h.charged.1, hw, ?_⟩
  -- the slice that is left is not zero, so a tick was taken from it
  have hleft : (if 0 < t.timeSlice then t.timeSlice - 1 else t.timeSlice) ≠ 0 := by
    intro hzero
    refine hslice ⟨?_, hhead⟩
    rw [← hzero]
    simp [State.charged, charge, State.modify, ht]
  have hbefore : s.sliceOf cur = t.timeSlice.toNat := by simp [State.sliceOf, ht]
  have hafter : (s.charged cur).sliceOf cur =
      (if 0 < t.timeSlice then t.timeSlice - 1 else t.timeSlice).toNat := by
    simp [State.sliceOf, State.charged, charge, State.modify, ht]
  rw [State.waitTicks, State.waitTicks, hbefore, hafter]
  split at hleft
  · rw [if_pos ‹_›]
    bv_omega
  · bv_omega

/-- **One step.** No operation makes a thread wait longer, and a tick brings it nearer. -/
theorem step_wait (h : Shape s .running cur idle q) (hs : step s op = some s')
    (hw : q[i]? = some w) :
    w ∈ dispatched s s' ∨ ∃ cur' q' i', Shape s' .running cur' idle q' ∧ q'[i']? = some w ∧
      s'.waitTicks cur' i' + (if op.isTick then 1 else 0) ≤ s.waitTicks cur i := by
  have hone : (if op.isTick then 1 else 0) ≤ 1 := by split <;> omega
  cases step_cases h hs with
  | refused untimed same =>
    subst same
    refine .inr ⟨cur, q, i, h, hw, ?_⟩
    rw [untimed]
    exact le_refl _
  | created untimed subject new added =>
    subst added
    have hlt : i < q.length := (List.getElem?_eq_some_iff.mp hw).1
    refine .inr ⟨cur, _, i, (Serves.of_create h new subject).shape, ?_, ?_⟩
    · rw [List.getElem?_append_left hlt, hw]
    · rw [untimed, State.waitTicks, State.waitTicks, (new.keeps h).2]
      exact le_refl _
  | charged goes_on same =>
    subst same
    exact (nearer_of_charged h hw goes_on).weaken hone
  | yielded _ shape stops _ yield => exact (nearer_of_yield shape stops yield h hw).weaken hone

/-! ## Whole runs -/

/-- **No READY thread waits forever.** From any state in which a thread runs, there is an idle
thread and the queue is well formed, in every run of creations, yields, ticks and departures: the
thread at place `i` of the queue is dispatched before `10 * i` ticks and those left of the current
slice have passed, at least one. `thread.c` itself never comes to such a state, since it sets
neither of the two threads. -/
theorem ready_thread_dispatched_within {ops : List Op} (h : Shape s .running cur idle q)
    (hw : q[i]? = some w) (hrun : Runs.run step s ops = some s')
    (hticks : max (s.sliceOf cur) 1 + 10 * i ≤ ops.countP Op.isTick) : w ∈ dispatchLog s ops := by
  -- the bound goes down with each tick and never up; at a bound of zero nothing is left to prove
  change s.waitTicks cur i ≤ _ at hticks
  induction ops generalizing s cur q i with
  | nil =>
    have hpos : 1 ≤ s.waitTicks cur i := le_trans (le_max_right _ _) (Nat.le_add_right _ _)
    rw [List.countP_nil] at hticks
    omega
  | cons op ops ih =>
    obtain ⟨s₁, hstep, hrun⟩ := Runs.run_cons_eq_some hrun
    simp only [dispatchLog, hstep, List.mem_append]
    rcases step_wait h hstep hw with hnow | ⟨cur', q', i', hshape, hplace, hle⟩
    · exact .inl hnow
    · refine .inr (ih hshape hplace hrun ?_)
      rw [List.countP_cons] at hticks
      omega

/-- The last READY thread of the sample has run after a yield and twenty ticks. -/
theorem sample_dispatched_within :
    ∃ s', Runs.run step sample (.yield :: List.replicate 20 .tick) = some s' ∧
      0x3000 ∈ dispatchLog sample (.yield :: List.replicate 20 .tick) := by
  have hrun : Runs.run step sample (.yield :: List.replicate 20 .tick) = some _ := rfl
  exact ⟨_, hrun, ready_thread_dispatched_within (i := 1) sample_shape rfl hrun (by decide)⟩

/-! ## Before the first thread -/

/-- No thread runs and there is no idle thread. The queue has a head if it has a tail, which is
then a thread. -/
structure Unstarted (s : State) : Prop where
  current : s.currentThread = none
  idle : s.idleThread = none
  links : s.readyQueueHead = none ↔ s.readyQueueTail = none
  tail_exists : ∀ w, s.readyQueueTail = some w → s.stateOf w ≠ none

theorem unstarted_schedInit (s : State) : Unstarted (schedInit s) :=
  ⟨rfl, rfl, Iff.rfl, fun _ h => nomatch h⟩

/-- With an empty queue the NULL that runs is the NULL that is next, and a yield comes back. -/
theorem Unstarted.schedYield_eq (h : Unstarted s) :
    schedYield s = if s.readyQueueHead = none then some s else none := by
  cases hhead : s.readyQueueHead with
  | none =>
    rw [schedYield, getNextThread, hhead, h.current, h.idle]
  | some p =>
    rw [schedYield, getNextThread, hhead, h.current]
    rfl

/-- A step that dispatches nothing. It leaves the queue empty if nothing was in it or added. -/
structure Idles (op : Op) (s s' : State) : Prop where
  unstarted : Unstarted s'
  dispatched_nil : dispatched s s' = []
  empty_iff : s'.readyQueueHead = none ↔ s.readyQueueHead = none ∧ readied op s s' = []

theorem Unstarted.idles_of_same (h : Unstarted s) (hcur : s'.currentThread = s.currentThread)
    (hidle : s'.idleThread = s.idleThread) (hhead : s'.readyQueueHead = s.readyQueueHead)
    (htail : s'.readyQueueTail = s.readyQueueTail) (hstate : ∀ t, s'.stateOf t = s.stateOf t) :
    Idles op s s' := by
  have hready : readied op s s' = [] := by
    rw [readied, List.filter_eq_nil_iff]
    intro t _ ht
    rw [decide_eq_true_eq, BecameReady, hstate] at ht
    exact ht.2 ht.1
  refine ⟨⟨hcur.trans h.current, hidle.trans h.idle, by rw [hhead, htail, h.links], ?_⟩, ?_, ?_⟩
  · intro w hw
    rw [hstate]
    exact h.tail_exists w (htail.symm.trans hw)
  · rw [dispatched, hcur, h.current]
    rfl
  · rw [hhead, hready]
    simp

theorem Unstarted.idles_of_create {s₁ : State} {n : Thread} (h : Unstarted s)
    (hnew : NewBlock s s₁ p n) (hsub : op.subject s = some p) :
    Idles op s (addToReadyQueue s₁ p) := by
  have hnone := hnew.stateOf_none
  have htail : s₁.readyQueueTail ≠ some p := by
    rw [hnew.tail]
    exact fun hw => h.tail_exists p hw hnone
  have hstate : (addToReadyQueue s₁ p).stateOf p = some .ready := by
    rw [addToReadyQueue_stateOf (by rw [hnew.threads, Function.update_self]) htail, if_pos rfl]
  have hcur : (addToReadyQueue s₁ p).currentThread = none := by
    rw [addToReadyQueue_current, hnew.current, h.current]
  have hhead : (addToReadyQueue s₁ p).readyQueueHead ≠ none := by
    rw [addToReadyQueue_head, hnew.tail, hnew.head]
    split
    · exact Option.some_ne_none p
    · rwa [ne_eq, h.links]
  have hready : p ∈ readied op s (addToReadyQueue s₁ p) := by
    have hbecame : BecameReady s (addToReadyQueue s₁ p) p := by
      refine ⟨hstate, ?_⟩
      rw [hnone]
      exact (Option.some_ne_none _).symm
    rw [readied, hsub, Option.toList_some]
    exact List.mem_filter.mpr ⟨List.mem_singleton_self p, decide_eq_true hbecame⟩
  refine ⟨⟨hcur, ?_, iff_of_false hhead (Option.some_ne_none p), fun w hw => ?_⟩, ?_,
    iff_of_false hhead fun hempty => List.ne_nil_of_mem hready hempty.2⟩
  · rw [addToReadyQueue_idle, hnew.idle, h.idle]
  · obtain rfl : p = w := Option.some_inj.mp hw
    rw [hstate]
    exact Option.some_ne_none _
  · rw [dispatched, hcur]
    rfl

theorem Unstarted.step (h : Unstarted s) (hs : ReadyQueue.step s op = some s') : Idles op s s' := by
  cases op with
  | create threadWrapper entryPoint arg name block stack =>
    simp only [ReadyQueue.step] at hs
    split at hs
    · rename_i hfresh
      cases hs
      unfold threadCreate
      split
      · exact h.idles_of_same rfl rfl rfl rfl fun _ => rfl
      · split
        case h_1 p stack =>
          exact h.idles_of_create (newBlock_enterTable (hfresh p rfl) threadWrapper entryPoint arg
            stack name (s.nextTid + 1)) rfl
        case h_2 => exact h.idles_of_same rfl rfl rfl rfl fun _ => rfl
    · cases hs
  | yield =>
    have hs' : schedYield s = some s' := hs
    rw [h.schedYield_eq] at hs'
    split at hs'
    · cases hs'
      exact h.idles_of_same rfl rfl rfl rfl fun _ => rfl
    · cases hs'
  | tick =>
    have hs' : schedTick s = some s' := hs
    simp only [schedTick, h.current] at hs'
    cases hs'
    exact h.idles_of_same h.current.symm rfl rfl rfl fun _ => rfl
  | leave why =>
    simp only [ReadyQueue.step, h.current] at hs
    cases hs

theorem Unstarted.run {ops : List Op} (h : Unstarted s)
    (hrun : Runs.run ReadyQueue.step s ops = some s') :
    Unstarted s' ∧ dispatchLog s ops = [] ∧
      (s'.readyQueueHead = none ↔ s.readyQueueHead = none ∧ readyLog s ops = []) := by
  induction ops generalizing s with
  | nil =>
    cases hrun
    exact ⟨h, rfl, (and_iff_left rfl).symm⟩
  | cons op ops ih =>
    obtain ⟨s₁, hstep, hrun⟩ := Runs.run_cons_eq_some hrun
    have hidles := h.step hstep
    obtain ⟨hend, hlog, hempty⟩ := ih hidles.unstarted hrun
    refine ⟨hend, ?_, ?_⟩
    · simp only [dispatchLog, hstep, hidles.dispatched_nil, hlog, List.append_nil]
    · rw [readyLog_cons hstep, List.append_eq_nil_iff, hempty, hidles.empty_iff, and_assoc]

/-- **The scheduler never starts.** After `sched_init`, in every run of creations, ticks and
yields that come back: no thread is ever current and none is dispatched, and once a thread has
been created `sched_yield` does not come back, because it reads through the NULL in
`current_thread`. -/
theorem unstarted_never_dispatches {s₀ : State} {ops : List Op}
    (hrun : Runs.run step (schedInit s₀) ops = some s') :
    s'.currentThread = none ∧ dispatchLog (schedInit s₀) ops = [] ∧
      (schedYield s' = none ↔ readyLog (schedInit s₀) ops ≠ []) := by
  obtain ⟨hend, hlog, hempty⟩ := (unstarted_schedInit s₀).run hrun
  have hempty' : s'.readyQueueHead = none ↔ readyLog (schedInit s₀) ops = [] :=
    hempty.trans (and_iff_right rfl)
  refine ⟨hend.current, hlog, ?_⟩
  rw [ne_eq, ← hempty', hend.schedYield_eq]
  split
  · rename_i hnone
    exact iff_of_false (Option.some_ne_none s') (not_not_intro hnone)
  · rename_i hsome
    exact iff_of_true rfl hsome

/-- A thread that is created after `sched_init`. -/
def unstartedCreate : Op := .create 0x100000 0x400000 0 none (some 0x5000) (some 0x6000)

theorem step_unstartedCreate :
    ∃ s₁, step (schedInit sample) unstartedCreate = some s₁ ∧
      readied unstartedCreate (schedInit sample) s₁ ≠ [] := by
  have hfree : (schedInit sample).threads 0x5000 = none := by decide +kernel
  refine ⟨(threadCreate 0x100000 (schedInit sample) 0x400000 0 none (some 0x5000) (some 0x6000)).2,
    ?_, by decide +kernel⟩
  rw [unstartedCreate, step, if_pos]
  intro p hp
  cases hp
  exact hfree

theorem unstarted_after_creation :
    ∃ s', Runs.run step (schedInit sample) [unstartedCreate] = some s' ∧
      s'.currentThread = none ∧ schedYield s' = none := by
  obtain ⟨s₁, hcreate, hready⟩ := step_unstartedCreate
  have hrun : Runs.run step (schedInit sample) [unstartedCreate] = some s₁ := by
    rw [Runs.run_cons_of_step hcreate]
    rfl
  obtain ⟨hcur, -, hyield⟩ := unstarted_never_dispatches hrun
  refine ⟨s₁, hrun, hcur, hyield.mpr fun hnil => hready ?_⟩
  rw [readyLog_cons hcreate] at hnil
  exact (List.append_eq_nil_iff.mp hnil).1

end Myria.Sched.ReadyQueue
