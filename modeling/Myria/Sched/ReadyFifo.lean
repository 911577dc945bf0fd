import Myria.Sched.ReadyQueue

/-! Whole runs of the scheduler of `thread.c`. The ready queue stays a
well-formed list of the READY threads, it is served in the order in which its
threads became READY, and no thread is lost from it or counted twice. -/
namespace Myria.Sched.ReadyQueue

open LinkedQueue

/-- The ready queue holds `q`, from head to tail. -/
structure Queue (s : State) (idle : U64) (q : List U64) : Prop where
  idle_eq : s.idleThread = some idle
  idle_exists : s.stateOf idle ≠ none
  represents : Represents s.links q
  idle_notMem : idle ∉ q
  ready : ∀ t ∈ q, s.stateOf t = some .ready

/-- The states that scheduling starts from and comes back to; `st` is the state
of the current thread. -/
structure Shape (s : State) (st : ThreadState) (cur idle : U64) (q : List U64) : Prop extends
    Queue s idle q where
  current : s.currentThread = some cur
  current_state : s.stateOf cur = some st
  current_notMem : cur ∉ q

variable {s : State} {p cur idle : U64} {st : ThreadState} {q : List U64}

theorem Queue.tail_mem (h : Queue s idle q) {w : U64} (hw : s.readyQueueTail = some w) : w ∈ q :=
  List.mem_of_getLast? (h.represents.tail_eq.symm.trans hw)

/-- What a queue depends on. -/
theorem Queue.congr (h : Queue s idle q) {t : State} (hidle : t.idleThread = s.idleThread)
    (hlinks : t.links = s.links) (hready : ∀ p ∈ q, t.stateOf p = s.stateOf p)
    (hexists : t.stateOf idle ≠ none) : Queue t idle q where
  idle_eq := hidle.trans h.idle_eq
  idle_exists := hexists
  represents := hlinks ▸ h.represents
  idle_notMem := h.idle_notMem
  ready := fun p hp => (hready p hp).trans (h.ready p hp)

/-! ## Adding and removing -/

theorem addToReadyQueue_idle (s : State) (p : U64) :
    (addToReadyQueue s p).idleThread = s.idleThread := by
  cases h : s.readyQueueTail <;> simp [addToReadyQueue, State.modify, h]

theorem addToReadyQueue_current (s : State) (p : U64) :
    (addToReadyQueue s p).currentThread = s.currentThread := by
  cases h : s.readyQueueTail <;> simp [addToReadyQueue, State.modify, h]

theorem Queue.add (h : Queue s idle q) {t : Thread} (hp : s.threads p = some t) (hq : p ∉ q)
    (hidle : p ≠ idle) :
    Queue (addToReadyQueue s p) idle (q ++ [p]) ∧
      ∀ t, (addToReadyQueue s p).stateOf t = if t = p then some .ready else s.stateOf t := by
  have hne : s.readyQueueTail ≠ some p := fun hw => hq (h.tail_mem hw)
  have hstate := addToReadyQueue_stateOf hp hne
  have hlinks := addToReadyQueue_links hp hne fun w hw =>
    State.exists_of_stateOf (h.ready w (h.tail_mem hw))
  refine ⟨⟨?_, ?_, ?_, ?_, fun t ht => ?_⟩, hstate⟩
  · rw [addToReadyQueue_idle, h.idle_eq]
  · rw [hstate, if_neg hidle.symm]
    exact h.idle_exists
  · rw [hlinks]
    exact h.represents.pushBack hq
  · rw [List.mem_append, List.mem_singleton, not_or]
    exact ⟨h.idle_notMem, hidle.symm⟩
  · rw [hstate]
    rcases List.mem_append.mp ht with hmem | hmem
    · split
      · rfl
      · exact h.ready t hmem
    · rw [if_pos (List.mem_singleton.mp hmem)]

theorem removeFromReadyQueue_idle (hprev : s.prevOf p = none) :
    (removeFromReadyQueue s p).idleThread = s.idleThread := by
  rw [removeFromReadyQueue_of_first hprev]
  cases s.nextOf p <;> rfl

theorem removeFromReadyQueue_current (hprev : s.prevOf p = none) :
    (removeFromReadyQueue s p).currentThread = s.currentThread := by
  rw [removeFromReadyQueue_of_first hprev]
  cases s.nextOf p <;> rfl

/-- `get_next_thread` takes the head of the queue, or the idle thread. -/
theorem getNextThread_spec (h : Queue s idle q) :
    ∃ s', getNextThread s = (some (q.headD idle), s') ∧ Queue s' idle q.tail ∧
      s'.currentThread = s.currentThread ∧ ∀ t, s'.stateOf t = s.stateOf t := by
  have hhead : s.readyQueueHead = q.head? := h.represents.head
  cases q with
  | nil => exact ⟨s, by simp [getNextThread, hhead, h.idle_eq], h, rfl, fun _ => rfl⟩
  | cons x q =>
    have hprev : s.prevOf x = none := h.represents.seg.1
    have hne : s.nextOf x ≠ some x := by
      have hnext : s.nextOf x = q.head? := h.represents.seg.2.1
      rw [hnext]
      intro heq
      exact (List.nodup_cons.mp h.represents.nodup).1 (List.mem_of_mem_head? heq)
    have hstate := removeFromReadyQueue_stateOf hprev hne
    refine ⟨removeFromReadyQueue s x, by simp [getNextThread, hhead], ⟨?_, ?_, ?_, ?_, ?_⟩,
      removeFromReadyQueue_current hprev, hstate⟩
    · rw [removeFromReadyQueue_idle hprev, h.idle_eq]
    · rw [hstate]
      exact h.idle_exists
    · rw [removeFromReadyQueue_links hprev hne]
      exact h.represents.popFront
    · exact fun hmem => h.idle_notMem (List.mem_cons_of_mem x hmem)
    · intro t ht
      rw [hstate]
      exact h.ready t (List.mem_cons_of_mem x ht)

/-! ## One yield -/

/-- What a yield puts back into the queue. -/
def putBack (st : ThreadState) (cur idle : U64) : List U64 :=
  if st = .running ∧ cur ≠ idle then [cur] else []

theorem mem_putBack {t : U64} :
    t ∈ putBack st cur idle ↔ t = cur ∧ st = .running ∧ cur ≠ idle := by
  rw [putBack]
  split
  · rename_i hback
    simp [hback]
  · rename_i hback
    simp only [List.not_mem_nil, false_iff]
    exact fun hc => hback hc.2

theorem requeue_spec (h : Queue s idle q) (hcur : s.stateOf cur = some st) (hq : cur ∉ q) :
    Queue (requeue s cur) idle (q ++ putBack st cur idle) ∧
      ∀ t, (requeue s cur).stateOf t =
        if t ∈ putBack st cur idle then some .ready else s.stateOf t := by
  have hcond : (s.stateOf cur = some .running ∧ s.idleThread ≠ some cur) ↔
      (st = .running ∧ cur ≠ idle) := by
    rw [hcur, h.idle_eq, Option.some_inj, ne_eq, Option.some_inj, eq_comm (a := idle)]
  by_cases hback : st = .running ∧ cur ≠ idle
  · obtain ⟨t, ht⟩ := State.exists_of_stateOf hcur
    rw [requeue, if_pos (hcond.mpr hback), putBack, if_pos hback]
    simpa using h.add ht hq hback.2
  · rw [requeue, if_neg (fun hc => hback (hcond.mp hc)), putBack, if_neg hback]
    simpa using h

/-- Dispatching a thread that is not queued. -/
theorem dispatch_spec (h : Queue s idle q) (hp : s.stateOf p ≠ none) (hq : p ∉ q) :
    Shape (dispatch s p) .running p idle q ∧
      ∀ t, (dispatch s p).stateOf t = if t = p then some .running else s.stateOf t := by
  obtain ⟨st, hst⟩ := Option.ne_none_iff_exists'.mp hp
  obtain ⟨t, ht⟩ := State.exists_of_stateOf hst
  have hstate : ∀ t, (dispatch s p).stateOf t =
      if t = p then some .running else s.stateOf t := by
    intro r
    by_cases hr : r = p
    · simp [dispatch, State.stateOf, hr, ht, State.modify]
    · simp [dispatch, State.stateOf, hr, State.modify]
  have hlinks : (dispatch s p).links = s.links :=
    s.links_modify p _ (fun _ => rfl) (fun _ => rfl)
  refine ⟨⟨h.congr rfl hlinks (fun r hr => ?_) ?_, rfl, ?_, hq⟩, hstate⟩
  · rw [hstate, if_neg (fun heq : r = p => hq (heq ▸ hr))]
  · rw [hstate]
    split
    · exact Option.some_ne_none _
    · exact h.idle_exists
  · rw [hstate, if_pos rfl]

/-- The thread a yield dispatches is not queued any more. -/
theorem headD_notMem (h : Queue s idle q) : q.headD idle ∉ q.tail := by
  cases q with
  | nil => simp
  | cons x q => exact (List.nodup_cons.mp h.represents.nodup).1

theorem headD_exists (h : Queue s idle q) : s.stateOf (q.headD idle) ≠ none := by
  cases q with
  | nil => exact h.idle_exists
  | cons x q =>
    show s.stateOf x ≠ none
    rw [h.ready x List.mem_cons_self]
    exact Option.some_ne_none _

/-- A yield that switches. -/
theorem schedYield_of_ne (h : Shape s st cur idle q) (hne : q.headD idle ≠ cur) :
    ∃ s', getNextThread s = (some (q.headD idle), s') ∧
      schedYield s = some (dispatch (requeue s' cur) (q.headD idle)) := by
  obtain ⟨s', hnext, -⟩ := getNextThread_spec h.toQueue
  refine ⟨s', hnext, ?_⟩
  rw [schedYield, hnext, h.current]
  exact if_neg (fun heq => hne (Option.some_inj.mp heq))

/-- **One yield.** The head of the queue is dispatched, or the idle thread when
the queue is empty, and the old thread goes to the tail if it is still running
and not the idle thread. -/
theorem schedYield_spec (h : Shape s st cur idle q) (hst : st = .running ∨ cur ≠ idle) :
    ∃ s', schedYield s = some s' ∧
      Shape s' .running (q.headD idle) idle (q.tail ++ putBack st cur idle) ∧
      ∀ t, s'.stateOf t =
        if t = q.headD idle then some .running
        else if t ∈ putBack st cur idle then some .ready else s.stateOf t := by
  obtain ⟨s', hnext, hqueue, hcurrent, hstate⟩ := getNextThread_spec h.toQueue
  have hcur' : s'.stateOf cur = some st := (hstate cur).trans h.current_state
  have htail : cur ∉ q.tail := fun hmem => h.current_notMem (List.mem_of_mem_tail hmem)
  by_cases hsame : q.headD idle = cur
  · -- only the idle thread can be chosen while it runs
    have hq : q = [] := by
      cases q with
      | nil => rfl
      | cons x q => exact absurd (hsame ▸ List.mem_cons_self) h.current_notMem
    subst hq
    have hidle : idle = cur := hsame
    subst hidle
    have hrun : st = .running := hst.resolve_right (fun hne => hne rfl)
    have hback : putBack st idle idle = [] := by simp [putBack]
    have hyield : schedYield s = some s' := by
      rw [schedYield, hnext, h.current]
      exact if_pos rfl
    rw [hback]
    refine ⟨s', hyield, ⟨hqueue, hcurrent.trans h.current, ?_, List.not_mem_nil⟩, fun t => ?_⟩
    · show s'.stateOf idle = some .running
      rw [hcur', hrun]
    · by_cases ht : t = idle
      · rw [if_pos (show t = [].headD idle from ht), ht, hcur', hrun]
      · rw [if_neg (show ¬ t = [].headD idle from ht), if_neg List.not_mem_nil, hstate]
  · obtain ⟨hrequeued, hrestate⟩ := requeue_spec hqueue hcur' htail
    have hnotMem : q.headD idle ∉ q.tail ++ putBack st cur idle := by
      rw [List.mem_append, not_or]
      refine ⟨headD_notMem h.toQueue, ?_⟩
      rw [putBack]
      split
      · simpa using hsame
      · exact List.not_mem_nil
    have hexists : (requeue s' cur).stateOf (q.headD idle) ≠ none := by
      rw [hrestate]
      split
      · exact Option.some_ne_none _
      · rw [hstate]
        exact headD_exists h.toQueue
    obtain ⟨hshape, hdispatched⟩ := dispatch_spec hrequeued hexists hnotMem
    obtain ⟨s'', hnext', hyield⟩ := schedYield_of_ne h hsame
    obtain rfl : s' = s'' := congrArg Prod.snd (hnext.symm.trans hnext')
    refine ⟨_, hyield, hshape, fun t => ?_⟩
    rw [hdispatched, hrestate, hstate]

/-! ## What a step does to the threads -/

def BecameReady (s s' : State) (t : U64) : Prop :=
  s'.stateOf t = some .ready ∧ s.stateOf t ≠ some .ready

instance (s s' : State) (t : U64) : Decidable (BecameReady s s' t) :=
  inferInstanceAs (Decidable (_ ∧ _))

/-- The thread an operation may make READY: the one it creates, or the one it
interrupts. -/
def Op.subject (s : State) : Op → Option U64
  | .create _ _ _ _ block _ => block
  | _ => s.currentThread

/-- The threads that became READY in a step from `s` to `s'`. -/
def readied (op : Op) (s s' : State) : List U64 :=
  (op.subject s).toList.filter (BecameReady s s')

/-- The threads other than the idle thread that were dispatched in a step. -/
def dispatched (s s' : State) : List U64 :=
  s'.currentThread.toList.filter fun t => s.currentThread ≠ some t ∧ s.idleThread ≠ some t

def Active (s : State) (t : U64) : Prop :=
  s.stateOf t = some .ready ∨ s.stateOf t = some .running

/-- A step that keeps the shape, serves the queue in order and accounts for
every thread. -/
structure Serves (op : Op) (s s' : State) (cur idle : U64) (q : List U64) (cur' : U64)
    (q' : List U64) : Prop where
  shape : Shape s' .running cur' idle q'
  fifo : q ++ readied op s s' = dispatched s s' ++ q'
  /-- no thread becomes READY without being recorded -/
  recorded : ∀ t, BecameReady s s' t → t ∈ readied op s s'
  accounted : ∀ t, t ≠ idle → Active s' t → (Active s t → t ∈ q ∨ t = cur) → t ∈ q' ∨ t = cur'

variable {s' : State} {op : Op}

/-- Nothing happens to the queue while the current thread and all thread states
stay. -/
theorem Serves.of_same (h : Shape s' .running cur idle q)
    (hcur : s'.currentThread = s.currentThread)
    (hstate : ∀ t, s'.stateOf t = s.stateOf t) : Serves op s s' cur idle q cur q where
  shape := h
  fifo := by
    have hr : readied op s s' = [] := by
      rw [readied, List.filter_eq_nil_iff]
      intro t _ ht
      rw [decide_eq_true_eq, BecameReady, hstate] at ht
      exact ht.2 ht.1
    have hd : dispatched s s' = [] := by
      rw [dispatched, ← hcur, List.filter_eq_nil_iff]
      intro t ht hne
      rw [decide_eq_true_eq] at hne
      exact hne.1 (Option.mem_toList.mp ht)
    rw [hr, hd, List.append_nil, List.nil_append]
  recorded := fun t ht => absurd (hstate t ▸ ht.1) ht.2
  accounted := by
    intro t _ ht hq
    rw [Active, hstate] at ht
    exact hq ht

theorem dispatched_eq_head {s₁ : State} (h : Shape s₁ st cur idle q)
    (hcur : s.currentThread = some cur) (hidle : s.idleThread = some idle)
    (hnew : s'.currentThread = some (q.headD idle)) : dispatched s s' = q.head?.toList := by
  rw [dispatched, hnew, hcur, hidle]
  cases q with
  | nil => simp
  | cons x q =>
    have hx : cur ≠ x := fun heq => h.current_notMem (heq ▸ List.mem_cons_self)
    have hidle : idle ≠ x := fun heq => h.idle_notMem (heq ▸ List.mem_cons_self)
    simp [hx, hidle]

theorem head_append_tail (q r : List U64) : q ++ r = q.head?.toList ++ (q.tail ++ r) := by
  cases q <;> rfl

theorem readied_eq_putBack (hsub : op.subject s = some cur)
    (hready : BecameReady s s' cur ↔ cur ∈ putBack st cur idle) :
    readied op s s' = putBack st cur idle := by
  rw [readied, hsub, Option.toList_some]
  by_cases hmem : cur ∈ putBack st cur idle
  · rw [List.filter_cons_of_pos (by simpa using hready.mpr hmem), List.filter_nil, putBack,
      if_pos (mem_putBack.mp hmem).2]
  · have hnil : putBack st cur idle = [] := by
      rw [List.eq_nil_iff_forall_not_mem]
      intro t ht
      exact hmem ((mem_putBack.mp ht).1 ▸ ht)
    rw [List.filter_cons_of_neg (by simpa using fun hb => hmem (hready.mp hb)), List.filter_nil,
      hnil]

section Yield

variable {s₁ : State} (h : Shape s₁ st cur idle q) (hst : st = .running ∨ cur ≠ idle ∧ st ≠ .ready)
  (hyield : schedYield s₁ = some s')
include h hst hyield

theorem Shape.after_yield :
    Shape s' .running (q.headD idle) idle (q.tail ++ putBack st cur idle) ∧
      ∀ t, s'.stateOf t =
        if t = q.headD idle then some .running
        else if t ∈ putBack st cur idle then some .ready else s₁.stateOf t := by
  obtain ⟨s'', hyield', hspec⟩ := schedYield_spec h (hst.imp_right And.left)
  obtain rfl : s' = s'' := Option.some_inj.mp (hyield.symm.trans hyield')
  exact hspec

theorem Shape.ready_of_putBack (hmem : cur ∈ putBack st cur idle) :
    s'.stateOf cur = some .ready := by
  have hne : cur ≠ q.headD idle := by
    cases q with
    | nil => exact (mem_putBack.mp hmem).2.2
    | cons x q => exact fun heq => h.current_notMem (heq ▸ List.mem_cons_self)
  rw [(h.after_yield hst hyield).2, if_neg hne, if_pos hmem]

/-- The READY threads after a yield: the one put back, and READY ones from before. -/
theorem Shape.ready_after_yield {t : U64} (ht : s'.stateOf t = some .ready) :
    t ∈ putBack st cur idle ∨ t ≠ cur ∧ s₁.stateOf t = some .ready := by
  rw [(h.after_yield hst hyield).2] at ht
  split at ht
  · cases ht
  split at ht
  · exact .inl ‹_›
  refine .inr ⟨?_, ht⟩
  rintro rfl
  rw [h.current_state, Option.some_inj] at ht
  rcases hst with hst | hst
  · cases hst.symm.trans ht
  · exact hst.2 ht

/-- The active ones: the one dispatched besides. A thread that ran and was not put
back is the idle thread or has left. -/
theorem Shape.active_after_yield {t : U64} (hidle : t ≠ idle) (ht : Active s' t) :
    t = q.headD idle ∨ t ∈ putBack st cur idle ∨ t ≠ cur ∧ t ≠ q.headD idle ∧ Active s₁ t := by
  by_cases hhead : t = q.headD idle
  · exact .inl hhead
  by_cases hmem : t ∈ putBack st cur idle
  · exact .inr (.inl hmem)
  rw [Active, (h.after_yield hst hyield).2, if_neg hhead, if_neg hmem] at ht
  refine .inr (.inr ⟨?_, hhead, ht⟩)
  rintro rfl
  rw [h.current_state, Option.some_inj, Option.some_inj] at ht
  rcases ht with hr | hr
  · rcases hst with hst | hst
    · cases hst.symm.trans hr
    · exact hst.2 hr
  · exact hmem (mem_putBack.mpr ⟨rfl, hr, hidle⟩)

/-- A yield from a state `s₁` that differs from `s` in the state of the current
thread at most. -/
theorem Serves.of_yield (h₀ : Shape s .running cur idle q) (hsub : op.subject s = some cur)
    (hstate : ∀ t, t ≠ cur → s.stateOf t = s₁.stateOf t) :
    Serves op s s' cur idle q (q.headD idle) (q.tail ++ putBack st cur idle) := by
  have hshape := (h.after_yield hst hyield).1
  -- the old thread is READY afterwards exactly when it was put back
  have hready : BecameReady s s' cur ↔ cur ∈ putBack st cur idle := by
    constructor
    · intro hb
      exact (h.ready_after_yield hst hyield hb.1).resolve_right fun hc => hc.1 rfl
    · intro hmem
      refine ⟨h.ready_of_putBack hst hyield hmem, ?_⟩
      rw [h₀.current_state]
      exact fun heq => by cases heq
  have hreadied := readied_eq_putBack hsub hready
  have hdispatched := dispatched_eq_head h h₀.current h₀.idle_eq hshape.current
  refine ⟨hshape, ?_, fun t ht => ?_, fun t hne hactive hq => ?_⟩
  · rw [hreadied, hdispatched]
    exact head_append_tail _ _
  · rw [hreadied]
    rcases h.ready_after_yield hst hyield ht.1 with hmem | ⟨htc, hbefore⟩
    · exact hmem
    · exact absurd ((hstate t htc).trans hbefore) ht.2
  · rcases h.active_after_yield hst hyield hne hactive with hhead | hmem | ⟨htc, hhead, hbefore⟩
    · exact .inr hhead
    · exact .inl (List.mem_append_right _ hmem)
    rw [Active, ← hstate t htc] at hbefore
    rcases hq hbefore with hq | hq
    · cases q with
      | nil => simp at hq
      | cons x q =>
        exact .inl (List.mem_append_left _ ((List.mem_cons.mp hq).resolve_left hhead))
    · exact absurd hq htc

end Yield

/-- Marking the current thread keeps everything but its state. -/
theorem Shape.mark (h : Shape s st cur idle q) (st' : ThreadState) :
    Shape (s.modify cur fun t => { t with state := st' }) st' cur idle q ∧
      ∀ t, t ≠ cur → s.stateOf t = (s.modify cur fun t => { t with state := st' }).stateOf t := by
  obtain ⟨tc, htc⟩ := State.exists_of_stateOf h.current_state
  have hother : ∀ t, t ≠ cur →
      s.stateOf t = (s.modify cur fun t => { t with state := st' }).stateOf t := by
    intro t ht
    rw [State.stateOf, State.stateOf, State.modify_threads, if_neg ht]
  have hcur : (s.modify cur fun t => { t with state := st' }).stateOf cur = some st' := by
    simp [State.stateOf, htc]
  refine ⟨⟨h.toQueue.congr rfl (s.links_modify cur _ (fun _ => rfl) fun _ => rfl) (fun t ht => ?_)
    ?_, h.current, hcur, h.current_notMem⟩, hother⟩
  · exact (hother t fun heq => h.current_notMem (heq ▸ ht)).symm
  · by_cases hidle : idle = cur
    · rw [hidle, hcur]
      exact Option.some_ne_none _
    · rw [← hother idle hidle]
      exact h.idle_exists

/-- What a shape depends on. -/
theorem Shape.congr (h : Shape s st cur idle q) (hcur : s'.currentThread = s.currentThread)
    (hidle : s'.idleThread = s.idleThread) (hlinks : s'.links = s.links)
    (hstate : ∀ t, s'.stateOf t = s.stateOf t) : Shape s' st cur idle q where
  toQueue := h.toQueue.congr hidle hlinks (fun t _ => hstate t) (hstate idle ▸ h.idle_exists)
  current := hcur.trans h.current
  current_state := (hstate cur).trans h.current_state
  current_notMem := h.current_notMem

/-- The state of `sched_tick` once the tick is charged. -/
def State.charged (s : State) (cur : U64) : State :=
  charge { s with schedulerTicks := s.schedulerTicks + 1 } cur

theorem Shape.charged (h : Shape s st cur idle q) :
    Shape (s.charged cur) st cur idle q ∧ ∀ t, (s.charged cur).stateOf t = s.stateOf t := by
  have hstate : ∀ t, (s.charged cur).stateOf t = s.stateOf t :=
    fun t => State.stateOf_modify _ cur t _ fun _ => rfl
  have hlinks : (s.charged cur).links = s.links :=
    State.links_modify _ cur _ (fun _ => rfl) fun _ => rfl
  exact ⟨h.congr rfl rfl hlinks hstate, hstate⟩

/-- The slice of the current thread is used up and another thread waits. -/
def State.Preempts (s : State) (cur : U64) : Prop :=
  (s.threads cur).map (·.timeSlice) = some 0 ∧ s.readyQueueHead ≠ none

instance (s : State) (cur : U64) : Decidable (s.Preempts cur) :=
  inferInstanceAs (Decidable (_ ∧ _))

theorem schedTick_eq (hcur : s.currentThread = some cur) :
    schedTick s =
      if (s.charged cur).Preempts cur then schedYield (s.charged cur)
        else some (s.charged cur) := by
  rw [schedTick]
  split
  case h_1 hnone => cases hcur.symm.trans hnone
  case h_2 p hp =>
    cases Option.some_inj.mp (hcur.symm.trans hp)
    rfl

theorem enterTable_eq (s : State) (p : U64) :
    ∃ table count, enterTable s p = { s with threadTable := table, threadCount := count } := by
  rw [enterTable]
  split
  · exact ⟨_, _, rfl⟩
  · exact ⟨_, _, rfl⟩

/-- `s'` is `s` with a thread in the fresh block `p` that is not linked yet. -/
structure NewBlock (s s' : State) (p : U64) (n : Thread) : Prop where
  fresh : s.threads p = none
  next : n.next = none
  prev : n.prev = none
  threads : s'.threads = Function.update s.threads p (some n)
  head : s'.readyQueueHead = s.readyQueueHead
  tail : s'.readyQueueTail = s.readyQueueTail
  idle : s'.idleThread = s.idleThread
  current : s'.currentThread = s.currentThread

theorem newBlock_enterTable (hfresh : s.threads p = none)
    (threadWrapper entryPoint arg stack : U64) (name : Option (List (BitVec 8))) (tid : U32) :
    NewBlock s
      (enterTable
        { s with
          threads := Function.update s.threads p
            (some (newThread threadWrapper s.nextTid entryPoint arg name stack))
          nextTid := tid } p)
      p (newThread threadWrapper s.nextTid entryPoint arg name stack) := by
  obtain ⟨table, count, htable⟩ := enterTable_eq
    { s with
      threads := Function.update s.threads p
        (some (newThread threadWrapper s.nextTid entryPoint arg name stack))
      nextTid := tid } p
  rw [htable]
  exact ⟨hfresh, rfl, rfl, rfl, rfl, rfl, rfl, rfl⟩

theorem NewBlock.stateOf {n : Thread} (h : NewBlock s s' p n) {t : U64} (ht : t ≠ p) :
    s'.stateOf t = s.stateOf t := by
  rw [State.stateOf, h.threads, Function.update_of_ne ht, State.stateOf]

theorem NewBlock.stateOf_none {n : Thread} (h : NewBlock s s' p n) : s.stateOf p = none := by
  rw [State.stateOf, h.fresh, Option.map_none]

theorem NewBlock.links {n : Thread} (h : NewBlock s s' p n) : s'.links = s.links := by
  refine Links.ext h.head h.tail (funext fun t => ?_) (funext fun t => ?_)
  · show (s'.threads t).bind (·.next) = s.nextOf t
    by_cases ht : t = p
    · simp [h.threads, ht, h.next, State.nextOf, h.fresh]
    · rw [h.threads, Function.update_of_ne ht]
      rfl
  · show (s'.threads t).bind (·.prev) = s.prevOf t
    by_cases ht : t = p
    · simp [h.threads, ht, h.prev, State.prevOf, h.fresh]
    · rw [h.threads, Function.update_of_ne ht]
      rfl

theorem Serves.of_create {n : Thread} (h : Shape s .running cur idle q) (hnew : NewBlock s s' p n)
    (hsub : op.subject s = some p) :
    Serves op s (addToReadyQueue s' p) cur idle q cur (q ++ [p]) := by
  have hnone := hnew.stateOf_none
  have hp : p ∉ q := fun hmem => by cases hnone.symm.trans (h.ready p hmem)
  have hidle : p ≠ idle := fun heq => h.idle_exists (heq ▸ hnone)
  have hcur : p ≠ cur := fun heq => by cases hnone.symm.trans (heq ▸ h.current_state)
  have hqueue : Queue s' idle q := by
    refine h.toQueue.congr hnew.idle hnew.links (fun t ht => ?_) ?_
    · exact hnew.stateOf fun heq => hp (heq ▸ ht)
    · rw [hnew.stateOf hidle.symm]
      exact h.idle_exists
  obtain ⟨hadded, hstate⟩ := hqueue.add (by rw [hnew.threads, Function.update_self]) hp hidle
  have hstate' : ∀ t, t ≠ p → (addToReadyQueue s' p).stateOf t = s.stateOf t := by
    intro t ht
    rw [hstate, if_neg ht, hnew.stateOf ht]
  have hcurrent : (addToReadyQueue s' p).currentThread = s.currentThread := by
    rw [addToReadyQueue_current, hnew.current]
  have hready : BecameReady s (addToReadyQueue s' p) p := by
    refine ⟨by rw [hstate, if_pos rfl], ?_⟩
    rw [hnone]
    exact Option.some_ne_none _ |>.symm
  have hreadied : readied op s (addToReadyQueue s' p) = [p] := by
    rw [readied, hsub, Option.toList_some, List.filter_cons_of_pos (by simpa using hready),
      List.filter_nil]
  have hdispatched : dispatched s (addToReadyQueue s' p) = [] := by
    rw [dispatched, hcurrent, h.current]
    simp
  refine ⟨⟨hadded, hcurrent.trans h.current, ?_, ?_⟩, ?_, fun t ht => ?_, fun t _ ht hq => ?_⟩
  · rw [hstate' cur hcur.symm, h.current_state]
  · rw [List.mem_append, List.mem_singleton, not_or]
    exact ⟨h.current_notMem, hcur.symm⟩
  · rw [hreadied, hdispatched, List.nil_append]
  · rw [hreadied, List.mem_singleton]
    by_contra hne
    exact ht.2 ((hstate' t hne).symm.trans ht.1)
  · by_cases hne : t = p
    · exact .inl (List.mem_append_right q (List.mem_singleton.mpr hne))
    · rw [Active, hstate' t hne] at ht
      exact (hq ht).imp_left (List.mem_append_left [p])

/-! ## One step -/

theorem Leave.state_ne_ready (why : Leave) : why.state ≠ .ready := by
  cases why <;> exact fun heq => by cases heq

def Op.isTick : Op → Bool
  | .tick => true
  | .create _ _ _ _ _ _ | .yield | .leave _ => false

/-- All that a step can do, while `cur` runs and the queue holds `q`. -/
inductive StepCase (s : State) (op : Op) (cur idle : U64) (q : List U64) (s' : State) : Prop
  /-- a creation without room or memory -/
  | refused (untimed : op.isTick = false) (same : s' = s)
  | created {s₁ : State} {p : U64} {n : Thread} (untimed : op.isTick = false)
      (subject : op.subject s = some p) (new : NewBlock s s₁ p n)
      (added : s' = addToReadyQueue s₁ p)
  /-- a tick that leaves the current thread running -/
  | charged (goes_on : ¬ (s.charged cur).Preempts cur) (same : s' = s.charged cur)
  /-- the current thread was charged, marked or left as it is, and yields -/
  | yielded {s₁ : State} {st : ThreadState} (subject : op.subject s = some cur)
      (shape : Shape s₁ st cur idle q) (stops : st = .running ∨ cur ≠ idle ∧ st ≠ .ready)
      (others : ∀ t, t ≠ cur → s.stateOf t = s₁.stateOf t) (yield : schedYield s₁ = some s')

theorem step_cases (h : Shape s .running cur idle q) (hs : step s op = some s') :
    StepCase s op cur idle q s' := by
  cases op with
  | create threadWrapper entryPoint arg name block stack =>
    simp only [step] at hs
    split at hs
    · rename_i hfresh
      cases hs
      unfold threadCreate
      split
      · exact .refused rfl rfl
      · split
        case h_1 p stack =>
          exact .created rfl rfl
            (newBlock_enterTable (hfresh p rfl) threadWrapper entryPoint arg stack
            name (s.nextTid + 1)) rfl
        case h_2 => exact .refused rfl rfl
    · cases hs
  | yield => exact .yielded h.current h (.inl rfl) (fun _ _ => rfl) hs
  | tick =>
    have hs' : schedTick s = some s' := hs
    obtain ⟨hshape, hstate⟩ := h.charged
    rw [schedTick_eq h.current] at hs'
    split at hs'
    · exact .yielded h.current hshape (.inl rfl) (fun t _ => (hstate t).symm) hs'
    · cases hs'
      exact .charged ‹_› rfl
  | leave why =>
    simp only [step, h.current, h.idle_eq, Option.some_inj] at hs
    split at hs
    · cases hs
    · rename_i hne
      obtain ⟨hmarked, hother⟩ := h.mark why.state
      exact .yielded h.current hmarked (.inr ⟨Ne.symm hne, why.state_ne_ready⟩) hother hs

theorem step_serves (h : Shape s .running cur idle q) (hs : step s op = some s') :
    ∃ cur' q', Serves op s s' cur idle q cur' q' := by
  cases step_cases h hs with
  | refused _ same =>
    subst same
    exact ⟨_, _, Serves.of_same h rfl fun _ => rfl⟩
  | created _ subject new added =>
    subst added
    exact ⟨_, _, Serves.of_create h new subject⟩
  | charged _ same =>
    subst same
    exact ⟨_, _, Serves.of_same h.charged.1 rfl h.charged.2⟩
  | yielded subject shape stops others yield =>
    exact ⟨_, _, Serves.of_yield shape stops yield h subject others⟩

/-! ## Whole runs -/

/-- The threads that became READY along a run, in order. -/
def readyLog (s : State) : List Op → List U64
  | [] => []
  | op :: ops =>
    match step s op with
    | some s' => readied op s s' ++ readyLog s' ops
    | none => []

theorem readyLog_cons (h : step s op = some s') (ops : List Op) :
    readyLog s (op :: ops) = readied op s s' ++ readyLog s' ops := by
  simp only [readyLog, h]

/-- The threads that were dispatched along a run, in order, without the idle
thread. -/
def dispatchLog (s : State) : List Op → List U64
  | [] => []
  | op :: ops =>
    match step s op with
    | some s' => dispatched s s' ++ dispatchLog s' ops
    | none => []

/-- How often the thread at `t` became READY along a run. -/
def timesReadied (t : U64) (s : State) : List Op → ℕ
  | [] => 0
  | op :: ops =>
    match step s op with
    | some s' => (if BecameReady s s' t then 1 else 0) + timesReadied t s' ops
    | none => 0

/-- The record of a step is complete. -/
theorem Serves.count_readied {cur' : U64} {q' : List U64} (h : Serves op s s' cur idle q cur' q')
    (t : U64) : (readied op s s').count t = if BecameReady s s' t then 1 else 0 := by
  have hnodup : (readied op s s').Nodup := by
    refine List.Nodup.filter _ ?_
    cases op.subject s with
    | none => exact List.nodup_nil
    | some p => exact List.nodup_singleton p
  split
  · rename_i hready
    exact List.count_eq_one_of_mem hnodup (h.recorded t hready)
  · rename_i hready
    refine List.count_eq_zero_of_not_mem fun hmem => hready ?_
    exact of_decide_eq_true (List.mem_filter.mp hmem).2

theorem run_serves {ops : List Op} (h : Shape s .running cur idle q)
    (hrun : Runs.run step s ops = some s') :
    ∃ cur' q', Shape s' .running cur' idle q' ∧
      q ++ readyLog s ops = dispatchLog s ops ++ q' ∧
      (∀ t, (readyLog s ops).count t = timesReadied t s ops) ∧
      ∀ t, t ≠ idle → Active s' t → (Active s t → t ∈ q ∨ t = cur) → t ∈ q' ∨ t = cur' := by
  induction ops generalizing s cur q with
  | nil =>
    cases Option.some_inj.mp hrun
    exact ⟨cur, q, h, by simp [readyLog, dispatchLog], fun _ => List.count_nil,
      fun _ _ ht hq => hq ht⟩
  | cons op ops ih =>
    obtain ⟨s₁, hstep, hrun⟩ := Runs.run_cons_eq_some hrun
    obtain ⟨cur₁, q₁, hserves⟩ := step_serves h hstep
    obtain ⟨cur', q', hshape, hfifo, hcount, hacc⟩ := ih hserves.shape hrun
    refine ⟨cur', q', hshape, ?_, fun t => ?_, fun t hne ht hq => ?_⟩
    · calc q ++ readyLog s (op :: ops)
          = q ++ readied op s s₁ ++ readyLog s₁ ops := by
            rw [readyLog_cons hstep, List.append_assoc]
        _ = dispatched s s₁ ++ (q₁ ++ readyLog s₁ ops) := by
            rw [hserves.fifo, List.append_assoc]
        _ = dispatchLog s (op :: ops) ++ q' := by
            rw [hfifo]
            simp only [dispatchLog, hstep, List.append_assoc]
    · rw [readyLog_cons hstep, List.count_append, hserves.count_readied, hcount]
      simp only [timesReadied, hstep]
    · exact hacc t hne ht fun hactive => hserves.accounted t hne hactive hq

/-- A thread in the given state and place. -/
def sampleThread (state : ThreadState) (next prev : Option U64) : Thread :=
  { newThread 0 1 0 0 none 0 with state := state, next := next, prev := prev }

/-- One thread runs, two are READY, and the idle thread has its own block. -/
def sample : State where
  threads := fun p =>
    if p = 0x1000 then some (sampleThread .running none none)
    else if p = 0x2000 then some (sampleThread .ready (some 0x3000) none)
    else if p = 0x3000 then some (sampleThread .ready none (some 0x2000))
    else if p = 0x9000 then some (sampleThread .ready none none)
    else none
  currentThread := some 0x1000
  idleThread := some 0x9000
  readyQueueHead := some 0x2000
  readyQueueTail := some 0x3000
  nextTid := 4
  schedulerTicks := 0
  threadTable := fun _ => none
  threadCount := 0

theorem sample_shape : Shape sample .running 0x1000 0x9000 [0x2000, 0x3000] where
  idle_eq := rfl
  idle_exists := fun h => by cases h
  represents := ⟨rfl, ⟨rfl, rfl, rfl, rfl, rfl⟩, by decide⟩
  idle_notMem := by decide
  ready := by
    intro t ht
    simp only [List.mem_cons, List.not_mem_nil, or_false] at ht
    rcases ht with rfl | rfl <;> rfl
  current := rfl
  current_state := rfl
  current_notMem := by decide

end Myria.Sched.ReadyQueue
