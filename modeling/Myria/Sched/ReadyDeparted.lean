import Myria.Sched.ReadyWait

/-! Threads of `thread.c` that have left. `thread_wrapper` marks its thread and yields, and
behind that yield stands a `panic` for the case that the thread goes on. -/
namespace Myria.Sched.ReadyQueue

open LinkedQueue

variable {s s' : State} {t cur idle : U64} {st : ThreadState} {q : List U64} {op : Op} {why : Leave}

/-- The thread was marked and has not been marked otherwise since. -/
def State.Departed (s : State) (why : Leave) (t : U64) : Prop := s.stateOf t = some why.state

theorem State.Departed.ne_ready (h : s.Departed why t) : s.stateOf t ≠ some .ready := by
  intro hready
  cases why <;> cases h.symm.trans hready

theorem State.Departed.ne_running (h : s.Departed why t) : s.stateOf t ≠ some .running := by
  intro hrunning
  cases why <;> cases h.symm.trans hrunning

/-- A yield touches the threads it switches between and no other. -/
theorem departed_of_yield (h : Shape s st cur idle q)
    (hst : st = .running ∨ cur ≠ idle ∧ st ≠ .ready) (hyield : schedYield s = some s')
    (hcur : st = .running → t ≠ cur) (hidle : t ≠ idle) (ht : s.Departed why t) :
    s'.Departed why t := by
  have hhead : t ≠ q.headD idle := by
    rintro rfl
    cases q with
    | nil => exact hidle rfl
    | cons x q => exact ht.ne_ready (h.ready x List.mem_cons_self)
  have hback : t ∉ putBack st cur idle := by
    rw [mem_putBack]
    rintro ⟨rfl, hrunning, -⟩
    exact hcur hrunning rfl
  rw [State.Departed, (h.after_yield hst hyield).2, if_neg hhead, if_neg hback]
  exact ht

theorem NewBlock.departed {s₁ : State} {p : U64} {n : Thread} (h : Shape s .running cur idle q)
    (hnew : NewBlock s s₁ p n) (ht : s.Departed why t) : (addToReadyQueue s₁ p).Departed why t := by
  have hne : t ≠ p := fun heq => by
    cases hnew.stateOf_none.symm.trans (heq ▸ ht)
  have htail : s.readyQueueTail ≠ some p := fun heq => by
    cases hnew.stateOf_none.symm.trans (h.ready p (h.tail_mem heq))
  have hblock : s₁.threads p = some n := by rw [hnew.threads, Function.update_self]
  rw [State.Departed, addToReadyQueue_stateOf hblock (by rwa [hnew.tail]), if_neg hne,
    hnew.stateOf hne]
  exact ht

/-- **One step.** No operation brings back a thread that has left. -/
theorem step_departed (h : Shape s .running cur idle q) (hs : step s op = some s')
    (hidle : t ≠ idle)
    (ht : s.Departed why t) : s'.Departed why t := by
  have hne : t ≠ cur := fun heq => ht.ne_running (heq ▸ h.current_state)
  cases step_cases h hs with
  | refused _ same =>
    subst same
    exact ht
  | created _ _ new added =>
    subst added
    exact new.departed h ht
  | charged _ same =>
    subst same
    exact (h.charged.2 t).trans ht
  | yielded _ shape stops others yield =>
    exact departed_of_yield shape stops yield (fun _ => hne) hidle ((others t hne).symm.trans ht)

/-- A dispatched thread was in the queue or became READY in the same step. -/
theorem Serves.not_dispatched {cur' : U64} {q' : List U64} (h : Shape s .running cur idle q)
    (hserves : Serves op s s' cur idle q cur' q') (ht : s.Departed why t)
    (ht' : s'.Departed why t) :
    t ∉ dispatched s s' := by
  intro hmem
  have hall : t ∈ q ++ readied op s s' := by
    rw [hserves.fifo]
    exact List.mem_append_left _ hmem
  rcases List.mem_append.mp hall with hq | hready
  · exact ht.ne_ready (h.ready t hq)
  · have hbecame : BecameReady s s' t := of_decide_eq_true (List.mem_filter.mp hready).2
    exact ht'.ne_ready hbecame.1

theorem run_departed {ops : List Op} (h : Shape s .running cur idle q)
    (hrun : Runs.run step s ops = some s') (hidle : t ≠ idle) (ht : s.Departed why t) :
    s'.Departed why t ∧ t ∉ dispatchLog s ops := by
  induction ops generalizing s cur q with
  | nil =>
    cases hrun
    exact ⟨ht, List.not_mem_nil⟩
  | cons op ops ih =>
    obtain ⟨s₁, hstep, hrun⟩ := Runs.run_cons_eq_some hrun
    obtain ⟨cur₁, q₁, hserves⟩ := step_serves h hstep
    have ht₁ := step_departed h hstep hidle ht
    obtain ⟨hend, hlog⟩ := ih hserves.shape hrun ht₁
    refine ⟨hend, ?_⟩
    simp only [dispatchLog, hstep, List.mem_append, not_or]
    exact ⟨Serves.not_dispatched h hserves ht ht₁, hlog⟩

/-- **A thread that has left never goes on.** From any state in which a thread runs, there is an
idle thread and the queue is well formed, in every run of creations, yields, ticks and departures:
a thread that marks itself and yields keeps its mark, is never dispatched and never current again,
so the `panic` behind the yield of `thread_wrapper` is out of reach. -/
theorem departed_never_resumes {pre post : List Op} (h : Shape s .running cur idle q)
    (hrun : Runs.run step s (pre ++ .leave why :: post) = some s') :
    ∃ s₁ s₂ t, Runs.run step s pre = some s₁ ∧ s₁.currentThread = some t ∧
      step s₁ (.leave why) = some s₂ ∧ t ∉ dispatchLog s₂ post ∧
      s'.stateOf t = some why.state ∧ s'.currentThread ≠ some t := by
  rw [Runs.run_append, Option.bind_eq_some_iff] at hrun
  obtain ⟨s₁, hpre, hrest⟩ := hrun
  obtain ⟨t, q₁, hshape, -⟩ := run_serves h hpre
  obtain ⟨s₂, hstep, hrest⟩ := Runs.run_cons_eq_some hrest
  obtain ⟨cur₂, q₂, hserves⟩ := step_serves hshape hstep
  have hleft : t ≠ idle ∧ s₂.Departed why t := by
    simp only [step, hshape.current, hshape.idle_eq, Option.some_inj] at hstep
    split at hstep
    · cases hstep
    · rename_i hne
      obtain ⟨hmarked, -⟩ := hshape.mark why.state
      refine ⟨Ne.symm hne,
        departed_of_yield hmarked (.inr ⟨Ne.symm hne, why.state_ne_ready⟩) hstep
        ?_ (Ne.symm hne) hmarked.current_state⟩
      intro hrunning
      cases why <;> cases hrunning
  obtain ⟨hend, hlog⟩ := run_departed hserves.shape hrest hleft.1 hleft.2
  obtain ⟨cur', q', hshape', -⟩ := run_serves hserves.shape hrest
  refine ⟨s₁, s₂, t, hpre, hshape.current, hstep, hlog, hend, ?_⟩
  rw [hshape'.current, Ne, Option.some_inj]
  rintro rfl
  exact hend.ne_running hshape'.current_state

/-- The running thread of the sample ends after a tick, and two more yields follow. -/
theorem sample_departs :
    ∃ s', Runs.run step sample ([.tick] ++ .leave .zombie :: [.yield, .yield]) = some s' ∧
      s'.stateOf 0x1000 = some .zombie ∧ s'.currentThread ≠ some 0x1000 := by
  obtain ⟨s', hrun⟩ :
      ∃ s', Runs.run step sample ([.tick] ++ .leave .zombie :: [.yield, .yield]) = some s' :=
    ⟨_, rfl⟩
  obtain ⟨s₁, -, t, hpre, hcur, -, -, hstate, hne⟩ := departed_never_resumes sample_shape hrun
  obtain rfl : sample.charged 0x1000 = s₁ := Option.some.inj hpre
  obtain rfl : 0x1000 = t := Option.some.inj hcur
  exact ⟨s', hrun, hstate, hne⟩

end Myria.Sched.ReadyQueue
