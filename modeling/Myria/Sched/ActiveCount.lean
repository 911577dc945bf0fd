import Myria.Sched.RunThreads

/-! `active_thread_count` against the table. `thread_create` and the end of
`thread_wrapper` keep the counter, and two things drift away from it: a finished
thread that a switch makes READY again, and the threads that `sched_run_threads`
finishes, which it does not count out. -/
namespace Myria.Sched

open Mm

variable {threadWrapper : U64} {s t : SchedState} {op : SchedOp} {yields : Slot → ℕ}

/-- A slot that `active_thread_count` is meant to count. -/
def Thread.Live (t : Thread) : Prop := t.tid ≠ 0#32 ∧ t.state ≠ .zombie

instance (t : Thread) : Decidable t.Live := inferInstanceAs (Decidable (_ ∧ _))

def SchedState.liveSlots (s : SchedState) : Finset Slot :=
  Finset.univ.filter fun i => (s.threadTable i).Live

@[simp] theorem SchedState.mem_liveSlots {i : Slot} :
    i ∈ s.liveSlots ↔ (s.threadTable i).Live := by
  simp [liveSlots]

theorem SchedState.liveSlots_congr (h : ∀ i, (t.threadTable i).Live ↔ (s.threadTable i).Live) :
    t.liveSlots = s.liveSlots := by
  ext i
  rw [mem_liveSlots, mem_liveSlots, h]

theorem SchedState.card_liveSlots_le (s : SchedState) : s.liveSlots.card ≤ 8 :=
  (Finset.card_le_univ s.liveSlots).trans_eq (Fintype.card_fin 8)

theorem Thread.Runnable.live {t : Thread} (h : t.Runnable) : t.Live :=
  ⟨h.1, by rw [h.2]; decide⟩

def Counted (s : SchedState) : Prop := s.activeThreadCount.toNat = s.liveSlots.card

/-- The counter is exact, and the search's early exit hides no READY thread. -/
structure CountExact (s : SchedState) : Prop where
  counted : Counted s
  search : ∀ i, (s.threadTable i).Runnable → ∃ next, findNextThread s = some next

theorem Counted.exact (h : Counted s) : CountExact s := by
  refine ⟨h, fun i hi => (exists_findNextThread_iff s).mpr ⟨fun h0 => ?_, i, hi⟩⟩
  have hpos := Finset.card_pos.mpr ⟨i, SchedState.mem_liveSlots.mpr hi.live⟩
  rw [← h, h0] at hpos
  exact absurd hpos (by decide)

/-! ## Yields and ticks -/

/-- A switch makes the slot it leaves live if it holds a thread, and changes no
other slot in that respect. -/
theorem live_switchTo {old next : Slot} (hnext : (s.threadTable next).Runnable) (hne : next ≠ old)
    (i : Slot) : ((s.switchTo old next).threadTable i).Live ↔
      (s.threadTable i).Live ∨ (i = old ∧ (s.threadTable old).tid ≠ 0#32) := by
  rw [switchTo_threadTable_of_ne s hne]
  by_cases hio : i = old
  · rw [if_pos hio, hio]
    simp [Thread.Live]
    tauto
  · by_cases hin : i = next
    · rw [if_neg hio, if_pos hin, hin]
      simp [Thread.Live, hnext.1, hnext.2]
    · rw [if_neg hio, if_neg hin]
      simp [hio]

theorem SameThreads.liveSlots (h : SameThreads s t) : t.liveSlots = s.liveSlots := by
  apply SchedState.liveSlots_congr
  intro i
  rw [Thread.Live, Thread.Live, h.tid, h.state]

theorem counted_switchStable :
    SwitchStable Counted fun t => t.tid ≠ 0#32 → t.state ≠ .zombie where
  same := by
    intro s s' hsame h
    rw [Counted, hsame.active, hsame.liveSlots]
    exact h
  switch := by
    intro s old next h _ _ hnext hne hleave
    have hlive : (s.switchTo old next).liveSlots = s.liveSlots := by
      apply SchedState.liveSlots_congr
      intro i
      rw [live_switchTo hnext hne]
      refine or_iff_left_of_imp ?_
      rintro ⟨rfl, htid⟩
      exact ⟨htid, hleave htid⟩
    rw [Counted, hlive]
    exact h

/-- Leaving a finished thread makes one slot more live. -/
theorem card_liveSlots_schedYield {old next : Slot} (h : yieldSwitch s = some (old, next))
    (htid : (s.threadTable old).tid ≠ 0#32) (hz : (s.threadTable old).state = .zombie) :
    (schedYield s).liveSlots.card = s.liveSlots.card + 1 := by
  obtain ⟨-, -, hf, hne⟩ := yieldSwitch_eq_some h
  have hlive : (s.switchTo old next).liveSlots = insert old s.liveSlots := by
    ext i
    rw [SchedState.mem_liveSlots, live_switchTo (findNextThread_runnable hf) hne, Finset.mem_insert,
      SchedState.mem_liveSlots]
    tauto
  have hold : old ∉ s.liveSlots := by
    rw [SchedState.mem_liveSlots]
    exact fun hl => hl.2 hz
  simp only [schedYield_eq, h]
  rw [hlive, Finset.card_insert_of_notMem hold]

theorem liveSlots_subset_schedYield (s : SchedState) :
    s.liveSlots ⊆ (schedYield s).liveSlots := by
  rw [schedYield_eq]
  cases hsw : yieldSwitch s with
  | none => exact Finset.Subset.refl _
  | some p =>
    obtain ⟨-, -, hf, hne⟩ := yieldSwitch_eq_some hsw
    intro i hi
    rw [SchedState.mem_liveSlots] at hi ⊢
    exact (live_switchTo (findNextThread_runnable hf) hne i).mpr (.inl hi)

/-- Whether a yield keeps the counter. -/
theorem Counted.yield_iff (h : Counted s) :
    Counted (schedYield s) ↔ ∀ old next, yieldSwitch s = some (old, next) →
      (s.threadTable old).tid ≠ 0#32 → (s.threadTable old).state ≠ .zombie := by
  constructor
  · intro hcounted old next hsw htid hz
    rw [Counted, schedYield_active, card_liveSlots_schedYield hsw htid hz, h] at hcounted
    omega
  · exact counted_switchStable.schedYield h

theorem cleanup_liveSlots (s : SchedState) :
    (cleanupZombieThreads s).liveSlots = s.liveSlots := by
  rw [cleanupZombieThreads_eq]
  apply SchedState.liveSlots_congr
  intro i
  change (s.threadTable i).reclaim.Live ↔ (s.threadTable i).Live
  rw [Thread.reclaim]
  split
  · rename_i h
    simp [Thread.Live, h.1]
  · rfl

theorem schedTick_liveSlots (hen : s.enabled = true) :
    (schedTick s).liveSlots = (tickCurrent s).liveSlots ∧
      (schedTick s).activeThreadCount = s.activeThreadCount := by
  rcases schedTick_cases s with ⟨hdis, -⟩ | ⟨-, -, heq⟩ | ⟨-, -, heq⟩
  · rw [hen] at hdis
    cases hdis
  · rw [heq]
    exact ⟨rfl, tickCurrent_active s⟩
  · rw [heq]
    refine ⟨cleanup_liveSlots _, ?_⟩
    rw [cleanupZombieThreads_eq]
    exact tickCurrent_active s

/-! ## The other calls -/

theorem counted_init (s : SchedState) : Counted (schedInit s) := by
  have hnone : (schedInit s).liveSlots = ∅ := by
    ext i
    simp [Thread.Live, schedInit]
  rw [Counted, hnone]
  rfl

theorem Counted.start (h : Counted s) : Counted (schedStart s) := by
  rcases schedStart_cases s with heq | ⟨first, hrun, heq⟩
  · rw [heq]
    exact h
  · rw [heq]
    refine Eq.trans h (congrArg Finset.card ?_)
    symm
    apply SchedState.liveSlots_congr
    intro i
    by_cases hi : i = first
    · simp [SchedState.setState, hi, Thread.Live, hrun.1, hrun.2]
    · simp [SchedState.setState, hi]

/-- A new thread is counted if its number is not `0`. -/
theorem Counted.create_iff (h : Counted s) (entryPoint arg : U64)
    (name : Option (List (BitVec 8))) :
    Counted (threadCreate threadWrapper s entryPoint arg name).2 ↔
      (s.nextTid = 0#32 → refilledSlot s entryPoint = none) := by
  rcases threadCreate_cases threadWrapper s entryPoint arg name with
    ⟨hnone, heap, heq⟩ | ⟨slot, stackBase, heap, hslot, hfree, -, heq⟩
  · rw [heq, hnone]
    exact iff_of_true h fun _ => rfl
  · have hcard := s.card_liveSlots_le
    have hcount : (s.activeThreadCount + 1).toNat = s.liveSlots.card + 1 :=
      counter_succ_toNat h (by omega)
    have hold : slot ∉ s.liveSlots := by
      rw [SchedState.mem_liveSlots]
      exact fun hl => hl.1 hfree
    have htable : ∀ i, (threadCreate threadWrapper s entryPoint arg name).2.threadTable i =
        if i = slot then newThread threadWrapper s.nextTid entryPoint arg name stackBase
        else s.threadTable i := by
      intro i
      simp only [heq, SchedState.modify_threadTable]
    have hactive : (threadCreate threadWrapper s entryPoint arg name).2.activeThreadCount =
        s.activeThreadCount + 1 := by
      rw [heq]
    generalize (threadCreate threadWrapper s entryPoint arg name).2 = u at htable hactive ⊢
    rw [Counted, hactive, hcount, hslot]
    by_cases htid : s.nextTid = 0#32
    · have hlive : u.liveSlots = s.liveSlots := by
        apply SchedState.liveSlots_congr
        intro i
        by_cases hi : i = slot
        · simp [htable, hi, Thread.Live, newThread, htid, hfree]
        · simp [htable, hi]
      refine iff_of_false ?_ (by simp [htid])
      rw [hlive]
      omega
    · have hlive : u.liveSlots = insert slot s.liveSlots := by
        ext i
        by_cases hi : i = slot
        · simp [htable, hi, Thread.Live, newThread, htid]
        · simp [htable, hi]
      refine iff_of_true ?_ fun h0 => absurd h0 htid
      rw [hlive, Finset.card_insert_of_notMem hold]

/-- The slots that are live once the current thread is marked finished. -/
theorem liveSlots_mark (s : SchedState) (i : Slot) (active : U32) :
    ({ s.setState i .zombie with activeThreadCount := active } : SchedState).liveSlots =
      s.liveSlots.erase i := by
  ext j
  by_cases hj : j = i
  · simp [hj, SchedState.setState, Thread.Live]
  · simp [hj, SchedState.setState]

/-- The termination of a live thread that is not left again is counted. -/
theorem Counted.finish (h : Counted s) {i : Slot} (hi : s.current = some i)
    (hlive : (s.threadTable i).Live) (hleave : ¬ LeavesZombie s .threadExit) :
    Counted (finishThread s i) := by
  have hmem := SchedState.mem_liveSlots.mpr hlive
  have hpos : 0 < s.activeThreadCount.toNat := by
    rw [h]
    exact Finset.card_pos.mpr ⟨i, hmem⟩
  have hstay : yieldSwitch { s.setState i .zombie with
      activeThreadCount := s.activeThreadCount - 1 } = none := by
    rw [Option.eq_none_iff_forall_ne_some]
    rintro ⟨old, next⟩ hsw
    obtain ⟨-, hc, -, -⟩ := yieldSwitch_eq_some hsw
    obtain rfl : i = old := Option.some.inj (hi.symm.trans hc)
    refine hleave ((switchesFromZombie_iff s _).mp
      ⟨_, i, next, by rw [yieldCall, hi]; rfl, hsw, ?_⟩)
    simp [SchedState.setState]
  rw [finishThread, schedYield_eq, hstay, Counted, liveSlots_mark,
    Finset.card_erase_of_mem hmem, ← h]
  exact BitVec.toNat_sub_of_le (BitVec.le_def.mpr hpos)

/-- Any other termination is not: the counter goes down, and no fewer slots are
live. -/
theorem Counted.finish_drifts (h : Counted s) {i : Slot} (hi : s.current = some i)
    (hbad : (s.threadTable i).Live → LeavesZombie s .threadExit) :
    ¬ Counted (finishThread s i) := by
  have hcard : s.liveSlots.card ≤ (finishThread s i).liveSlots.card := by
    by_cases hlive : (s.threadTable i).Live
    · -- marked ZOMBIE and made READY again
      obtain ⟨u, old, next, hcall, hsw, hz⟩ := (switchesFromZombie_iff s _).mpr (hbad hlive)
      rw [yieldCall, hi] at hcall
      cases Option.some.inj hcall
      obtain rfl : i = old := Option.some.inj (hi.symm.trans (yieldSwitch_eq_some hsw).2.1)
      have htid : ((s.setState i .zombie).threadTable i).tid ≠ 0#32 := by
        simpa [SchedState.setState] using hlive.1
      rw [finishThread, card_liveSlots_schedYield hsw htid hz, liveSlots_mark,
        Finset.card_erase_of_mem (SchedState.mem_liveSlots.mpr hlive)]
      omega
    · have hsub := Finset.card_le_card (liveSlots_subset_schedYield
        { s.setState i .zombie with activeThreadCount := s.activeThreadCount - 1 })
      rwa [liveSlots_mark, Finset.erase_eq_of_notMem (by simpa using hlive)] at hsub
  have hle := (finishThread s i).card_liveSlots_le
  intro hcounted
  rw [Counted, finishThread, schedYield_active, BitVec.toNat_sub, h] at hcounted
  rw [← finishThread] at hcounted
  simp at hcounted
  omega

/-! ## The cooperative loop -/

/-- While an entry point runs, yields keep the set of live slots. -/
theorem live_switchStable (live : Finset Slot) :
    SwitchStable (fun s => s.liveSlots = live ∧ ∀ i, s.current = some i → (s.threadTable i).Live)
      fun _ => True where
  same := by
    rintro s s' hsame ⟨hset, hcur⟩
    refine ⟨hsame.liveSlots.trans hset, fun i hi => ?_⟩
    rw [Thread.Live, hsame.tid, hsame.state]
    exact hcur i (hsame.current ▸ hi)
  switch := by
    rintro s old next ⟨hset, hcur⟩ _ hc hnext hne _
    refine ⟨?_, fun i hi => ?_⟩
    · rw [← hset]
      apply SchedState.liveSlots_congr
      intro i
      rw [live_switchTo hnext hne]
      refine or_iff_left_of_imp ?_
      rintro ⟨rfl, -⟩
      exact hcur i hc
    · cases Option.some.inj hi
      exact (live_switchTo hnext hne next).mpr (.inl hnext.live)

theorem iterate_schedYield_live {n : ℕ} (hcur : ∀ i, s.current = some i → (s.threadTable i).Live) :
    (schedYield^[n] s).liveSlots = s.liveSlots ∧
      (schedYield^[n] s).activeThreadCount = s.activeThreadCount := by
  have hinv : ((schedYield^[n] s).liveSlots = s.liveSlots ∧
      ∀ i, (schedYield^[n] s).current = some i → ((schedYield^[n] s).threadTable i).Live) ∧
      (schedYield^[n] s).activeThreadCount = s.activeThreadCount := by
    induction n with
    | zero => exact ⟨⟨rfl, hcur⟩, rfl⟩
    | succ n ih =>
      rw [Function.iterate_succ_apply', schedYield_active]
      exact ⟨(live_switchStable s.liveSlots).schedYield ih.1 fun _ _ _ => trivial, ih.2⟩
  exact ⟨hinv.1.1, hinv.2⟩

/-- The loop finishes a thread without counting it out. -/
theorem runSlot_liveSlots (yields : Slot → ℕ) {p : SchedState × List Call} {i : Slot}
    (hi : (p.1.threadTable i).Runnable) :
    (runSlot yields p i).1.liveSlots = p.1.liveSlots.erase i ∧
      (runSlot yields p i).1.activeThreadCount = p.1.activeThreadCount := by
  have hdispatch : (p.1.dispatch i).liveSlots = p.1.liveSlots := by
    apply SchedState.liveSlots_congr
    intro j
    by_cases hj : j = i
    · simp [SchedState.dispatch, SchedState.setState, hj, Thread.Live, hi.1, hi.2]
    · simp [SchedState.dispatch, SchedState.setState, hj]
  have hcur : ∀ j, (p.1.dispatch i).current = some j → ((p.1.dispatch i).threadTable j).Live := by
    intro j hj
    cases Option.some.inj hj
    simp [SchedState.dispatch, SchedState.setState, Thread.Live, hi.1]
  obtain ⟨hset, hactive⟩ := iterate_schedYield_live (n := yields i) hcur
  rw [runSlot_of_runnable hi]
  refine ⟨?_, hactive⟩
  rw [← hdispatch, ← hset, ← liveSlots_mark _ i 0]
  rfl

theorem foldl_runSlot_liveSlots (yields : Slot → ℕ) (is : List Slot) (p : SchedState × List Call) :
    (is.foldl (runSlot yields) p).1.liveSlots ⊆ p.1.liveSlots ∧
    (is.foldl (runSlot yields) p).1.activeThreadCount = p.1.activeThreadCount ∧
    ((∃ i ∈ is, (p.1.threadTable i).Runnable) →
      (is.foldl (runSlot yields) p).1.liveSlots.card < p.1.liveSlots.card) := by
  induction is generalizing p with
  | nil => exact ⟨Finset.Subset.refl _, rfl, by simp⟩
  | cons i is ih =>
    rw [List.foldl_cons]
    by_cases hi : (p.1.threadTable i).Runnable
    · obtain ⟨hsub, hactive, -⟩ := ih (runSlot yields p i)
      obtain ⟨hset, hkeep⟩ := runSlot_liveSlots yields hi
      rw [hset] at hsub
      have hmem := SchedState.mem_liveSlots.mpr hi.live
      refine ⟨hsub.trans (Finset.erase_subset _ _), hactive.trans hkeep, fun _ => ?_⟩
      exact (Finset.card_le_card hsub).trans_lt (Finset.card_erase_lt_of_mem hmem)
    · rw [runSlot_of_not_runnable hi]
      obtain ⟨hsub, hactive, hlt⟩ := ih p
      refine ⟨hsub, hactive, ?_⟩
      rintro ⟨j, hj, hrun⟩
      rcases List.mem_cons.mp hj with rfl | hj
      · exact absurd hrun hi
      · exact hlt ⟨j, hj, hrun⟩

theorem schedRunThreads_of_none (h : ∀ i, ¬ (s.threadTable i).Runnable) :
    schedRunThreads yields s = (s, []) := by
  have hloop : ∀ is : List Slot, is.foldl (runSlot yields) (s, []) = (s, []) := by
    intro is
    induction is with
    | nil => rfl
    | cons i is ih => rw [List.foldl_cons, runSlot_of_not_runnable (h i), ih]
  exact hloop _

theorem Counted.runThreads_iff (h : Counted s) :
    Counted (schedRunThreads yields s).1 ↔ ∀ i, ¬ (s.threadTable i).Runnable := by
  constructor
  · intro hcounted i hi
    obtain ⟨-, hactive, hlt⟩ :=
      foldl_runSlot_liveSlots yields (List.finRange maxThreads) (s, [])
    have hless : _ < s.liveSlots.card := hlt ⟨i, List.mem_finRange i, hi⟩
    rw [Counted, schedRunThreads, hactive, h] at hcounted
    omega
  · intro hnone
    rw [schedRunThreads_of_none hnone]
    exact h

/-! ## Whole runs -/

/-- The calls of `thread_minimal.c`, with the cooperative loop. -/
inductive RunOp where
  | call (op : SchedOp)
  | schedRunThreads (yields : Slot → ℕ)

def runStep (threadWrapper : U64) (s : SchedState) : RunOp → Option SchedState
  | .call op => schedStep threadWrapper s op
  | .schedRunThreads yields => some (schedRunThreads yields s).1

/-- The operation keeps the counter: it does not leave a finished thread that
still has its slot, nor finish one that is finished already, nor run threads in
the loop, nor give out the number `0`. -/
def KeepsCount (s : SchedState) : RunOp → Prop
  | .call (.threadCreate entryPoint _ _) => s.nextTid = 0#32 → refilledSlot s entryPoint = none
  | .call .threadExit =>
    (∀ i, s.current = some i → (s.threadTable i).Live) ∧ ¬ LeavesZombie s .threadExit
  | .call op => LeavesZombie s op → ∀ i, s.current = some i → (s.threadTable i).tid = 0#32
  | .schedRunThreads _ => ∀ i, ¬ (s.threadTable i).Runnable

/-- The condition on yields and ticks, in terms of the switch they make. -/
theorem leaves_tid_iff (hcall : ∀ u, yieldCall s op = some u → SameThreads s u) :
    (LeavesZombie s op → ∀ i, s.current = some i → (s.threadTable i).tid = 0#32) ↔
      ∀ u old next, yieldCall s op = some u → yieldSwitch u = some (old, next) →
        (u.threadTable old).tid ≠ 0#32 → (u.threadTable old).state ≠ .zombie := by
  rw [← switchesFromZombie_iff]
  constructor
  · intro htid u old next hu hsw hne hz
    have hsame := hcall u hu
    have hold : s.current = some old := hsame.current.symm.trans (yieldSwitch_eq_some hsw).2.1
    rw [hsame.tid] at hne
    exact hne (htid ⟨u, old, next, hu, hsw, hz⟩ old hold)
  · rintro hswitch ⟨u, old, next, hu, hsw, hz⟩ i hi
    have hsame := hcall u hu
    have hold := hsame.current.symm.trans (yieldSwitch_eq_some hsw).2.1
    obtain rfl : i = old := Option.some.inj (hi.symm.trans hold)
    by_contra htid
    rw [← hsame.tid] at htid
    exact hswitch u i next hu hsw htid hz

theorem sameThreads_refl (s : SchedState) : SameThreads s s :=
  ⟨fun _ => rfl, fun _ => rfl, fun _ => rfl, rfl, rfl, rfl⟩

theorem Counted.schedYield_iff (h : Counted s) :
    Counted (schedYield s) ↔ (LeavesZombie s .schedYield →
      ∀ i, s.current = some i → (s.threadTable i).tid = 0#32) := by
  rw [h.yield_iff, leaves_tid_iff]
  · constructor
    · intro hleave u old next hu
      cases Option.some.inj hu
      exact hleave old next
    · intro hleave old next
      exact hleave s old next rfl
  · intro u hu
    cases Option.some.inj hu
    exact sameThreads_refl s

theorem Counted.schedTick_iff (h : Counted s) :
    Counted (schedTick s) ↔ (LeavesZombie s .schedTick →
      ∀ i, s.current = some i → (s.threadTable i).tid = 0#32) := by
  cases hen : s.enabled with
  | false =>
    refine iff_of_true ?_ fun hleave => ?_
    · rw [schedTick, hen]
      exact h
    · have hon := hleave.1
      rw [hen] at hon
      cases hon
  | true =>
    have hcall : yieldCall s .schedTick = tickYields s := if_pos hen
    obtain ⟨hset, hactive⟩ := schedTick_liveSlots hen
    rw [Counted, hset, hactive, ← tickCurrent_active s, ← Counted,
      leaves_tid_iff fun u hu => (tickYields_sameThreads (hcall.symm.trans hu)).1, hcall]
    rcases tickCurrent_cases s with ⟨hnone, hsame⟩ | ⟨u, hu, hsame, heq⟩
    · refine iff_of_true (counted_switchStable.same hsame h) fun u old next hu => ?_
      rw [hnone] at hu
      cases hu
    · rw [heq, (counted_switchStable.same hsame h).yield_iff]
      constructor
      · intro hleave v old next hv
        cases Option.some.inj (hu.symm.trans hv)
        exact hleave old next
      · intro hleave old next
        exact hleave u old next hu

/-- One operation keeps the counter exact when it meets the condition, and only
then. -/
theorem Counted.step_iff {op : RunOp} (h : Counted s) (hs : runStep threadWrapper s op = some t) :
    Counted t ↔ KeepsCount s op := by
  cases op with
  | call op =>
    cases op with
    | schedInit =>
      cases hs
      refine iff_of_true (counted_init s) ?_
      rintro ⟨-, i, -, hfalse⟩
      exact hfalse.elim
    | threadCreate entryPoint arg name => cases hs; exact h.create_iff entryPoint arg name
    | schedStart =>
      cases hs
      refine iff_of_true h.start ?_
      rintro ⟨-, i, -, hfalse⟩
      exact hfalse.elim
    | schedYield => cases hs; exact h.schedYield_iff
    | schedTick => cases hs; exact h.schedTick_iff
    | threadExit =>
      obtain ⟨i, hi, rfl⟩ := Option.map_eq_some_iff.mp hs
      constructor
      · intro hcounted
        by_contra hbad
        refine h.finish_drifts hi (fun hlive => ?_) hcounted
        by_contra hleave
        refine hbad ⟨fun j hj => ?_, hleave⟩
        rwa [Option.some.inj (hj.symm.trans hi)]
      · rintro ⟨hlive, hleave⟩
        exact h.finish hi (hlive i hi) hleave
  | schedRunThreads yields =>
    obtain rfl : (schedRunThreads yields s).1 = t := Option.some.inj hs
    exact h.runThreads_iff

/-- **The counter is exact as long as nothing comes back and the loop is not
used.** Along every run of the scheduler's functions, `active_thread_count` is the
number of slots that hold an unfinished thread, and the search's early exit hides
no READY thread, exactly when every operation keeps the counter. -/
theorem active_count_exact_iff {s₀ : SchedState} {ops : List RunOp}
    (hrun : Runs.run (runStep threadWrapper) (schedInit s₀) ops = some s) :
    Runs.Always (runStep threadWrapper) (schedInit s₀) CountExact ops ↔
      Runs.StepsMeet (runStep threadWrapper) (schedInit s₀) KeepsCount ops :=
  Runs.always_iff_stepsMeet (I := Counted) (counted_init s₀) (fun _ h => h.exact)
    (fun _ _ _ h hC hs => (h.step_iff hs).mpr hC)
    (fun _ _ _ h hC hs hexact => hC ((h.step_iff hs).mp hexact.counted)) hrun

/-- Two threads, of which the first yields to the second: the counter is exact. -/
theorem active_count_exact_two_threads :
    ∃ s, Runs.run (runStep 0x100000) (schedInit .bss)
        [.call (.threadCreate 0x1000 0 none), .call (.threadCreate 0x2000 0 none),
          .call .schedStart, .call .schedYield] = some s ∧
      (Runs.Always (runStep 0x100000) (schedInit .bss) CountExact
          [.call (.threadCreate 0x1000 0 none), .call (.threadCreate 0x2000 0 none),
            .call .schedStart, .call .schedYield] ↔
        Runs.StepsMeet (runStep 0x100000) (schedInit .bss) KeepsCount
          [.call (.threadCreate 0x1000 0 none), .call (.threadCreate 0x2000 0 none),
            .call .schedStart, .call .schedYield]) := by
  have hrun : Runs.run (runStep 0x100000) (schedInit .bss)
      [.call (.threadCreate 0x1000 0 none), .call (.threadCreate 0x2000 0 none),
        .call .schedStart, .call .schedYield] = some _ := rfl
  exact ⟨_, hrun, active_count_exact_iff hrun⟩

/-- One thread run by the cooperative loop: it is finished and still counted. -/
theorem run_threads_not_counted_out :
    ∃ s, Runs.run (runStep 0x100000) (schedInit .bss)
        [.call (.threadCreate 0x1000 0 none), .schedRunThreads fun _ => 0] = some s ∧
      s.activeThreadCount = 1 ∧ s.liveSlots = ∅ :=
  ⟨_, rfl, rfl, by decide⟩

end Myria.Sched
