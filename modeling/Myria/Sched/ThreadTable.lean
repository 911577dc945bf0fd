import Mathlib.Data.Fintype.Card
import Myria.Sched.ReadyFifo

/-! The table of `thread.c` beside its ready queue. `thread_create` asks the
counter whether there is room, against 8, and then looks for a free entry from 1
on, so that the table holds seven threads. The counter stays right, but it never
reaches 8: the eighth thread is queued without an entry. -/
namespace Myria.Sched.ReadyQueue

open LinkedQueue

/-- A call of `thread_create`, with the two answers of `kmalloc`. -/
structure Call where
  entryPoint : U64
  arg : U64
  name : Option (List (BitVec 8))
  block : Option U64
  stack : Option U64

def Call.create (threadWrapper : U64) (s : State) (c : Call) : U32 × State :=
  threadCreate threadWrapper s c.entryPoint c.arg c.name c.block c.stack

/-- A call, `kmalloc` handing out blocks of no other thread. -/
def createStep (threadWrapper : U64) (s : State) (c : Call) : Option State :=
  step s (.create threadWrapper c.entryPoint c.arg c.name c.block c.stack)

/-- Both requests to `kmalloc` are served. -/
def Call.served (c : Call) : Bool := c.block.isSome && c.stack.isSome

/-- Every queued thread has one entry of the table, and the counter counts the
entries. -/
structure TableAgrees (s : State) : Prop where
  recorded : ∃ q, Represents s.links q ∧ ∀ t ∈ q, ∃! i, s.threadTable i = some t
  counted : s.threadCount.toNat = (Finset.univ.filter fun i => s.threadTable i ≠ none).card

/-- The answer `r` is a refusal: zero, and nothing has changed. -/
structure Refuses (s : State) (r : U32 × State) : Prop where
  answer : r.1 = 0
  table : r.2.threadTable = s.threadTable
  queue : r.2.links = s.links
  nextTid : r.2.nextTid = s.nextTid

/-- A call that finds no free entry is refused. -/
def RefusesWhenFull (threadWrapper : U64) (s : State) (c : Call) : Prop :=
  freeEntry s = none → Refuses s (c.create threadWrapper s)

/-! ## The free entry -/

/-- The first free entry from 1 on. -/
theorem freeEntry_eq_some {s : State} {i : Fin 8} (h : freeEntry s = some i) :
    i ≠ 0 ∧ s.threadTable i = none ∧ ∀ j, j ≠ 0 → j < i → s.threadTable j ≠ none := by
  obtain ⟨hfree, k, hk, hi, hbefore⟩ := List.find?_eq_some_iff_getElem.mp h
  simp only [List.getElem_drop, List.getElem_finRange, Fin.ext_iff, Fin.val_cast] at hi
  refine ⟨?_, by simpa using hfree, fun j hj hlt => ?_⟩
  · rw [ne_eq, Fin.ext_iff, Fin.val_zero]
    omega
  · have hpos : 1 ≤ j.val := Nat.pos_of_ne_zero (Fin.val_ne_zero_iff.mpr hj)
    have hj' := hbefore (j.val - 1) (by omega)
    simpa [Nat.sub_add_cancel hpos] using hj'

theorem freeEntry_eq_none {s : State} :
    freeEntry s = none ↔ ∀ i, i ≠ 0 → s.threadTable i ≠ none := by
  rw [freeEntry, List.find?_eq_none]
  constructor
  · intro h i hi
    have hpos : 1 ≤ i.val := Nat.pos_of_ne_zero (Fin.val_ne_zero_iff.mpr hi)
    have hmem : i ∈ (List.finRange 8).drop 1 := by
      rw [List.mem_iff_getElem]
      exact ⟨i.val - 1, by simp; omega, by simp [Nat.sub_add_cancel hpos]⟩
    simpa using h i hmem
  · intro h i hmem
    obtain ⟨k, hk, rfl⟩ := List.mem_iff_getElem.mp hmem
    simpa using h _ (by simp [Fin.ext_iff])

/-! ## One call -/

/-- The state after the threads `q` were created, in this order: all are queued,
and the first seven have the entries from 1 on. -/
structure Filed (s : State) (q : List U64) : Prop where
  represents : Represents s.links q
  exists_block : ∀ p ∈ q, ∃ t, s.threads p = some t
  table : ∀ i : Fin 8, s.threadTable i = if i = 0 then none else q[i.val - 1]?
  count : s.threadCount.toNat = min q.length 7

variable {s s' : State} {p threadWrapper : U64} {q : List U64} {c : Call}

theorem schedInit_filed (s : State) : Filed (schedInit s) [] where
  represents := ⟨rfl, rfl, List.nodup_nil⟩
  exists_block := by simp
  table := by
    intro i
    split <;> rfl
  count := rfl

theorem Filed.entry_eq_none (h : Filed s q) {i : Fin 8} (hi : i ≠ 0) :
    s.threadTable i = none ↔ q.length < i.val := by
  have hpos : i.val ≠ 0 := Fin.val_ne_zero_iff.mpr hi
  rw [h.table, if_neg hi, List.getElem?_eq_none_iff]
  omega

theorem Filed.freeEntry_of_room (h : Filed s q) (hroom : q.length < 7) :
    ∃ i : Fin 8, freeEntry s = some i ∧ i.val = q.length + 1 := by
  have hne : (⟨q.length + 1, by omega⟩ : Fin 8) ≠ 0 := by simp [Fin.ext_iff]
  cases hfree : freeEntry s with
  | none =>
    have hfilled := freeEntry_eq_none.mp hfree ⟨q.length + 1, by omega⟩ hne
    exact absurd ((h.entry_eq_none hne).mpr (Nat.lt_succ_self _)) hfilled
  | some i =>
    obtain ⟨hi, hnone, hbefore⟩ := freeEntry_eq_some hfree
    have hlt := (h.entry_eq_none hi).mp hnone
    refine ⟨i, rfl, ?_⟩
    -- an entry further on would not be the first
    by_contra hgt
    refine hbefore ⟨q.length + 1, by omega⟩ hne ?_ ((h.entry_eq_none hne).mpr (Nat.lt_succ_self _))
    show q.length + 1 < i.val
    omega

theorem Filed.freeEntry_eq_none_iff (h : Filed s q) : freeEntry s = none ↔ 7 ≤ q.length := by
  constructor
  · intro hnone
    by_contra hlt
    obtain ⟨i, hsome, -⟩ := h.freeEntry_of_room (by omega)
    cases hnone.symm.trans hsome
  · intro hle
    refine freeEntry_eq_none.mpr fun i hi hnone => ?_
    have hlt := (h.entry_eq_none hi).mp hnone
    omega

theorem addToReadyQueue_table (s : State) (p : U64) :
    (addToReadyQueue s p).threadTable = s.threadTable ∧
      (addToReadyQueue s p).threadCount = s.threadCount ∧
      (addToReadyQueue s p).nextTid = s.nextTid := by
  cases h : s.readyQueueTail <;> simp [addToReadyQueue, State.modify, h]

theorem getElem?_concat_of_ne {k : Nat} (h : k ≠ q.length) : (q ++ [p])[k]? = q[k]? := by
  rcases Nat.lt_or_gt_of_ne h with hlt | hgt
  · exact List.getElem?_append_left hlt
  · have hlen : (q ++ [p]).length ≤ k := by
      rw [List.length_append, List.length_singleton]
      exact hgt
    rw [List.getElem?_eq_none hlen, List.getElem?_eq_none hgt.le]

/-- The next entry goes to the new thread, if there is one left. -/
theorem Filed.enterTable (h : Filed s q) {s₁ : State} (htable : s₁.threadTable = s.threadTable)
    (hcount : s₁.threadCount = s.threadCount) :
    (∀ i : Fin 8, (enterTable s₁ p).threadTable i =
      if i = 0 then none else (q ++ [p])[i.val - 1]?) ∧
    (enterTable s₁ p).threadCount.toNat = min (q ++ [p]).length 7 := by
  have hsame : freeEntry s₁ = freeEntry s := by rw [freeEntry, htable, freeEntry]
  have hlen := h.count
  rw [ReadyQueue.enterTable, hsame, List.length_append, List.length_singleton]
  by_cases hroom : q.length < 7
  · obtain ⟨i, hfree, hi⟩ := h.freeEntry_of_room hroom
    rw [hfree]
    refine ⟨fun j => ?_, ?_⟩
    · show Function.update s₁.threadTable i (some p) j = _
      rw [Function.update_apply, htable, h.table]
      by_cases hj : j = i
      · have hne : i ≠ 0 := by
          rw [ne_eq, Fin.ext_iff, Fin.val_zero]
          omega
        rw [hj, if_pos rfl, if_neg hne, hi, Nat.add_sub_cancel, List.getElem?_concat_length]
      · rw [if_neg hj]
        by_cases hzero : j = 0
        · rw [if_pos hzero, if_pos hzero]
        · have hpos : j.val ≠ 0 := Fin.val_ne_zero_iff.mpr hzero
          have hji : j.val ≠ i.val := Fin.val_ne_of_ne hj
          rw [if_neg hzero, if_neg hzero, getElem?_concat_of_ne (by omega)]
    · show (s₁.threadCount + 1).toNat = _
      rw [hcount, BitVec.toNat_add, hlen]
      show (min q.length 7 + 1) % 2 ^ 32 = _
      omega
  · rw [h.freeEntry_eq_none_iff.mpr (by omega)]
    refine ⟨fun j => ?_, ?_⟩
    · show s₁.threadTable j = _
      rw [htable, h.table, List.getElem?_append_left (by omega)]
    · show s₁.threadCount.toNat = _
      rw [hcount, hlen]
      omega

theorem createStep_eq_some (h : createStep threadWrapper s c = some s') :
    (∀ p ∈ c.block, s.threads p = none) ∧ (c.create threadWrapper s).2 = s' := by
  simp only [createStep, step] at h
  split at h
  case isTrue hfresh => exact ⟨hfresh, Option.some_inj.mp h⟩
  case isFalse => cases h

theorem Call.create_of_not_served (h : c.served = false) (threadWrapper : U64) (s : State) :
    c.create threadWrapper s = (0, s) := by
  rw [Call.create, threadCreate, ite_self]
  intro p stack hblock hstack
  rw [Call.served, hblock, hstack] at h
  cases h

theorem Call.exists_of_served (h : c.served = true) :
    ∃ p stack, c.block = some p ∧ c.stack = some stack := by
  obtain ⟨hblock, hstack⟩ := Bool.and_eq_true_iff.mp h
  obtain ⟨p, hp⟩ := Option.isSome_iff_exists.mp hblock
  obtain ⟨stack, hst⟩ := Option.isSome_iff_exists.mp hstack
  exact ⟨p, stack, hp, hst⟩

/-- The new thread goes to the end of the queue. -/
theorem Filed.add (h : Filed s q) {n : Thread} (hnew : NewBlock s s' p n)
    (htable : ∀ i : Fin 8, s'.threadTable i = if i = 0 then none else (q ++ [p])[i.val - 1]?)
    (hcount : s'.threadCount.toNat = min (q ++ [p]).length 7) :
    Filed (addToReadyQueue s' p) (q ++ [p]) := by
  have hp : p ∉ q := by
    intro hmem
    obtain ⟨t, ht⟩ := h.exists_block p hmem
    cases hnew.fresh.symm.trans ht
  have hblocks : ∀ w, w ∈ q ∨ w = p → ∃ t, s'.threads w = some t := by
    intro w hw
    rw [hnew.threads]
    by_cases hwp : w = p
    · exact ⟨n, by rw [hwp, Function.update_self]⟩
    · rw [Function.update_of_ne hwp]
      exact h.exists_block w (hw.resolve_right hwp)
  have htail : ∀ w, s'.readyQueueTail = some w → w ∈ q := by
    intro w hw
    rw [hnew.tail] at hw
    exact List.mem_of_getLast? (h.represents.tail_eq.symm.trans hw)
  have hne : s'.readyQueueTail ≠ some p := fun hw => hp (htail p hw)
  obtain ⟨htable', hcount', -⟩ := addToReadyQueue_table s' p
  obtain ⟨t, ht⟩ := hblocks p (.inr rfl)
  refine ⟨?_, fun w hw => ?_, ?_, ?_⟩
  · rw [addToReadyQueue_links ht hne fun w hw => hblocks w (.inl (htail w hw)), hnew.links]
    exact h.represents.pushBack hp
  · rw [List.mem_append, List.mem_singleton] at hw
    obtain ⟨t', ht'⟩ := hblocks w hw
    rw [addToReadyQueue_threads hne, ht']
    split
    · exact ⟨_, rfl⟩
    · split
      · exact ⟨_, rfl⟩
      · exact ⟨_, rfl⟩
  · rw [htable']
    exact htable
  · rw [hcount']
    exact hcount

/-- A call that is served adds a thread. The counter stops at seven, so the test
against 8 never refuses. -/
theorem Filed.create (h : Filed s q) {stack : U64} (hblock : c.block = some p)
    (hstack : c.stack = some stack) (hfresh : s.threads p = none) :
    Filed (c.create threadWrapper s).2 (q ++ [p]) ∧
      (c.create threadWrapper s).2.nextTid = s.nextTid + 1 := by
  have hroom : ¬ 8 ≤ s.threadCount := by
    have hcount := h.count
    rw [BitVec.le_def]
    show ¬ 8 ≤ s.threadCount.toNat
    omega
  simp only [Call.create, threadCreate, if_neg hroom, hblock, hstack]
  have hnew := newBlock_enterTable hfresh threadWrapper c.entryPoint c.arg stack c.name
    (s.nextTid + 1)
  generalize hs₁ : ({ s with
    threads := Function.update s.threads p
      (some (newThread threadWrapper s.nextTid c.entryPoint c.arg c.name stack))
    nextTid := s.nextTid + 1 } : State) = s₁ at hnew ⊢
  have hsameTable : s₁.threadTable = s.threadTable := hs₁ ▸ rfl
  have hsameCount : s₁.threadCount = s.threadCount := hs₁ ▸ rfl
  obtain ⟨htable, hcount⟩ := h.enterTable (p := p) hsameTable hsameCount
  refine ⟨h.add hnew htable hcount, ?_⟩
  obtain ⟨table, count, heq⟩ := enterTable_eq s₁ p
  rw [(addToReadyQueue_table _ p).2.2, heq, ← hs₁]

/-! ## Whole runs -/

/-- After a run the queue holds one thread for each call that was served. -/
theorem run_filed {s₀ : State} {calls : List Call}
    (hrun : Runs.run (createStep threadWrapper) (schedInit s₀) calls = some s) :
    ∃ q, Filed s q ∧ q.length = calls.countP Call.served := by
  refine Runs.run_invariant (P := fun calls s => ∃ q, Filed s q ∧
    q.length = calls.countP Call.served)
    ⟨[], schedInit_filed s₀, rfl⟩ (fun calls s c s' _ hfiled hs => ?_) calls s hrun
  obtain ⟨q, h, hlen⟩ := hfiled
  obtain ⟨hfresh, rfl⟩ := createStep_eq_some hs
  rw [List.countP_append, List.countP_singleton, ← hlen]
  by_cases hserved : c.served = true
  · obtain ⟨p, stack, hblock, hstack⟩ := Call.exists_of_served hserved
    refine ⟨q ++ [p], (h.create hblock hstack (hfresh p hblock)).1, ?_⟩
    rw [if_pos hserved, List.length_append, List.length_singleton]
  · rw [if_neg hserved, Call.create_of_not_served (Bool.not_eq_true _ ▸ hserved)]
    exact ⟨q, h, rfl⟩

/-- The counter is right after every run, and at most seven. -/
theorem Filed.counted (h : Filed s q) :
    s.threadCount.toNat = (Finset.univ.filter fun i => s.threadTable i ≠ none).card := by
  have hcard : ∀ n : Fin 8, (Finset.univ.filter fun i : Fin 8 => i ≠ 0 ∧ i ≤ n).card = n := by
    decide
  have hle : min q.length 7 < 8 := by omega
  have hentries : ∀ i : Fin 8, s.threadTable i ≠ none ↔ i ≠ 0 ∧ i ≤ ⟨min q.length 7, hle⟩ := by
    intro i
    by_cases hi : i = 0
    · rw [h.table, if_pos hi]
      simp [hi]
    · rw [ne_eq, h.entry_eq_none hi, Fin.le_def]
      simp only [hi, ne_eq, not_false_eq_true, true_and]
      omega
  rw [h.count, Finset.filter_congr fun i _ => hentries i, hcard]

theorem Filed.agrees (h : Filed s q) (hroom : q.length ≤ 7) : TableAgrees s := by
  refine ⟨⟨q, h.represents, fun t ht => ?_⟩, h.counted⟩
  obtain ⟨k, hk, hkt⟩ := List.mem_iff_getElem.mp ht
  have hget : q[k]? = some t := by rw [List.getElem?_eq_getElem hk, hkt]
  refine ⟨⟨k + 1, by omega⟩, ?_, fun j hj => ?_⟩
  · show s.threadTable _ = some t
    rw [h.table, if_neg (by simp [Fin.ext_iff])]
    exact hget
  · dsimp only at hj
    rw [h.table] at hj
    split at hj
    · cases hj
    · rename_i hne
      have hpos : j.val ≠ 0 := Fin.val_ne_zero_iff.mpr hne
      have hidx := (List.getElem?_inj hk h.represents.nodup).mp (hget.trans hj.symm)
      rw [Fin.ext_iff]
      show j.val = k + 1
      omega

/-- **Table and queue agree exactly as long as at most seven calls are served.**
The counter is right in any case. The eighth thread finds no free entry, is
created and queued all the same, and is not counted, so the call after it goes
the same way. -/
theorem table_agrees_iff {s₀ : State} {calls : List Call}
    (hrun : Runs.run (createStep threadWrapper) (schedInit s₀) calls = some s) :
    (Runs.Always (createStep threadWrapper) (schedInit s₀) TableAgrees calls ∧
        Runs.StepsMeet (createStep threadWrapper) (schedInit s₀) (RefusesWhenFull threadWrapper)
          calls) ↔
      calls.countP Call.served ≤ 7 := by
  constructor
  · rintro ⟨-, hmeet⟩
    refine Runs.run_invariant (P := fun calls _ =>
      Runs.StepsMeet (createStep threadWrapper) (schedInit s₀)
        (RefusesWhenFull threadWrapper) calls →
        calls.countP Call.served ≤ 7) (fun _ => Nat.zero_le _) ?_ calls s hrun hmeet
    intro calls t c t' ht ih hs hmeet
    have hle := ih (hmeet.of_prefix (List.prefix_append calls [c]))
    rw [List.countP_append, List.countP_singleton]
    by_cases hserved : c.served = true
    · rw [if_pos hserved]
      by_contra hfull
      obtain ⟨q, hfiled, hlen⟩ := run_filed ht
      obtain ⟨p, stack, hblock, hstack⟩ := Call.exists_of_served hserved
      have hfresh := (createStep_eq_some hs).1 p hblock
      -- the table is full, and the call takes a number all the same
      have hnone := hfiled.freeEntry_eq_none_iff.mpr (by omega)
      have hkept := (hmeet calls c t (List.prefix_refl _) ht hnone).nextTid
      rw [(hfiled.create hblock hstack hfresh).2] at hkept
      bv_omega
    · rw [if_neg hserved]
      exact hle
  · intro hle
    constructor
    · intro pre t hpre ht
      obtain ⟨q, hfiled, hlen⟩ := run_filed ht
      have hmono := hpre.sublist.countP_le (p := Call.served)
      exact hfiled.agrees (by omega)
    · intro pre c t hpre ht hnone
      obtain ⟨q, hfiled, hlen⟩ := run_filed ht
      have hfull := hfiled.freeEntry_eq_none_iff.mp hnone
      have hmono := hpre.sublist.countP_le (p := Call.served)
      rw [List.countP_append, List.countP_singleton] at hmono
      have hserved : c.served = false := by
        by_contra hne
        rw [if_pos (Bool.not_eq_false _ ▸ hne)] at hmono
        omega
      rw [Call.create_of_not_served hserved]
      exact ⟨rfl, rfl, rfl, rfl⟩

/-- The statics before boot. -/
def State.bss : State where
  threads := fun _ => none
  currentThread := none
  idleThread := none
  readyQueueHead := none
  readyQueueTail := none
  nextTid := 1
  schedulerTicks := 0
  threadTable := fun _ => none
  threadCount := 0

/-- The `k`-th of a series of calls that are all served. -/
def servedCall (k : Nat) : Call :=
  ⟨0x400000, 0, none, some (BitVec.ofNat 64 (k + 1) * 0x1000), some (BitVec.ofNat 64 k * 0x2000)⟩

/-- The state after `n` such calls. -/
def State.created : Nat → State
  | 0 => schedInit .bss
  | n + 1 => ((servedCall n).create 0x100000 (created n)).2

theorem run_servedCalls {n : Nat} (hn : n ≤ 8) :
    Runs.run (createStep 0x100000) (schedInit .bss) ((List.range n).map servedCall) =
      some (.created n) := by
  have hfresh : ∀ k : Fin 8, (State.created k).threads (BitVec.ofNat 64 (k + 1) * 0x1000) =
      none := by
    decide +kernel
  induction n with
  | zero => rfl
  | succ n ih =>
    rw [List.range_succ, List.map_append, List.map_singleton, Runs.run_concat, ih (by omega),
      Option.bind_some, createStep, step, if_pos]
    · rfl
    · intro p hp
      cases hp
      exact hfresh ⟨n, by omega⟩

theorem table_agrees_two :
    Runs.run (createStep 0x100000) (schedInit .bss) ([0, 1].map servedCall) = some (.created 2) ∧
      Runs.Always (createStep 0x100000) (schedInit .bss) TableAgrees ([0, 1].map servedCall) := by
  have hrun := run_servedCalls (n := 2) (by decide)
  exact ⟨hrun, ((table_agrees_iff hrun).mpr (by decide)).1⟩

/-- The eighth thread has number 8 and is the last in the queue. It has no entry,
and the counter stays at seven. -/
theorem eighth_thread_has_no_entry :
    Runs.run (createStep 0x100000) (schedInit .bss) ((List.range 8).map servedCall) =
        some (.created 8) ∧
      freeEntry (.created 7) = none ∧ ((servedCall 7).create 0x100000 (.created 7)).1 = 8 ∧
      (State.created 8).readyQueueTail = some 0x8000 ∧
      (∀ i, (State.created 8).threadTable i ≠ some 0x8000) ∧
      (State.created 8).threadCount = 7 ∧ (State.created 8).nextTid = 9 ∧
      ¬ TableAgrees (.created 8) ∧ ¬ RefusesWhenFull 0x100000 (.created 7) (servedCall 7) := by
  have hfull : freeEntry (.created 7) = none := by decide +kernel
  have hanswer : ((servedCall 7).create 0x100000 (.created 7)).1 = 8 := by decide +kernel
  have htail : (State.created 8).readyQueueTail = some 0x8000 := by decide +kernel
  have hnone : ∀ i, (State.created 8).threadTable i ≠ some 0x8000 := by decide +kernel
  refine ⟨run_servedCalls (by decide), hfull, hanswer, htail, hnone, by decide +kernel,
    by decide +kernel, fun hagrees => ?_, fun hrefuses => ?_⟩
  · obtain ⟨q, hq, hrecorded⟩ := hagrees.recorded
    have hmem : (0x8000 : U64) ∈ q := List.mem_of_getLast? (hq.tail_eq.symm.trans htail)
    obtain ⟨i, hi, -⟩ := hrecorded _ hmem
    exact hnone i hi
  · have hzero := (hrefuses hfull).answer
    rw [hanswer] at hzero
    exact absurd hzero (by decide)

end Myria.Sched.ReadyQueue
