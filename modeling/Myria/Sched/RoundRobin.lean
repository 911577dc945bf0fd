import Mathlib.Logic.Function.Iterate
import Myria.Lib.CyclicOrder
import Myria.Sched.WorkConserving

/-! Turns. The threads that compete for the CPU are the current one and the READY
ones. A yield does not change that set; it passes the CPU on to the next member
in cyclic slot order, so after `n` yields the CPU is `n` places further. New
threads only join the set, and none of them can push a waiting thread back. -/
namespace Myria.Sched

open Mm CyclicOrder

variable {threadWrapper : U64} {s t : SchedState} {op : SchedOp} {ops : List SchedOp} {c d : Slot}

/-- The thread in slot `c` has the CPU of a scheduler that is on. -/
structure HasCpu (s : SchedState) (c : Slot) : Prop where
  enabled : s.enabled = true
  current : s.current = some c
  tid : (s.threadTable c).tid ≠ 0#32
  running : (s.threadTable c).state = .running
  active : s.activeThreadCount ≠ 0#32

/-- The slots that take turns while `c` has the CPU. -/
def SchedState.InTurn (s : SchedState) (c i : Slot) : Prop := (s.threadTable i).Runnable ∨ i = c

instance (s : SchedState) (c : Slot) : DecidablePred (s.InTurn c) :=
  fun _ => inferInstanceAs (Decidable (_ ∨ _))

/-- Those slots in cyclic slot order, the current one first. -/
def SchedState.rotation (s : SchedState) (c : Slot) : List Slot := members (s.InTurn c) c

theorem SlotsLive.hasCpu (h : SlotsLive s) (hc : s.current = some c) : HasCpu s c := by
  obtain ⟨htid, hrun⟩ := h.current c hc
  refine ⟨?_, hc, htid, hrun, h.active_ne_zero htid⟩
  by_contra hen
  rw [h.idle (by simpa using hen)] at hc
  cases hc

theorem HasCpu.not_runnable (h : HasCpu s c) : ¬ (s.threadTable c).Runnable := by
  rintro ⟨-, hready⟩
  rw [h.running] at hready
  cases hready

theorem HasCpu.findNextThread_eq (h : HasCpu s c) :
    findNextThread s = (startingAt (c + 1)).find? fun i => (s.threadTable i).Runnable := by
  rw [findNextThread, if_neg h.active, h.current]
  rfl

/-! ## One yield -/

theorem HasCpu.schedYield_of_none (h : HasCpu s c) (hnext : findNextThread s = none) :
    schedYield s = s := by
  simp only [schedYield, h.current, hnext, ite_self]

theorem HasCpu.schedYield_of_some (h : HasCpu s c) (hnext : findNextThread s = some d) :
    d ≠ c ∧ schedYield s = s.switchTo c d := by
  have hne : d ≠ c := by
    rintro rfl
    exact h.not_runnable (findNextThread_runnable hnext)
  refine ⟨hne, ?_⟩
  simp only [schedYield, h.enabled, h.current, hnext, if_neg hne]
  rfl

theorem HasCpu.switchTo (h : HasCpu s c) (hd : (s.threadTable d).Runnable) (hne : d ≠ c) :
    HasCpu (s.switchTo c d) d := by
  refine ⟨h.enabled, rfl, ?_, ?_, h.active⟩
  · rw [switchTo_tid]
    exact hd.1
  · rw [switchTo_threadTable, if_neg hne, if_pos rfl]

/-- A switch exchanges the current thread with a READY one. -/
theorem HasCpu.inTurn_switchTo (h : HasCpu s c) (hd : (s.threadTable d).Runnable)
    (i : Slot) : (s.switchTo c d).InTurn d i ↔ s.InTurn c i := by
  simp only [SchedState.InTurn, Thread.Runnable, switchTo_tid]
  by_cases hic : i = c
  · simp [switchTo_threadTable, hic, h.tid]
  · by_cases hid : i = d
    · rw [hid]
      exact iff_of_true (.inr rfl) (.inl hd)
    · simp [switchTo_threadTable, hic, hid]

/-- What a yield does with the CPU: it goes to the next slot in turn, the turn
order moves on by one place, and every waiting thread is closer. -/
theorem HasCpu.schedYield (h : HasCpu s c) :
    ∃ d, HasCpu (schedYield s) d ∧
      (schedYield s = s ∧ d = c ∨
        schedYield s = s.switchTo c d ∧ d ≠ c ∧ (s.threadTable d).Runnable) ∧
      (∀ i, (schedYield s).InTurn d i ↔ s.InTurn c i) ∧
      (schedYield s).rotation d = (s.rotation c).rotate 1 ∧
      ∀ i, (s.threadTable i).Runnable → distance d i < distance c i := by
  have hsearch := h.findNextThread_eq
  have hself : decide (s.threadTable c).Runnable = false := by simpa using h.not_runnable
  have hturn : ∀ i, s.InTurn c i ↔ decide (s.threadTable i).Runnable = true ∨ i = c := by
    intro i
    rw [SchedState.InTurn, decide_eq_true_iff]
  cases hnext : findNextThread s with
  | none =>
    rw [hnext] at hsearch
    rw [h.schedYield_of_none hnext]
    refine ⟨c, h, .inl ⟨rfl, rfl⟩, fun _ => Iff.rfl, ?_, fun i hi => ?_⟩
    · rw [SchedState.rotation, members_of_search_none hturn hsearch.symm, List.rotate_singleton]
    · have hnone := List.find?_eq_none.mp hsearch.symm i (mem_startingAt _ i)
      exact absurd (by simpa using hi) hnone
  | some d =>
    rw [hnext] at hsearch
    obtain ⟨hne, heq⟩ := h.schedYield_of_some hnext
    have hd := findNextThread_runnable hnext
    have hhop : Next (s.InTurn c) c d := next_of_search hturn hself hsearch.symm
    rw [heq]
    refine ⟨d, h.switchTo hd hne, .inr ⟨rfl, hne, hd⟩, h.inTurn_switchTo hd, ?_,
      fun i hi => ?_⟩
    · rw [SchedState.rotation, members_congr (h.inTurn_switchTo hd),
        hhop.members_rotate (.inr rfl)]
      rfl
    · refine hhop.distance_lt (.inl hi) ?_
      rintro rfl
      exact h.not_runnable hi

/-! ## Many yields -/

/-- The state after the CPU has gone from `c` to `d`. -/
def SchedState.movedTo (s : SchedState) (c d : Slot) : SchedState :=
  if d = c then s else s.switchTo c d

theorem Thread.setState_self {t : Thread} {state : ThreadState} (h : t.state = state) :
    { t with state } = t := by
  rw [← h]

theorem switchTo_threadTable_of_ne (s : SchedState) {old next : Slot} (hne : next ≠ old)
    (i : Slot) : (s.switchTo old next).threadTable i =
      if i = old then { s.threadTable old with state := .ready }
      else if i = next then { s.threadTable next with state := .running }
      else s.threadTable i := by
  rw [switchTo_threadTable, if_neg (Ne.symm hne)]

/-- Two switches in a row are one: the slot in between is READY again. -/
theorem HasCpu.movedTo_switchTo (h : HasCpu s c) {d e : Slot} (hd : s.InTurn c d)
    (he : s.InTurn c e) (hne : e ≠ d) : (s.movedTo c d).switchTo d e = s.movedTo c e := by
  by_cases hdc : d = c
  · subst hdc
    rw [SchedState.movedTo, SchedState.movedTo, if_pos rfl, if_neg hne]
  have hready : (s.threadTable d).state = .ready := (hd.resolve_right hdc).2
  rw [SchedState.movedTo, SchedState.movedTo, if_neg hdc]
  split
  · -- back at `c`, which was RUNNING
    rename_i hec
    subst hec
    have htable : ((s.switchTo e d).switchTo d e).threadTable = s.threadTable := by
      funext i
      simp only [switchTo_threadTable_of_ne _ hne, switchTo_threadTable_of_ne _ hdc, if_neg hdc,
        if_true, Thread.setState_self hready]
      by_cases hid : i = d
      · rw [if_pos hid, hid]
      · by_cases hie : i = e
        · rw [if_neg hid, if_pos hie, hie, Thread.setState_self h.running]
        · rw [if_neg hid, if_neg hie, if_neg hie, if_neg hid]
    calc (s.switchTo e d).switchTo d e
        = { s with
            current := some e
            threadTable := ((s.switchTo e d).switchTo d e).threadTable } := rfl
      _ = s := by rw [htable, ← h.current]
  · rename_i hec
    have htable : ((s.switchTo c d).switchTo d e).threadTable = (s.switchTo c e).threadTable := by
      funext i
      simp only [switchTo_threadTable_of_ne _ hne, switchTo_threadTable_of_ne _ hdc,
        switchTo_threadTable_of_ne _ hec, if_neg hdc, if_neg hec, if_neg hne, if_true,
        Thread.setState_self hready]
      by_cases hid : i = d
      · rw [if_pos hid, hid, if_neg hdc, if_neg (Ne.symm hne)]
      · by_cases hie : i = e
        · rw [if_neg hid, if_pos hie, hie, if_neg hec, if_pos rfl]
        · rw [if_neg hid, if_neg hie, if_neg hid, if_neg hie]
    calc (s.switchTo c d).switchTo d e
        = { s with
            current := some e
            threadTable := ((s.switchTo c d).switchTo d e).threadTable } := rfl
      _ = { s with current := some e, threadTable := (s.switchTo c e).threadTable } := by
          rw [htable]

theorem HasCpu.iterate (h : HasCpu s c) (n : ℕ) :
    ∃ d, HasCpu (Sched.schedYield^[n] s) d ∧ Sched.schedYield^[n] s = s.movedTo c d ∧
      (∀ i, (Sched.schedYield^[n] s).InTurn d i ↔ s.InTurn c i) ∧
      (Sched.schedYield^[n] s).rotation d = (s.rotation c).rotate n := by
  induction n with
  | zero =>
    exact ⟨c, h, by simp [SchedState.movedTo], fun _ => Iff.rfl, by simp⟩
  | succ n ih =>
    obtain ⟨d, hd, hmoved, hturn, hrot⟩ := ih
    obtain ⟨e, he, hcase, hturn', hrot', -⟩ := hd.schedYield
    rw [Function.iterate_succ_apply']
    refine ⟨e, he, ?_, fun i => (hturn' i).trans (hturn i), ?_⟩
    · rcases hcase with ⟨heq, rfl⟩ | ⟨heq, hne, hready⟩
      · rw [heq, hmoved]
      · rw [heq, hmoved]
        exact h.movedTo_switchTo ((hturn d).mp (.inr rfl)) ((hturn e).mp (.inl hready)) hne
    · rw [hrot', hrot, List.rotate_rotate]

theorem HasCpu.length_rotation (h : HasCpu s c) :
    (s.rotation c).length = (Finset.univ.filter fun i => (s.threadTable i).Runnable).card + 1 := by
  have hself : c ∉ Finset.univ.filter fun i => (s.threadTable i).Runnable := by
    simpa using h.not_runnable
  have hset : (s.rotation c).toFinset =
      insert c (Finset.univ.filter fun i => (s.threadTable i).Runnable) := by
    ext i
    simp [SchedState.rotation, mem_members, SchedState.InTurn, or_comm]
  rw [← Finset.card_insert_of_notMem hself, ← hset]
  exact (List.toFinset_card_of_nodup (nodup_members _ _)).symm

/-- The thread that has the CPU after `n` yields. -/
theorem HasCpu.current_iterate (h : HasCpu s c) (n : ℕ) :
    (Sched.schedYield^[n] s).current = (s.rotation c)[n % (s.rotation c).length]? := by
  obtain ⟨d, hd, -, -, hrot⟩ := h.iterate n
  have hpos : 0 < (s.rotation c).length := by
    rw [h.length_rotation]
    omega
  have hhead : ((Sched.schedYield^[n] s).rotation d)[0]? = some d :=
    head_members (.inr rfl)
  rw [hrot, List.getElem?_rotate hpos, Nat.zero_add] at hhead
  rw [hd.current, hhead]

/-- The CPU is back where it started after a whole number of rounds. -/
theorem HasCpu.returns_iff (h : HasCpu s c) (n : ℕ) :
    (Sched.schedYield^[n] s).current = some c ↔ (s.rotation c).length ∣ n := by
  have hpos : 0 < (s.rotation c).length := by
    rw [h.length_rotation]
    omega
  have hhead : (s.rotation c)[0]? = some c := head_members (.inr rfl)
  rw [h.current_iterate, ← hhead, List.getElem?_inj (Nat.mod_lt n hpos) (nodup_members _ _)]
  exact (Nat.dvd_iff_mod_eq_zero).symm

/-- In any window of as many yields as there are threads in turn, each of them
gets the CPU once. -/
theorem HasCpu.window_perm (h : HasCpu s c) (m : ℕ) :
    ((List.range (s.rotation c).length).map fun j =>
      (Sched.schedYield^[m + j] s).current).Perm ((s.rotation c).map some) := by
  have hturned : ((List.range (s.rotation c).length).map fun j =>
      (Sched.schedYield^[m + j] s).current) = ((s.rotation c).rotate m).map some := by
    apply List.ext_getElem
    · simp
    · intro j hj hj'
      have hlt : j < (s.rotation c).length := by simpa using hj
      rw [List.getElem_map, List.getElem_map, List.getElem_range, h.current_iterate,
        List.getElem_rotate, Nat.add_comm, List.getElem?_eq_getElem]
  rw [hturned]
  exact (List.rotate_perm _ m).map some

/-! ## Waiting -/

/-- The number of calls of `sched_yield` in a run, direct or from a tick. -/
def executedYields (threadWrapper : U64) : SchedState → List SchedOp → ℕ
  | _, [] => 0
  | s, op :: ops =>
    (if (yieldCall s op).isSome then 1 else 0) +
      match schedStep threadWrapper s op with
      | some t => executedYields threadWrapper t ops
      | none => 0

theorem executedYields_cons (hs : schedStep threadWrapper s op = some t) (ops : List SchedOp) :
    executedYields threadWrapper s (op :: ops) =
      (if (yieldCall s op).isSome then 1 else 0) + executedYields threadWrapper t ops := by
  rw [executedYields, hs]

/-- One call seen by the waiting thread in slot `w`: it still waits or has the
CPU, and every executed yield brings it closer. -/
structure Closer (threadWrapper : U64) (s : SchedState) (op : SchedOp) (c w : Slot)
    (t : SchedState) (d : Slot) : Prop where
  step : schedStep threadWrapper s op = some t
  current : t.current = some d
  waits : w = d ∨ (t.threadTable w).Runnable
  distance : distance d w + (if (yieldCall s op).isSome then 1 else 0) ≤ distance c w

/-- A yield is seen as a step closer. -/
theorem HasCpu.yield_closer (h : HasCpu s c) {w : Slot} (hw : (s.threadTable w).Runnable) :
    ∃ d, (Sched.schedYield s).current = some d ∧
      (w = d ∨ ((Sched.schedYield s).threadTable w).Runnable) ∧
        distance d w + 1 ≤ distance c w := by
  obtain ⟨d, hd, -, hturn, -, hcloser⟩ := h.schedYield
  exact ⟨d, hd.current, ((hturn w).mpr (.inl hw)).symm, hcloser w hw⟩

theorem create_closer (hc : s.current = some c) {w : Slot}
    (hw : (s.threadTable w).Runnable) (entryPoint arg : U64) (name : Option (List (BitVec 8))) :
    ∃ t, Closer threadWrapper s (.threadCreate entryPoint arg name) c w t c := by
  refine ⟨_, rfl, (threadCreate_current ..).trans hc, .inr ?_, Nat.le_refl _⟩
  rcases threadCreate_cases threadWrapper s entryPoint arg name with
    ⟨-, heap, heq⟩ | ⟨slot, stackBase, heap, -, hfree, -, heq⟩
  · rw [heq]
    exact hw
  · have hne : w ≠ slot := by
      rintro rfl
      exact hw.1 hfree
    simpa [heq, hne] using hw

theorem SlotsLive.tick_closer (h : SlotsLive s) (hc : s.current = some c) {w : Slot}
    (hw : (s.threadTable w).Runnable) :
    ∃ t d, Closer threadWrapper s .schedTick c w t d := by
  have hen := (h.hasCpu hc).enabled
  have hcall : yieldCall s .schedTick = tickYields s := if_pos hen
  have heq := h.schedTick_eq hen
  rcases tickCurrent_cases s with ⟨hnone, hsame⟩ | ⟨u, hu, hsame, hyield⟩
  · refine ⟨_, c, rfl, ?_, .inr ?_, ?_⟩
    · rw [heq, hsame.current, hc]
    · rw [heq]
      exact (hsame.runnable w).mpr hw
    · rw [hcall, hnone]
      exact Nat.le_refl _
  · -- the slice is used up: the tick yields from a state with the same threads
    have hcpu : HasCpu u c :=
      (slotsLive_switchStable.same hsame h).hasCpu (hsame.current.trans hc)
    obtain ⟨d, hd, hwaits, hdist⟩ := hcpu.yield_closer ((hsame.runnable w).mpr hw)
    rw [← hyield, ← heq] at hd hwaits
    refine ⟨_, d, rfl, hd, hwaits, ?_⟩
    rw [hcall, hu]
    exact hdist

theorem SlotsLive.closer (h : SlotsLive s) (hc : s.current = some c) {w : Slot}
    (hw : (s.threadTable w).Runnable) (hinit : op ≠ .schedInit) (hstart : op ≠ .schedStart)
    (hexit : op ≠ .threadExit) : ∃ t d, Closer threadWrapper s op c w t d := by
  cases op with
  | schedInit => exact absurd rfl hinit
  | threadCreate entryPoint arg name =>
    obtain ⟨t, ht⟩ := create_closer hc hw entryPoint arg name
    exact ⟨t, c, ht⟩
  | schedStart => exact absurd rfl hstart
  | schedYield =>
    obtain ⟨d, hd, hwaits, hdist⟩ := (h.hasCpu hc).yield_closer hw
    exact ⟨_, d, rfl, hd, hwaits, hdist⟩
  | schedTick => exact h.tick_closer hc hw
  | threadExit => exact absurd rfl hexit

/-- A waiting thread has the CPU after at most as many yields as it is places
away. -/
theorem NoneFinished.waits_at_most (h : NoneFinished s) (hc : s.current = some c) {w : Slot}
    (hw : (s.threadTable w).Runnable) (hinit : .schedInit ∉ ops) (hstart : .schedStart ∉ ops)
    (hexit : .threadExit ∉ ops) (hyields : distance c w ≤ executedYields threadWrapper s ops) :
    ∃ pre u, pre <+: ops ∧ Runs.run (schedStep threadWrapper) s pre = some u ∧
      executedYields threadWrapper s pre ≤ distance c w ∧ u.current = some w := by
  have hne : w ≠ c := by
    rintro rfl
    exact (h.hasCpu hc).not_runnable hw
  induction ops generalizing s c with
  | nil =>
    have hpos := distance_pos hne
    rw [executedYields] at hyields
    omega
  | cons op ops ih =>
    rw [List.mem_cons, not_or] at hinit hstart hexit
    have hcloser : ∃ t d, Closer threadWrapper s op c w t d :=
      h.toSlotsLive.closer hc hw (Ne.symm hinit.1) (Ne.symm hstart.1) (Ne.symm hexit.1)
    obtain ⟨t, d, hs, hd, hwaits, hdist⟩ := hcloser
    have hcons := executedYields_cons hs
    by_cases hwd : w = d
    · refine ⟨[op], t, by simp, ?_, ?_, by rw [hd, hwd]⟩
      · rw [Runs.run_cons_of_step hs, Runs.run_nil]
      · rw [hcons, executedYields]
        omega
    · have hw' := hwaits.resolve_left hwd
      rw [hcons] at hyields
      obtain ⟨pre, u, hpre, hrun, hle, hu⟩ := ih (h.step hs (Ne.symm hexit.1)) hd hw' hinit.2
        hstart.2 hexit.2 (by omega) hwd
      refine ⟨op :: pre, u, List.cons_prefix_cons.mpr ⟨rfl, hpre⟩, ?_, ?_, hu⟩
      · rw [Runs.run_cons_of_step hs, hrun]
      · rw [hcons]
        omega

/-- **Round robin.** In every state with a current thread that is reached without
a termination: a READY thread has the CPU at the latest with the seventh yield
that is executed, whatever threads are created and ticks arrive in between; and
under yields alone the CPU goes through the current and the READY threads in
cyclic slot order, each once in every `k + 1` yields. -/
theorem round_robin {s₀ : SchedState} (hexit : .threadExit ∉ ops)
    (hrun : Runs.run (schedStep threadWrapper) (schedInit s₀) ops = some s)
    (hc : s.current = some c) :
    (∀ w, (s.threadTable w).Runnable → ∀ more, .schedInit ∉ more → .schedStart ∉ more →
      .threadExit ∉ more → 7 ≤ executedYields threadWrapper s more →
      ∃ pre u, pre <+: more ∧ Runs.run (schedStep threadWrapper) s pre = some u ∧
        executedYields threadWrapper s pre ≤ 7 ∧ u.current = some w) ∧
    ∀ k, (Finset.univ.filter fun i => (s.threadTable i).Runnable).card = k →
      (s.rotation c).Nodup ∧ (∀ i, i ∈ s.rotation c ↔ (s.threadTable i).Runnable ∨ i = c) ∧
      (∀ n, (schedYield^[n] s).current = (s.rotation c)[n % (k + 1)]?) ∧
      ∀ m, ((List.range (k + 1)).map fun j => (schedYield^[m + j] s).current).Perm
        ((s.rotation c).map some) := by
  have hlive := run_noneFinished hexit hrun
  have hcpu := hlive.hasCpu hc
  refine ⟨fun w hw more hinit hstart hexit' hyields => ?_, ?_⟩
  · have hlt := distance_lt c w
    obtain ⟨pre, u, hpre, hu, hle, hw'⟩ := hlive.waits_at_most hc hw hinit hstart hexit'
      (Nat.le_trans (Nat.le_of_lt_succ hlt) hyields)
    exact ⟨pre, u, hpre, hu, Nat.le_trans hle (Nat.le_of_lt_succ hlt), hw'⟩
  · rintro k rfl
    rw [← hcpu.length_rotation]
    exact ⟨nodup_members _ _, fun i => mem_members, hcpu.current_iterate, hcpu.window_perm⟩

/-- Three threads, two of them waiting: slot 2 has the CPU after two yields and
again after five. -/
theorem round_robin_three_threads :
    ∃ s, Runs.run (schedStep 0x100000) (schedInit .bss)
        [.threadCreate 0x1000 0 none, .threadCreate 0x2000 0 none, .threadCreate 0x3000 0 none,
          .schedStart] = some s ∧ s.current = some 0 ∧ s.rotation 0 = [0, 1, 2] ∧
      (schedYield^[2] s).current = some 2 ∧ (schedYield^[5] s).current = some 2 := by
  have hrun : Runs.run (schedStep 0x100000) (schedInit .bss)
      [.threadCreate 0x1000 0 none, .threadCreate 0x2000 0 none, .threadCreate 0x3000 0 none,
        .schedStart] = some _ := rfl
  obtain ⟨-, -, hturns, -⟩ := (round_robin (by decide) hrun rfl).2 2 (by decide)
  exact ⟨_, hrun, rfl, by decide, (hturns 2).trans (by decide), (hturns 5).trans (by decide)⟩

end Myria.Sched
