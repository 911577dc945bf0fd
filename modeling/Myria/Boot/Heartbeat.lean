import Mathlib.Data.List.Chain
import Myria.Lib.LocalApic
import Myria.Lib.Runs
import Myria.Types

/-! The kernel of `kmain.c` once it runs: the timer that `lapic.c` sets up, the interrupts that
count its ticks, and the loop that prints a heartbeat every two seconds. The timer goes on
whatever the processor does, and an interrupt comes between any two rounds of the loop. -/
namespace Myria.Boot.Heartbeat

open LocalApic

/-! ## The functions of `lapic.c`, `timer.c` and `kmain.c` -/

def lapicEoiReg : U32 := 0x0B0

def lapicSpuriousVector : U32 := 0x0F0

def lapicEsr : U32 := 0x280

def lapicTimerLvt : U32 := 0x320

def lapicTimerIcr : U32 := 0x380

def lapicTimerDcr : U32 := 0x3E0

def lapicEnable : U64 := (1 : U64) <<< 11

def lapicTimerPeriodic : U32 := 0x20000

def spuriousVector : U32 := 0xFF

def timerTicksPerMs : U32 := 1000000

/-- What `CPUID` says in `edx` about a local APIC. -/
def hasLapic (edx : U32) : Bool := edx &&& ((1 : U32) <<< 9) ≠ 0

def lapicInit (edx : U32) (a : Apic) : Apic :=
  if !hasLapic edx then a
  else
    let a := { a with baseMsr := a.baseMsr ||| lapicEnable }
    let a := a.write lapicSpuriousVector (spuriousVector ||| (1 : U32) <<< 8)
    let a := a.write lapicEsr 0
    let a := a.write lapicEsr 0
    a.write lapicEoiReg 0

def timerInit (edx : U32) (a : Apic) : Apic :=
  if !hasLapic edx then a
  else
    let a := a.write lapicTimerDcr 0x03
    let a := a.write lapicTimerLvt (32 ||| lapicTimerPeriodic)
    a.write lapicTimerIcr timerTicksPerMs

def lapicEoi (a : Apic) : Apic := a.write lapicEoiReg 0

/-- A line of the loop of `kmain`. -/
structure Beat where
  counter : U64
  currentTime : U64
deriving DecidableEq, Repr

/-- The numbers `kprintf` is given for it. -/
def Beat.args (b : Beat) : List U64 := [b.counter / 1000000, b.currentTime / 1000]

/-- Where the processor is: in the loop, or in `timer_interrupt_handler` before the call of
`timer_tick_handler`, before that of `lapic_eoi`, and before its return. -/
inductive Phase where
  | loop
  | entered
  | ticked
  | acked
deriving DecidableEq, Repr

structure Kernel where
  apic : Apic
  phase : Phase
  systemTickCount : U64
  lastTime : U64
  counter : U64
  /-- What has been printed, the oldest first. -/
  beats : List Beat
deriving DecidableEq, Repr

/-- `kmain` where it enters its loop, with interrupts on. The timer is set up in one step: no
clock of one that the firmware left running comes in between. -/
def kmain (edx : U32) (a : Apic) : Kernel where
  apic := timerInit edx (lapicInit edx a)
  phase := .loop
  systemTickCount := 0
  lastTime := 0
  counter := 0
  beats := []

/-- A round of the loop. -/
def round (s : Kernel) : Kernel :=
  let counter := s.counter + 1
  let currentTime := s.systemTickCount
  if currentTime - s.lastTime ≥ 2000 then
    { s with counter, lastTime := currentTime, beats := s.beats ++ [⟨counter, currentTime⟩] }
  else { s with counter }

inductive Event where
  /-- The timer's clock. -/
  | clock
  /-- The processor accepts the interrupt. -/
  | accept
  | tick
  | eoi
  | iret
  | round
deriving DecidableEq, Repr

def step (s : Kernel) : Event → Option Kernel
  | .clock => some { s with apic := s.apic.clock }
  | .accept =>
    if s.phase = .loop then s.apic.accept.map fun apic => { s with apic, phase := .entered }
    else none
  | .tick =>
    if s.phase = .entered then
      some { s with systemTickCount := s.systemTickCount + 1, phase := .ticked }
    else none
  | .eoi =>
    if s.phase = .ticked then some { s with apic := lapicEoi s.apic, phase := .acked } else none
  | .iret => if s.phase = .acked then some { s with phase := .loop } else none
  | .round => if s.phase = .loop then some (round s) else none

/-! ## The timer -/

/-- The timer has run for `elapsed` clocks, and the processor is in the handler until it has
acknowledged. -/
structure Timed (elapsed : Nat) (s : Kernel) : Prop where
  running : Running 1000000 elapsed s.apic
  serving : s.apic.inService = true ↔ s.phase = .entered ∨ s.phase = .ticked

/-- The ticks that are still on their way to the counter. -/
def Kernel.inFlight (s : Kernel) : Nat :=
  s.apic.requested.toNat + if s.phase = .entered then 1 else 0

/-- How often along the run the timer runs out before its last request was accepted. -/
def merges : Kernel → List Event → Nat
  | _, [] => 0
  | s, op :: ops =>
    (if op = .clock then s.apic.merges.toNat else 0) + ((step s op).map (merges · ops)).getD 0

variable {edx : U32} {a : Apic} {s s' : Kernel} {elapsed : Nat} {op : Event} {ops : List Event}

theorem timed_kmain (hedx : hasLapic edx = true) :
    Timed 0 (kmain edx a) ∧ (kmain edx a).inFlight = a.requested.toNat := by
  have hon : (a.baseMsr ||| lapicEnable).getLsbD 11 = true := by
    rw [BitVec.getLsbD_or, show lapicEnable.getLsbD 11 = true by decide, Bool.or_true]
  have henabled : (spuriousVector ||| (1 : U32) <<< 8).getLsbD 8 = true := by decide
  have hlvt : (32 ||| lapicTimerPeriodic).getLsbD 16 = false ∧
      (32 ||| lapicTimerPeriodic).getLsbD 17 = true := by decide
  have hapic : (kmain edx a).apic =
      { a with
        baseMsr := a.baseMsr ||| lapicEnable
        spuriousVector := spuriousVector ||| (1 : U32) <<< 8
        lvtTimer := 32 ||| lapicTimerPeriodic
        divideConfig := 0x03
        initialCount := timerTicksPerMs
        currentCount := timerTicksPerMs
        inService := false } := by
    simp only [kmain, timerInit, lapicInit, hedx, Bool.not_true, Bool.false_eq_true, if_false,
      Apic.write_of_on, Apic.writeReg_baseMsr, hon]
    rfl
  rw [Kernel.inFlight, hapic]
  refine ⟨⟨?_, ?_⟩, rfl⟩
  · rw [hapic]
    exact ⟨by rw [Apic.enabled, hon, henabled]; rfl, hlvt.1, hlvt.2, rfl, rfl⟩
  · rw [hapic]
    simp [kmain]

theorem lapicEoi_of_enabled (h : a.enabled = true) : lapicEoi a = { a with inService := false } :=
  if_pos (Bool.and_eq_true_iff.mp h).1

/-- A round touches neither the timer nor the handler. -/
theorem round_eq (s : Kernel) : (round s).apic = s.apic ∧ (round s).phase = s.phase ∧
    (round s).systemTickCount = s.systemTickCount := by
  unfold round
  dsimp only
  split <;> exact ⟨rfl, rfl, rfl⟩

/-- One event of the system. A tick is counted, is on its way, or went into the request before
it. -/
theorem Timed.step (h : Timed elapsed s) (hstep : step s op = some s') :
    Timed (elapsed + if op = .clock then 1 else 0) s' ∧
      (if op = .tick then 1 else 0) + s'.inFlight +
        (if op = .clock then s.apic.merges.toNat else 0) +
        elapsed / 1000000 = s.inFlight + (elapsed + if op = .clock then 1 else 0) / 1000000 := by
  cases op with
  | clock =>
    cases hstep
    obtain ⟨hrun, hserv, hcount⟩ := h.running.clock (by decide)
    refine ⟨⟨hrun, by rw [hserv]; exact h.serving⟩, ?_⟩
    simp only [if_true, Kernel.inFlight, reduceCtorEq, if_false]
    omega
  | accept =>
    obtain ⟨hphase, hmap⟩ := Option.ite_none_right_eq_some.mp hstep
    obtain ⟨apic, haccept, rfl⟩ := Option.map_eq_some_iff.mp hmap
    obtain ⟨hrequested, rfl⟩ := Apic.accept_eq_some haccept
    refine ⟨⟨h.running.of_requests _ _, by simp⟩, ?_⟩
    simp only [Kernel.inFlight, hrequested, hphase]
    rfl
  | tick =>
    obtain ⟨hphase, hs⟩ := Option.ite_none_right_eq_some.mp hstep
    cases hs
    refine ⟨⟨h.running, by simp [h.serving, hphase]⟩, ?_⟩
    simp only [Kernel.inFlight, hphase]
    simp
    omega
  | eoi =>
    obtain ⟨hphase, hs⟩ := Option.ite_none_right_eq_some.mp hstep
    cases hs
    rw [lapicEoi_of_enabled h.running.enabled]
    refine ⟨⟨h.running.of_requests _ _, by simp⟩, ?_⟩
    simp [Kernel.inFlight, hphase]
  | iret =>
    obtain ⟨hphase, hs⟩ := Option.ite_none_right_eq_some.mp hstep
    cases hs
    refine ⟨⟨h.running, by simp [h.serving, hphase]⟩, ?_⟩
    simp [Kernel.inFlight, hphase]
  | round =>
    obtain ⟨-, hs⟩ := Option.ite_none_right_eq_some.mp hstep
    cases hs
    obtain ⟨hapic, hphase, -⟩ := round_eq s
    refine ⟨⟨by rw [hapic]; exact h.running, by rw [hapic, hphase]; exact h.serving⟩, ?_⟩
    simp [Kernel.inFlight, hapic, hphase]

theorem Timed.run (h : Timed elapsed s) (hrun : Runs.run Heartbeat.step s ops = some s') :
    Timed (elapsed + ops.count .clock) s' ∧
      ops.count .tick + s'.inFlight + merges s ops + elapsed / 1000000 =
        s.inFlight + (elapsed + ops.count .clock) / 1000000 := by
  induction ops generalizing s elapsed with
  | nil =>
    cases hrun
    exact ⟨h, by simp [merges]⟩
  | cons op ops ih =>
    obtain ⟨s₁, hstep, hrun⟩ := Runs.run_cons_eq_some hrun
    obtain ⟨htimed, hcount⟩ := h.step hstep
    obtain ⟨htimed', hcount'⟩ := ih htimed hrun
    have hclocks : elapsed + (op :: ops).count .clock =
        elapsed + (if op = .clock then 1 else 0) + ops.count .clock := by
      simp only [List.count_cons, beq_iff_eq]
      omega
    have hticks : (op :: ops).count .tick = (if op = .tick then 1 else 0) + ops.count .tick := by
      simp only [List.count_cons, beq_iff_eq]
      omega
    rw [hclocks, hticks, merges, hstep, Option.map_some, Option.getD_some]
    exact ⟨htimed', by omega⟩

/-! ## The loop -/

/-- A line that stands for the start of the loop. -/
def Beat.start : Beat := ⟨0, 0⟩

/-- The loop after `ticks` ticks, with its last line at the tick `last`. -/
structure Paced (ticks last : Nat) (s : Kernel) : Prop where
  count : s.systemTickCount = BitVec.ofNat 64 ticks
  lastTime : s.lastTime = BitVec.ofNat 64 last
  le : last ≤ ticks
  beats : 2000 * s.beats.length ≤ last
  final : ∀ b ∈ (Beat.start :: s.beats).getLast?, b.currentTime = s.lastTime
  spaced : (Beat.start :: s.beats).IsChain fun b c => 2000 ≤ (c.currentTime - b.currentTime).toNat

variable {ticks last : Nat}

theorem paced_kmain : Paced 0 0 (kmain edx a) where
  count := rfl
  lastTime := rfl
  le := Nat.le_refl 0
  beats := Nat.le_refl 0
  final := by
    intro b hb
    cases hb
    rfl
  spaced := List.isChain_singleton _

/-- The events between the rounds and the ticks. -/
theorem step_quiet (hstep : step s op = some s') (htick : op ≠ .tick) (hround : op ≠ .round) :
    s'.systemTickCount = s.systemTickCount ∧ s'.lastTime = s.lastTime ∧ s'.beats = s.beats := by
  cases op with
  | clock =>
    cases hstep
    exact ⟨rfl, rfl, rfl⟩
  | accept =>
    obtain ⟨-, hmap⟩ := Option.ite_none_right_eq_some.mp hstep
    obtain ⟨apic, -, rfl⟩ := Option.map_eq_some_iff.mp hmap
    exact ⟨rfl, rfl, rfl⟩
  | tick => exact absurd rfl htick
  | eoi | iret =>
    obtain ⟨-, hs⟩ := Option.ite_none_right_eq_some.mp hstep
    cases hs
    exact ⟨rfl, rfl, rfl⟩
  | round => exact absurd rfl hround

theorem Paced.round (h : Paced ticks last s) : ∃ last', Paced ticks last' (round s) := by
  unfold Heartbeat.round
  dsimp only
  split
  · rename_i hdue
    have hlow : 2000 ≤ (s.systemTickCount - s.lastTime).toNat := hdue
    have hgap : last + 2000 ≤ ticks := by
      have hle := h.le
      have hcount := h.count
      have hlast := h.lastTime
      rw [hcount, hlast] at hlow
      bv_omega
    refine ⟨ticks, h.count, h.count, Nat.le_refl _, ?_, ?_, ?_⟩
    · have hbeats := h.beats
      rw [List.length_append, List.length_singleton]
      omega
    · intro b hb
      rw [← List.cons_append, List.getLast?_concat] at hb
      cases hb
      rfl
    · rw [← List.cons_append, List.isChain_append]
      refine ⟨h.spaced, List.isChain_singleton _, ?_⟩
      intro b hb c hc
      cases hc
      rw [h.final b hb]
      exact hlow
  · exact ⟨last, h.count, h.lastTime, h.le, h.beats, h.final, h.spaced⟩

theorem Paced.step (h : Paced ticks last s) (hstep : step s op = some s') :
    ∃ last', Paced (ticks + if op = .tick then 1 else 0) last' s' := by
  by_cases htick : op = .tick
  · subst htick
    obtain ⟨-, hs⟩ := Option.ite_none_right_eq_some.mp hstep
    cases hs
    refine ⟨last, ?_, h.lastTime, Nat.le_succ_of_le h.le, h.beats, h.final, h.spaced⟩
    change s.systemTickCount + 1 = BitVec.ofNat 64 (ticks + 1)
    rw [h.count, BitVec.ofNat_add]
    rfl
  · rw [if_neg htick, Nat.add_zero]
    by_cases hround : op = .round
    · subst hround
      obtain ⟨-, hs⟩ := Option.ite_none_right_eq_some.mp hstep
      cases hs
      exact h.round
    · obtain ⟨hcount, hlast, hbeats⟩ := step_quiet hstep htick hround
      refine ⟨last, ?_, ?_, h.le, ?_, ?_, ?_⟩
      · rw [hcount, h.count]
      · rw [hlast, h.lastTime]
      · rw [hbeats]
        exact h.beats
      · rw [hbeats, hlast]
        exact h.final
      · rw [hbeats]
        exact h.spaced

theorem Paced.run (h : Paced ticks last s) (hrun : Runs.run Heartbeat.step s ops = some s') :
    ∃ last', Paced (ticks + ops.count .tick) last' s' := by
  refine Runs.run_invariant (P := fun ops t => ∃ last', Paced (ticks + ops.count .tick) last' t)
    ⟨last, h⟩ ?_ ops s' hrun
  rintro ops t op t' - ⟨last', ht⟩ hstep
  obtain ⟨last'', ht'⟩ := ht.step hstep
  refine ⟨last'', ?_⟩
  rw [List.count_append, List.count_singleton, ← Nat.add_assoc]
  simpa using ht'

/-- The ticks since the last line. -/
def Kernel.silence (s : Kernel) : Nat := (s.systemTickCount - s.lastTime).toNat

theorem round_silence (s : Kernel) : (round s).silence < 2000 ∧ (round s).silence ≤ s.silence := by
  unfold Kernel.silence round
  dsimp only
  split
  · rw [BitVec.sub_self]
    exact ⟨by decide, Nat.zero_le _⟩
  · rename_i hearly
    exact ⟨not_le.mp hearly, Nat.le_refl _⟩

theorem step_silence (hstep : step s op = some s') (hwrap : s.silence + 1 < 2 ^ 64) :
    s'.silence ≤ s.silence + if op = .tick then 1 else 0 := by
  by_cases htick : op = .tick
  · subst htick
    obtain ⟨-, hs⟩ := Option.ite_none_right_eq_some.mp hstep
    cases hs
    unfold Kernel.silence at hwrap ⊢
    change (s.systemTickCount + 1 - s.lastTime).toNat ≤ _ + 1
    bv_omega
  · by_cases hround : op = .round
    · subst hround
      obtain ⟨-, hs⟩ := Option.ite_none_right_eq_some.mp hstep
      cases hs
      exact (round_silence s).2
    · obtain ⟨hcount, hlast, -⟩ := step_quiet hstep htick hround
      rw [Kernel.silence, hcount, hlast, if_neg htick]
      exact Nat.le_refl _

theorem run_silence (hrun : Runs.run step s ops = some s')
    (hwrap : s.silence + ops.count .tick + 1 < 2 ^ 64) :
    s'.silence ≤ s.silence + ops.count .tick := by
  induction ops generalizing s with
  | nil =>
    cases hrun
    exact Nat.le_refl _
  | cons op ops ih =>
    have hticks : (op :: ops).count .tick = (if op = .tick then 1 else 0) + ops.count .tick := by
      rw [List.count_cons, Nat.add_comm]
      simp only [beq_iff_eq]
    rw [hticks] at hwrap ⊢
    obtain ⟨s₁, hstep, hrun⟩ := Runs.run_cons_eq_some hrun
    have hone := step_silence hstep (by omega)
    have hrest := ih hrun (by omega)
    omega

/-! ## The system -/

/-- **Every tick is counted once.** Whenever the processor takes its interrupts: of the times the
timer has run out, each has been counted in `system_tick_count`, is about to be, or came while
the request before it was still up. A request that is up in the loop can always be accepted, so
the handler never leaves the timer cut off. -/
theorem timer_ticks_exact (hedx : hasLapic edx = true)
    (hrun : Runs.run step (kmain edx a) ops = some s) :
    s.systemTickCount = BitVec.ofNat 64 (ops.count .tick) ∧
    ops.count .tick + s.inFlight + merges (kmain edx a) ops =
      ops.count .clock / 1000000 + a.requested.toNat ∧
    (s.phase = .loop → s.apic.requested = true → (step s .accept).isSome) := by
  obtain ⟨hstart, hinit⟩ := timed_kmain (a := a) hedx
  obtain ⟨htimed, hcount⟩ := hstart.run hrun
  obtain ⟨last, hpaced⟩ := paced_kmain.run hrun
  refine ⟨?_, ?_, ?_⟩
  · rw [hpaced.count, Nat.zero_add]
  · rw [hinit, Nat.zero_add] at hcount
    omega
  · intro hphase hrequested
    have hfree : s.apic.inService = false := by
      have hserving := htimed.serving
      rw [hphase] at hserving
      simpa using hserving
    rw [step, if_pos hphase, Apic.accept, htimed.running.enabled, hrequested, hfree]
    rfl

/-- A local APIC as the firmware may leave it, with a request of its timer still up. -/
def firmwareApic : Apic where
  baseMsr := 0xFEE00100
  spuriousVector := 0xFF
  lvtTimer := 0x10020
  divideConfig := 0
  initialCount := 0
  currentCount := 0
  requested := true
  inService := false

/-- An interrupt from beginning to end, and a round of the loop after it. -/
def servedOnce : List Event := [.clock, .accept, .tick, .eoi, .iret, .round]

theorem firmwareApic_tick : ∃ s, Runs.run step (kmain 0x200 firmwareApic) servedOnce = some s ∧
    s.systemTickCount = 1 ∧ 1 + s.inFlight + merges (kmain 0x200 firmwareApic) servedOnce = 1 := by
  obtain ⟨s, hrun⟩ : ∃ s, Runs.run step (kmain 0x200 firmwareApic) servedOnce = some s :=
    Option.isSome_iff_exists.mp (by decide)
  obtain ⟨hticks, hcount, -⟩ := timer_ticks_exact (by decide) hrun
  exact ⟨s, hrun, hticks, hcount⟩

/-- **The heartbeat keeps its pace.** However rounds, ticks and interrupts come together: any two
lines are at least 2000 ticks apart, and so is the first from the start; there is at most one
for 2000 times the timer has run out. And the loop is never late by more than the ticks since
its last round. -/
theorem heartbeat_paced (hedx : hasLapic edx = true)
    (hrun : Runs.run step (kmain edx a) ops = some s) :
    (Beat.start :: s.beats).IsChain (fun b c => 2000 ≤ (c.currentTime - b.currentTime).toNat) ∧
    2000 * s.beats.length ≤ ops.count .clock / 1000000 + a.requested.toNat ∧
    ∀ pre post, ops = pre ++ .round :: post → post.count .tick + 2001 ≤ 2 ^ 64 →
      s.silence < 2000 + post.count .tick := by
  obtain ⟨hstart, hinit⟩ := timed_kmain (a := a) hedx
  obtain ⟨-, hcount⟩ := hstart.run hrun
  obtain ⟨last, hpaced⟩ := paced_kmain.run hrun
  refine ⟨hpaced.spaced, ?_, ?_⟩
  · have hle := hpaced.le
    have hbeats := hpaced.beats
    rw [hinit, Nat.zero_add] at hcount
    omega
  · rintro pre post rfl hwrap
    rw [Runs.run_append, Option.bind_eq_some_iff] at hrun
    obtain ⟨t, -, hrest⟩ := hrun
    obtain ⟨t', hstep, hrest⟩ := Runs.run_cons_eq_some hrest
    have hprompt : t'.silence < 2000 := by
      obtain ⟨-, hs⟩ := Option.ite_none_right_eq_some.mp hstep
      cases hs
      exact (round_silence t).1
    have hlate := run_silence hrest (by omega)
    omega

theorem firmwareApic_heartbeat :
    ∃ s, Runs.run step (kmain 0x200 firmwareApic) servedOnce = some s ∧
      2000 * s.beats.length ≤ 1 ∧ s.silence < 2000 := by
  obtain ⟨s, hrun⟩ : ∃ s, Runs.run step (kmain 0x200 firmwareApic) servedOnce = some s :=
    Option.isSome_iff_exists.mp (by decide)
  obtain ⟨-, hbeats, hlate⟩ := heartbeat_paced (by decide) hrun
  exact ⟨s, hrun, hbeats, hlate [.clock, .accept, .tick, .eoi, .iret] [] rfl (by decide)⟩

end Myria.Boot.Heartbeat
