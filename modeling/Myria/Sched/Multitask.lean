import Myria.Arch.ContextSwitch
import Myria.Lib.X86Frame
import Myria.Sched.ReadyWait

/-! The scheduler of `thread.c` on one processor. `sched_yield` moves `current_thread` and
calls `context_switch`, which keeps the registers of all other threads in the memory of
their blocks. Seen from the threads this is a machine in which each has registers of
its own, up to what the switch does to them. -/
namespace Myria.Sched.ReadyQueue

open X86 ByteMem Arch

/-! ## The threads' own registers -/

/-- What a thread has of the processor. -/
structure RegFile where
  reg : Reg → U64
  rip : U64
  rflags : U64

def CpuContext.file (ctx : CpuContext) : RegFile := ⟨ctx.reg, ctx.rip, ctx.rflags⟩

/-- The machine in which every thread that does not run keeps its registers. -/
structure Tasks where
  sched : State
  saved : U64 → Option RegFile
  running : RegFile
  /-- the word at the stack pointer, the return address when `context_switch` is entered -/
  top : U64

/-- The registers a thread is switched out with: it goes on at its return address. -/
def RegFile.switchedOut (f : RegFile) (top : U64) : RegFile :=
  { f with rip := top, rflags := f.rflags &&& pushfMask }

/-- A thread that was switched out with `f` goes on with `g`. The return address is still on
its stack, and the scratch register of the switch has the value of `rsi`. -/
structure RegFile.Resumes (f g : RegFile) : Prop where
  rip : g.rip = f.rip
  rflags : g.rflags &&& popfMask = f.rflags &&& popfMask
  scratch : g.reg .r11 = f.reg .rsi
  reg : ∀ r, r ≠ .r11 → g.reg r = f.reg r

/-- The registers kept for the others, when `s` became `s'`: new threads come with those
that `thread_create` gave them. -/
def keptFiles (s s' : State) (saved : U64 → Option RegFile) (t : U64) : Option RegFile :=
  if s.threads t = none then (s'.threads t).map fun n => n.context.file else saved t

/-- What the current thread does: it computes, or it comes to the scheduler. -/
inductive Action where
  | computes
  | calls (op : Op)

/-- A thread that goes on may change its registers and its stack in any way. -/
inductive TaskStep : Tasks → Action → Tasks → Prop
  | computes {s : State} {saved : U64 → Option RegFile} {f g : RegFile} {top top' : U64} :
    TaskStep ⟨s, saved, f, top⟩ .computes ⟨s, saved, g, top'⟩
  | stays {s s' : State} {saved : U64 → Option RegFile} {f g : RegFile} {top top' : U64} {op : Op} :
    step s op = some s' → s'.currentThread = s.currentThread →
    TaskStep ⟨s, saved, f, top⟩ (.calls op) ⟨s', keptFiles s s' saved, g, top'⟩
  | switches {s s' : State} {saved : U64 → Option RegFile} {f f' g : RegFile} {top top' : U64}
    {op : Op} {old new : U64} :
    step s op = some s' → s.currentThread = some old → s'.currentThread = some new → new ≠ old →
    saved new = some f' → f'.Resumes g →
    TaskStep ⟨s, saved, f, top⟩ (.calls op)
      ⟨s', Function.update (Function.update saved new none) old (some (f.switchedOut top)), g, top'⟩

/-! ## The processor -/

/-- `&thread->context` -/
def contextOf (t : U64) : U64 := t + 32

def InContext (t x : U64) : Prop := (x - contextOf t).toNat < contextSize

/-- The return address of a thread that is switched out with stack pointer `sp`, and the
two words below it that a switch uses. -/
def InWindow (sp x : U64) : Prop := (x - (sp - 16)).toNat < 24

/-- The window of `sp` is clear of all contexts. -/
def State.Clear (s : State) (sp : U64) : Prop :=
  ∀ t, s.threads t ≠ none → ∀ x, InContext t x → ¬ InWindow sp x

def cpuFile (c : Cpu) : RegFile := ⟨c.reg, c.rip, c.rflags⟩

def stackTop (c : Cpu) : U64 := read64 c.mem (c.reg .rsp)

structure Machine where
  sched : State
  cpu : Cpu

/-- The memory a new thread gets from `kmalloc`, with its first context in it. -/
structure Placed (s s' : State) (c c' : Cpu) (t : U64) (n : Thread) : Prop where
  context : ContextAt c'.mem (contextOf t) n.context.reg n.context.rip n.context.rflags
  apart : ∀ u, s'.threads u ≠ none → u ≠ t → ∀ x, InContext t x → ¬ InContext u x
  clear : s'.Clear (n.context.reg .rsp)
  /-- not where the stack of a waiting thread is -/
  windows : ∀ u, s.threads u ≠ none → s.currentThread ≠ some u →
    ∀ x, InContext t x → ¬ InWindow (read64 c.mem (contextOf u + 56)) x

/-- The contexts of all threads but the current one are the same in both memories. -/
def KeepsOthers (s : State) (c c' : Cpu) : Prop :=
  ∀ t, s.threads t ≠ none → s.currentThread ≠ some t → ∀ x, InContext t x → c'.mem x = c.mem x

/-- While the current thread runs it may do anything but write into the contexts of the
others. A yield that goes to another thread enters `context_switch` with the two
contexts. -/
inductive MachineStep : Machine → Action → Machine → Prop
  | computes {s : State} {c c' : Cpu} : KeepsOthers s c c' → MachineStep ⟨s, c⟩ .computes ⟨s, c'⟩
  | stays {s s' : State} {c c' : Cpu} {op : Op} :
    step s op = some s' → s'.currentThread = s.currentThread → KeepsOthers s c c' →
    (∀ t n, s.threads t = none → s'.threads t = some n → Placed s s' c c' t n) →
    MachineStep ⟨s, c⟩ (.calls op) ⟨s', c'⟩
  | switches {s s' : State} {c : Cpu} {op : Op} {old new : U64} :
    step s op = some s' → s.currentThread = some old → s'.currentThread = some new → new ≠ old →
    c.reg .rdi = contextOf old → c.reg .rsi = contextOf new → s.Clear (c.reg .rsp) →
    MachineStep ⟨s, c⟩ (.calls op) ⟨s', runOps c contextSwitch⟩

/-- The contexts in memory hold the registers of the threads that do not run. -/
structure Holds (m : Machine) (a : Tasks) : Prop where
  sched : a.sched = m.sched
  running : a.running = cpuFile m.cpu
  top : a.top = stackTop m.cpu
  shape : ∃ cur idle q, Shape m.sched .running cur idle q
  apart : ∀ t u, m.sched.threads t ≠ none → m.sched.threads u ≠ none → t ≠ u →
    ∀ x, InContext t x → ¬ InContext u x
  saved : ∀ t, m.sched.threads t ≠ none → m.sched.currentThread ≠ some t →
    ∃ f, a.saved t = some f ∧ ContextAt m.cpu.mem (contextOf t) f.reg f.rip f.rflags ∧
      m.sched.Clear (f.reg .rsp)

variable {s s' : State} {p t cur idle : U64} {st : ThreadState} {q : List U64} {op : Op} {c e : Cpu}
  {f : RegFile}

/-! ## Which threads there are -/

theorem State.threads_eq_none_iff (s : State) (t : U64) :
    s.threads t = none ↔ s.stateOf t = none := by
  rw [State.stateOf, Option.map_eq_none_iff]

theorem Shape.current_threads (h : Shape s st cur idle q) : s.threads cur ≠ none := by
  rw [ne_eq, State.threads_eq_none_iff, h.current_state]
  exact Option.some_ne_none st

/-- A yield keeps the threads. -/
theorem Shape.yield_threads_iff (h : Shape s st cur idle q)
    (hst : st = .running ∨ cur ≠ idle ∧ st ≠ .ready) (hyield : schedYield s = some s') (t : U64) :
    s'.threads t = none ↔ s.threads t = none := by
  rw [State.threads_eq_none_iff, State.threads_eq_none_iff, (h.after_yield hst hyield).2]
  split
  · rename_i hhead
    rw [hhead]
    exact iff_of_false (Option.some_ne_none _) (headD_exists h.toQueue)
  · split
    · rename_i hback
      rw [(mem_putBack.mp hback).1, h.current_state]
      exact iff_of_false (Option.some_ne_none _) (Option.some_ne_none _)
    · rfl

/-- Threads are never lost, and a step that switches makes no new one. -/
theorem step_threads (h : Shape s .running cur idle q) (hs : step s op = some s') (t : U64) :
    (s.threads t ≠ none → s'.threads t ≠ none) ∧
      (s'.currentThread ≠ s.currentThread → s'.threads t ≠ none → s.threads t ≠ none) := by
  cases step_cases h hs with
  | refused _ same =>
    subst same
    exact ⟨id, fun _ => id⟩
  | @created s₁ p n _ _ new added =>
    subst added
    have hcur := (new.keeps h).1
    refine ⟨fun ht => ?_, fun hne => absurd hcur hne⟩
    have htp : t ≠ p := fun heq => ht (heq ▸ new.fresh)
    have htail : s.readyQueueTail ≠ some p := fun heq => by
      cases new.stateOf_none.symm.trans (h.ready p (h.tail_mem heq))
    rw [addToReadyQueue_threads (by rwa [new.tail]), new.threads, Function.update_of_ne htp,
      if_neg htp]
    split
    · rwa [ne_eq, Option.map_eq_none_iff]
    · exact ht
  | charged _ same =>
    subst same
    refine ⟨fun ht => ?_, fun hne => absurd rfl hne⟩
    rwa [ne_eq, State.threads_eq_none_iff, h.charged.2, ← State.threads_eq_none_iff]
  | @yielded s₁ _ _ shape stops others yield =>
    have hbefore : s₁.threads t = none ↔ s.threads t = none := by
      by_cases ht : t = cur
      · subst ht
        exact iff_of_false shape.current_threads h.current_threads
      · rw [State.threads_eq_none_iff, State.threads_eq_none_iff, others t ht]
    have hiff := (shape.yield_threads_iff stops yield t).trans hbefore
    exact ⟨fun ht habs => ht (hiff.mp habs), fun _ ht habs => ht (hiff.mpr habs)⟩

/-! ## One switch -/

theorem inContext_iff (t k : U64) : InContext t (contextOf t + k) ↔ k.toNat < contextSize := by
  rw [InContext, BitVec.add_comm, BitVec.add_sub_cancel]

/-- A context stays when its bytes do. -/
theorem contextAt_congr {m m' : Mem} (h : ContextAt m (contextOf t) f.reg f.rip f.rflags)
    (hsame : ∀ x, InContext t x → m' x = m x) :
    ContextAt m' (contextOf t) f.reg f.rip f.rflags := by
  have hword : ∀ k : U64, k.toNat + 8 ≤ contextSize →
      read64 m' (contextOf t + k) = read64 m (contextOf t + k) := by
    intro k hk
    refine read64_congr fun j hj => hsame _ ?_
    rw [add_assoc, inContext_iff]
    rw [contextSize] at hk ⊢
    bv_omega
  refine ⟨fun r => ?_, ?_, ?_⟩
  · have hlt := contextOffset_lt r
    rw [hword _ (by rw [contextSize]; omega), h.reg]
  · rw [hword 128 (by decide), h.rip]
  · rw [hword 136 (by decide), h.rflags]

/-- The context of a thread against the words of its stack. -/
theorem State.Clear.word {sp : U64} (h : s.Clear sp) (ht : s.threads t ≠ none) {k : U64}
    (hk : k.toNat + 8 ≤ contextSize) :
    Apart (sp - 8) (contextOf t + k) ∧ Apart (sp - 8 - 8) (contextOf t + k) := by
  have hbyte : ∀ j : U64, j.toNat < contextSize → 24 ≤ (contextOf t + j - (sp - 16)).toNat := by
    intro j hj
    have hout := h t ht (contextOf t + j) ((inContext_iff t j).mpr hj)
    rwa [InWindow, not_lt] at hout
  rw [contextSize] at hk
  have hfirst := hbyte k (by rw [contextSize]; omega)
  have hlast := hbyte (k + 7) (by rw [contextSize]; bv_omega)
  rw [← add_assoc] at hlast
  have hmid : Apart (sp - 16 + 8) (contextOf t + k) := .of_window (by decide) hfirst hlast
  have hlow : Apart (sp - 16 + 0) (contextOf t + k) := .of_window (by decide) hfirst hlast
  rw [show sp - 16 + 8 = sp - 8 by bv_omega] at hmid
  rw [show sp - 16 + 0 = sp - 8 - 8 by bv_omega] at hlow
  exact ⟨hmid, hlow⟩

/-- Entering a context writes two words below its stack pointer. -/
theorem loadContext_mem (h : ContextAt e.mem (e.reg .rsi) f.reg f.rip f.rflags) {x : U64}
    (hx : ¬ InWindow (f.reg .rsp) x) : (runOps e loadContext).mem x = e.mem x := by
  obtain ⟨reg', hrun, hsi', -⟩ := loadedFields_reg h
  have hsp : read64 e.mem (e.reg .rsi + 56) = f.reg .rsp := h.reg .rsp
  have hmem : ∃ v w, (runOps e loadContext).mem =
      write64 (write64 e.mem (f.reg .rsp - 8) v) (f.reg .rsp - 8 - 8) w := by
    rw [loadContext, runOps_append, hrun]
    simp only [enterContext, runOps_cons, runOps_nil, execOp, exec, Cpu.set_reg, Cpu.set_mem,
      Cpu.pushWord_reg, Cpu.pushWord_mem, reduceCtorEq, if_true, if_false, hsi', hsp]
    exact ⟨_, _, rfl⟩
  obtain ⟨v, w, hmem⟩ := hmem
  rw [InWindow, not_lt] at hx
  rw [hmem, write64_byte_ne _ _ _ (by bv_omega), write64_byte_ne _ _ _ (by bv_omega)]

section Switch

variable {old new : U64} (hdi : c.reg .rdi = contextOf old) (hsi : c.reg .rsi = contextOf new)
  (hclear : s.Clear (c.reg .rsp))
include hdi hclear

/-- Saving the old thread's context leaves the other contexts alone. -/
theorem savedMem_other (ht : s.threads t ≠ none) (hapart : ∀ x, InContext t x → ¬ InContext old x)
    {x : U64} (hx : InContext t x) : savedMem c x = c.mem x := by
  have hctx := hapart x hx
  have hstack := hclear t ht x hx
  rw [InContext, not_lt] at hctx
  rw [InWindow, not_lt] at hstack
  refine savedMem_outside (by rwa [hdi]) ?_
  bv_omega

theorem savedMem_old (ho : s.threads old ≠ none) :
    ContextAt (savedMem c) (contextOf old) c.reg (read64 c.mem (c.reg .rsp))
      (c.rflags &&& pushfMask) := by
  have hapart : ContextApart c := by
    intro k hk
    have hout := hclear old ho (contextOf old + k) ((inContext_iff old k).mpr hk)
    rw [InWindow, not_lt] at hout
    rwa [hdi]
  rw [← hdi]
  exact savedMem_contextAt hapart

include hsi

/-- **One switch.** The new thread goes on with the registers in its context, and the
contexts of all others are as they were; that of the old thread holds its registers. -/
theorem contextSwitch_spec (hn : s.threads new ≠ none)
    (hapart : ∀ x, InContext new x → ¬ InContext old x)
    (hctx : ContextAt c.mem (contextOf new) f.reg f.rip f.rflags) (hf : s.Clear (f.reg .rsp)) :
    f.Resumes (cpuFile (runOps c contextSwitch)) ∧
      ∀ x, ¬ InWindow (f.reg .rsp) x → (runOps c contextSwitch).mem x = savedMem c x := by
  have hbase : (runOps c saveContext).reg .rsi = contextOf new := by
    rw [saveContext_reg c (by decide), hsi]
  have hload : ContextAt (runOps c saveContext).mem ((runOps c saveContext).reg .rsi) f.reg f.rip
      f.rflags := by
    rw [hbase, saveContext_mem]
    exact contextAt_congr hctx fun x hx => savedMem_other hdi hclear hn hapart hx
  obtain ⟨hrip, hflags, h11, hreg⟩ := loadContext_spec hload fun k hk => by
    rw [hbase]
    exact hf.word hn hk
  have hmem : ∀ x, ¬ InWindow (f.reg .rsp) x →
      (runOps (runOps c saveContext) loadContext).mem x = savedMem c x := by
    intro x hx
    rw [loadContext_mem hload hx, saveContext_mem]
  rw [contextSwitch, runOps_append]
  generalize runOps (runOps c saveContext) loadContext = d at hrip hflags h11 hreg hmem ⊢
  refine ⟨⟨hrip, ?_, h11, hreg⟩, hmem⟩
  show d.rflags &&& popfMask = _
  rw [hflags, loadFlags_and_popfMask]

end Switch

/-! ## Whole runs -/

/-- The current thread goes on by itself. -/
theorem Holds.computes {a : Tasks} {c' : Cpu} (h : Holds ⟨s, c⟩ a) (hkept : KeepsOthers s c c') :
    Holds ⟨s, c'⟩ ⟨s, a.saved, cpuFile c', stackTop c'⟩ := by
  refine ⟨rfl, rfl, rfl, h.shape, h.apart, fun t ht htc => ?_⟩
  obtain ⟨f, hf, hctx, hclear⟩ := h.saved t ht htc
  exact ⟨f, hf, contextAt_congr hctx (hkept t ht htc), hclear⟩

/-- The current thread goes on, and perhaps makes a new one. -/
theorem Holds.stays {a : Tasks} {c' : Cpu} (h : Holds ⟨s, c⟩ a) (hs : step s op = some s')
    (hcur : s'.currentThread = s.currentThread) (hkept : KeepsOthers s c c')
    (hnew : ∀ t n, s.threads t = none → s'.threads t = some n → Placed s s' c c' t n) :
    Holds ⟨s', c'⟩ ⟨s', keptFiles s s' a.saved, cpuFile c', stackTop c'⟩ := by
  obtain ⟨cur, idle, q, hshape⟩ := h.shape
  obtain ⟨cur', q', hserves⟩ := step_serves hshape hs
  have hplaced : ∀ {t}, s'.threads t ≠ none → s.threads t = none →
      ∃ n, s'.threads t = some n ∧ Placed s s' c c' t n := by
    intro t ht hnone
    obtain ⟨n, hn⟩ := Option.ne_none_iff_exists'.mp ht
    exact ⟨n, hn, hnew t n hnone hn⟩
  refine ⟨rfl, rfl, rfl, ⟨cur', idle, q', hserves.shape⟩, fun t u ht hu htu x hx => ?_,
    fun t ht htc => ?_⟩
  · by_cases htn : s.threads t = none
    · obtain ⟨n, -, hp⟩ := hplaced ht htn
      exact hp.apart u hu htu.symm x hx
    · by_cases hun : s.threads u = none
      · obtain ⟨n, -, hp⟩ := hplaced hu hun
        exact fun hxu => hp.apart t ht htu x hxu hx
      · exact h.apart t u htn hun htu x hx
  · by_cases htn : s.threads t = none
    · obtain ⟨n, hn, hp⟩ := hplaced ht htn
      refine ⟨n.context.file, ?_, hp.context, hp.clear⟩
      show keptFiles s s' a.saved t = _
      rw [keptFiles, if_pos htn, hn, Option.map_some]
    · have htc' : s.currentThread ≠ some t := hcur ▸ htc
      obtain ⟨f, hf, hctx, hclear⟩ := h.saved t htn htc'
      refine ⟨f, ?_, contextAt_congr hctx (hkept t htn htc'), fun u hu x hx => ?_⟩
      · show keptFiles s s' a.saved t = _
        rw [keptFiles, if_neg htn, hf]
      · by_cases hun : s.threads u = none
        · obtain ⟨n, -, hp⟩ := hplaced hu hun
          have hsp : read64 c.mem (contextOf t + 56) = f.reg .rsp := hctx.reg .rsp
          rw [← hsp]
          exact hp.windows t htn htc' x hx
        · exact hclear u hun x hx

/-- The current thread calls `context_switch`. -/
theorem Holds.switches {a : Tasks} {old new : U64} (h : Holds ⟨s, c⟩ a) (hs : step s op = some s')
    (hcur : s.currentThread = some old) (hcur' : s'.currentThread = some new) (hne : new ≠ old)
    (hdi : c.reg .rdi = contextOf old) (hsi : c.reg .rsi = contextOf new)
    (hclear : s.Clear (c.reg .rsp)) :
    ∃ f, a.saved new = some f ∧ f.Resumes (cpuFile (runOps c contextSwitch)) ∧
      Holds ⟨s', runOps c contextSwitch⟩
        ⟨s', Function.update (Function.update a.saved new none) old
          (some ((cpuFile c).switchedOut (stackTop c))), cpuFile (runOps c contextSwitch),
          stackTop (runOps c contextSwitch)⟩ := by
  obtain ⟨cur, idle, q, hshape⟩ := h.shape
  obtain ⟨cur', q', hserves⟩ := step_serves hshape hs
  have hchanged : s'.currentThread ≠ s.currentThread := by
    rw [hcur, hcur']
    exact fun heq => hne (Option.some_inj.mp heq)
  have hback : ∀ {t}, s'.threads t ≠ none → s.threads t ≠ none :=
    fun ht => (step_threads hshape hs _).2 hchanged ht
  have hclear' : ∀ {sp}, s.Clear sp → s'.Clear sp := fun hc t ht => hc t (hback ht)
  have hold : s.threads old ≠ none := by
    obtain rfl : cur = old := Option.some_inj.mp (hshape.current.symm.trans hcur)
    exact hshape.current_threads
  have hnew : s.threads new ≠ none := by
    obtain rfl : cur' = new := Option.some_inj.mp (hserves.shape.current.symm.trans hcur')
    exact hback hserves.shape.current_threads
  have hnotCur : ∀ {t}, t ≠ old → s.currentThread ≠ some t :=
    fun ht heq => ht (Option.some_inj.mp (heq.symm.trans hcur))
  obtain ⟨f, hf, hctx, hfclear⟩ := h.saved new hnew (hnotCur hne)
  obtain ⟨hresumes, hmem⟩ := contextSwitch_spec hdi hsi hclear hnew
    (h.apart new old hnew hold hne) hctx hfclear
  refine ⟨f, hf, hresumes, rfl, rfl, rfl, ⟨cur', idle, q', hserves.shape⟩,
    fun t u ht hu htu => ?_, fun t ht htc => ?_⟩
  · exact h.apart t u (hback ht) (hback hu) htu
  · have htn : t ≠ new := fun heq => htc (heq ▸ hcur')
    by_cases hto : t = old
    · subst hto
      refine ⟨_, Function.update_self _ _ _, ?_, hclear' hclear⟩
      refine contextAt_congr (f := (cpuFile c).switchedOut (stackTop c))
        (savedMem_old hdi hclear hold) fun x hx => hmem x (hfclear t hold x hx)
    · obtain ⟨g, hg, hgctx, hgclear⟩ := h.saved t (hback ht) (hnotCur hto)
      refine ⟨g, ?_, contextAt_congr hgctx fun x hx => ?_, hclear' hgclear⟩
      · show Function.update (Function.update a.saved new none) old _ t = _
        rw [Function.update_of_ne hto, Function.update_of_ne htn, hg]
      · rw [hmem x (hfclear t (hback ht) x hx)]
        exact savedMem_other hdi hclear (hback ht) (h.apart t old (hback ht) hold hto) hx

/-- **Every thread has registers of its own.** From a state in which a thread runs, there is an
idle thread and the queue is well formed, runs of the scheduler on one processor, of creations,
yields, ticks and departures in any order, with the threads doing anything in between but writing
into each other's contexts, are runs of the machine that keeps the registers of each thread apart.
A thread is always resumed with its own: at the return address it was switched out with, with all
its registers but `r11`, the stack pointer as it was in `context_switch`, or with those that
`thread_create` gave it. -/
theorem processor_refines_tasks {m m' : Machine} {a : Tasks} {actions : List Action}
    (h : Holds m a) (hrun : Runs.Reach MachineStep m actions m') :
    ∃ a', Runs.Reach TaskStep a actions a' ∧ Holds m' a' := by
  refine Runs.Reach.simulates (fun m a act m' hm hstep => ?_) hrun h
  obtain ⟨s₀, saved, running, top⟩ := a
  cases hstep with
  | @computes s c c' hkept =>
    obtain rfl : s₀ = s := hm.sched
    exact ⟨_, .computes, hm.computes hkept⟩
  | @stays s s' c c' _ hs hcur hkept hnew =>
    obtain rfl : s₀ = s := hm.sched
    exact ⟨_, .stays hs hcur, hm.stays hs hcur hkept hnew⟩
  | @switches s s' c _ old new hs hcur hcur' hne hdi hsi hclear =>
    obtain rfl : s₀ = s := hm.sched
    obtain rfl : running = cpuFile c := hm.running
    obtain rfl : top = stackTop c := hm.top
    obtain ⟨f, hf, hresumes, hholds⟩ := hm.switches hs hcur hcur' hne hdi hsi hclear
    exact ⟨_, .switches hs hcur hcur' hne hf hresumes, hholds⟩

/-- The running thread of `sample`, in `sched_yield`, about to switch to the next. -/
def sampleCpu : Cpu where
  reg
    | .rdi => 0x1020
    | .rsi => 0x2020
    | .rsp => 0x8000
    | _ => 5
  rip := 0
  rflags := 0x202
  cs := 0x08
  ss := 0x10
  msr := fun _ => 0
  mem := fun _ => 0

/-- The others wait with zeros in their registers. -/
def sampleTasks : Tasks where
  sched := sample
  saved := fun _ => some ⟨fun _ => 0, 0, 0⟩
  running := cpuFile sampleCpu
  top := stackTop sampleCpu

theorem sample_threads (ht : sample.threads t ≠ none) :
    t = 0x1000 ∨ t = 0x2000 ∨ t = 0x3000 ∨ t = 0x9000 := by
  by_contra hne
  obtain ⟨h1, h2, h3, h9⟩ : t ≠ 0x1000 ∧ t ≠ 0x2000 ∧ t ≠ 0x3000 ∧ t ≠ 0x9000 := by
    simpa only [not_or] using hne
  refine ht ?_
  show (if t = 0x1000 then _ else _) = none
  rw [if_neg h1, if_neg h2, if_neg h3, if_neg h9]

theorem sample_clear {sp : U64} (hsp : sp = 0 ∨ sp = 0x8000) : sample.Clear sp := by
  intro t ht x hx hw
  rw [InContext, contextSize, contextOf] at hx
  rw [InWindow] at hw
  rcases hsp with rfl | rfl <;> rcases sample_threads ht with rfl | rfl | rfl | rfl <;> bv_omega

theorem sample_holds : Holds ⟨sample, sampleCpu⟩ sampleTasks where
  sched := rfl
  running := rfl
  top := rfl
  shape := ⟨_, _, _, sample_shape⟩
  apart := by
    intro t u ht hu htu x hx hxu
    rw [InContext, contextSize, contextOf] at hx hxu
    rcases sample_threads ht with rfl | rfl | rfl | rfl <;>
      rcases sample_threads hu with rfl | rfl | rfl | rfl <;>
        first | exact htu rfl | bv_omega
  saved := by
    intro t _ _
    have hzero : ∀ a, read64 sampleCpu.mem a = 0 := fun a => by
      simp [read64, sampleCpu]
    exact ⟨_, rfl, ⟨fun _ => hzero _, hzero _, hzero _⟩, sample_clear (.inl rfl)⟩

/-- The running thread yields, and the next one goes on and changes its registers. -/
theorem sample_switches :
    ∃ s' a', Runs.Reach TaskStep sampleTasks [.calls .yield, .computes] a' ∧
      Holds ⟨s', { runOps sampleCpu contextSwitch with reg := fun _ => 7 }⟩ a' := by
  obtain ⟨s', hyield, hshape, -⟩ := schedYield_spec sample_shape (.inl rfl)
  have hswitch :
      MachineStep ⟨sample, sampleCpu⟩ (.calls .yield) ⟨s', runOps sampleCpu contextSwitch⟩ :=
    .switches hyield rfl hshape.current (show (0x2000 : U64) ≠ 0x1000 by decide) rfl rfl
      (sample_clear (.inr rfl))
  have hcomputes : MachineStep ⟨s', runOps sampleCpu contextSwitch⟩ .computes
      ⟨s', { runOps sampleCpu contextSwitch with reg := fun _ => 7 }⟩ :=
    .computes fun _ _ _ _ _ => rfl
  exact ⟨s', processor_refines_tasks sample_holds (.cons hswitch (.cons hcomputes (.nil _)))⟩

end Myria.Sched.ReadyQueue
