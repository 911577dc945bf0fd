import Mathlib.Data.List.Basic

/-! The transmitter of a 16550 UART and the way a driver on a port bus sees it. Between two
accesses of the driver the transmitter sends as many of the bytes it holds as it likes. -/
namespace Ns16550

/-- What a full transmitter does with one more byte. Chips differ in which byte is lost,
but none of them sends bytes out of order or twice. -/
structure Chip where
  overrun : List (BitVec 8) → BitVec 8 → List (BitVec 8)
  overrun_sublist : ∀ queue b, (overrun queue b).Sublist (queue ++ [b])

/-- The new byte is lost. -/
def Chip.dropNew : Chip where
  overrun queue _ := queue
  overrun_sublist queue b := List.sublist_append_left queue [b]

structure Settings where
  ier : BitVec 8
  lcr : BitVec 8
  mcr : BitVec 8
  divisorLow : BitVec 8
  divisorHigh : BitVec 8
  fifoOn : Bool
deriving DecidableEq, Repr

structure Uart extends Settings where
  /-- The bits of the line status that are not about the transmitter. -/
  received : BitVec 8
  /-- The bytes taken and not yet sent, the oldest first. -/
  queue : List (BitVec 8)
  /-- What has gone out on the line, the oldest first. -/
  line : List (BitVec 8)
deriving DecidableEq, Repr

namespace Settings

variable (s : Settings)

/-- The divisor latch stands in for the first two registers. -/
def dlab : Bool := s.lcr.getLsbD 7

def depth : Nat := if s.fifoOn then 16 else 1

end Settings

namespace Uart

variable (chip : Chip) (u : Uart)

/-- Bit 5 is set when the transmitter holds nothing. -/
def lineStatus : BitVec 8 := (u.received &&& 0xDF) ||| (if u.queue = [] then 0x20 else 0)

def send (n : Nat) : Uart := { u with line := u.line ++ u.queue.take n, queue := u.queue.drop n }

def take (b : BitVec 8) : Uart :=
  { u with queue := if u.queue.length < u.depth then u.queue ++ [b] else chip.overrun u.queue b }

/-- A write of the FIFO control register. Switching the FIFO on or off empties it, and bit 2
empties it too. -/
def fifoControl (b : BitVec 8) : Uart :=
  { u with
    fifoOn := b.getLsbD 0
    queue := if b.getLsbD 2 ∨ b.getLsbD 0 ≠ u.fifoOn then [] else u.queue }

/-- A write of one of the registers, and no effect at any other address. -/
def write (reg : Nat) (b : BitVec 8) : Uart :=
  match reg with
  | 0 => if u.dlab then { u with divisorLow := b } else u.take chip b
  | 1 => if u.dlab then { u with divisorHigh := b } else { u with ier := b }
  | 2 => u.fifoControl b
  | 3 => { u with lcr := b }
  | 4 => { u with mcr := b }
  | _ => u

end Uart

/-! ## The bus -/

/-- The device, and for each access to come how many bytes are sent before it. -/
abbrev Bus := Uart × List Nat

/-- `OUT` to a port, for a device at `base`. Without an entry left in the schedule the
access does not take place. -/
def out (chip : Chip) (base port : BitVec 16) (b : BitVec 8) : Bus → Option Bus
  | (_, []) => none
  | (u, n :: later) => some ((u.send n).write chip (port - base).toNat b, later)

/-- How many of the accesses to come find the transmitter working. -/
def Bus.working (s : Bus) : Nat := s.2.countP (0 < ·)

/-! ## What goes out -/

/-- From `u` to `u'` the bytes `new` were offered, and some may have been lost. -/
def Passes (u u' : Uart) (new : List (BitVec 8)) : Prop :=
  ∃ sent, u'.line = u.line ++ sent ∧ (sent ++ u'.queue).Sublist (u.queue ++ new)

/-- The same with nothing lost. -/
def Delivers (u u' : Uart) (new : List (BitVec 8)) : Prop :=
  ∃ sent, u'.line = u.line ++ sent ∧ sent ++ u'.queue = u.queue ++ new

section

variable {chip : Chip} {u u' u'' : Uart} {new new' : List (BitVec 8)}

theorem Delivers.passes (h : Delivers u u' new) : Passes u u' new := by
  obtain ⟨sent, hline, hqueue⟩ := h
  exact ⟨sent, hline, hqueue ▸ List.Sublist.refl _⟩

theorem Delivers.total (h : Delivers u u' new) :
    u'.line ++ u'.queue = u.line ++ u.queue ++ new := by
  obtain ⟨sent, hline, hqueue⟩ := h
  rw [hline, List.append_assoc, hqueue, List.append_assoc]

theorem Delivers.refl (u : Uart) : Delivers u u [] :=
  ⟨[], (List.append_nil _).symm, (List.append_nil _).symm⟩

theorem Delivers.trans (h : Delivers u u' new) (h' : Delivers u' u'' new') :
    Delivers u u'' (new ++ new') := by
  obtain ⟨sent, hline, hqueue⟩ := h
  obtain ⟨sent', hline', hqueue'⟩ := h'
  refine ⟨sent ++ sent', ?_, ?_⟩
  · rw [hline', hline, List.append_assoc]
  · rw [List.append_assoc, hqueue', ← List.append_assoc, hqueue, List.append_assoc]

theorem Passes.trans (h : Passes u u' new) (h' : Passes u' u'' new') :
    Passes u u'' (new ++ new') := by
  obtain ⟨sent, hline, hqueue⟩ := h
  obtain ⟨sent', hline', hqueue'⟩ := h'
  refine ⟨sent ++ sent', ?_, ?_⟩
  · rw [hline', hline, List.append_assoc]
  · have hfirst : (sent ++ (u'.queue ++ new')).Sublist (u.queue ++ (new ++ new')) := by
      rw [← List.append_assoc, ← List.append_assoc]
      exact hqueue.append_right new'
    rw [List.append_assoc]
    exact (hqueue'.append_left sent).trans hfirst

theorem delivers_send (n : Nat) : Delivers u (u.send n) [] :=
  ⟨u.queue.take n, rfl, by rw [Uart.send, List.take_append_drop, List.append_nil]⟩

@[simp] theorem send_toSettings (n : Nat) : (u.send n).toSettings = u.toSettings := rfl

theorem passes_take (b : BitVec 8) : Passes u (u.take chip b) [b] := by
  refine ⟨[], (List.append_nil _).symm, ?_⟩
  simp only [Uart.take, List.nil_append]
  split
  · exact List.Sublist.refl _
  · exact chip.overrun_sublist u.queue b

/-- An empty transmitter takes the byte. -/
theorem write_data_of_empty {b : BitVec 8} (hdlab : u.dlab = false) (hqueue : u.queue = []) :
    u.write chip 0 b = { u with queue := [b] } := by
  have hroom : u.queue.length < u.depth := by
    rw [hqueue, Settings.depth]
    split <;> decide
  have hdata : u.write chip 0 b = u.take chip b := if_neg (by rw [hdlab]; decide)
  rw [hdata, Uart.take, if_pos hroom, hqueue, List.nil_append]

theorem lineStatus_empty_iff : u.lineStatus &&& 0x20 = 0 ↔ u.queue ≠ [] := by
  have hmask : ∀ b : BitVec 8,
      (b &&& 0xDF ||| 0x20) &&& 0x20 ≠ 0 ∧ (b &&& 0xDF ||| 0) &&& 0x20 = 0 := by decide
  obtain ⟨hset, hclear⟩ := hmask u.received
  rw [Uart.lineStatus]
  split <;> rename_i hqueue
  · exact iff_of_false hset (not_not_intro hqueue)
  · exact iff_of_true hclear hqueue

/-- Nothing but a byte for the data register goes out, and the other registers can only empty
the queue. -/
theorem passes_write (reg : Nat) (b : BitVec 8) :
    Passes u (u.write chip reg b) (if reg = 0 then [b] else []) := by
  have hkeep {v : Uart} (new : List (BitVec 8)) (hline : v.line = u.line)
      (hqueue : v.queue.Sublist u.queue) : Passes u v new :=
    ⟨[], by rw [hline, List.append_nil], hqueue.trans (List.sublist_append_left ..)⟩
  unfold Uart.write
  split
  · split
    · exact hkeep _ rfl (List.Sublist.refl _)
    · exact passes_take b
  · split <;> exact hkeep _ rfl (List.Sublist.refl _)
  · refine hkeep _ rfl ?_
    simp only [Uart.fifoControl]
    split
    · exact List.nil_sublist _
    · exact List.Sublist.refl _
  all_goals exact hkeep _ rfl (List.Sublist.refl _)

theorem passes_out {base port : BitVec 16} {b : BitVec 8} {s s' : Bus}
    (h : out chip base port b s = some s') :
    Passes s.1 s'.1 (if (port - base).toNat = 0 then [b] else []) := by
  obtain ⟨u, _ | ⟨n, later⟩⟩ := s
  · cases h
  · cases h
    exact (delivers_send n).passes.trans (passes_write _ b)

theorem out_returns {s : Bus} (h : 1 ≤ s.working) (base port : BitVec 16) (b : BitVec 8) :
    ∃ s', out chip base port b s = some s' ∧ s.working ≤ s'.working + 1 := by
  obtain ⟨u, _ | ⟨n, later⟩⟩ := s
  · cases h
  · refine ⟨_, rfl, ?_⟩
    rw [Bus.working, List.countP_cons]
    exact Nat.add_le_add_left (by split <;> decide) _

/-- A driver that spends at most `cost` working accesses on each item gets through all of
them. -/
theorem foldlM_returns {α : Type*} {f : Bus → α → Option Bus} {I : Bus → Prop} {cost : Nat}
    (hf : ∀ s a, I s → cost ≤ s.working →
      ∃ s', f s a = some s' ∧ I s' ∧ s.working ≤ s'.working + cost)
    {items : List α} {s : Bus} (hI : I s) (hwork : cost * items.length ≤ s.working) :
    ∃ s', items.foldlM f s = some s' ∧ I s' ∧ s.working ≤ s'.working + cost * items.length := by
  induction items generalizing s with
  | nil => exact ⟨s, rfl, hI, Nat.le_refl _⟩
  | cons a items ih =>
    rw [List.length_cons, Nat.mul_succ] at hwork
    obtain ⟨s₁, hstep, hI₁, hcost⟩ := hf s a hI (by omega)
    obtain ⟨s', hrest, hI', hcost'⟩ := ih hI₁ (by omega)
    refine ⟨s', ?_, hI', by rw [List.length_cons, Nat.mul_succ]; omega⟩
    rw [List.foldlM_cons, hstep]
    exact hrest

end

end Ns16550
