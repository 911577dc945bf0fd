import Mathlib.Data.Nat.Basic

/-! The timer of a local APIC. A request stays up until the processor accepts it, and while
one is in service no other is accepted. There is one bit for the requests of a vector, so a
timer that runs out again in the meantime adds nothing. The timer is the only source of
interrupts, and no priority holds them back. -/
namespace LocalApic

structure Apic where
  /-- The model-specific register that switches the whole unit on. -/
  baseMsr : BitVec 64
  spuriousVector : BitVec 32
  lvtTimer : BitVec 32
  divideConfig : BitVec 32
  initialCount : BitVec 32
  currentCount : BitVec 32
  /-- The bit of the timer's vector in the interrupt request register. -/
  requested : Bool
  /-- The same bit of the in-service register. -/
  inService : Bool
deriving DecidableEq, Repr

namespace Apic

variable (a : Apic)

def enabled : Bool := a.baseMsr.getLsbD 11 && a.spuriousVector.getLsbD 8

def masked : Bool := a.lvtTimer.getLsbD 16

def periodic : Bool := a.lvtTimer.getLsbD 17

/-- A write of a register, of those the timer depends on. -/
def writeReg (reg value : BitVec 32) : Apic :=
  if reg = 0x0B0 then { a with inService := false }
  else if reg = 0x0F0 then { a with spuriousVector := value }
  else if reg = 0x320 then { a with lvtTimer := value }
  else if reg = 0x380 then { a with initialCount := value, currentCount := value }
  else if reg = 0x3E0 then { a with divideConfig := value }
  else a

/-- Nobody listens at the registers of a unit that is switched off. -/
def write (reg value : BitVec 32) : Apic :=
  if a.baseMsr.getLsbD 11 then a.writeReg reg value else a

/-- The timer runs out. -/
def fire : Apic := { a with requested := a.requested || (a.enabled && !a.masked) }

/-- One period of the divided clock. -/
def clock : Apic :=
  if a.currentCount = 0 then a
  else if a.currentCount = 1 then
    { a.fire with currentCount := if a.periodic then a.initialCount else 0 }
  else { a with currentCount := a.currentCount - 1 }

/-- The next clock lets the timer run out while its last request is still up. -/
def merges : Bool := a.currentCount == 1 && a.requested

/-- The processor takes the interrupt. -/
def accept : Option Apic :=
  if a.enabled && a.requested && !a.inService then
    some { a with requested := false, inService := true }
  else none

theorem write_of_on {a : Apic} (h : a.baseMsr.getLsbD 11 = true) (reg value : BitVec 32) :
    a.write reg value = a.writeReg reg value := if_pos h

theorem writeReg_baseMsr (reg value : BitVec 32) : (a.writeReg reg value).baseMsr = a.baseMsr := by
  unfold writeReg
  repeat' split
  all_goals rfl

end Apic

/-! ## A periodic timer -/

/-- The timer has been running with the given period for `elapsed` clocks. -/
structure Running (period elapsed : Nat) (a : Apic) : Prop where
  enabled : a.enabled = true
  unmasked : a.masked = false
  periodic : a.periodic = true
  initialCount : a.initialCount.toNat = period
  currentCount : a.currentCount.toNat = period - elapsed % period

variable {period elapsed : Nat} {a b : Apic}

theorem add_one_div_mod (n : Nat) (h : 0 < period) :
    (n % period + 1 = period ∧ (n + 1) / period = n / period + 1 ∧ (n + 1) % period = 0) ∨
      (n % period + 1 < period ∧ (n + 1) / period = n / period ∧
        (n + 1) % period = n % period + 1) := by
  have hn : n + 1 = n % period + 1 + n / period * period := by
    rw [Nat.mul_comm]
    have hdiv := Nat.mod_add_div n period
    omega
  rcases Nat.lt_or_eq_of_le (Nat.succ_le_of_lt (Nat.mod_lt n h)) with hlt | heq
  · refine .inr ⟨hlt, ?_, ?_⟩
    · rw [hn, Nat.add_mul_div_right _ _ h, Nat.div_eq_of_lt hlt, Nat.zero_add]
    · rw [hn, Nat.add_mul_mod_self_right, Nat.mod_eq_of_lt hlt]
  · have hn' : n + 1 = (n / period + 1) * period := by
      rw [Nat.add_mul, Nat.one_mul, hn]
      omega
    refine .inl ⟨heq, ?_, ?_⟩
    · rw [hn', Nat.mul_div_cancel _ h]
    · rw [hn', Nat.mul_mod_left]

/-- What a clock does to a periodic timer: each time the period is over there is a request
more, or one merged into the request that is still up. -/
theorem Running.clock (h : Running period elapsed a) (hperiod : 0 < period) :
    Running period (elapsed + 1) a.clock ∧ a.clock.inService = a.inService ∧
      a.clock.requested.toNat + a.merges.toNat + elapsed / period =
        a.requested.toNat + (elapsed + 1) / period := by
  have hcount := h.currentCount
  have hinit := h.initialCount
  rcases add_one_div_mod elapsed hperiod with ⟨hlast, hdiv, hmod⟩ | ⟨hmore, hdiv, hmod⟩
  · have hone : a.currentCount = 1 := by
      rw [← BitVec.toNat_inj, hcount]
      change period - elapsed % period = 1
      omega
    have hclock : a.clock = { a.fire with currentCount := a.initialCount } := by
      rw [Apic.clock, if_neg (by rw [hone]; decide), if_pos hone, h.periodic, if_pos rfl]
    rw [hclock, hdiv, Apic.merges, hone]
    refine ⟨⟨h.enabled, h.unmasked, h.periodic, hinit, ?_⟩, rfl, ?_⟩
    · rw [hmod, Nat.sub_zero]
      exact hinit
    · have hfire : a.fire.requested = true := by
        rw [Apic.fire, h.enabled, h.unmasked]
        cases a.requested <;> rfl
      change a.fire.requested.toNat + _ + _ = _
      rw [hfire]
      cases a.requested <;> simp <;> omega
  · have hne : a.currentCount ≠ 0 ∧ a.currentCount ≠ 1 := by
      rw [ne_eq, ne_eq, ← BitVec.toNat_inj, ← BitVec.toNat_inj, hcount]
      change ¬ period - elapsed % period = 0 ∧ ¬ period - elapsed % period = 1
      omega
    have hclock : a.clock = { a with currentCount := a.currentCount - 1 } := by
      rw [Apic.clock, if_neg hne.1, if_neg hne.2]
    have hmerges : a.merges = false := by
      rw [Apic.merges, beq_eq_false_iff_ne.mpr hne.2, Bool.false_and]
    rw [hclock, hdiv, hmerges]
    refine ⟨⟨h.enabled, h.unmasked, h.periodic, hinit, ?_⟩, rfl, rfl⟩
    change (a.currentCount - 1).toNat = _
    bv_omega

/-- What counts for a running timer is left alone when its interrupt is taken or acknowledged. -/
theorem Running.of_requests (h : Running period elapsed a) (requested inService : Bool) :
    Running period elapsed { a with requested, inService } :=
  ⟨h.enabled, h.unmasked, h.periodic, h.initialCount, h.currentCount⟩

theorem Apic.accept_eq_some (h : a.accept = some b) :
    a.requested = true ∧ b = { a with requested := false, inService := true } := by
  obtain ⟨hready, hb⟩ := Option.ite_none_right_eq_some.mp h
  simp only [Bool.and_eq_true] at hready
  exact ⟨hready.1.2, (Option.some_inj.mp hb).symm⟩

end LocalApic
