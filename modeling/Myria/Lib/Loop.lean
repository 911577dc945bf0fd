import Mathlib.Data.Nat.Notation
import Mathlib.Order.Basic

/-! Loops with a body that may fail. The body is given whole rounds: it ends
with the state for the next round or with the state in which the loop was left.
Fuel counts rounds, so that a loop which runs out of it is told apart from one
that failed. -/
namespace Loop

inductive Round (σ : Type) where
  | next (s : σ)
  | exit (s : σ)
deriving DecidableEq, Repr

variable {σ : Type}

/-- At most `fuel` rounds of `body`. -/
def exec (body : σ → Option (Round σ)) : Nat → σ → Option (Round σ)
  | 0, s => some (.next s)
  | fuel + 1, s =>
    match body s with
    | none => none
    | some (.exit t) => some (.exit t)
    | some (.next t) => exec body fuel t

variable {body : σ → Option (Round σ)} {s t u : σ} {n : Nat}

theorem exec_succ_of_next (h : body s = some (.next t)) (fuel : Nat) :
    exec body (fuel + 1) s = exec body fuel t := by
  rw [exec, h]

theorem exec_succ_of_exit (h : body s = some (.exit t)) (fuel : Nat) :
    exec body (fuel + 1) s = some (.exit t) := by
  rw [exec, h]

/-- What the first round of a run without failure does. -/
theorem exec_succ_cases {r : Round σ} (h : exec body (n + 1) s = some r) :
    (∃ t, body s = some (.exit t) ∧ r = .exit t) ∨
      ∃ t, body s = some (.next t) ∧ exec body n t = some r := by
  rw [exec] at h
  cases hbody : body s with
  | none => simp [hbody] at h
  | some first =>
    cases first with
    | exit t =>
      simp only [hbody, Option.some.injEq] at h
      exact .inl ⟨t, rfl, h.symm⟩
    | next t =>
      simp only [hbody] at h
      exact .inr ⟨t, rfl, h⟩

/-- A run that has got as far as `t` goes on from there. -/
theorem exec_add_of_next (h : exec body n s = some (.next t)) (m : Nat) :
    exec body (n + m) s = exec body m t := by
  induction n generalizing s with
  | zero =>
    cases h
    rw [Nat.zero_add]
  | succ n ih =>
    obtain ⟨t', hbody, hr⟩ | ⟨t', hbody, hrest⟩ := exec_succ_cases h
    · cases hr
    · rw [Nat.succ_add, exec_succ_of_next hbody, ih hrest]

/-- More fuel does not change how a loop was left. -/
theorem exec_add_of_exit (h : exec body n s = some (.exit t)) (m : Nat) :
    exec body (n + m) s = some (.exit t) := by
  induction n generalizing s with
  | zero => cases h
  | succ n ih =>
    rw [Nat.succ_add]
    obtain ⟨t', hbody, hr⟩ | ⟨t', hbody, hrest⟩ := exec_succ_cases h
    · cases hr
      exact exec_succ_of_exit hbody _
    · rw [exec_succ_of_next hbody, ih hrest]

/-- A loop is left in one state only, whatever the fuel. -/
theorem exec_exit_unique {m : Nat} (ht : exec body n s = some (.exit t))
    (hu : exec body m s = some (.exit u)) : t = u := by
  have hfuel := exec_add_of_exit ht m
  rw [Nat.add_comm, exec_add_of_exit hu] at hfuel
  cases hfuel
  rfl

/-- A loop that is left in `u` is left in `u` from every state it passes. -/
theorem exec_exit_of_next {m : Nat} (hnext : exec body n s = some (.next t))
    (hexit : exec body m s = some (.exit u)) : exec body m t = some (.exit u) := by
  rw [← exec_add_of_next hnext, Nat.add_comm, exec_add_of_exit hexit]

/-- The invariant rule, for a loop that has not been left. -/
theorem exec_next_invariant {P : σ → Prop} (next : ∀ s t, P s → body s = some (.next t) → P t)
    (hs : P s) (h : exec body n s = some (.next u)) : P u := by
  induction n generalizing s with
  | zero =>
    cases h
    exact hs
  | succ n ih =>
    obtain ⟨t, hbody, hr⟩ | ⟨t, hbody, hrest⟩ := exec_succ_cases h
    · cases hr
    · exact ih (next s t hs hbody) hrest

/-- The invariant rule: the rounds keep `P`, and the last one turns it into `Q`. -/
theorem exec_exit_invariant {P Q : σ → Prop} (next : ∀ s t, P s → body s = some (.next t) → P t)
    (exit : ∀ s t, P s → body s = some (.exit t) → Q t) (hs : P s)
    (h : exec body n s = some (.exit u)) : Q u := by
  induction n generalizing s with
  | zero => cases h
  | succ n ih =>
    obtain ⟨t, hbody, hr⟩ | ⟨t, hbody, hrest⟩ := exec_succ_cases h
    · cases hr
      exact exit s u hs hbody
    · exact ih (next s t hs hbody) hrest

end Loop
