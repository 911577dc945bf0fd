import Mathlib.Data.List.Induction

/-! Runs of a guarded step function. An operation the step function refuses
ends the run with `none`, so a client's discipline is stated as a guard and a
run that returns `some` kept it throughout. Nothing here knows what is run. -/
namespace Runs

variable {σ ω : Type}

/-- Apply the operations from first to last. -/
def run (step : σ → ω → Option σ) (s : σ) (ops : List ω) : Option σ :=
  ops.foldlM step s

@[simp] theorem run_nil (step : σ → ω → Option σ) (s : σ) :
    run step s [] = some s := rfl

theorem run_cons_of_step {step : σ → ω → Option σ} {s t : σ} {op : ω} (h : step s op = some t)
    (ops : List ω) : run step s (op :: ops) = run step t ops := by
  rw [run, List.foldlM_cons, h]
  rfl

theorem run_append (step : σ → ω → Option σ) (s : σ) (ops ops' : List ω) :
    run step s (ops ++ ops') = (run step s ops).bind (run step · ops') := by
  simp only [run, List.foldlM_append]
  rfl

theorem run_concat (step : σ → ω → Option σ) (s : σ) (ops : List ω) (op : ω) :
    run step s (ops ++ [op]) = (run step s ops).bind (step · op) := by
  rw [run_append]
  congr 1
  funext t
  cases h : step t op <;> simp [run, h]

/-- Split off the first operation of a successful run. -/
theorem run_cons_eq_some {step : σ → ω → Option σ} {s u : σ} {ops : List ω} {op : ω}
    (h : run step s (op :: ops) = some u) : ∃ t, step s op = some t ∧ run step t ops = some u :=
  Option.bind_eq_some_iff.mp h

/-- Split off the last operation of a successful run. -/
theorem run_concat_eq_some {step : σ → ω → Option σ} {s t : σ} {ops : List ω} {op : ω}
    (h : run step s (ops ++ [op]) = some t) :
    ∃ u, run step s ops = some u ∧ step u op = some t := by
  rw [run_concat] at h
  exact Option.bind_eq_some_iff.mp h

/-- The invariant rule, with the history available to the invariant. -/
theorem run_invariant {step : σ → ω → Option σ} {s : σ} {P : List ω → σ → Prop}
    (init : P [] s)
    (next : ∀ ops t op t', run step s ops = some t → P ops t →
      step t op = some t' → P (ops ++ [op]) t') :
    ∀ ops t, run step s ops = some t → P ops t := by
  intro ops
  induction ops using List.reverseRecOn with
  | nil =>
    intro t h
    cases Option.some.inj h
    exact init
  | append_singleton ops op ih =>
    intro t h
    obtain ⟨u, hu, hs⟩ := run_concat_eq_some h
    exact next ops u op t hu (ih u hu) hs

/-- `Q` holds in the first state of the run and after each of its operations. -/
def Always (step : σ → ω → Option σ) (s : σ) (Q : σ → Prop) (ops : List ω) : Prop :=
  ∀ pre t, pre <+: ops → run step s pre = some t → Q t

/-- Every operation of the run meets `C` in the state it is applied to. -/
def StepsMeet (step : σ → ω → Option σ) (s : σ) (C : σ → ω → Prop) (ops : List ω) : Prop :=
  ∀ pre op t, pre ++ [op] <+: ops → run step s pre = some t → C t op

theorem StepsMeet.of_prefix {step : σ → ω → Option σ} {s : σ} {C : σ → ω → Prop}
    {ops ops' : List ω} (h : StepsMeet step s C ops) (hp : ops' <+: ops) :
    StepsMeet step s C ops' :=
  fun pre op t hpre => h pre op t (hpre.trans hp)

theorem StepsMeet.nil (step : σ → ω → Option σ) (s : σ) (C : σ → ω → Prop) :
    StepsMeet step s C [] := by
  intro pre op t hpre
  simp at hpre

theorem StepsMeet.cons {step : σ → ω → Option σ} {s t : σ} {C : σ → ω → Prop} {op : ω}
    {ops : List ω} (hop : C s op) (hs : step s op = some t) (hrest : StepsMeet step t C ops) :
    StepsMeet step s C (op :: ops) := by
  intro pre op' u hpre hrun
  cases pre with
  | nil =>
    cases Option.some.inj hrun
    obtain ⟨rfl, -⟩ := List.cons_prefix_cons.mp hpre
    exact hop
  | cons first pre =>
    obtain ⟨rfl, htail⟩ := List.cons_prefix_cons.mp hpre
    rw [run_cons_of_step hs] at hrun
    exact hrest pre op' u htail hrun

/-- An invariant kept by the operations that meet `C` holds along every run
made of such operations. -/
theorem StepsMeet.invariant {step : σ → ω → Option σ} {s : σ} {C : σ → ω → Prop}
    {I : σ → Prop} (init : I s)
    (next : ∀ t op t', I t → C t op → step t op = some t' → I t')
    {ops : List ω} (h : StepsMeet step s C ops) : Always step s I ops := by
  intro pre t hpre hrun
  have hmeet := h.of_prefix hpre
  refine run_invariant (P := fun ops t => StepsMeet step s C ops → I t)
    (fun _ => init) ?_ pre t hrun hmeet
  intro ops u op u' hu ih hs hm
  exact next u op u' (ih (hm.of_prefix (List.prefix_append ops [op])))
    (hm ops op u (List.prefix_refl _) hu) hs

/-- When in addition a step that misses `C` breaks `Q`, then along a run that
goes through, `Q` always holds exactly when every step meets `C`. -/
theorem always_iff_stepsMeet {step : σ → ω → Option σ} {s : σ} {C : σ → ω → Prop}
    {I Q : σ → Prop} (init : I s) (good : ∀ t, I t → Q t)
    (next : ∀ t op t', I t → C t op → step t op = some t' → I t')
    (bad : ∀ t op t', I t → ¬ C t op → step t op = some t' → ¬ Q t')
    {ops : List ω} {u : σ} (hrun : run step s ops = some u) :
    Always step s Q ops ↔ StepsMeet step s C ops := by
  constructor
  · -- by induction on the run: the first step that misses `C` would break `Q`
    intro hQ
    refine run_invariant
      (P := fun ops _ => Always step s Q ops → StepsMeet step s C ops)
      ?_ ?_ ops u hrun hQ
    · intro _ pre op t hpre
      simp at hpre
    · intro ops t op t' ht ih hs hA
      have hprev : StepsMeet step s C ops :=
        ih (fun pre v hp => hA pre v (hp.trans (List.prefix_append ops [op])))
      have hI : I t := hprev.invariant init next ops t (List.prefix_refl _) ht
      intro pre op' v hpre hv
      rcases List.prefix_concat_iff.mp hpre with heq | hlt
      · obtain ⟨rfl, rfl⟩ : pre = ops ∧ op' = op := by simpa using heq
        cases Option.some.inj (ht.symm.trans hv)
        by_contra hC
        refine bad t op' t' hI hC hs (hA _ t' (List.prefix_refl _) ?_)
        rw [run_concat, ht]
        exact hs
      · exact hprev pre op' v hlt hv
  · intro hm pre t hpre ht
    exact good t (hm.invariant init next pre t hpre ht)

/-! ## Runs of a relation -/

/-- The relation `step` leads from one state to the other along the labels. -/
inductive Reach (step : σ → ω → σ → Prop) : σ → List ω → σ → Prop
  | nil (s : σ) : Reach step s [] s
  | cons {s t u : σ} {op : ω} {ops : List ω} : step s op t → Reach step t ops u →
    Reach step s (op :: ops) u

/-- **Simulation.** When every step can be followed on the other side, so can every run. -/
theorem Reach.simulates {τ : Type} {step : σ → ω → σ → Prop} {step' : τ → ω → τ → Prop}
    {R : σ → τ → Prop} {s t : σ} {a : τ} {ops : List ω}
    (hsim : ∀ s a op s', R s a → step s op s' → ∃ a', step' a op a' ∧ R s' a')
    (h : Reach step s ops t) (hR : R s a) : ∃ b, Reach step' a ops b ∧ R t b := by
  induction h generalizing a with
  | nil s => exact ⟨a, .nil a, hR⟩
  | cons hstep _ ih =>
    obtain ⟨a', hstep', hR'⟩ := hsim _ _ _ _ hR hstep
    obtain ⟨b, hrun, hR''⟩ := ih hR'
    exact ⟨b, .cons hstep' hrun, hR''⟩

end Runs
