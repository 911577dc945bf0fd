import Mathlib.Data.List.Basic

/-! Computations that remember the states they go through, so that a property can
be asked of every intermediate state and not only of the last one. Nothing is
ever taken back: a later trace extends an earlier one. -/
namespace Trace

variable {σ α : Type}

/-- The present state and all states before it, the latest first. -/
structure Traced (σ : Type) where
  now : σ
  past : List σ

namespace Traced

def start (s : σ) : Traced σ := ⟨s, []⟩

def states (r : Traced σ) : List σ := r.now :: r.past

/-- Go on to state `s`. -/
def put (r : Traced σ) (s : σ) : Traced σ := ⟨s, r.states⟩

@[simp] theorem now_put (r : Traced σ) (s : σ) : (r.put s).now = s := rfl

theorem mem_put {r : Traced σ} {s x : σ} : x ∈ (r.put s).states ↔ x = s ∨ x ∈ r.states :=
  List.mem_cons

/-- `r'` is `r` continued. -/
def Extends (r r' : Traced σ) : Prop := r.states <:+ r'.states

theorem Extends.refl (r : Traced σ) : Extends r r := List.suffix_refl _

theorem Extends.trans {r r' r'' : Traced σ} (h : Extends r r') (h' : Extends r' r'') :
    Extends r r'' := List.IsSuffix.trans h h'

theorem Extends.put {r r' : Traced σ} (h : Extends r r') (s : σ) : Extends r (r'.put s) :=
  h.trans (List.suffix_cons s r'.states)

/-- A loop extends the trace when its body does. -/
theorem extends_foldl {f : Traced σ → α → Traced σ} (hf : ∀ r a, Extends r (f r a)) (l : List α)
    (r : Traced σ) : Extends r (l.foldl f r) := by
  induction l generalizing r with
  | nil => exact Extends.refl r
  | cons a l ih => exact (hf r a).trans (ih (f r a))

/-- `P` holds of every state gone through. -/
def Throughout (P : σ → Prop) (r : Traced σ) : Prop := ∀ x ∈ r.states, P x

variable {P : σ → Prop}

theorem Throughout.now {r : Traced σ} (h : Throughout P r) : P r.now := h r.now List.mem_cons_self

theorem Throughout.put {r : Traced σ} (h : Throughout P r) {s : σ} (hs : P s) :
    Throughout P (r.put s) := by
  intro x hx
  rcases mem_put.mp hx with rfl | hx
  · exact hs
  · exact h x hx

/-- What went wrong once stays on record. -/
theorem Throughout.of_extends {r r' : Traced σ} (h : Throughout P r') (he : Extends r r') :
    Throughout P r := fun x hx => h x (he.subset hx)

end Traced

end Trace
