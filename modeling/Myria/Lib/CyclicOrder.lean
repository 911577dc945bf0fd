import Mathlib.Algebra.Group.Fin.Basic
import Mathlib.Algebra.GroupWithZero.Nat
import Mathlib.Data.List.FinRange
import Mathlib.Data.List.Rotate

/-! The indices of a table in cyclic order. A search that starts after index `a`
and wraps around finds the next member of a set; moving on to it turns the list
of members by one place, and brings every other member closer. -/
namespace CyclicOrder

variable {n : ℕ}

/-- All indices from `a` on, wrapping around. -/
def startingAt (a : Fin n) : List (Fin n) := (List.finRange n).map (a + ·)

theorem length_startingAt (a : Fin n) : (startingAt a).length = n := by
  rw [startingAt, List.length_map, List.length_finRange]

theorem nodup_startingAt (a : Fin n) : (startingAt a).Nodup :=
  (List.nodup_finRange n).map fun _ _ h => add_left_cancel h

/-- The members of `P` in cyclic order from `a`. -/
def members (P : Fin n → Prop) [DecidablePred P] (a : Fin n) : List (Fin n) :=
  (startingAt a).filter P

theorem nodup_members (P : Fin n → Prop) [DecidablePred P] (a : Fin n) : (members P a).Nodup :=
  (nodup_startingAt a).filter _

theorem members_congr {P Q : Fin n → Prop} [DecidablePred P] [DecidablePred Q]
    (h : ∀ i, P i ↔ Q i) (a : Fin n) : members P a = members Q a :=
  List.filter_congr fun i _ => decide_eq_decide.mpr (h i)

variable [NeZero n] {P : Fin n → Prop} {a b : Fin n}

theorem mem_startingAt (a i : Fin n) : i ∈ startingAt a :=
  List.mem_map.mpr ⟨i - a, List.mem_finRange _, add_sub_cancel a i⟩

theorem getElem_startingAt (a : Fin n) {i : ℕ} (h : i < (startingAt a).length) :
    (startingAt a)[i] = a + Fin.ofNat n i := by
  have hi : i < n := length_startingAt a ▸ h
  simp only [startingAt, List.getElem_map, List.getElem_finRange]
  congr 1
  ext
  exact (Nat.mod_eq_of_lt hi).symm

theorem startingAt_add (a : Fin n) (k : ℕ) :
    startingAt (a + Fin.ofNat n k) = (startingAt a).rotate k := by
  apply List.ext_getElem
  · rw [List.length_rotate, length_startingAt, length_startingAt]
  · intro i hi hi'
    rw [List.getElem_rotate, getElem_startingAt, getElem_startingAt, add_assoc]
    congr 1
    ext
    simp [length_startingAt, Fin.val_add, Nat.add_comm]

/-- Cut the order at `b`: what stood before `b` comes last in the order from `b`. -/
theorem startingAt_of_split {xs ys : List (Fin n)} (h : startingAt a = xs ++ b :: ys) :
    startingAt b = b :: ys ++ xs := by
  have hlt : xs.length < (startingAt a).length := by
    rw [h, List.length_append, List.length_cons]
    omega
  have hb : b = a + Fin.ofNat n xs.length := by
    rw [← getElem_startingAt a hlt]
    simp [h]
  conv_lhs => rw [hb]
  rw [startingAt_add, h, List.rotate_append_length_eq]

theorem startingAt_eq_cons (a : Fin n) :
    ∃ rest, startingAt a = a :: rest ∧ startingAt (a + 1) = rest ++ [a] := by
  have hadd := startingAt_add a 1
  cases hs : startingAt a with
  | nil => exact absurd (hs ▸ mem_startingAt a a) List.not_mem_nil
  | cons b rest =>
    have hb : b = a := by
      have hlt : 0 < (startingAt a).length := by simp [hs]
      have hget := getElem_startingAt a hlt
      simpa [hs] using hget
    rw [hs, hb] at hadd
    rw [List.rotate_cons_succ, List.rotate_zero] at hadd
    exact ⟨rest, by rw [hb], hadd⟩

section

variable [DecidablePred P]

theorem mem_members {i : Fin n} : i ∈ members P a ↔ P i := by
  simp [members, mem_startingAt]

theorem head_members (ha : P a) : (members P a)[0]? = some a := by
  obtain ⟨rest, hrest, -⟩ := startingAt_eq_cons a
  simp [members, hrest, ha]

end

/-- `b` is the first member of `P` that comes after `a`. -/
def Next (P : Fin n → Prop) (a b : Fin n) : Prop :=
  ∃ xs ys, startingAt a = a :: xs ++ b :: ys ∧ ∀ x ∈ xs, ¬ P x

/-- The wrapping search from `a + 1` over the other members finds the next one. -/
theorem next_of_search {p : Fin n → Bool} (hP : ∀ i, P i ↔ p i = true ∨ i = a)
    (ha : p a = false) (h : (startingAt (a + 1)).find? p = some b) : Next P a b := by
  obtain ⟨rest, hfrom, hnext⟩ := startingAt_eq_cons a
  have hfresh : a ∉ rest := by
    have hnd := nodup_startingAt a
    rw [hfrom] at hnd
    exact (List.nodup_cons.mp hnd).1
  rw [hnext, List.find?_append] at h
  cases hr : rest.find? p with
  | none => simp [hr, ha] at h
  | some c =>
    obtain rfl : c = b := by simpa [hr] using h
    obtain ⟨-, xs, ys, hsplit, hskip⟩ := List.find?_eq_some_iff_append.mp hr
    refine ⟨xs, ys, by rw [hfrom, hsplit]; rfl, fun x hx hPx => ?_⟩
    rcases (hP x).mp hPx with hp | rfl
    · simpa [hp] using hskip x hx
    · exact hfresh (by rw [hsplit]; exact List.mem_append_left _ hx)

/-- If the search finds nothing, `a` is the only member. -/
theorem members_of_search_none [DecidablePred P] {p : Fin n → Bool}
    (hP : ∀ i, P i ↔ p i = true ∨ i = a)
    (h : (startingAt (a + 1)).find? p = none) : members P a = [a] := by
  obtain ⟨rest, hfrom, hnext⟩ := startingAt_eq_cons a
  have hnone : ∀ x ∈ rest, ¬ P x := by
    intro x hx hPx
    rcases (hP x).mp hPx with hp | rfl
    · exact List.find?_eq_none.mp h x (by rw [hnext]; exact List.mem_append_left _ hx) hp
    · have hnd := nodup_startingAt x
      rw [hfrom] at hnd
      exact (List.nodup_cons.mp hnd).1 hx
  rw [members, hfrom, List.filter_cons, if_pos (by simpa using (hP a).mpr (.inr rfl)),
    List.filter_eq_nil_iff.mpr (by simpa using hnone)]

theorem Next.members_rotate [DecidablePred P] (h : Next P a b) (ha : P a) :
    members P b = (members P a).rotate 1 := by
  obtain ⟨xs, ys, hsplit, hskip⟩ := h
  have hnil : xs.filter P = [] := List.filter_eq_nil_iff.mpr (by simpa using hskip)
  have hmembers : members P a = a :: (b :: ys).filter P := by
    rw [members, hsplit, List.filter_append, List.filter_cons, if_pos (by simpa using ha), hnil]
    rfl
  have hturned : members P b = (b :: ys).filter P ++ [a] := by
    have hcut : (a :: xs).filter P = [a] := by
      rw [List.filter_cons, if_pos (by simpa using ha), hnil]
    rw [members, startingAt_of_split hsplit, List.filter_append, hcut]
  rw [hturned, hmembers, List.rotate_cons_succ, List.rotate_zero]

/-- How many places the search from `a` is away from `t`. -/
def distance (a t : Fin n) : ℕ := (startingAt a).idxOf t

theorem distance_lt (a t : Fin n) : distance a t < n := by
  have h := List.idxOf_lt_length_of_mem (mem_startingAt a t)
  rwa [length_startingAt] at h

theorem distance_pos {t : Fin n} (h : t ≠ a) : 0 < distance a t := by
  obtain ⟨rest, hfrom, -⟩ := startingAt_eq_cons a
  rw [distance, hfrom, List.idxOf_cons_ne _ h.symm]
  exact Nat.succ_pos _

/-- Moving on to the next member brings every other member closer. -/
theorem Next.distance_lt (h : Next P a b) {t : Fin n} (ht : P t) (hta : t ≠ a) :
    distance b t < distance a t := by
  obtain ⟨xs, ys, hsplit, hskip⟩ := h
  have hnot : t ∉ a :: xs := by
    intro hmem
    rcases List.mem_cons.mp hmem with rfl | hmem
    · exact hta rfl
    · exact hskip t hmem ht
  have hin : t ∈ b :: ys := by
    have hmem := mem_startingAt a t
    rw [hsplit] at hmem
    exact (List.mem_append.mp hmem).resolve_left hnot
  rw [distance, distance, startingAt_of_split hsplit, hsplit, List.idxOf_append_of_mem hin,
    List.idxOf_append_of_notMem hnot, List.length_cons]
  omega

end CyclicOrder
