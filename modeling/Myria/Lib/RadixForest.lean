import Mathlib.Data.List.Induction

/-! Radix trees laid out as linked tables. `child n i` is the table that slot
`i` of table `n` refers to; a path of slots is walked from a root. A forest is
a set of roots from which no table is reached twice within the depth bound.

Three edits keep a forest a forest and are all a page-table editor needs:
linking an empty unreached table under an empty slot, adding an empty
unreached table as a new root, and changing slots of tables that lie at the
depth bound. Each comes with the exact effect on every walk. -/
namespace RadixForest

variable {ν ι : Type}

/-- Follow the slots of `p` from table `n`. -/
def walk (child : ν → ι → Option ν) (n : ν) : List ι → Option ν
  | [] => some n
  | i :: p => (child n i).bind (walk child · p)

@[simp] theorem walk_nil (child : ν → ι → Option ν) (n : ν) : walk child n [] = some n := rfl

theorem walk_append (child : ν → ι → Option ν) (n : ν) (p q : List ι) :
    walk child n (p ++ q) = (walk child n p).bind (walk child · q) := by
  induction p generalizing n with
  | nil => rfl
  | cons i p ih =>
    cases h : child n i with
    | none => simp [walk, h]
    | some m => simp [walk, h, ih]

theorem walk_concat (child : ν → ι → Option ν) (n : ν) (p : List ι) (i : ι) :
    walk child n (p ++ [i]) = (walk child n p).bind (child · i) := by
  rw [walk_append]
  congr 1
  funext m
  cases h : child m i <;> simp [walk, h]

theorem length_concat_le {p : List ι} (i : ι) {d : Nat} (h : p.length ≤ d) :
    (p ++ [i]).length ≤ d + 1 := by
  rw [List.length_append]
  exact Nat.succ_le_succ h

theorem length_lt_of_isPrefix_concat {p q : List ι} {i : ι} (h : p ++ [i] <+: q) :
    p.length < q.length := by
  have hle := h.length_le
  rwa [List.length_append] at hle

/-- Follow `p` from table `n` as far as it goes: the last table and the slots left. -/
def walkEnd (child : ν → ι → Option ν) (n : ν) : List ι → ν × List ι
  | [] => (n, [])
  | i :: p =>
    match child n i with
    | none => (n, i :: p)
    | some m => walkEnd child m p

theorem walkEnd_cons_of_none {child : ν → ι → Option ν} {n : ν} {i : ι} (h : child n i = none)
    (p : List ι) : walkEnd child n (i :: p) = (n, i :: p) := by
  simp only [walkEnd, h]

theorem walkEnd_cons_of_some {child : ν → ι → Option ν} {n m : ν} {i : ι} (h : child n i = some m)
    (p : List ι) : walkEnd child n (i :: p) = walkEnd child m p := by
  simp only [walkEnd, h]

/-- Where the walk ends, the next slot is empty. -/
theorem child_of_walkEnd {child : ν → ι → Option ν} {n m : ν} {p q : List ι} {i : ι}
    (h : walkEnd child n p = (m, i :: q)) : child m i = none := by
  induction p generalizing n with
  | nil => cases h
  | cons j p ih =>
    cases hc : child n j with
    | none =>
      rw [walkEnd_cons_of_none hc] at h
      cases h
      exact hc
    | some u => exact ih ((walkEnd_cons_of_some hc p).symm.trans h)

/-- The path splits into the part that was walked and the part that is left. -/
theorem walk_of_walkEnd {child : ν → ι → Option ν} {n m : ν} {p q : List ι}
    (h : walkEnd child n p = (m, q)) : ∃ p', p = p' ++ q ∧ walk child n p' = some m := by
  induction p generalizing n with
  | nil =>
    cases h
    exact ⟨[], rfl, rfl⟩
  | cons j p ih =>
    cases hc : child n j with
    | none =>
      rw [walkEnd_cons_of_none hc] at h
      cases h
      exact ⟨[], rfl, rfl⟩
    | some u =>
      obtain ⟨p', rfl, hw⟩ := ih ((walkEnd_cons_of_some hc p).symm.trans h)
      exact ⟨j :: p', rfl, by rw [walk, hc, Option.bind_some, hw]⟩

theorem walk_eq_none_of_walkEnd {child : ν → ι → Option ν} {n m : ν} {p q : List ι} {i : ι}
    (h : walkEnd child n p = (m, i :: q)) : walk child n p = none := by
  obtain ⟨p', rfl, hw⟩ := walk_of_walkEnd h
  rw [walk_append, hw, Option.bind_some, walk, child_of_walkEnd h, Option.bind_none]

/-- `n` is reached from some root in at most `d` steps. -/
def Reached (child : ν → ι → Option ν) (Root : ν → Prop) (d : Nat) (n : ν) : Prop :=
  ∃ r p, Root r ∧ p.length ≤ d ∧ walk child r p = some n

/-- Every table reached within `d` steps is reached by exactly one path. -/
def Forest (child : ν → ι → Option ν) (Root : ν → Prop) (d : Nat) : Prop :=
  ∀ r r' p p' n, Root r → Root r' → p.length ≤ d → p'.length ≤ d →
    walk child r p = some n → walk child r' p' = some n → r = r' ∧ p = p'

/-- Walks only look at the tables they pass through. -/
theorem walk_congr {child child' : ν → ι → Option ν} {r : ν} {d : Nat}
    (h : ∀ p m, p.length < d → walk child r p = some m → ∀ j, child' m j = child m j) :
    ∀ p, p.length ≤ d → walk child' r p = walk child r p := by
  intro p
  induction p using List.reverseRecOn with
  | nil => intro _; rfl
  | append_singleton p j ih =>
    intro hp
    have hlt : p.length < d := by simp at hp; omega
    rw [walk_concat, walk_concat, ih (Nat.le_of_lt hlt)]
    cases hw : walk child r p with
    | none => rfl
    | some m => exact h p m hlt hw j

/-- Two roots with the same table behind slot `i` agree on every walk through
it, as long as the tables on the way do. -/
theorem walk_cons_congr {child child' : ν → ι → Option ν} {r r' : ν} {i : ι} {d : Nat}
    (hroot : child' r' i = child r i)
    (h : ∀ p m, p.length < d → walk child r (i :: p) = some m → ∀ j, child' m j = child m j) :
    ∀ p, p.length ≤ d → walk child' r' (i :: p) = walk child r (i :: p) := by
  intro p hp
  rw [walk, walk, hroot]
  cases hc : child r i with
  | none => rfl
  | some n =>
    refine walk_congr (fun q m hq hw => h q m hq ?_) p hp
    rw [walk, hc]
    exact hw

theorem Forest.congr {child child' : ν → ι → Option ν} {Root : ν → Prop} {d : Nat}
    (hF : Forest child Root d)
    (h : ∀ r p, Root r → p.length ≤ d → walk child' r p = walk child r p) :
    Forest child' Root d := by
  intro r r' p p' n hr hr' hp hp' hw hw'
  exact hF r r' p p' n hr hr' hp hp' ((h r p hr hp).symm.trans hw)
    ((h r' p' hr' hp').symm.trans hw')

/-- Tables at different depths are different tables. -/
theorem Forest.ne_of_length_ne {child : ν → ι → Option ν} {Root : ν → Prop} {d : Nat}
    (hF : Forest child Root d) {r r' n n' : ν} {p p' : List ι} (hr : Root r) (hr' : Root r')
    (hp : p.length ≤ d) (hp' : p'.length ≤ d) (hw : walk child r p = some n)
    (hw' : walk child r' p' = some n') (hlen : p.length ≠ p'.length) : n ≠ n' := by
  intro heq
  subst heq
  obtain ⟨-, rfl⟩ := hF r r' p p' n hr hr' hp hp' hw hw'
  exact hlen rfl

/-- Tables at the depth bound are never passed through, so their slots can be
changed freely. -/
theorem Forest.walk_bottom {child child' : ν → ι → Option ν} {Root : ν → Prop} {d : Nat}
    (hF : Forest child Root d) {r₀ n : ν} {p₀ : List ι} (hr₀ : Root r₀)
    (hp₀ : p₀.length = d) (hw₀ : walk child r₀ p₀ = some n)
    (hagree : ∀ m j, Reached child Root d m → m ≠ n → child' m j = child m j) {r : ν}
    (hr : Root r) :
    ∀ p, p.length ≤ d → walk child' r p = walk child r p := by
  refine walk_congr fun p m hp hw j => hagree m j ⟨r, p, hr, Nat.le_of_lt hp, hw⟩ ?_
  exact hF.ne_of_length_ne hr hr₀ (Nat.le_of_lt hp) (Nat.le_of_eq hp₀) hw hw₀ (by omega)

/-! ## Linking an empty table under an empty slot -/

/-- `child'` is `child` with the unreached table `f`, empty now, entered in
slot `i` of the table `n` that path `p₀` leads to. -/
structure Link (child child' : ν → ι → Option ν) (Root : ν → Prop) (d : Nat)
    (r₀ : ν) (p₀ : List ι) (n : ν) (i : ι) (f : ν) : Prop where
  root : Root r₀
  depth : p₀.length < d
  walks : walk child r₀ p₀ = some n
  empty : child n i = none
  fresh : ¬ Reached child Root d f
  agree : ∀ m j, Reached child Root d m → ¬ (m = n ∧ j = i) → child' m j = child m j
  links : child' n i = some f
  leaf : ∀ j, child' f j = none

section Link

variable {child child' : ν → ι → Option ν} {Root : ν → Prop} {d : Nat}
  {r₀ n f : ν} {p₀ : List ι} {i : ι}

/-- One new walk, all others as before. -/
theorem Forest.walk_link [DecidableEq ν] [DecidableEq ι] (hF : Forest child Root d)
    (L : Link child child' Root d r₀ p₀ n i f) {r : ν} (hr : Root r) :
    ∀ p, p.length ≤ d →
      walk child' r p = if r = r₀ ∧ p = p₀ ++ [i] then some f else walk child r p := by
  intro p
  induction p using List.reverseRecOn with
  | nil => intro _; simp
  | append_singleton p j ih =>
    intro hp
    have hpd : p.length ≤ d := by simp at hp; omega
    rw [walk_concat, ih hpd]
    by_cases hnew : r = r₀ ∧ p = p₀ ++ [i]
    · -- the walk would leave the new table, which is empty
      obtain ⟨rfl, rfl⟩ := hnew
      rw [if_pos ⟨rfl, rfl⟩, if_neg (by simp), walk_concat, walk_concat, L.walks]
      simp [L.empty, L.leaf j]
    · rw [if_neg hnew]
      cases hw : walk child r p with
      | none =>
        have hne : ¬ (r = r₀ ∧ p ++ [j] = p₀ ++ [i]) := by
          rintro ⟨rfl, heq⟩
          obtain ⟨rfl, -⟩ : p = p₀ ∧ j = i := by simpa using heq
          rw [L.walks] at hw
          cases hw
        rw [if_neg hne, walk_concat, hw]
        rfl
      | some m =>
        by_cases hat : m = n ∧ j = i
        · obtain ⟨rfl, rfl⟩ := hat
          obtain ⟨rfl, rfl⟩ :=
            hF r r₀ p p₀ m hr L.root hpd (Nat.le_of_lt L.depth) hw L.walks
          rw [if_pos ⟨rfl, rfl⟩]
          exact L.links
        · have hne : ¬ (r = r₀ ∧ p ++ [j] = p₀ ++ [i]) := by
            rintro ⟨rfl, heq⟩
            obtain ⟨rfl, rfl⟩ : p = p₀ ∧ j = i := by simpa using heq
            exact hat ⟨Option.some.inj (hw.symm.trans L.walks), rfl⟩
          rw [if_neg hne, walk_concat, hw]
          exact L.agree m j ⟨r, p, hr, hpd, hw⟩ hat

theorem Forest.link (hF : Forest child Root d) (L : Link child child' Root d r₀ p₀ n i f) :
    Forest child' Root d := by
  classical
  intro r r' p p' m hr hr' hp hp' hw hw'
  rw [hF.walk_link L hr p hp] at hw
  rw [hF.walk_link L hr' p' hp'] at hw'
  split at hw <;> split at hw'
  · rename_i h h'
    exact ⟨h.1.trans h'.1.symm, h.2.trans h'.2.symm⟩
  · cases Option.some.inj hw
    exact absurd ⟨r', p', hr', hp', hw'⟩ L.fresh
  · cases Option.some.inj hw'
    exact absurd ⟨r, p, hr, hp, hw⟩ L.fresh
  · exact hF r r' p p' m hr hr' hp hp' hw hw'

/-- Linking reaches the new table and no other new one. -/
theorem Forest.reached_link (hF : Forest child Root d)
    (L : Link child child' Root d r₀ p₀ n i f) {m : ν} (h : Reached child' Root d m) :
    m = f ∨ Reached child Root d m := by
  classical
  obtain ⟨r, p, hr, hp, hw⟩ := h
  rw [hF.walk_link L hr p hp] at hw
  split at hw
  · exact .inl (Option.some.inj hw).symm
  · exact .inr ⟨r, p, hr, hp, hw⟩

end Link

/-! ## Adding an empty table as a new root -/

/-- `child'` is `child` with the unreached table `f` emptied. -/
structure Fresh (child child' : ν → ι → Option ν) (Root : ν → Prop) (d : Nat) (f : ν) : Prop where
  fresh : ¬ Reached child Root d f
  agree : ∀ m j, Reached child Root d m → child' m j = child m j
  leaf : ∀ j, child' f j = none

section AddRoot

variable {child child' : ν → ι → Option ν} {Root : ν → Prop} {d : Nat} {f : ν}

/-- Walks from the old roots only look at tables reached before. -/
theorem walk_reached_congr
    (hagree : ∀ m j, Reached child Root d m → child' m j = child m j) {r : ν} (hr : Root r) :
    ∀ p, p.length ≤ d → walk child' r p = walk child r p :=
  walk_congr fun p m hp hw j => hagree m j ⟨r, p, hr, Nat.le_of_lt hp, hw⟩

theorem walk_empty (hleaf : ∀ j, child' f j = none) {p : List ι} {m : ν}
    (hw : walk child' f p = some m) : p = [] ∧ m = f := by
  cases p with
  | nil => exact ⟨rfl, (Option.some.inj hw).symm⟩
  | cons j p => simp [walk, hleaf j] at hw

theorem Forest.addRoot (hF : Forest child Root d) (N : Fresh child child' Root d f) :
    Forest child' (fun r => r = f ∨ Root r) d := by
  have hold : ∀ {r p m}, Root r → p.length ≤ d → walk child' r p = some m →
      walk child r p = some m ∧ m ≠ f := by
    intro r p m hr hp hw
    rw [walk_reached_congr N.agree hr p hp] at hw
    refine ⟨hw, ?_⟩
    rintro rfl
    exact N.fresh ⟨r, p, hr, hp, hw⟩
  rintro r r' p p' m (rfl | hr) (rfl | hr') hp hp' hw hw'
  · obtain ⟨rfl, -⟩ := walk_empty N.leaf hw
    obtain ⟨rfl, -⟩ := walk_empty N.leaf hw'
    exact ⟨rfl, rfl⟩
  · exact absurd (walk_empty N.leaf hw).2 (hold hr' hp' hw').2
  · exact absurd (walk_empty N.leaf hw').2 (hold hr hp hw).2
  · exact hF r r' p p' m hr hr' hp hp' (hold hr hp hw).1 (hold hr' hp' hw').1

theorem reached_addRoot (N : Fresh child child' Root d f) {m : ν}
    (h : Reached child' (fun r => r = f ∨ Root r) d m) : m = f ∨ Reached child Root d m := by
  obtain ⟨r, p, rfl | hr, hp, hw⟩ := h
  · exact .inl (walk_empty N.leaf hw).2
  · exact .inr ⟨r, p, hr, hp, (walk_reached_congr N.agree hr p hp).symm.trans hw⟩

end AddRoot

end RadixForest
