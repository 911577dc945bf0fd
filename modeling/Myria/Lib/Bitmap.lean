import Mathlib.Data.BitVec
import Mathlib.Data.Finset.Card
import Mathlib.Data.Nat.Find

/-! Bits packed eight to a byte, and the search for the first run of `count`
indices that are all free. The search may start anywhere as long as nothing
below its start is free. -/
namespace Bitmap

abbrev Bytes := Nat → BitVec 8

def test (b : Bytes) (i : Nat) : Bool := b (i / 8) &&& (1#8 <<< (i % 8)) != 0

def set (b : Bytes) (i : Nat) : Bytes :=
  Function.update b (i / 8) (b (i / 8) ||| (1#8 <<< (i % 8)))

def clear (b : Bytes) (i : Nat) : Bytes :=
  Function.update b (i / 8) (b (i / 8) &&& ~~~(1#8 <<< (i % 8)))

theorem test_eq_getLsbD (b : Bytes) (i : Nat) : test b i = (b (i / 8)).getLsbD (i % 8) := by
  have hlt : i % 8 < 8 := Nat.mod_lt i (by decide)
  have hne : ∀ k < 8, BitVec.twoPow 8 k ≠ 0#8 := by decide
  rw [test, ← BitVec.twoPow_eq, BitVec.and_twoPow]
  split
  case isTrue h => simp [h, hne _ hlt]
  case isFalse h => simp [h]

/-- Two indices with the same byte and the same place in it are equal. -/
theorem index_ext {i j : Nat} (hbyte : i / 8 = j / 8) (hbit : i % 8 = j % 8) : i = j := by
  omega

theorem test_set (b : Bytes) (i j : Nat) : test (set b i) j = (decide (j = i) || test b j) := by
  have hi : i % 8 < 8 := Nat.mod_lt i (by decide)
  rw [test_eq_getLsbD, test_eq_getLsbD, set]
  by_cases hbyte : j / 8 = i / 8
  · have hij : j % 8 = i % 8 ↔ j = i := ⟨fun h => index_ext hbyte h, fun h => by rw [h]⟩
    rw [hbyte, Function.update_self, ← BitVec.twoPow_eq, BitVec.getLsbD_or, BitVec.getLsbD_twoPow]
    simp [hi, ← hij, Bool.or_comm, eq_comm]
  · have hne : j ≠ i := fun h => hbyte (by rw [h])
    rw [Function.update_of_ne hbyte]
    simp [hne]

theorem test_clear (b : Bytes) (i j : Nat) :
    test (clear b i) j = (decide (j ≠ i) && test b j) := by
  have hi : i % 8 < 8 := Nat.mod_lt i (by decide)
  have hj : j % 8 < 8 := Nat.mod_lt j (by decide)
  rw [test_eq_getLsbD, test_eq_getLsbD, clear]
  by_cases hbyte : j / 8 = i / 8
  · have hij : j % 8 = i % 8 ↔ j = i := ⟨fun h => index_ext hbyte h, fun h => by rw [h]⟩
    rw [hbyte, Function.update_self, ← BitVec.twoPow_eq, BitVec.getLsbD_and, BitVec.getLsbD_not,
      BitVec.getLsbD_twoPow]
    simp [hi, hj, ← hij, Bool.and_comm, eq_comm]
  · have hne : j ≠ i := fun h => hbyte (by rw [h])
    rw [Function.update_of_ne hbyte]
    simp [hne]

/-- A loop that sets `n` bits from `i` on. -/
theorem test_foldl_set (b : Bytes) (i n j : Nat) :
    test ((List.range n).foldl (fun b k => set b (i + k)) b) j =
      (decide (i ≤ j ∧ j < i + n) || test b j) := by
  induction n with
  | zero => simp
  | succ n ih =>
    rw [List.range_succ, List.foldl_append, List.foldl_cons, List.foldl_nil, test_set, ih,
      ← Bool.or_assoc]
    congr 1
    rw [← Bool.decide_or, decide_eq_decide]
    omega

/-- A loop that clears `n` bits from `i` on. -/
theorem test_foldl_clear (b : Bytes) (i n j : Nat) :
    test ((List.range n).foldl (fun b k => clear b (i + k)) b) j =
      (!decide (i ≤ j ∧ j < i + n) && test b j) := by
  induction n with
  | zero =>
    have hnone : ¬ (i ≤ j ∧ j < i + 0) := by omega
    rw [decide_eq_false hnone]
    rfl
  | succ n ih =>
    rw [List.range_succ, List.foldl_append, List.foldl_cons, List.foldl_nil, test_clear, ih,
      ← Bool.and_assoc]
    congr 1
    rw [← decide_not, ← decide_not, ← Bool.decide_and, decide_eq_decide]
    omega

/-- The bits say all there is to say about the bytes. -/
theorem ext_test {b c : Bytes} (h : ∀ i, test b i = test c i) : b = c := by
  funext k
  apply BitVec.eq_of_getLsbD_eq
  intro j hj
  have hbit := h (8 * k + j)
  have hbyte : (8 * k + j) / 8 = k := by omega
  have hplace : (8 * k + j) % 8 = j := by omega
  rwa [test_eq_getLsbD, test_eq_getLsbD, hbyte, hplace] at hbit

theorem clear_set {b : Bytes} {i : Nat} (hfree : test b i = false) : clear (set b i) i = b := by
  apply ext_test
  intro j
  rw [test_clear, test_set]
  by_cases hj : j = i
  · simp [hj, hfree]
  · simp [hj]

theorem set_clear {b : Bytes} {i : Nat} (hused : test b i = true) : set (clear b i) i = b := by
  apply ext_test
  intro j
  rw [test_set, test_clear]
  by_cases hj : j = i
  · simp [hj, hused]
  · simp [hj]

/-- Setting free bits and clearing them again. -/
theorem clear_foldl_set {b : Bytes} {start n : Nat}
    (hfree : ∀ k < n, test b (start + k) = false) :
    (List.range n).foldl (fun b k => clear b (start + k))
      ((List.range n).foldl (fun b k => set b (start + k)) b) = b := by
  apply ext_test
  intro j
  rw [test_foldl_clear, test_foldl_set]
  by_cases hj : start ≤ j ∧ j < start + n
  · have hbit := hfree (j - start) (by omega)
    rw [Nat.add_sub_cancel' hj.1] at hbit
    simp [hj, hbit]
  · simp [hj]

/-! ## Counting -/

/-- The number of set bits below `n`. -/
def population (b : Bytes) (n : Nat) : Nat := ((Finset.range n).filter fun i => test b i).card

theorem population_le (b : Bytes) (n : Nat) : population b n ≤ n := by
  have h := Finset.card_filter_le (Finset.range n) fun i => (test b i : Prop)
  rwa [Finset.card_range] at h

theorem population_set {b : Bytes} {i n : Nat} (hi : i < n) (hfree : test b i = false) :
    population (set b i) n = population b n + 1 := by
  have hmem : i ∉ (Finset.range n).filter fun j => (test b j : Prop) := by
    simp [hfree]
  rw [population, population, ← Finset.card_insert_of_notMem hmem]
  congr 1
  ext j
  rw [Finset.mem_filter, Finset.mem_insert, Finset.mem_filter, Finset.mem_range, test_set]
  by_cases hj : j = i
  · simp [hj, hi]
  · simp [hj]

theorem population_clear {b : Bytes} {i n : Nat} (hi : i < n) (hused : test b i = true) :
    population (clear b i) n + 1 = population b n := by
  have hfree : test (clear b i) i = false := by simp [test_clear]
  rw [← population_set hi hfree, set_clear hused]

theorem population_foldl_set {b : Bytes} {i n : Nat} (m : Nat) (hle : i + m ≤ n)
    (hfree : ∀ k < m, test b (i + k) = false) :
    population ((List.range m).foldl (fun b k => set b (i + k)) b) n = population b n + m := by
  induction m with
  | zero => rfl
  | succ m ih =>
    have hnext : test ((List.range m).foldl (fun b k => set b (i + k)) b) (i + m) = false := by
      rw [test_foldl_set, hfree m (Nat.lt_succ_self m)]
      simp
    rw [List.range_succ, List.foldl_append, List.foldl_cons, List.foldl_nil,
      population_set (by omega) hnext, ih (by omega) fun k hk => hfree k (by omega)]
    rfl

/-! ## Runs -/

section Runs

variable (free : Nat → Bool) (n count : Nat)

/-- `count` free indices from `p` on, all below `n`. -/
structure FreeRun (p : Nat) : Prop where
  le : p + count ≤ n
  allFree : ∀ i < count, free (p + i) = true

structure FirstRun (p : Nat) : Prop extends FreeRun free n count p where
  first : ∀ q < p, ¬ FreeRun free n count q

variable {free n count}

theorem FirstRun.unique {p q : Nat} (hp : FirstRun free n count p) (hq : FirstRun free n count q) :
    p = q := by
  rcases Nat.lt_trichotomy p q with h | h | h
  · exact absurd hp.toFreeRun (hq.first p h)
  · exact h
  · exact absurd hq.toFreeRun (hp.first q h)

open Classical in
theorem FreeRun.exists_firstRun {p : Nat} (h : FreeRun free n count p) :
    ∃ q, FirstRun free n count q :=
  have hex : ∃ q, FreeRun free n count q := ⟨p, h⟩
  ⟨Nat.find hex, Nat.find_spec hex, fun _ hq => Nat.find_min hex hq⟩

/-- The search for a start in `[start, stop)` whose indices are all free. -/
def search (free : Nat → Bool) (count start stop : Nat) : Option Nat :=
  (List.range' start (stop - start)).find? fun p => (List.range count).all fun i => free (p + i)

theorem search_one (free : Nat → Bool) (start stop : Nat) :
    search free 1 start stop = (List.range' start (stop - start)).find? free := by
  simp [search, List.range_succ]

variable {start : Nat}

theorem all_free_iff {p : Nat} :
    ((List.range count).all fun i => free (p + i)) = true ↔ ∀ i < count, free (p + i) = true := by
  simp

/-- Nothing below the start of the search is free, so no run begins there. -/
theorem FreeRun.start_le (hcount : 0 < count) (hbelow : ∀ q < start, free q = false) {p : Nat}
    (h : FreeRun free n count p) : start ≤ p := by
  by_contra hlt
  have hp := h.allFree 0 hcount
  rw [Nat.add_zero, hbelow p (by omega)] at hp
  cases hp

theorem search_eq_some (hcount : 0 < count) (hn : count ≤ n)
    (hbelow : ∀ q < start, free q = false) {p : Nat}
    (h : search free count start (n - count + 1) = some p) : FirstRun free n count p := by
  rw [search, List.find?_range'_eq_some] at h
  obtain ⟨hfree, hmem, hfirst⟩ := h
  rw [List.mem_range'_1] at hmem
  refine ⟨⟨by omega, all_free_iff.mp hfree⟩, fun q hq hrun => ?_⟩
  have hnot := hfirst q (hrun.start_le hcount hbelow) hq
  rw [all_free_iff.mpr hrun.allFree] at hnot
  cases hnot

theorem search_eq_none (hcount : 0 < count) (hbelow : ∀ q < start, free q = false)
    (h : search free count start (n - count + 1) = none) (p : Nat) :
    ¬ FreeRun free n count p := by
  intro hrun
  rw [search, List.find?_eq_none] at h
  have hle := hrun.le
  have hstart := hrun.start_le hcount hbelow
  exact h p (List.mem_range'_1.mpr ⟨hstart, by omega⟩) (all_free_iff.mpr hrun.allFree)

end Runs

/-! ## What a search looks at -/

section Logged

variable {free : Nat → Bool}

/-- Ask about the indices in turn, up to the first that is not free: the indices
asked about, and whether all of them are free. -/
def askAll (free : Nat → Bool) : List Nat → List Nat × Bool
  | [] => ([], true)
  | p :: ps =>
    if free p then (p :: (askAll free ps).1, (askAll free ps).2) else ([p], false)

/-- The search over the candidates `ps`, with the indices asked about. -/
def searchLogged (free : Nat → Bool) (count : Nat) : List Nat → List Nat × Option Nat
  | [] => ([], none)
  | p :: ps =>
    let (asked, found) := askAll free ((List.range count).map (p + ·))
    if found then (asked, some p)
    else (asked ++ (searchLogged free count ps).1, (searchLogged free count ps).2)

theorem askAll_snd (ps : List Nat) : (askAll free ps).2 = ps.all free := by
  induction ps with
  | nil => rfl
  | cons p ps ih =>
    rw [askAll, List.all_cons]
    split
    case isTrue h => rw [h, ih, Bool.true_and]
    case isFalse h => simp [h]

theorem mem_of_mem_askAll {ps : List Nat} {q : Nat} (h : q ∈ (askAll free ps).1) : q ∈ ps := by
  induction ps with
  | nil => exact h
  | cons p ps ih =>
    rw [askAll] at h
    split at h
    case isTrue =>
      rcases List.mem_cons.mp h with rfl | h
      · exact List.mem_cons_self
      · exact List.mem_cons_of_mem _ (ih h)
    case isFalse =>
      rw [List.mem_singleton.mp h]
      exact List.mem_cons_self

/-- Behind free indices the next one is asked about. -/
theorem mem_askAll_append {ps qs : List Nat} {q : Nat} (h : ∀ p ∈ ps, free p = true) :
    q ∈ (askAll free (ps ++ q :: qs)).1 := by
  induction ps with
  | nil =>
    rw [List.nil_append, askAll]
    split <;> exact List.mem_cons_self
  | cons p ps ih =>
    rw [List.cons_append, askAll, if_pos (h p List.mem_cons_self)]
    exact List.mem_cons_of_mem _ (ih fun r hr => h r (List.mem_cons_of_mem _ hr))

variable {count : Nat}

/-- The log changes nothing about the search. -/
theorem searchLogged_snd (ps : List Nat) : (searchLogged free count ps).2 =
    ps.find? fun p => (List.range count).all fun i => free (p + i) := by
  induction ps with
  | nil => rfl
  | cons p ps ih =>
    have hall : (askAll free ((List.range count).map (p + ·))).2 =
        (List.range count).all fun i => free (p + i) := by
      rw [askAll_snd, List.all_map]
      rfl
    rw [searchLogged, List.find?_cons]
    dsimp only
    rw [hall, ← ih]
    cases (List.range count).all fun i => free (p + i) with
    | true => rfl
    | false => rfl

theorem searchLogged_lt {n : Nat} {ps : List Nat} (h : ∀ p ∈ ps, p + count ≤ n) :
    ∀ q ∈ (searchLogged free count ps).1, q < n := by
  induction ps with
  | nil =>
    intro q hq
    cases hq
  | cons p ps ih =>
    have hregion : ∀ q ∈ (askAll free ((List.range count).map (p + ·))).1, q < n := by
      intro q hq
      obtain ⟨i, hi, rfl⟩ := List.mem_map.mp (mem_of_mem_askAll hq)
      have hp := h p List.mem_cons_self
      have hlt := List.mem_range.mp hi
      omega
    intro q hq
    rw [searchLogged] at hq
    dsimp only at hq
    split at hq
    · exact hregion q hq
    · rcases List.mem_append.mp hq with hq | hq
      · exact hregion q hq
      · exact ih (fun r hr => h r (List.mem_cons_of_mem _ hr)) q hq

theorem region_lt {n p : Nat} {ps : List Nat} (h : ∀ p ∈ ps, p + count ≤ n)
    (hfound : (searchLogged free count ps).2 = some p) :
    ∀ q ∈ (List.range count).map (p + ·), q < n := by
  intro q hq
  rw [searchLogged_snd] at hfound
  have hp := h p (List.mem_of_find?_eq_some hfound)
  obtain ⟨i, hi, rfl⟩ := List.mem_map.mp hq
  have hlt := List.mem_range.mp hi
  omega

/-- A search for more than `n` indices that starts at or below `n` and may go
past it asks about index `n`, whatever is free. -/
theorem mem_searchLogged {n : Nat} (hcount : n < count) (k : Nat) {start : Nat} (hstart : start ≤ n)
    (hstop : n < start + k) : n ∈ (searchLogged free count (List.range' start k)).1 := by
  induction k generalizing start with
  | zero => omega
  | succ k ih =>
    rw [List.range'_succ, searchLogged]
    dsimp only
    -- the region at `start` is free up to `n`, or the search goes on behind `start`
    by_cases hfree : ∀ i < n - start, free (start + i) = true
    · have hasked : n ∈ (askAll free ((List.range count).map (start + ·))).1 := by
        obtain ⟨m, rfl⟩ : ∃ m, count = (n - start) + (m + 1) := ⟨count - (n - start) - 1, by omega⟩
        rw [List.range_add, List.map_append, List.range_succ_eq_map, List.map_cons, List.map_cons,
          Nat.add_zero, Nat.add_sub_cancel' hstart]
        refine mem_askAll_append fun p hp => ?_
        obtain ⟨i, hi, rfl⟩ := List.mem_map.mp hp
        exact hfree i (List.mem_range.mp hi)
      split
      · exact hasked
      · exact List.mem_append_left _ hasked
    · push Not at hfree
      obtain ⟨i, hi, hused⟩ := hfree
      have hnot : (askAll free ((List.range count).map (start + ·))).2 ≠ true := by
        rw [askAll_snd, List.all_map]
        intro hall
        exact hused (List.all_eq_true.mp hall i (List.mem_range.mpr (by omega)))
      rw [if_neg hnot]
      exact List.mem_append_right _ (ih (by omega) (by omega))

end Logged

end Bitmap
