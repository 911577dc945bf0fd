import Mathlib.Data.BitVec

/-! Byte-addressed memory of a 64-bit machine. Words are little-endian and
addresses wrap modulo `2^64`, so an access may start at any byte. The word
lemmas are stated through address differences, which keeps them exact at the
wrap-around as well. -/
namespace ByteMem

abbrev Mem := BitVec 64 → BitVec 8

/-- The eight bytes at `a`, lowest address in the lowest byte. -/
def read64 (m : Mem) (a : BitVec 64) : BitVec 64 :=
  m (a + 7) ++ m (a + 6) ++ m (a + 5) ++ m (a + 4) ++
    m (a + 3) ++ m (a + 2) ++ m (a + 1) ++ m a

def write64 (m : Mem) (a v : BitVec 64) : Mem := fun x =>
  if (x - a).toNat < 8 then v.extractLsb' (8 * (x - a).toNat) 8 else m x

def write8 (m : Mem) (a : BitVec 64) (b : BitVec 8) : Mem := fun x =>
  if x = a then b else m x

/-- Neither of two words overlaps the other. -/
def Apart (a b : BitVec 64) : Prop :=
  8 ≤ (a - b).toNat ∧ 8 ≤ (b - a).toNat

instance (a b : BitVec 64) : Decidable (Apart a b) :=
  inferInstanceAs (Decidable (_ ∧ _))

theorem Apart.symm {a b : BitVec 64} (h : Apart a b) : Apart b a := ⟨h.2, h.1⟩

theorem Apart.add_left {d d' : BitVec 64} (h : Apart d d') (a : BitVec 64) :
    Apart (a + d) (a + d') := by
  rw [Apart, add_sub_add_left_eq_sub, add_sub_add_left_eq_sub]
  exact h

/-- A word that keeps clear of the 24 bytes from `w` on is apart from the words
in them. -/
theorem Apart.of_window {x w j : BitVec 64} (hj : j.toNat ≤ 16) (hfirst : 24 ≤ (x - w).toNat)
    (hlast : 24 ≤ (x + 7 - w).toNat) : Apart (w + j) x := by
  obtain ⟨d, rfl⟩ : ∃ d, x = w + d := ⟨x - w, (add_sub_cancel w x).symm⟩
  rw [add_assoc, add_sub_cancel_left] at hlast
  rw [add_sub_cancel_left] at hfirst
  apply Apart.add_left
  constructor <;> bv_omega

/-! ## Words -/

/-- A word depends on its eight bytes only. -/
theorem read64_congr {m m' : Mem} {a : BitVec 64}
    (h : ∀ k : BitVec 64, k.toNat < 8 → m (a + k) = m' (a + k)) :
    read64 m a = read64 m' a := by
  have h0 : m a = m' a := by simpa using h 0 (by decide)
  rw [read64, h0, h 1 (by decide), h 2 (by decide), h 3 (by decide), h 4 (by decide),
    h 5 (by decide), h 6 (by decide), h 7 (by decide), read64]

theorem write64_byte (m : Mem) (a v : BitVec 64) {k : BitVec 64} (hk : k.toNat < 8) :
    write64 m a v (a + k) = v.extractLsb' (8 * k.toNat) 8 := by
  rw [write64, add_sub_cancel_left, if_pos hk]

theorem write64_byte_ne (m : Mem) (a v : BitVec 64) {x : BitVec 64}
    (hx : 8 ≤ (x - a).toNat) : write64 m a v x = m x := by
  rw [write64, if_neg (Nat.not_lt.mpr hx)]

@[simp] theorem read64_write64_self (m : Mem) (a v : BitVec 64) :
    read64 (write64 m a v) a = v := by
  have h0 : write64 m a v a = v.extractLsb' 0 8 := by
    simpa using write64_byte m a v (k := 0) (by decide)
  rw [read64, h0, write64_byte m a v (by decide : (1 : BitVec 64).toNat < 8),
    write64_byte m a v (by decide : (2 : BitVec 64).toNat < 8),
    write64_byte m a v (by decide : (3 : BitVec 64).toNat < 8),
    write64_byte m a v (by decide : (4 : BitVec 64).toNat < 8),
    write64_byte m a v (by decide : (5 : BitVec 64).toNat < 8),
    write64_byte m a v (by decide : (6 : BitVec 64).toNat < 8),
    write64_byte m a v (by decide : (7 : BitVec 64).toNat < 8)]
  -- the eight bytes are consecutive slices of `v`; join them from the top
  iterate 7 rw [BitVec.extractLsb'_append_extractLsb'_eq_extractLsb' (by rfl)]
  exact BitVec.extractLsb'_eq_self

theorem extractLsb'_append_low {n : Nat} (x : BitVec n) (b : BitVec 8) :
    (x ++ b).extractLsb' 0 8 = b := by
  ext i hi
  simp [BitVec.getLsbD_append, hi]

theorem extractLsb'_append_high {n : Nat} (x : BitVec n) (b : BitVec 8) (k : Nat) :
    (x ++ b).extractLsb' (8 * (k + 1)) 8 = x.extractLsb' (8 * k) 8 := by
  ext i hi
  have hge : ¬ 8 * (k + 1) + i < 8 := by omega
  have hsub : 8 * (k + 1) + i - 8 = 8 * k + i := by omega
  simp [BitVec.getLsbD_append, hge, hsub]

/-- The bytes of a word are those it was read from. -/
theorem read64_byte (m : Mem) (a : BitVec 64) {k : Nat} (hk : k < 8) :
    (read64 m a).extractLsb' (8 * k) 8 = m (a + BitVec.ofNat 64 k) := by
  have hcases : k = 0 ∨ k = 1 ∨ k = 2 ∨ k = 3 ∨ k = 4 ∨ k = 5 ∨ k = 6 ∨ k = 7 := by omega
  unfold read64
  rcases hcases with rfl | rfl | rfl | rfl | rfl | rfl | rfl | rfl
  · exact (extractLsb'_append_low _ _).trans (by simp)
  -- drop the bytes below the `k`-th
  all_goals repeat refine (extractLsb'_append_high _ _ _).trans ?_
  iterate 6 exact extractLsb'_append_low _ _
  exact BitVec.extractLsb'_eq_self

/-- Writing back what is there changes nothing. -/
theorem write64_read64_self (m : Mem) (a : BitVec 64) : write64 m a (read64 m a) = m := by
  funext x
  rw [write64]
  split
  · rename_i hx
    rw [read64_byte m a hx, BitVec.ofNat_toNat, BitVec.setWidth_eq, add_sub_cancel]
  · rfl

theorem read64_write64_apart (m : Mem) {a b : BitVec 64} (v : BitVec 64) (h : Apart a b) :
    read64 (write64 m a v) b = read64 m b := by
  obtain ⟨h1, h2⟩ := h
  refine read64_congr fun k hk => write64_byte_ne m a v ?_
  bv_omega

/-! ## Clearing and copying loops -/

/-- `n` bytes from `a` on set to zero. -/
def zeroed (m : Mem) (a : BitVec 64) (n : Nat) : Mem := fun x =>
  if (x - a).toNat < n then 0 else m x

/-- A loop that clears `n` consecutive words. -/
theorem clearWords_eq (m : Mem) (a : BitVec 64) {n : Nat} (hn : 8 * n ≤ 2 ^ 64) :
    (List.range n).foldl (fun m i => write64 m (a + 8 * BitVec.ofNat 64 i) 0) m =
      zeroed m a (8 * n) := by
  induction n with
  | zero => funext x; simp [zeroed]
  | succ n ih =>
    rw [List.range_succ, List.foldl_append, ih (by omega)]
    funext x
    have hx : (x - (a + 8 * BitVec.ofNat 64 n)).toNat < 8 ↔
        8 * n ≤ (x - a).toNat ∧ (x - a).toNat < 8 * (n + 1) := by bv_omega
    simp only [List.foldl_cons, List.foldl_nil, write64, zeroed]
    by_cases h8 : (x - (a + 8 * BitVec.ofNat 64 n)).toNat < 8
    · rw [if_pos h8, if_pos (hx.mp h8).2]
      simp
    · rw [if_neg h8]
      by_cases hlt : (x - a).toNat < 8 * n
      · rw [if_pos hlt, if_pos (by omega)]
      · rw [if_neg hlt, if_neg (fun h => h8 (hx.mpr ⟨by omega, h⟩))]

@[simp] theorem zeroed_zero (m : Mem) (a : BitVec 64) : zeroed m a 0 = m := by
  funext x
  simp [zeroed]

/-- The bytes `g 0`, `g 1`, … laid down from `a` on, `n` of them. -/
def filled (m : Mem) (a : BitVec 64) (n : Nat) (g : Nat → BitVec 8) : Mem := fun x =>
  if (x - a).toNat < n then g (x - a).toNat else m x

theorem zeroed_eq_filled (m : Mem) (a : BitVec 64) (n : Nat) :
    zeroed m a n = filled m a n fun _ => 0 := rfl

/-- One round of a loop that lays down bytes. -/
theorem write8_filled (m : Mem) (a : BitVec 64) (g : Nat → BitVec 8) {n : Nat} (hn : n < 2 ^ 64) :
    write8 (filled m a n g) (a + BitVec.ofNat 64 n) (g n) = filled m a (n + 1) g := by
  funext x
  have hx : x = a + BitVec.ofNat 64 n ↔ (x - a).toNat = n := by bv_omega
  simp only [write8, filled]
  by_cases heq : x = a + BitVec.ofNat 64 n
  · rw [if_pos heq, hx.mp heq, if_pos (Nat.lt_succ_self n)]
  · have hne : (x - a).toNat ≠ n := fun h => heq (hx.mpr h)
    rw [if_neg heq]
    by_cases hlt : (x - a).toNat < n
    · rw [if_pos hlt, if_pos (by omega)]
    · rw [if_neg hlt, if_neg (by omega)]

theorem write8_zeroed (m : Mem) (a : BitVec 64) {n : Nat} (hn : n < 2 ^ 64) :
    write8 (zeroed m a n) (a + BitVec.ofNat 64 n) 0 = zeroed m a (n + 1) := by
  rw [zeroed_eq_filled, zeroed_eq_filled]
  exact write8_filled m a (fun _ => 0) hn

/-- A loop that lays down `n` consecutive bytes. -/
theorem fillBytes_eq (m : Mem) (a : BitVec 64) (g : Nat → BitVec 8) {n : Nat} (hn : n ≤ 2 ^ 64) :
    (List.range n).foldl (fun m i => write8 m (a + BitVec.ofNat 64 i) (g i)) m =
      filled m a n g := by
  induction n with
  | zero => funext x; simp [filled]
  | succ n ih =>
    rw [List.range_succ, List.foldl_append, ih (by omega)]
    exact write8_filled m a g (by omega)

theorem read64_zeroed_inside (m : Mem) {a b : BitVec 64} {n : Nat} (hn : n ≤ 2 ^ 64)
    (h : (b - a).toNat + 8 ≤ n) : read64 (zeroed m a n) b = 0 := by
  have hz : ∀ k : BitVec 64, k.toNat < 8 → zeroed m a n (b + k) = 0 := by
    intro k hk
    rw [zeroed, if_pos]
    bv_omega
  calc read64 (zeroed m a n) b = read64 (fun _ => 0) b := read64_congr hz
    _ = 0 := by simp [read64]

theorem read64_zeroed_outside (m : Mem) {a b : BitVec 64} {n : Nat}
    (h : n ≤ (b - a).toNat ∧ 8 ≤ (a - b).toNat) : read64 (zeroed m a n) b = read64 m b := by
  refine read64_congr fun k hk => ?_
  rw [zeroed, if_neg]
  bv_omega

/-! ## Bytes laid out in memory -/

/-- The bytes `bs` lie from `a` on. -/
def BytesAt (m : Mem) (a : BitVec 64) (bs : List (BitVec 8)) : Prop :=
  ∀ k b, bs[k]? = some b → m (a + BitVec.ofNat 64 k) = b

section BytesAt

variable {m : Mem} {a : BitVec 64} {bs cs : List (BitVec 8)}

/-- Bytes in memory stay when the memory they lie in does. -/
theorem BytesAt.congr {m' : Mem} (h : BytesAt m a bs) (hlen : bs.length ≤ 2 ^ 64)
    (hsame : ∀ x, (x - a).toNat < bs.length → m' x = m x) : BytesAt m' a bs := by
  intro j b hj
  have hlt : j < bs.length := (List.getElem?_eq_some_iff.mp hj).1
  rw [hsame _ (by bv_omega), h j b hj]

/-- A byte among them is stored. -/
theorem BytesAt.set (h : BytesAt m a bs) (hlen : bs.length ≤ 2 ^ 64) {n : Nat} (hn : n < bs.length)
    (b : BitVec 8) : BytesAt (write8 m (a + BitVec.ofNat 64 n) b) a (bs.set n b) := by
  intro k b' hk
  have hlt := (List.getElem?_eq_some_iff.mp hk).1
  rw [List.length_set] at hlt
  by_cases heq : n = k
  · rw [← heq, List.getElem?_set_self hn, Option.some_inj] at hk
    rw [write8, if_pos (by rw [heq]), hk]
  · rw [List.getElem?_set_ne heq] at hk
    have hne : a + BitVec.ofNat 64 k ≠ a + BitVec.ofNat 64 n := by bv_omega
    rw [write8, if_neg hne]
    exact h k b' hk

theorem BytesAt.append_left (h : BytesAt m a (bs ++ cs)) : BytesAt m a bs := by
  intro k b hk
  have hlt := (List.getElem?_eq_some_iff.mp hk).1
  exact h k b (by rw [List.getElem?_append_left hlt, hk])

theorem BytesAt.append_right (h : BytesAt m a (bs ++ cs)) :
    BytesAt m (a + BitVec.ofNat 64 bs.length) cs := by
  intro k b hk
  rw [add_assoc, ← BitVec.ofNat_add]
  refine h (bs.length + k) b ?_
  rw [List.getElem?_append_right (Nat.le_add_right _ _), Nat.add_sub_cancel_left, hk]

/-- Blocks of `n` bytes that lie one after the other. -/
theorem BytesAt.block {n : Nat} {blocks : List (List (BitVec 8))}
    (h : BytesAt m a blocks.flatten) (hlen : ∀ bs ∈ blocks, bs.length = n) {i : Nat}
    (hi : blocks[i]? = some bs) : BytesAt m (a + BitVec.ofNat 64 (n * i)) bs := by
  induction blocks generalizing a i with
  | nil => simp at hi
  | cons block blocks ih =>
    obtain ⟨hblock, hblocks⟩ := List.forall_mem_cons.mp hlen
    rw [List.flatten_cons] at h
    cases i with
    | zero =>
      cases hi
      simpa using h.append_left
    | succ i =>
      have hnext := ih h.append_right hblocks hi
      rwa [hblock, add_assoc, ← BitVec.ofNat_add, Nat.add_comm, ← Nat.mul_succ] at hnext

/-- An array of `count` entries of `n` bytes. -/
theorem BytesAt.entry {n count : Nat} {entries : Fin count → List (BitVec 8)}
    (h : BytesAt m a (List.ofFn entries).flatten) (hlen : ∀ i, (entries i).length = n)
    (i : Fin count) : BytesAt m (a + BitVec.ofNat 64 (n * i)) (entries i) := by
  refine h.block (List.forall_mem_ofFn_iff.mpr hlen) ?_
  rw [List.getElem?_ofFn, dif_pos i.isLt]

/-- A word is read from its bytes, the lowest first. -/
theorem BytesAt.read64 {w : BitVec 64} (h : BytesAt m a bs)
    (hw : ∀ k < 8, bs[k]? = some (w.extractLsb' (8 * k) 8)) : read64 m a = w := by
  rw [← read64_write64_self m a w]
  refine read64_congr fun k hk => ?_
  have hbyte := h k.toNat _ (hw k.toNat hk)
  rw [BitVec.ofNat_toNat, BitVec.setWidth_eq] at hbyte
  rw [hbyte, write64_byte m a w hk]

end BytesAt

/-- The memory `m` with the bytes `bs` from `a` on. -/
def overlay (m : Mem) (a : BitVec 64) (bs : List (BitVec 8)) : Mem :=
  fun x => bs[(x - a).toNat]?.getD (m x)

theorem bytesAt_overlay (m : Mem) (a : BitVec 64) {bs : List (BitVec 8)}
    (hbs : bs.length ≤ 2 ^ 64) : BytesAt (overlay m a bs) a bs := by
  intro k b hk
  have hlt := (List.getElem?_eq_some_iff.mp hk).1
  have hoff : (a + BitVec.ofNat 64 k - a).toNat = k := by
    rw [BitVec.add_comm, BitVec.add_sub_cancel, BitVec.toNat_ofNat, Nat.mod_eq_of_lt (by omega)]
  rw [overlay, hoff, hk, Option.getD_some]

theorem overlay_outside (m : Mem) {a x : BitVec 64} {bs : List (BitVec 8)}
    (hx : bs.length ≤ (x - a).toNat) : overlay m a bs x = m x := by
  rw [overlay, List.getElem?_eq_none hx, Option.getD_none]

theorem length_entries {n count : Nat} {entries : Fin count → List (BitVec 8)}
    (hlen : ∀ i, (entries i).length = n) : (List.ofFn entries).flatten.length = count * n := by
  have hconst : List.length ∘ entries = fun _ => n := funext hlen
  rw [List.length_flatten, List.map_ofFn, hconst, List.ofFn_const, List.sum_replicate_nat]

end ByteMem
