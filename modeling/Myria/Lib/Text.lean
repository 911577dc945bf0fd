import Mathlib.Data.Nat.Digits.Lemmas
import Myria.Lib.ByteMem

/-! Text as C has it: characters of one byte, strings in memory that end with a
NUL, and numerals. -/
namespace Text

open ByteMem

abbrev Byte := BitVec 8

def chr (c : Char) : Byte := BitVec.ofNat 8 c.toNat

/-- The characters of a string literal, without its NUL. -/
def chars (s : String) : List Byte := s.toList.map chr

/-! ## Lists laid out one place after the other -/

/-- `P` holds of the members of `l` at the places from `n` on. -/
def Along {α : Type*} (P : Nat → α → Prop) (n : Nat) (l : List α) : Prop :=
  ∀ j a, l[j]? = some a → P (n + j) a

section Along

variable {α : Type*} {P : Nat → α → Prop} {n : Nat} {a : α} {l l' : List α}

theorem along_nil : Along P n ([] : List α) := by
  intro j a hj
  simp at hj

theorem along_cons : Along P n (a :: l) ↔ P n a ∧ Along P (n + 1) l := by
  constructor
  · intro h
    refine ⟨h 0 a rfl, fun j b hj => ?_⟩
    rw [Nat.add_assoc, Nat.add_comm 1 j]
    exact h (j + 1) b hj
  · rintro ⟨ha, hl⟩ j b hj
    cases j with
    | zero =>
      cases hj
      exact ha
    | succ j =>
      rw [Nat.add_comm j 1, ← Nat.add_assoc]
      exact hl j b hj

theorem Along.head (h : Along P n (a :: l)) : P n a := (along_cons.mp h).1

theorem Along.append_left (h : Along P n (l ++ l')) : Along P n l := by
  intro j a hj
  have hlt := (List.getElem?_eq_some_iff.mp hj).1
  exact h j a (by rw [List.getElem?_append_left hlt, hj])

theorem Along.append_right (h : Along P n (l ++ l')) : Along P (n + l.length) l' := by
  intro j a hj
  rw [Nat.add_assoc]
  refine h (l.length + j) a ?_
  rw [List.getElem?_append_right (Nat.le_add_right _ _), Nat.add_sub_cancel_left, hj]

end Along

/-! ## Strings -/

/-- The characters of a string, before its NUL. -/
structure CStr where
  bytes : List Byte
  nul_free : 0 ∉ bytes

/-- The string `s` lies at `p`, with its NUL. -/
def CStr.At (m : Mem) (p : BitVec 64) (s : CStr) : Prop := BytesAt m p (s.bytes ++ [0])

/-- The characters from `p` up to the first NUL, if it is among the first `fuel`. -/
def scan (m : Mem) : Nat → BitVec 64 → Option (List Byte)
  | 0, _ => none
  | fuel + 1, p => if m p = 0 then some [] else (scan m fuel (p + 1)).map (m p :: ·)

section Strings

variable {m : Mem} {p : BitVec 64} {s : CStr}

theorem CStr.At.char (h : s.At m p) {k : Nat} {c : Byte} (hk : s.bytes[k]? = some c) :
    m (p + BitVec.ofNat 64 k) = c := BytesAt.append_left h k c hk

theorem CStr.At.nul (h : s.At m p) : m (p + BitVec.ofNat 64 s.bytes.length) = 0 :=
  h s.bytes.length 0 (by simp)

/-- A string does not go round the address space: it would meet its own NUL. -/
theorem CStr.At.length_lt (h : s.At m p) : s.bytes.length < 2 ^ 64 := by
  by_contra hlen
  have hmod : s.bytes.length % 2 ^ 64 < s.bytes.length :=
    (Nat.mod_lt _ (by decide)).trans_le (not_lt.mp hlen)
  have haddr : BitVec.ofNat 64 s.bytes.length = BitVec.ofNat 64 (s.bytes.length % 2 ^ 64) := by
    simp [← BitVec.toNat_inj]
  have hchar := h.char (List.getElem?_eq_getElem hmod)
  rw [← haddr, h.nul] at hchar
  exact s.nul_free (hchar ▸ List.getElem_mem hmod)

theorem scan_of_bytesAt {cs : List Byte} (hcs : 0 ∉ cs) (h : BytesAt m p (cs ++ [0])) {fuel : Nat}
    (hfuel : cs.length < fuel) : scan m fuel p = some cs := by
  induction cs generalizing p fuel with
  | nil =>
    have hnul : m p = 0 := by simpa using h 0 0 rfl
    cases fuel with
    | zero => cases hfuel
    | succ fuel => rw [scan, if_pos hnul]
  | cons c cs ih =>
    obtain ⟨hc, hrest⟩ := not_or.mp (mt List.mem_cons.mpr hcs)
    cases fuel with
    | zero => cases hfuel
    | succ fuel =>
      have hhead : m p = c := by simpa using h 0 c rfl
      have hsplit : BytesAt m p ([c] ++ (cs ++ [0])) := h
      have htail : BytesAt m (p + 1) (cs ++ [0]) := hsplit.append_right
      rw [scan, hhead, if_neg (Ne.symm hc), ih hrest htail (by simpa using hfuel), Option.map_some]

/-- A scan from `p` passes every address before it comes back to `p`. -/
theorem ne_nul_of_scan_eq_none {fuel : Nat} (h : scan m fuel p = none) {k : Nat} (hk : k < fuel) :
    m (p + BitVec.ofNat 64 k) ≠ 0 := by
  induction fuel generalizing p k with
  | zero => omega
  | succ fuel ih =>
    rw [scan] at h
    by_cases hp : m p = 0
    · simp [hp] at h
    rw [if_neg hp, Option.map_eq_none_iff] at h
    cases k with
    | zero => simpa using hp
    | succ k =>
      have hstep : p + BitVec.ofNat 64 (k + 1) = p + 1 + BitVec.ofNat 64 k := by
        rw [BitVec.ofNat_add, ← add_assoc]
        exact add_right_comm _ _ _
      rw [hstep]
      exact ih h (by omega)

theorem scan_isSome {x : BitVec 64} (hx : m x = 0) (p : BitVec 64) :
    ∃ cs, scan m (2 ^ 64) p = some cs := by
  cases hscan : scan m (2 ^ 64) p with
  | some cs => exact ⟨cs, rfl⟩
  | none =>
    have hne := ne_nul_of_scan_eq_none hscan (x - p).isLt
    rw [BitVec.ofNat_toNat, BitVec.setWidth_eq, BitVec.add_comm, BitVec.sub_add_cancel] at hne
    exact absurd hx hne

end Strings

/-! ## Numerals

Most significant digit first, in a base of at most 16, with lowercase letters. -/

def digitChar (d : Nat) : Byte :=
  if d < 10 then BitVec.ofNat 8 (48 + d) else BitVec.ofNat 8 (97 + (d - 10))

def digitValue (c : Byte) : Nat := if c.toNat < 97 then c.toNat - 48 else c.toNat - 97 + 10

/-- The number that a numeral stands for, read from its first digit on. -/
def numeralValue (base : Nat) (cs : List Byte) : Nat :=
  cs.foldl (fun n c => base * n + digitValue c) 0

/-- `cs` is the number `n` written in `base`, without leading zeros. -/
structure IsNumeral (base n : Nat) (cs : List Byte) : Prop where
  digit : ∀ c ∈ cs, ∃ d < base, c = digitChar d
  value : numeralValue base cs = n
  ne_nil : cs ≠ []
  no_leading_zero : cs.head? = some (digitChar 0) → cs = [digitChar 0]

def numeral (base n : Nat) : List Byte :=
  if n = 0 then [digitChar 0] else ((Nat.digits base n).map digitChar).reverse

theorem digitValue_digitChar {d : Nat} (h : d < 16) : digitValue (digitChar d) = d := by
  have hall : ∀ d : Fin 16, digitValue (digitChar d) = d := by decide
  exact hall ⟨d, h⟩

theorem numeralValue_eq_ofDigits (base : Nat) (cs : List Byte) :
    numeralValue base cs = Nat.ofDigits base (cs.map digitValue).reverse := by
  induction cs using List.reverseRecOn with
  | nil => rfl
  | append_singleton cs c ih =>
    rw [numeralValue, List.foldl_append, ← numeralValue, ih, List.map_append, List.reverse_append]
    simp [Nat.ofDigits_cons, Nat.add_comm]

section Numerals

variable {base : Nat} (hbase : 1 < base) (hbase' : base ≤ 16)

include hbase'

theorem map_digitValue_digitChar {ds : List Nat} (h : ∀ d ∈ ds, d < base) :
    (ds.map digitChar).map digitValue = ds := by
  have hid : ∀ d ∈ ds, (digitValue ∘ digitChar) d = id d :=
    fun d hd => digitValue_digitChar ((h d hd).trans_le hbase')
  rw [List.map_map, List.map_congr_left hid, List.map_id]

/-- The value of a numeral whose digits are `ds`, the lowest first. -/
theorem numeralValue_digits {ds : List Nat} (h : ∀ d ∈ ds, d < base) :
    numeralValue base (ds.map digitChar).reverse = Nat.ofDigits base ds := by
  rw [numeralValue_eq_ofDigits, List.map_reverse, List.reverse_reverse,
    map_digitValue_digitChar hbase' h]

theorem IsNumeral.exists_digits {n : Nat} {cs : List Byte} (h : IsNumeral base n cs) :
    ∃ ds : List Nat, (∀ d ∈ ds, d < base) ∧ cs = (ds.map digitChar).reverse := by
  have hchar : ∀ c ∈ cs, digitValue c < base ∧ digitChar (digitValue c) = c := by
    intro c hc
    obtain ⟨d, hd, rfl⟩ := h.digit c hc
    rw [digitValue_digitChar (hd.trans_le hbase')]
    exact ⟨hd, rfl⟩
  refine ⟨(cs.map digitValue).reverse, ?_, ?_⟩
  · intro d hd
    obtain ⟨c, hc, rfl⟩ := List.mem_map.mp (List.mem_reverse.mp hd)
    exact (hchar c hc).1
  · have hid : ∀ c ∈ cs, (digitChar ∘ digitValue) c = id c := fun c hc => (hchar c hc).2
    rw [List.map_reverse, List.reverse_reverse, List.map_map, List.map_congr_left hid, List.map_id]

theorem head?_digits_eq_zero_iff {ds : List Nat} (h : ∀ d ∈ ds, d < base) :
    (ds.map digitChar).reverse.head? = some (digitChar 0) ↔ ds.getLast? = some 0 := by
  rw [List.head?_reverse, List.getLast?_map, Option.map_eq_some_iff]
  constructor
  · rintro ⟨d, hd, hchar⟩
    have hlt := h d (List.mem_of_getLast? hd)
    have hvalue := congrArg digitValue hchar
    rw [digitValue_digitChar (hlt.trans_le hbase'), digitValue_digitChar (by decide)] at hvalue
    rw [hd, hvalue]
  · intro hd
    exact ⟨0, hd, rfl⟩

include hbase

/-- Without a leading zero the digits of a numeral are those of its number. -/
theorem IsNumeral.eq_numeral {n : Nat} {cs : List Byte} (h : IsNumeral base n cs) :
    cs = numeral base n := by
  obtain ⟨ds, hlt, rfl⟩ := h.exists_digits hbase'
  have hvalue : Nat.ofDigits base ds = n := (numeralValue_digits hbase' hlt).symm.trans h.value
  by_cases hlast : ds.getLast? = some 0
  · have hzero := h.no_leading_zero ((head?_digits_eq_zero_iff hbase' hlt).mpr hlast)
    have hn : n = 0 := by
      rw [← h.value, hzero]
      simp [numeralValue, digitValue_digitChar]
    rw [hzero, numeral, if_pos hn]
  · have hne : ds ≠ [] := by
      rintro rfl
      exact h.ne_nil rfl
    have hdigits : Nat.digits base n = ds := by
      rw [← hvalue]
      refine Nat.digits_ofDigits base hbase ds hlt fun hds hzero => hlast ?_
      rw [List.getLast?_eq_some_getLast hds, hzero]
    have hn : n ≠ 0 := by
      rintro rfl
      exact hne (hdigits.symm.trans (Nat.digits_zero base))
    rw [numeral, if_neg hn, hdigits]

theorem isNumeral_numeral (n : Nat) : IsNumeral base n (numeral base n) := by
  have hlt : ∀ d ∈ Nat.digits base n, d < base := fun d hd => Nat.digits_lt_base hbase hd
  by_cases hn : n = 0
  · rw [numeral, if_pos hn, hn]
    refine ⟨fun c hc => ⟨0, by omega, List.mem_singleton.mp hc⟩, ?_, by simp, fun _ => rfl⟩
    simp [numeralValue, digitValue_digitChar]
  have hdigits : Nat.digits base n ≠ [] := mt Nat.digits_eq_nil_iff_eq_zero.mp hn
  rw [numeral, if_neg hn]
  refine ⟨fun c hc => ?_, ?_, by simpa using hdigits, fun hzero => ?_⟩
  · obtain ⟨d, hd, rfl⟩ := List.mem_map.mp (List.mem_reverse.mp hc)
    exact ⟨d, hlt d hd, rfl⟩
  · rw [numeralValue_digits hbase' hlt, Nat.ofDigits_digits]
  · rw [head?_digits_eq_zero_iff hbase' hlt, List.getLast?_eq_some_getLast hdigits] at hzero
    exact absurd (Option.some.inj hzero) (Nat.getLast_digit_ne_zero base hn)

/-- Every number has one numeral. -/
theorem isNumeral_iff {n : Nat} {cs : List Byte} : IsNumeral base n cs ↔ cs = numeral base n := by
  constructor
  · exact fun h => h.eq_numeral hbase hbase'
  · rintro rfl
    exact isNumeral_numeral hbase hbase' n

end Numerals

end Text
