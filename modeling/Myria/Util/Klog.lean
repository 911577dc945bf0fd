import Myria.Lib.Loop
import Myria.Lib.Text
import Myria.Types

/-! The kernel's `printf` of `klog.c`. What a function writes to the serial port
is the list of the characters it passes to `serial_putc`; the wait for the port
is left out. -/
namespace Myria.Util

open Text ByteMem Loop

/-! ## The functions of `klog.c` -/

/-- `serial_puts`. Without a NUL in the whole of memory it never returns. -/
def serialPuts (m : Mem) (str : U64) : Option (List Byte) := scan m (2 ^ 64) str

/-- The character that `kprint_uint` stores for a digit. -/
def digitByte (digit : BitVec 32) : Byte :=
  if digit.slt 10 then (0x30 + digit).setWidth 8 else (0x61 + digit - 10).setWidth 8

/-- The loop of `kprint_uint` that fills `buffer`. It fails when it stores behind
the end of the buffer, of which `room` bytes are left. -/
def fillBuffer (base : BitVec 32) : Nat → U64 → List Byte → Option (List Byte)
  | 0, value, buffer => if value > 0 then none else some buffer
  | room + 1, value, buffer =>
    if value > 0 then
      let digit := (value % base.signExtend 64).setWidth 32
      fillBuffer base room (value / base.signExtend 64) (buffer ++ [digitByte digit])
    else
      some buffer

def kprintUint (value : U64) (base : BitVec 32) : Option (List Byte) :=
  if value = 0 then some [chr '0'] else (fillBuffer base 32 value []).map List.reverse

def kprintInt (value : U64) : Option (List Byte) :=
  if value.slt 0 then (kprintUint (-value) 10).map (chr '-' :: ·) else kprintUint value 10

/-- What a call of `kprintf` finds: the format string at `fmt`, and the slots of
the `va_list` in the order in which `va_arg` takes them. -/
structure KprintfCall where
  mem : Mem
  fmt : U64
  va : Nat → U64

structure Printing where
  /-- How far `fmt` has been advanced. -/
  pos : Nat := 0
  /-- The number of arguments taken. -/
  args : Nat := 0
  out : List Byte := []
  /-- The positions of the format that were read. -/
  reads : List Nat := []
deriving DecidableEq, Repr

namespace Printing

variable (s : Printing)

def advance : Printing := { s with pos := s.pos + 1 }

def look : Printing := { s with reads := s.reads ++ [s.pos] }

def takeArg : Printing := { s with args := s.args + 1 }

def print (text : Option (List Byte)) : Option Printing :=
  text.map fun cs => { s with out := s.out ++ cs }

end Printing

namespace KprintfCall

variable (k : KprintfCall)

/-- `*fmt`. -/
def char (pos : Nat) : Byte := k.mem (k.fmt + BitVec.ofNat 64 pos)

/-- The `switch` on the character after a `%`. -/
def directive (s : Printing) : Option Printing :=
  let c := k.char s.pos
  let val := k.va s.args
  let s := s.look
  if c = chr 'd' then
    s.takeArg.print (kprintInt ((val.setWidth 32).signExtend 64))
  else if c = chr 'u' then
    s.takeArg.print (kprintUint ((val.setWidth 32).setWidth 64) 10)
  else if c = chr 'x' then
    s.takeArg.print (kprintUint ((val.setWidth 32).setWidth 64) 16)
  else if c = chr 'l' then
    let s := s.advance
    let c := k.char s.pos
    let s := s.look
    if c = chr 'u' then s.takeArg.print (kprintUint val 10)
    else if c = chr 'x' then s.takeArg.print (kprintUint val 16)
    -- no case for the rest: `%l` and the character after it are dropped
    else some s
  else if c = chr 's' then
    s.takeArg.print (if val ≠ 0 then serialPuts k.mem val else some (chars "(null)"))
  else if c = chr '%' then
    s.print (some [chr '%'])
  else
    s.print (some [chr '%', c])

/-- One round of the loop of `kprintf`, its test included. -/
def round (s : Printing) : Option (Round Printing) :=
  let c := k.char s.pos
  let s := s.look
  if c = 0 then some (.exit s)
  else if c = chr '%' then (k.directive s.advance).map fun t => .next t.advance
  else (s.print (some [c])).map fun t => .next t.advance

/-- `kprintf`, for at most `fuel` rounds. -/
def kprintf (fuel : Nat) : Option (Round Printing) := exec k.round fuel {}

end KprintfCall

/-! ## Numbers -/

theorem digitByte_eq {d : Nat} (h : d < 16) : digitByte (BitVec.ofNat 32 d) = digitChar d := by
  have hall : ∀ d : Fin 16, digitByte (BitVec.ofNat 32 d) = digitChar d := by decide
  exact hall ⟨d, h⟩

section Numbers

variable {base : BitVec 32} (hlow : 4 ≤ base.toNat) (hhigh : base.toNat ≤ 16)

include hhigh

theorem toNat_base : (base.signExtend 64).toNat = base.toNat := by
  have hmsb : base.msb = false := by
    rw [BitVec.msb_eq_false_iff_two_mul_lt]
    omega
  rw [BitVec.signExtend_eq_setWidth_of_msb_false hmsb, BitVec.toNat_setWidth]
  omega

include hlow

theorem digitByte_mod (value : U64) :
    digitByte ((value % base.signExtend 64).setWidth 32) =
      digitChar (value.toNat % base.toNat) := by
  have hdigit : value.toNat % base.toNat < 16 :=
    (Nat.mod_lt _ (by omega)).trans_le hhigh
  rw [← digitByte_eq hdigit]
  congr 1
  rw [← BitVec.toNat_inj, BitVec.toNat_setWidth, BitVec.toNat_umod, toNat_base hhigh,
    BitVec.toNat_ofNat]

/-- The buffer receives the digits of the value, the lowest first, if they fit. -/
theorem fillBuffer_eq {room : Nat} {value : U64} (buffer : List Byte)
    (hroom : (Nat.digits base.toNat value.toNat).length ≤ room) :
    fillBuffer base room value buffer =
      some (buffer ++ (Nat.digits base.toNat value.toNat).map digitChar) := by
  induction room generalizing value buffer with
  | zero =>
    have hnil := List.eq_nil_of_length_eq_zero (Nat.le_zero.mp hroom)
    have hzero : ¬ value > 0 := by
      rw [gt_iff_lt, BitVec.lt_def, Nat.digits_eq_nil_iff_eq_zero.mp hnil]
      exact Nat.lt_irrefl 0
    rw [fillBuffer, if_neg hzero, hnil, List.map_nil, List.append_nil]
  | succ room ih =>
    rw [fillBuffer]
    by_cases hvalue : value > 0
    · have hpos : 0 < value.toNat := BitVec.lt_def.mp hvalue
      have hdiv : (value / base.signExtend 64).toNat = value.toNat / base.toNat := by
        rw [BitVec.toNat_udiv, toNat_base hhigh]
      rw [Nat.digits_def' (by omega) hpos] at hroom ⊢
      rw [if_pos hvalue, ih _ (by rw [hdiv]; exact Nat.le_of_succ_le_succ hroom), hdiv,
        digitByte_mod hlow hhigh, List.append_assoc, List.map_cons]
      rfl
    · have hzero : value.toNat = 0 := by
        rw [gt_iff_lt, BitVec.lt_def] at hvalue
        exact Nat.eq_zero_of_not_pos hvalue
      rw [if_neg hvalue, hzero, Nat.digits_zero, List.map_nil, List.append_nil]

omit hhigh in
/-- A buffer of 32 bytes is enough for every value: a digit takes two bits or more. -/
theorem length_digits_le (value : U64) : (Nat.digits base.toNat value.toNat).length ≤ 32 := by
  rw [Nat.digits_length_le_iff (by omega)]
  calc value.toNat < 4 ^ 32 := value.isLt
    _ ≤ base.toNat ^ 32 := Nat.pow_le_pow_left hlow 32

theorem kprintUint_eq (value : U64) :
    kprintUint value base = some (numeral base.toNat value.toNat) := by
  rw [kprintUint, numeral]
  by_cases hvalue : value = 0
  · rw [if_pos hvalue, if_pos (by rw [hvalue]; rfl)]
    rfl
  · have hne : value.toNat ≠ 0 := fun h => hvalue (BitVec.eq_of_toNat_eq h)
    rw [if_neg hvalue, if_neg hne, fillBuffer_eq hlow hhigh [] (length_digits_le hlow value),
      Option.map_some, List.nil_append]

end Numbers

/-- An `int` as `%d` is to print it. -/
def signedNumeral (v : Int) : List Byte :=
  if v < 0 then chr '-' :: numeral 10 v.natAbs else numeral 10 v.natAbs

theorem kprintInt_eq (value : U64) : kprintInt value = some (signedNumeral value.toInt) := by
  have hsign : value.slt 0 = true ↔ value.toInt < 0 := BitVec.slt_iff_toInt_lt
  have hlow : 4 ≤ (10 : BitVec 32).toNat := by decide
  have hhigh : (10 : BitVec 32).toNat ≤ 16 := by decide
  rw [kprintInt, signedNumeral]
  by_cases hneg : value.toInt < 0
  · have habs : (-value).toNat = value.toInt.natAbs := by
      rw [BitVec.toNat_neg]
      rw [BitVec.toInt_eq_toNat_cond] at hneg ⊢
      have hlt := value.isLt
      split at hneg <;> omega
    rw [if_pos (hsign.mpr hneg), if_pos hneg, kprintUint_eq hlow hhigh, habs]
    rfl
  · have habs : value.toNat = value.toInt.natAbs := by
      rw [BitVec.toInt_eq_toNat_cond] at hneg ⊢
      have hlt := value.isLt
      split at hneg <;> omega
    rw [if_neg (mt hsign.mp hneg), if_neg hneg, kprintUint_eq hlow hhigh, habs]
    rfl

/-- An `int` is widened before it is negated, so `INT_MIN` is no special case. -/
theorem kprintInt_word (v : BitVec 32) :
    kprintInt (v.signExtend 64) = some (signedNumeral v.toInt) := by
  rw [kprintInt_eq, BitVec.toInt_signExtend_of_le (by decide)]

theorem kprintUint_word (v : BitVec 32) {base : BitVec 32} (hlow : 4 ≤ base.toNat)
    (hhigh : base.toNat ≤ 16) :
    kprintUint (v.setWidth 64) base = some (numeral base.toNat v.toNat) := by
  rw [kprintUint_eq hlow hhigh, BitVec.toNat_setWidth_of_le (by decide)]

/-! ## Rounds -/

/-- The format has the characters `cs` from `pos` on. -/
def KprintfCall.Spells (k : KprintfCall) (pos : Nat) (cs : List Byte) : Prop :=
  Along (fun i c => k.char i = c) pos cs

theorem KprintfCall.spells_of_bytesAt {k : KprintfCall} {cs : List Byte}
    (h : BytesAt k.mem k.fmt cs) : k.Spells 0 cs := by
  intro j c hj
  rw [Nat.zero_add]
  exact h j c hj

namespace Printing

/-- The state after `n` characters of the format that took `args` arguments and
printed `cs`. -/
def after (s : Printing) (n args : Nat) (cs : List Byte) : Printing where
  pos := s.pos + n
  args := s.args + args
  out := s.out ++ cs
  reads := s.reads ++ List.range' s.pos n

variable (s : Printing) (cs : List Byte)

theorem next_print_one :
    (s.look.print (some cs)).map (fun t => Round.next t.advance) =
      some (.next (s.after 1 0 cs)) := rfl

theorem next_print_two :
    (s.look.advance.look.print (some cs)).map (fun t => Round.next t.advance) =
      some (.next (s.after 2 0 cs)) := by
  simp [print, look, advance, after, List.range']

theorem next_printArg_two :
    (s.look.advance.look.takeArg.print (some cs)).map (fun t => Round.next t.advance) =
      some (.next (s.after 2 1 cs)) := by
  simp [print, look, advance, takeArg, after, List.range']

theorem next_printArg_three :
    (s.look.advance.look.advance.look.takeArg.print (some cs)).map
        (fun t => Round.next t.advance) =
      some (.next (s.after 3 1 cs)) := by
  simp [print, look, advance, takeArg, after, List.range']

theorem next_skip_three :
    (some s.look.advance.look.advance.look).map (fun t => Round.next t.advance) =
      some (.next (s.after 3 0 [])) := by
  simp [look, advance, after, List.range']

end Printing

namespace KprintfCall

variable {k : KprintfCall} {s : Printing}

theorem round_nul (h : k.char s.pos = 0) : k.round s = some (.exit s.look) := by
  simp only [round, if_pos h]

theorem round_literal (hnul : k.char s.pos ≠ 0) (h : k.char s.pos ≠ chr '%') :
    k.round s = some (.next (s.after 1 0 [k.char s.pos])) := by
  simp only [round, if_neg hnul, if_neg h]
  exact s.next_print_one _

theorem round_percent (h : k.char s.pos = chr '%') :
    k.round s = (k.directive s.look.advance).map fun t => .next t.advance := by
  simp only [round, h]
  rfl

section Switch

theorem directive_d (h : k.char s.pos = chr 'd') :
    k.directive s =
      s.look.takeArg.print (kprintInt (((k.va s.args).setWidth 32).signExtend 64)) := by
  simp +decide only [directive, h, if_true, if_false]

theorem directive_u (h : k.char s.pos = chr 'u') :
    k.directive s =
      s.look.takeArg.print (kprintUint (((k.va s.args).setWidth 32).setWidth 64) 10) := by
  simp +decide only [directive, h, if_true, if_false]

theorem directive_x (h : k.char s.pos = chr 'x') :
    k.directive s =
      s.look.takeArg.print (kprintUint (((k.va s.args).setWidth 32).setWidth 64) 16) := by
  simp +decide only [directive, h, if_true, if_false]

theorem directive_s (h : k.char s.pos = chr 's') :
    k.directive s = s.look.takeArg.print
      (if k.va s.args ≠ 0 then serialPuts k.mem (k.va s.args) else some (chars "(null)")) := by
  simp +decide only [directive, h, if_true, if_false]

theorem directive_percent (h : k.char s.pos = chr '%') :
    k.directive s = s.look.print (some [chr '%']) := by
  simp +decide only [directive, h, if_true, if_false]

/-- The `switch` of a `%l`. -/
theorem directive_l (h : k.char s.pos = chr 'l') :
    k.directive s =
      if k.char (s.pos + 1) = chr 'u' then
        s.look.advance.look.takeArg.print (kprintUint (k.va s.args) 10)
      else if k.char (s.pos + 1) = chr 'x' then
        s.look.advance.look.takeArg.print (kprintUint (k.va s.args) 16)
      else some s.look.advance.look := by
  simp +decide only [directive, h, if_true, if_false]
  rfl

theorem directive_default
    (h : k.char s.pos ∉ [chr 'd', chr 'u', chr 'x', chr 'l', chr 's', chr '%']) :
    k.directive s = s.look.print (some [chr '%', k.char s.pos]) := by
  simp only [List.mem_cons, List.not_mem_nil, or_false, not_or] at h
  obtain ⟨hd, hu, hx, hl, hs, hp⟩ := h
  simp only [directive, hd, hu, hx, hl, hs, hp, if_false]

end Switch

end KprintfCall

end Myria.Util
