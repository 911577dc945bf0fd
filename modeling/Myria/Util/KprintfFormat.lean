import Myria.Util.Klog

/-! What `kprintf` prints for a format made of literal characters and the
directives it knows. -/
namespace Myria.Util

open Text ByteMem Loop

/-! ## The reference formatter -/

/-- An argument, as the caller passes it. -/
inductive Arg where
  | int (v : BitVec 32)
  | unsigned (v : BitVec 32)
  | u64 (v : U64)
  /-- A string, or `NULL`. -/
  | str (s : Option CStr)

/-- The argument lies in a slot of the `va_list`. Of a slot for 32 bits only the
lower half counts. -/
def Arg.Holds (m : Mem) (slot : U64) : Arg → Prop
  | .int v | .unsigned v => slot.setWidth 32 = v
  | .u64 v => slot = v
  | .str none => slot = 0
  | .str (some s) => slot ≠ 0 ∧ s.At m slot

/-- A part of a format together with the argument that matches it. -/
inductive Item where
  | lit (c : Byte) (ne_nul : c ≠ 0) (ne_percent : c ≠ chr '%')
  | percent
  | d (v : BitVec 32)
  | u (v : BitVec 32)
  | x (v : BitVec 32)
  | lu (v : U64)
  | lx (v : U64)
  | s (str : Option CStr)

namespace Item

def text : Item → List Byte
  | lit c _ _ => [c]
  | percent => [chr '%', chr '%']
  | d _ => [chr '%', chr 'd']
  | u _ => [chr '%', chr 'u']
  | x _ => [chr '%', chr 'x']
  | lu _ => [chr '%', chr 'l', chr 'u']
  | lx _ => [chr '%', chr 'l', chr 'x']
  | s _ => [chr '%', chr 's']

def arg : Item → Option Arg
  | lit .. | percent => none
  | d v => some (.int v)
  | u v | x v => some (.unsigned v)
  | lu v | lx v => some (.u64 v)
  | s str => some (.str str)

def render : Item → List Byte
  | lit c _ _ => [c]
  | percent => [chr '%']
  | d v => signedNumeral v.toInt
  | u v => numeral 10 v.toNat
  | x v => numeral 16 v.toNat
  | lu v => numeral 10 v.toNat
  | lx v => numeral 16 v.toNat
  | s (some str) => str.bytes
  | s none => chars "(null)"

end Item

/-- The format string of the items, without its NUL. -/
def formatText (items : List Item) : List Byte := items.flatMap Item.text

/-- The arguments of the items, in the order of the directives. -/
def formatArgs (items : List Item) : List Arg := items.filterMap Item.arg

def reference (items : List Item) : List Byte := items.flatMap Item.render

/-! ## One item -/

namespace KprintfCall

variable {k : KprintfCall} {s : Printing}

/-- The slots of the `va_list` from `n` on hold the arguments. -/
def HoldsArgs (k : KprintfCall) (n : Nat) (args : List Arg) : Prop :=
  Along (fun i a => a.Holds k.mem (k.va i)) n args

/-- What the argument of a `%s` prints. -/
theorem print_str {slot : U64} {str : Option CStr} (h : (Arg.str str).Holds k.mem slot) :
    (if slot ≠ 0 then serialPuts k.mem slot else some (chars "(null)")) =
      some (Item.s str).render := by
  cases str with
  | none =>
    have hzero : slot = 0 := h
    rw [if_neg (not_not.mpr hzero)]
    rfl
  | some str =>
    rw [if_pos h.1, serialPuts, scan_of_bytesAt str.nul_free h.2 h.2.length_lt]
    rfl

theorem round_item (item : Item) (htext : k.Spells s.pos item.text)
    (harg : ∀ a ∈ item.arg, a.Holds k.mem (k.va s.args)) :
    k.round s =
      some (.next (s.after item.text.length item.arg.toList.length item.render)) := by
  cases item with
  | lit c hnul hpercent =>
    have hc : k.char s.pos = c := htext.head
    rw [round_literal (hc ▸ hnul) (hc ▸ hpercent), hc]
    rfl
  | percent =>
    have hc : k.char s.look.advance.pos = chr '%' := htext 1 _ rfl
    rw [round_percent htext.head, directive_percent hc]
    exact s.next_print_two _
  | d v =>
    have hc : k.char s.look.advance.pos = chr 'd' := htext 1 _ rfl
    have hv : (k.va s.look.advance.args).setWidth 32 = v := harg _ rfl
    rw [round_percent htext.head, directive_d hc, hv, kprintInt_word]
    exact s.next_printArg_two _
  | u v =>
    have hc : k.char s.look.advance.pos = chr 'u' := htext 1 _ rfl
    have hv : (k.va s.look.advance.args).setWidth 32 = v := harg _ rfl
    rw [round_percent htext.head, directive_u hc, hv, kprintUint_word v (by decide) (by decide)]
    exact s.next_printArg_two _
  | x v =>
    have hc : k.char s.look.advance.pos = chr 'x' := htext 1 _ rfl
    have hv : (k.va s.look.advance.args).setWidth 32 = v := harg _ rfl
    rw [round_percent htext.head, directive_x hc, hv, kprintUint_word v (by decide) (by decide)]
    exact s.next_printArg_two _
  | lu v =>
    have hl : k.char s.look.advance.pos = chr 'l' := htext 1 _ rfl
    have hc : k.char (s.look.advance.pos + 1) = chr 'u' := htext 2 _ rfl
    have hv : k.va s.look.advance.args = v := harg _ rfl
    rw [round_percent htext.head, directive_l hl, if_pos hc, hv,
      kprintUint_eq (by decide) (by decide)]
    exact s.next_printArg_three _
  | lx v =>
    have hl : k.char s.look.advance.pos = chr 'l' := htext 1 _ rfl
    have hc : k.char (s.look.advance.pos + 1) = chr 'x' := htext 2 _ rfl
    have hv : k.va s.look.advance.args = v := harg _ rfl
    rw [round_percent htext.head, directive_l hl, if_neg (by rw [hc]; decide), if_pos hc, hv,
      kprintUint_eq (by decide) (by decide)]
    exact s.next_printArg_three _
  | s str =>
    have hc : k.char s.look.advance.pos = chr 's' := htext 1 _ rfl
    have hv : (Arg.str str).Holds k.mem (k.va s.look.advance.args) := harg _ rfl
    rw [round_percent htext.head, directive_s hc, print_str hv]
    exact s.next_printArg_two _

/-! ## A whole format -/

theorem formatText_cons (item : Item) (items : List Item) :
    formatText (item :: items) = item.text ++ formatText items := List.flatMap_cons

theorem formatArgs_cons (item : Item) (items : List Item) :
    formatArgs (item :: items) = item.arg.toList ++ formatArgs items := by
  cases h : item.arg <;> simp [formatArgs, h]

theorem reference_cons (item : Item) (items : List Item) :
    reference (item :: items) = item.render ++ reference items := List.flatMap_cons

theorem exec_items (items : List Item) (htext : k.Spells s.pos (formatText items))
    (hargs : k.HoldsArgs s.args (formatArgs items)) :
    ∃ t, exec k.round items.length s = some (.next t) ∧
      t.pos = s.pos + (formatText items).length ∧
      t.args = s.args + (formatArgs items).length ∧ t.out = s.out ++ reference items := by
  induction items generalizing s with
  | nil => exact ⟨s, rfl, rfl, rfl, (List.append_nil _).symm⟩
  | cons item items ih =>
    rw [formatText_cons] at htext ⊢
    rw [formatArgs_cons] at hargs ⊢
    have hround := round_item item htext.append_left fun a ha =>
      hargs.append_left 0 a (by rw [Option.mem_def.mp ha]; rfl)
    obtain ⟨t, hrun, hpos, hcount, hout⟩ :=
      ih (s := s.after _ _ item.render) htext.append_right hargs.append_right
    refine ⟨t, (exec_succ_of_next hround _).trans hrun, ?_, ?_, ?_⟩
    · rw [hpos, List.length_append, ← Nat.add_assoc]
      rfl
    · rw [hcount, List.length_append, ← Nat.add_assoc]
      rfl
    · rw [hout, reference_cons, ← List.append_assoc]
      rfl

end KprintfCall

theorem length_numeral_le {base : BitVec 32} (hlow : 4 ≤ base.toNat) (value : U64) :
    (numeral base.toNat value.toNat).length ≤ 32 := by
  rw [numeral]
  split
  · decide
  · rw [List.length_reverse, List.length_map]
    exact length_digits_le hlow value

/-- For every format that is made of literal characters and known directives and
every list of matching arguments, `kprintf` prints the text of the reference
formatter and takes each argument once. The numbers in that text are the only
numerals without leading zeros for the arguments, and the buffer in which
`kprint_uint` collects them is large enough for every value. -/
theorem kprintf_eq_reference (items : List Item) (k : KprintfCall)
    (hfmt : BytesAt k.mem k.fmt (formatText items ++ [0]))
    (hargs : k.HoldsArgs 0 (formatArgs items)) :
    (∃ t, (∀ fuel > items.length, k.kprintf fuel = some (.exit t)) ∧
      t.out = reference items ∧ t.args = (formatArgs items).length ∧
      t.pos = (formatText items).length) ∧
    ∀ base : BitVec 32, base = 10 ∨ base = 16 →
      (∀ n cs, IsNumeral base.toNat n cs ↔ cs = numeral base.toNat n) ∧
      ∀ value : U64, kprintUint value base = some (numeral base.toNat value.toNat) ∧
        (numeral base.toNat value.toNat).length ≤ 32 := by
  constructor
  · have htext := KprintfCall.spells_of_bytesAt hfmt
    obtain ⟨t, hrun, hpos, hcount, hout⟩ :=
      KprintfCall.exec_items (s := {}) items htext.append_left hargs
    have hnul : k.char t.pos = 0 := by
      rw [hpos]
      exact htext.append_right.head
    refine ⟨t.look, fun fuel hfuel => ?_, hout, ?_, ?_⟩
    · obtain ⟨n, rfl⟩ := Nat.exists_eq_add_of_lt hfuel
      rw [KprintfCall.kprintf, Nat.add_assoc, exec_add_of_next hrun,
        exec_succ_of_exit (KprintfCall.round_nul hnul)]
    · exact hcount.trans (Nat.zero_add _)
    · exact hpos.trans (Nat.zero_add _)
  · intro base hbase
    have hlow : 4 ≤ base.toNat := by rcases hbase with rfl | rfl <;> decide
    have hhigh : base.toNat ≤ 16 := by rcases hbase with rfl | rfl <;> decide
    exact ⟨fun n cs => isNumeral_iff (by omega) hhigh,
      fun value => ⟨kprintUint_eq hlow hhigh value, length_numeral_le hlow value⟩⟩

/-- The call `kprintf("%d %x%%%s%s%lu", INT_MIN, 0xbeef, "up", NULL, 2^64 - 1)`. -/
def sampleItems : List Item :=
  [.d 0x80000000, .lit (chr ' ') (by decide) (by decide), .x 0xbeef, .percent,
    .s (some ⟨[chr 'u', chr 'p'], by decide⟩), .s none, .lu 0xffffffffffffffff]

/-- The string lies behind the format. -/
def sampleCall : KprintfCall where
  mem := overlay (fun _ => 0) 0x1000 (formatText sampleItems ++ [0] ++ [chr 'u', chr 'p', 0])
  fmt := 0x1000
  va := fun i => [0x80000000, 0xbeef, 0x100f, 0, 0xffffffffffffffff].getD i 0

theorem sampleCall_bytes :
    BytesAt sampleCall.mem 0x1000 (formatText sampleItems ++ [0] ++ [chr 'u', chr 'p', 0]) :=
  bytesAt_overlay _ _ (by decide)

theorem sampleCall_holdsArgs : sampleCall.HoldsArgs 0 (formatArgs sampleItems) := by
  have hstr : BytesAt sampleCall.mem 0x100f [chr 'u', chr 'p', 0] := sampleCall_bytes.append_right
  refine along_cons.mpr ⟨rfl, along_cons.mpr ⟨rfl, along_cons.mpr ⟨⟨by decide, hstr⟩, ?_⟩⟩⟩
  exact along_cons.mpr ⟨rfl, along_cons.mpr ⟨rfl, along_nil⟩⟩

theorem kprintf_eq_reference_sample :
    ∃ t, sampleCall.kprintf 8 = some (.exit t) ∧ t.args = 5 ∧
      t.out = chars "-2147483648 beef%up(null)18446744073709551615" ∧
      kprintUint 0xffffffffffffffff 10 = some (chars "18446744073709551615") := by
  obtain ⟨⟨t, hrun, hout, hargs, -⟩, hnumeral⟩ :=
    kprintf_eq_reference sampleItems sampleCall sampleCall_bytes.append_left sampleCall_holdsArgs
  refine ⟨t, hrun 8 (by decide), hargs, hout.trans (by decide +kernel), ?_⟩
  rw [((hnumeral 10 (.inl rfl)).2 0xffffffffffffffff).1]
  decide +kernel

end Myria.Util
