import Myria.Lib.X86System

/-! The descriptors of an x86-64 processor as it reads them from memory: a
segment descriptor in one word, a TSS descriptor and an interrupt gate in two.
A field that lies in several places is joined from its parts, the highest first.
-/
namespace X86

open ByteMem

structure Segment where
  base : BitVec 32
  limit : BitVec 20
  access : BitVec 8
  flags : BitVec 4
deriving DecidableEq, Repr

def Segment.decode (w : BitVec 64) : Segment where
  base := w.extractLsb' 56 8 ++ w.extractLsb' 32 8 ++ w.extractLsb' 16 16
  limit := w.extractLsb' 48 4 ++ w.extractLsb' 0 16
  access := w.extractLsb' 40 8
  flags := w.extractLsb' 52 4

/-- The descriptor of a TSS. Of the flags of a segment the two in the middle are
reserved, as is the upper half of the second word. -/
structure TssSegment where
  base : BitVec 64
  limit : BitVec 20
  access : BitVec 8
  available : BitVec 1
  granularity : BitVec 1
  reserved : BitVec 2
  reservedHigh : BitVec 32
deriving DecidableEq, Repr

def TssSegment.decode (w w' : BitVec 64) : TssSegment where
  base := w'.extractLsb' 0 32 ++ (Segment.decode w).base
  limit := (Segment.decode w).limit
  access := (Segment.decode w).access
  available := (Segment.decode w).flags.extractLsb' 0 1
  granularity := (Segment.decode w).flags.extractLsb' 3 1
  reserved := (Segment.decode w).flags.extractLsb' 1 2
  reservedHigh := w'.extractLsb' 32 32

/-- An interrupt or trap gate. The bits 35 to 39 are reserved, as is the upper half
of the second word. -/
structure Gate where
  offset : BitVec 64
  selector : BitVec 16
  ist : BitVec 3
  typeAttr : BitVec 8
  reserved : BitVec 5
  reservedHigh : BitVec 32
deriving DecidableEq, Repr

def Gate.decode (w w' : BitVec 64) : Gate where
  offset := w'.extractLsb' 0 32 ++ w.extractLsb' 48 16 ++ w.extractLsb' 0 16
  selector := w.extractLsb' 16 16
  ist := w.extractLsb' 32 3
  typeAttr := w.extractLsb' 40 8
  reserved := w.extractLsb' 35 5
  reservedHigh := w'.extractLsb' 32 32

/-! ## Words built from fields -/

/-- The two bytes of a field, the lower first. -/
def le16 (v : BitVec 16) : List (BitVec 8) := [v.extractLsb' 0 8, v.extractLsb' 8 8]

def le32 (v : BitVec 32) : List (BitVec 8) :=
  [v.extractLsb' 0 8, v.extractLsb' 8 8, v.extractLsb' 16 8, v.extractLsb' 24 8]

/-- Six fields of 16, 16, 8, 8, 8 and 8 bits, the first in the lowest bits. -/
def segmentWord (limitLow baseLow : BitVec 16) (baseMid access granularity baseHigh : BitVec 8) :
    BitVec 64 :=
  baseHigh ++ granularity ++ access ++ baseMid ++ baseLow ++ limitLow

/-- Five fields of 16, 16, 8, 8 and 16 bits, the first in the lowest bits. -/
def gateWord (offsetLow selector : BitVec 16) (ist typeAttr : BitVec 8) (offsetMid : BitVec 16) :
    BitVec 64 :=
  offsetMid ++ typeAttr ++ ist ++ selector ++ offsetLow

section Word

variable (limitLow baseLow : BitVec 16) (baseMid access granularity baseHigh : BitVec 8)

theorem decode_segmentWord :
    Segment.decode (segmentWord limitLow baseLow baseMid access granularity baseHigh) =
      { base := baseHigh ++ baseMid ++ baseLow
        limit := granularity.extractLsb' 0 4 ++ limitLow
        access := access
        flags := granularity.extractLsb' 4 4 } := by
  simp (disch := decide) only [Segment.decode, segmentWord, BitVec.extractLsb'_append_eq_of_le,
    BitVec.extractLsb'_append_eq_of_add_le]
  simp

theorem segmentWord_low :
    (segmentWord limitLow baseLow baseMid access granularity baseHigh).extractLsb' 0 32 =
      baseLow ++ limitLow := by
  rw [← BitVec.extractLsb'_append_extractLsb'_eq_extractLsb' (show 16 = 0 + 16 from rfl)]
  simp (disch := decide) only [segmentWord, BitVec.extractLsb'_append_eq_of_le,
    BitVec.extractLsb'_append_eq_of_add_le]
  simp

theorem segmentWord_high :
    (segmentWord limitLow baseLow baseMid access granularity baseHigh).extractLsb' 32 32 =
      baseHigh ++ granularity ++ access ++ baseMid := by
  simp (disch := decide) only [segmentWord, BitVec.extractLsb'_append_eq_of_le]
  simp

end Word

theorem decode_gateWord (offsetLow selector : BitVec 16) (ist typeAttr : BitVec 8)
    (offsetMid : BitVec 16) (offsetHigh zero : BitVec 32) :
    Gate.decode (gateWord offsetLow selector ist typeAttr offsetMid) (zero ++ offsetHigh) =
      { offset := offsetHigh ++ offsetMid ++ offsetLow
        selector := selector
        ist := ist.extractLsb' 0 3
        typeAttr := typeAttr
        reserved := ist.extractLsb' 3 5
        reservedHigh := zero } := by
  simp (disch := decide) only [Gate.decode, gateWord, BitVec.extractLsb'_append_eq_of_le,
    BitVec.extractLsb'_append_eq_of_add_le]
  simp

/-! ## Words read from packed fields -/

section Packed

variable {m : Mem} {a : BitVec 64}

theorem forall_lt_eight {P : Nat → Prop}
    (h : P 0 ∧ P 1 ∧ P 2 ∧ P 3 ∧ P 4 ∧ P 5 ∧ P 6 ∧ P 7) : ∀ k < 8, P k := by
  obtain ⟨h0, h1, h2, h3, h4, h5, h6, h7⟩ := h
  intro k hk
  have hcases : k = 0 ∨ k = 1 ∨ k = 2 ∨ k = 3 ∨ k = 4 ∨ k = 5 ∨ k = 6 ∨ k = 7 := by omega
  rcases hcases with rfl | rfl | rfl | rfl | rfl | rfl | rfl | rfl <;> assumption

theorem read64_segmentWord {limitLow baseLow : BitVec 16}
    {baseMid access granularity baseHigh : BitVec 8}
    (h : BytesAt m a
      (le16 limitLow ++ le16 baseLow ++ [baseMid, access, granularity, baseHigh])) :
    read64 m a = segmentWord limitLow baseLow baseMid access granularity baseHigh := by
  refine h.read64 (forall_lt_eight ?_)
  simp (disch := decide) only [segmentWord, Nat.reduceMul, BitVec.extractLsb'_append_eq_of_le,
    BitVec.extractLsb'_append_eq_of_add_le]
  simp [le16]

theorem read64_gateWord {offsetLow selector offsetMid : BitVec 16} {ist typeAttr : BitVec 8}
    {rest : List (BitVec 8)}
    (h : BytesAt m a
      (le16 offsetLow ++ le16 selector ++ [ist, typeAttr] ++ le16 offsetMid ++ rest)) :
    read64 m a = gateWord offsetLow selector ist typeAttr offsetMid := by
  refine h.read64 (forall_lt_eight ?_)
  simp (disch := decide) only [gateWord, Nat.reduceMul, BitVec.extractLsb'_append_eq_of_le,
    BitVec.extractLsb'_append_eq_of_add_le]
  simp [le16]

theorem read64_le32 {low high : BitVec 32} (h : BytesAt m a (le32 low ++ le32 high)) :
    read64 m a = high ++ low := by
  refine h.read64 (forall_lt_eight ?_)
  simp (disch := decide) only [Nat.reduceMul, BitVec.extractLsb'_append_eq_of_le,
    BitVec.extractLsb'_append_eq_of_add_le]
  simp [le32]

end Packed

end X86
