import Myria.Arch.FaultStubs
import Myria.Lib.X86Protect

/-! The descriptor tables of `gdt.c` and `idt_minimal.c` as the processor reads
them. The entries are packed structures, so a table lies in memory entry by entry
and field by field, without gaps. -/
namespace Myria.Arch

open X86 ByteMem

structure GdtEntry where
  limitLow : BitVec 16
  baseLow : BitVec 16
  baseMid : BitVec 8
  access : BitVec 8
  granularity : BitVec 8
  baseHigh : BitVec 8
deriving DecidableEq, Repr

abbrev Gdt := Fin 10 → GdtEntry

/-- The descriptor that `gdt_set_entry` writes. -/
def segmentEntry (base limit : U64) (access granularity : BitVec 8) : GdtEntry where
  baseLow := (base &&& 0xFFFF).setWidth 16
  baseMid := ((base >>> 16) &&& 0xFF).setWidth 8
  baseHigh := ((base >>> 24) &&& 0xFF).setWidth 8
  limitLow := (limit &&& 0xFFFF).setWidth 16
  granularity := ((limit >>> 16) &&& 0x0F).setWidth 8 ||| (granularity &&& 0xF0)
  access := access

def gdtSetEntry (gdt : Gdt) (index : Fin 10) (base limit : U64) (access granularity : BitVec 8) :
    Gdt :=
  Function.update gdt index (segmentEntry base limit access granularity)

/-- The second entry that `gdt_set_tss` writes. -/
def tssHighEntry (base : U64) : GdtEntry where
  limitLow := ((base >>> 32) &&& 0xFFFF).setWidth 16
  baseLow := ((base >>> 48) &&& 0xFFFF).setWidth 16
  baseMid := 0
  access := 0
  granularity := 0
  baseHigh := 0

/-- `gdt_set_tss`, for an index that leaves room for the second entry. -/
def gdtSetTss (gdt : Gdt) (index : Fin 9) (base limit : U64) (access : BitVec 8) : Gdt :=
  Function.update (gdtSetEntry gdt index.castSucc base limit access 0) index.succ
    (tssHighEntry base)

/-! ## In memory -/

/-- `struct gdt_entry`, packed. -/
def GdtEntry.bytes (e : GdtEntry) : List (BitVec 8) :=
  le16 e.limitLow ++ le16 e.baseLow ++ [e.baseMid, e.access, e.granularity, e.baseHigh]

/-- `struct idt_entry`, packed. -/
def IdtEntry.bytes (e : IdtEntry) : List (BitVec 8) :=
  le16 e.offsetLow ++ le16 e.selector ++ [e.ist, e.typeAttr] ++ le16 e.offsetMid ++
    (le32 e.offsetHigh ++ le32 e.zero)

section

variable {n : Nat}

def gdtBytes (gdt : Fin n → GdtEntry) : List (BitVec 8) :=
  (List.ofFn fun i => (gdt i).bytes).flatten

def idtBytes (idt : Fin n → IdtEntry) : List (BitVec 8) :=
  (List.ofFn fun i => (idt i).bytes).flatten

/-- The table `gdt` lies at `a`. -/
def GdtAt (m : Mem) (a : U64) (gdt : Fin n → GdtEntry) : Prop := BytesAt m a (gdtBytes gdt)

def IdtAt (m : Mem) (a : U64) (idt : Fin n → IdtEntry) : Prop := BytesAt m a (idtBytes idt)

end

/-- The address of an entry of the table at `a`. -/
def gdtSlot (a : U64) (index : Nat) : U64 := a + BitVec.ofNat 64 (8 * index)

def idtSlot (a : U64) (num : Nat) : U64 := a + BitVec.ofNat 64 (16 * num)

/-- The segment descriptor that the processor finds at `index` of the table at `a`. -/
def segmentAt (m : Mem) (a : U64) (index : Nat) : Segment := .decode (read64 m (gdtSlot a index))

/-- The TSS descriptor at `index` and the index after it. -/
def tssAt (m : Mem) (a : U64) (index : Nat) : TssSegment :=
  .decode (read64 m (gdtSlot a index)) (read64 m (gdtSlot a (index + 1)))

def gateAt (m : Mem) (a : U64) (num : Nat) : Gate :=
  .decode (read64 m (idtSlot a num)) (read64 m (idtSlot a num + 8))

def GdtEntry.word (e : GdtEntry) : BitVec 64 :=
  segmentWord e.limitLow e.baseLow e.baseMid e.access e.granularity e.baseHigh

section Layout

variable {m : Mem} {a : U64} {n : Nat} {gdt : Fin n → GdtEntry} {idt : Fin n → IdtEntry}

theorem length_gdtBytes (gdt : Fin n → GdtEntry) : (gdtBytes gdt).length = n * 8 :=
  length_entries fun _ => rfl

theorem length_idtBytes (idt : Fin n → IdtEntry) : (idtBytes idt).length = n * 16 :=
  length_entries fun _ => rfl

/-- A table fits at every address. -/
theorem gdtAt_overlay (hn : n * 8 ≤ 2 ^ 64) (m : Mem) (a : U64) (gdt : Fin n → GdtEntry) :
    GdtAt (overlay m a (gdtBytes gdt)) a gdt :=
  bytesAt_overlay m a (by rwa [length_gdtBytes])

theorem idtAt_overlay (hn : n * 16 ≤ 2 ^ 64) (m : Mem) (a : U64) (idt : Fin n → IdtEntry) :
    IdtAt (overlay m a (idtBytes idt)) a idt :=
  bytesAt_overlay m a (by rwa [length_idtBytes])

/-- A table stays when its bytes do. -/
theorem GdtAt.congr {m' : Mem} (h : GdtAt m a gdt) (hn : n * 8 ≤ 2 ^ 64)
    (hsame : ∀ x, (x - a).toNat < n * 8 → m' x = m x) : GdtAt m' a gdt := by
  refine BytesAt.congr h (by rwa [length_gdtBytes]) fun x hx => hsame x ?_
  rwa [length_gdtBytes] at hx

theorem IdtAt.congr {m' : Mem} (h : IdtAt m a idt) (hn : n * 16 ≤ 2 ^ 64)
    (hsame : ∀ x, (x - a).toNat < n * 16 → m' x = m x) : IdtAt m' a idt := by
  refine BytesAt.congr h (by rwa [length_idtBytes]) fun x hx => hsame x ?_
  rwa [length_idtBytes] at hx

theorem GdtAt.read64 (h : GdtAt m a gdt) (i : Fin n) : read64 m (gdtSlot a i) = (gdt i).word :=
  read64_segmentWord (BytesAt.entry h (fun _ => rfl) i)

theorem IdtAt.gate (h : IdtAt m a idt) (i : Fin n) :
    gateAt m a i =
      { offset := (idt i).offset
        selector := (idt i).selector
        ist := (idt i).ist.extractLsb' 0 3
        typeAttr := (idt i).typeAttr
        reserved := (idt i).ist.extractLsb' 3 5
        reservedHigh := (idt i).zero } := by
  have hentry : BytesAt m (idtSlot a i) (idt i).bytes := BytesAt.entry h (fun _ => rfl) i
  have hhigh : ByteMem.read64 m (idtSlot a i + 8) = (idt i).zero ++ (idt i).offsetHigh :=
    read64_le32 hentry.append_right
  rw [gateAt, read64_gateWord hentry, hhigh, decode_gateWord]
  rfl

/-! The processor finds an entry by its selector or its vector, if the limit of the table
register lets it. -/

theorem GdtAt.segmentOf {t : TableRegs} (h : GdtAt m t.gdtBase gdt) {sel : BitVec 16}
    (hnull : ¬ isNull sel) (hlocal : sel.getLsbD 2 = false) {i : Fin n}
    (hi : selectorIndex sel = i) (hlimit : 8 * (i : ℕ) + 7 ≤ t.gdtLimit.toNat) :
    X86.segmentOf m t sel = some (.decode (gdt i).word) := by
  have hsel : ¬ (isNull sel ∨ sel.getLsbD 2 = true) := by
    rw [hlocal]
    exact not_or.mpr ⟨hnull, Bool.false_ne_true⟩
  rw [X86.segmentOf, if_neg hsel, hi, if_pos hlimit, ← h.read64 i]
  rfl

theorem gateOf_eq {t : TableRegs} {v : ℕ} (hlimit : 16 * v + 15 ≤ t.idtLimit.toNat) :
    X86.gateOf m t v = some (gateAt m t.idtBase v) := by
  rw [X86.gateOf, if_pos hlimit]
  rfl

end Layout

/-- The bit of the access byte that the processor sets when it loads the descriptor: the
one for accessed segments, or the one for a busy TSS. -/
def usedBit (access : BitVec 8) : BitVec 8 := if access.getLsbD 4 then 1 else 2

/-- The descriptor `e`, which the processor may have loaded if it is present. -/
def GdtEntry.Marked (e e' : GdtEntry) : Prop :=
  e' = e ∨ e.access.getLsbD 7 = true ∧ e' = { e with access := e.access ||| usedBit e.access }

/-! ## The fields -/

section Segment

variable (base limit : U64) (access granularity : BitVec 8)

theorem segmentEntry_base :
    (segmentEntry base limit access granularity).baseLow = base.extractLsb' 0 16 ∧
      (segmentEntry base limit access granularity).baseMid = base.extractLsb' 16 8 ∧
      (segmentEntry base limit access granularity).baseHigh = base.extractLsb' 24 8 :=
  ⟨BitField.shift_and_low_setWidth base 0 (by decide),
    BitField.shift_and_low_setWidth base 16 (by decide),
    BitField.shift_and_low_setWidth base 24 (by decide)⟩

/-- The byte that the limit and the flags share. -/
theorem segmentEntry_granularity :
    (segmentEntry base limit access granularity).granularity.extractLsb' 0 4 =
        limit.extractLsb' 16 4 ∧
      (segmentEntry base limit access granularity).granularity.extractLsb' 4 4 =
        granularity.extractLsb' 4 4 := by
  have hmask : (0x0F : U64) = (BitVec.allOnes 4).setWidth 64 := rfl
  have hlow : (0xF0 : BitVec 8).extractLsb' 0 4 = 0#4 := rfl
  have hhigh : (0xF0 : BitVec 8).extractLsb' 4 4 = BitVec.allOnes 4 := rfl
  simp only [segmentEntry, hmask, BitField.shift_and_low, BitVec.extractLsb'_or,
    BitVec.extractLsb'_and, hlow, hhigh, BitVec.and_zero, BitVec.or_zero, BitVec.and_allOnes]
  generalize limit.extractLsb' 16 4 = l
  constructor
  · rw [BitVec.extractLsb'_setWidth_of_le (by decide),
      BitVec.extractLsb'_setWidth_of_le (by decide),
      BitVec.extractLsb'_eq_self]
  · have habove : ((l.setWidth 64).setWidth 8).extractLsb' 4 4 = 0#4 := by
      ext i hi
      simp
    rw [habove, BitVec.zero_or]

theorem decode_segmentEntry :
    Segment.decode (segmentEntry base limit access granularity).word =
      { base := base.extractLsb' 0 32
        limit := limit.extractLsb' 0 20
        access := access
        flags := granularity.extractLsb' 4 4 } := by
  obtain ⟨hlow, hmid, hhigh⟩ := segmentEntry_base base limit access granularity
  obtain ⟨hlimit, hflags⟩ := segmentEntry_granularity base limit access granularity
  have hlimitLow : (segmentEntry base limit access granularity).limitLow = limit.extractLsb' 0 16 :=
    BitField.shift_and_low_setWidth limit 0 (by decide)
  rw [GdtEntry.word, decode_segmentWord, hlow, hmid, hhigh, hlimit, hflags, hlimitLow]
  iterate 3 rw [BitVec.extractLsb'_append_extractLsb'_eq_extractLsb' (by rfl)]
  rfl

end Segment

/-- The second word of a TSS descriptor holds the upper half of the base and nothing else. -/
theorem tssHighEntry_word (base : U64) :
    (tssHighEntry base).word.extractLsb' 0 32 = base.extractLsb' 32 32 ∧
      (tssHighEntry base).word.extractLsb' 32 32 = 0 := by
  have hlow : (tssHighEntry base).limitLow = base.extractLsb' 32 16 :=
    BitField.shift_and_low_setWidth base 32 (by decide)
  have hhigh : (tssHighEntry base).baseLow = base.extractLsb' 48 16 :=
    BitField.shift_and_low_setWidth base 48 (by decide)
  refine ⟨?_, segmentWord_high _ _ 0 0 0 0⟩
  rw [GdtEntry.word, segmentWord_low, hlow, hhigh]
  exact BitVec.extractLsb'_append_extractLsb'_eq_extractLsb' rfl

/-- The TSS descriptor of `gdt_set_tss`, from both of its words. -/
theorem decode_tss (base limit : U64) (access : BitVec 8) :
    TssSegment.decode (segmentEntry base limit access 0).word (tssHighEntry base).word =
      { base := base
        limit := limit.extractLsb' 0 20
        access := access
        available := 0
        granularity := 0
        reserved := 0
        reservedHigh := 0 } := by
  obtain ⟨hupper, hzero⟩ := tssHighEntry_word base
  have hbase : base.extractLsb' 32 32 ++ base.extractLsb' 0 32 = base :=
    (BitVec.extractLsb'_append_extractLsb'_eq_extractLsb' rfl).trans BitVec.extractLsb'_eq_self
  rw [TssSegment.decode, decode_segmentEntry, hupper, hzero, hbase]
  simp

/-! ## Descriptors read back -/

theorem toNat_extractLsb'_zero {x : U64} {n : Nat} (h : x.toNat < 2 ^ n) :
    (x.extractLsb' 0 n).toNat = x.toNat := by
  rw [BitVec.extractLsb'_toNat, Nat.shiftRight_zero, Nat.mod_eq_of_lt h]

section Tables

variable {m : Mem} {a : U64} {gdt : Gdt} {idt : Idt} {base limit : U64}

theorem GdtAt.segmentAt_set {index : Fin 10} {access granularity : BitVec 8}
    (h : GdtAt m a (gdtSetEntry gdt index base limit access granularity)) :
    segmentAt m a index =
      { base := base.extractLsb' 0 32
        limit := limit.extractLsb' 0 20
        access := access
        flags := granularity.extractLsb' 4 4 } := by
  rw [segmentAt, h.read64, gdtSetEntry, Function.update_self, decode_segmentEntry]

theorem gdtSetTss_low (index : Fin 9) (access : BitVec 8) :
    gdtSetTss gdt index base limit access index.castSucc = segmentEntry base limit access 0 := by
  have hne : index.castSucc ≠ index.succ := (Fin.castSucc_lt_succ (i := index)).ne
  rw [gdtSetTss, Function.update_of_ne hne, gdtSetEntry, Function.update_self]

theorem GdtAt.tssAt_set {index : Fin 9} {access : BitVec 8}
    (h : GdtAt m a (gdtSetTss gdt index base limit access)) :
    tssAt m a index =
      { base := base
        limit := limit.extractLsb' 0 20
        access := access
        available := 0
        granularity := 0
        reserved := 0
        reservedHigh := 0 } := by
  have hlow := h.read64 index.castSucc
  have hhigh := h.read64 index.succ
  rw [gdtSetTss_low, Fin.val_castSucc] at hlow
  rw [gdtSetTss, Function.update_self, Fin.val_succ] at hhigh
  rw [tssAt, hlow, hhigh, decode_tss]

theorem IdtAt.gateAt_set {num : Fin 32} {sel : BitVec 16} {flags : BitVec 8}
    (h : IdtAt m a (idtSetGate idt num base sel flags)) :
    gateAt m a num =
      { offset := base
        selector := sel
        ist := 0
        typeAttr := flags
        reserved := 0
        reservedHigh := 0 } := by
  rw [h.gate, idtSetGate, Function.update_self, offset_gateEntry]
  simp [gateEntry]

end Tables

/-- The three functions that write descriptors lose none of the bits they are given:
what the processor reads back from a table in memory, at any address, is what the
function was called with. The other entries of the table are as they were. -/
theorem descriptors_lose_no_bits (gdt : Gdt) (idt : Idt) :
    (∀ (index : Fin 10) (base limit : U64) (access granularity : BitVec 8),
      base.toNat < 2 ^ 32 → limit.toNat < 2 ^ 20 →
        (∀ m a, GdtAt m a (gdtSetEntry gdt index base limit access granularity) →
          (segmentAt m a index).base.toNat = base.toNat ∧
            (segmentAt m a index).limit.toNat = limit.toNat ∧
            (segmentAt m a index).access = access ∧
            (segmentAt m a index).flags = granularity.extractLsb' 4 4) ∧
          ∀ j ≠ index, gdtSetEntry gdt index base limit access granularity j = gdt j) ∧
      (∀ (index : Fin 9) (base limit : U64) (access : BitVec 8), limit.toNat < 2 ^ 20 →
        (∀ m a, GdtAt m a (gdtSetTss gdt index base limit access) →
          (tssAt m a index).base = base ∧
            (tssAt m a index).limit.toNat = limit.toNat ∧
            (tssAt m a index).access = access ∧
            (tssAt m a index).available = 0 ∧ (tssAt m a index).granularity = 0 ∧
            (tssAt m a index).reserved = 0 ∧ (tssAt m a index).reservedHigh = 0) ∧
          ∀ j, j ≠ index.castSucc → j ≠ index.succ →
            gdtSetTss gdt index base limit access j = gdt j) ∧
      ∀ (num : Fin 32) (base : U64) (sel : BitVec 16) (flags : BitVec 8),
        (∀ m a, IdtAt m a (idtSetGate idt num base sel flags) →
          (gateAt m a num).offset = base ∧ (gateAt m a num).selector = sel ∧
            (gateAt m a num).typeAttr = flags ∧ (gateAt m a num).ist = 0 ∧
            (gateAt m a num).reserved = 0 ∧ (gateAt m a num).reservedHigh = 0) ∧
          ∀ j ≠ num, idtSetGate idt num base sel flags j = idt j := by
  refine ⟨fun index base limit access granularity hbase hlimit => ⟨fun m a h => ?_, ?_⟩,
    fun index base limit access hlimit => ⟨fun m a h => ?_, ?_⟩,
    fun num base sel flags => ⟨fun m a h => ?_, ?_⟩⟩
  · rw [h.segmentAt_set]
    exact ⟨toNat_extractLsb'_zero hbase, toNat_extractLsb'_zero hlimit, rfl, rfl⟩
  · intro j hj
    rw [gdtSetEntry, Function.update_of_ne hj]
  · rw [h.tssAt_set]
    exact ⟨rfl, toNat_extractLsb'_zero hlimit, rfl, rfl, rfl, rfl, rfl⟩
  · intro j hlow hhigh
    rw [gdtSetTss, Function.update_of_ne hhigh, gdtSetEntry, Function.update_of_ne hlow]
  · rw [h.gateAt_set]
    exact ⟨rfl, rfl, rfl, rfl, rfl, rfl⟩
  · intro j hj
    rw [idtSetGate, Function.update_of_ne hj]

theorem descriptors_lose_no_bits_boot :
    let gdt := gdtSetEntry (fun _ => segmentEntry 0 0 0 0) 1 0 0xFFFFF 0x9A 0xA0
    let gdt' := gdtSetTss gdt 5 0xFFFFFFFF80123450 103 0x89
    let idt := idtSetGate (fun _ => gateEntry 0 0 0) 14 0xFFFFFFFF80101234 0x08 0x8E
    let m := overlay (fun _ => 0) 0x1000 (gdtBytes gdt)
    let m' := overlay (fun _ => 0) 0x1000 (gdtBytes gdt')
    let mi := overlay (fun _ => 0) 0x2000 (idtBytes idt)
    (segmentAt m 0x1000 1).limit.toNat = 0xFFFFF ∧ (segmentAt m 0x1000 1).flags = 0xA ∧
      (tssAt m' 0x1000 5).base = 0xFFFFFFFF80123450 ∧ gdt' 1 = gdt 1 ∧
      (gateAt mi 0x2000 14).offset = 0xFFFFFFFF80101234 := by
  intro gdt gdt' idt m m' mi
  obtain ⟨hsegment, -, -⟩ :=
    descriptors_lose_no_bits (fun _ => segmentEntry 0 0 0 0) (fun _ => gateEntry 0 0 0)
  obtain ⟨-, htss, -⟩ := descriptors_lose_no_bits gdt (fun _ => gateEntry 0 0 0)
  obtain ⟨-, -, hgate⟩ := descriptors_lose_no_bits gdt (fun _ => gateEntry 0 0 0)
  obtain ⟨-, hlimit, -, hflags⟩ :=
    (hsegment 1 0 0xFFFFF 0x9A 0xA0 (by decide) (by decide)).1 m 0x1000
    (gdtAt_overlay (by decide) _ _ _)
  obtain ⟨htss, hothers⟩ := htss 5 0xFFFFFFFF80123450 103 0x89 (by decide)
  obtain ⟨hgate, -⟩ := hgate 14 0xFFFFFFFF80101234 0x08 0x8E
  exact ⟨hlimit, hflags, (htss m' 0x1000 (gdtAt_overlay (by decide) _ _ _)).1,
    hothers 1 (by decide) (by decide), (hgate mi 0x2000 (idtAt_overlay (by decide) _ _ _)).1⟩

end Myria.Arch
