import Myria.Lib.ByteMem
import Myria.Types

/-! Page-table entries in physical memory: the flag bits and the address mask
that `vmm.c`, `user_as.c`, `user_mapping.c` and `paging.c` all define alike, the
slots of a table frame, and the four table indices of a virtual address. -/
namespace Myria.Mm

open ByteMem

def ptePresent : U64 := 1 <<< 0
def pteWritable : U64 := 1 <<< 1
def pteUser : U64 := 1 <<< 2
def pteHugePage : U64 := 1 <<< 7
def pteNoExecute : U64 := 1 <<< 63
def pteAddrMask : U64 := 0x000FFFFFFFFFF000

/-- `pte_to_phys` -/
def pteToPhys (pte : U64) : U64 := pte &&& pteAddrMask

/-- The C condition `e & flag`. -/
def HasFlag (e flag : U64) : Prop := e &&& flag ≠ 0#64

instance (e flag : U64) : Decidable (HasFlag e flag) := inferInstanceAs (Decidable (_ ≠ _))

theorem hasFlag_or {a b flag : U64} : HasFlag (a ||| b) flag ↔ HasFlag a flag ∨ HasFlag b flag := by
  unfold HasFlag
  rw [BitVec.and_or_distrib_right, Ne, BitVec.or_eq_zero_iff]
  tauto

@[simp] theorem not_hasFlag_zero (flag : U64) : ¬ HasFlag 0#64 flag := by
  simp [HasFlag]

/-! ## Frames -/

/-- An address that a page-table entry can hold: page-aligned, below `2^52`. -/
def IsFrame (f : U64) : Prop := f &&& pteAddrMask = f

instance (f : U64) : Decidable (IsFrame f) := inferInstanceAs (Decidable (_ = _))

theorem and_pteAddrMask_toNat (x : U64) :
    (x &&& pteAddrMask).toNat = x.toNat / 4096 % 2 ^ 40 * 4096 := by
  have hmask : pteAddrMask = (BitVec.allOnes 40).setWidth 64 <<< 12 := by decide
  have hfield := BitField.extractLsb'_toNat_eq x 12 40
  rw [hmask, BitField.and_field, BitVec.toNat_shiftLeft, Nat.shiftLeft_eq,
    BitVec.toNat_setWidth, hfield]
  omega

theorem isFrame_iff (f : U64) : IsFrame f ↔ f.toNat % 4096 = 0 ∧ f.toNat < 2 ^ 52 := by
  rw [IsFrame, ← BitVec.toNat_inj, and_pteAddrMask_toNat]
  omega

theorem pteToPhys_isFrame (e : U64) : IsFrame (pteToPhys e) := by
  rw [isFrame_iff, pteToPhys, and_pteAddrMask_toNat]
  omega

/-- A frame carries no flag that lies outside the address bits. -/
theorem IsFrame.not_hasFlag {f flag : U64} (h : IsFrame f) (hflag : flag &&& pteAddrMask = 0#64) :
    ¬ HasFlag f flag := by
  unfold HasFlag
  rw [not_not, ← h, BitVec.and_assoc, BitVec.and_comm pteAddrMask flag, hflag]
  simp

/-- Flags outside the address bits do not disturb the frame. -/
theorem pteToPhys_or_flags (e : U64) {flags : U64} (hflags : flags &&& pteAddrMask = 0#64) :
    pteToPhys (e ||| flags) = pteToPhys e := by
  rw [pteToPhys, BitVec.and_or_distrib_right, hflags, BitVec.or_zero, pteToPhys]

theorem IsFrame.pteToPhys_or {f flags : U64} (h : IsFrame f)
    (hflags : flags &&& pteAddrMask = 0#64) :
    pteToPhys (f ||| flags) = f :=
  (pteToPhys_or_flags f hflags).trans h

/-! ## The slots of a table -/

/-- The address of `table[idx]`. -/
def tableSlot (table idx : U64) : U64 := table + 8#64 * idx

/-- Entry `i` of the table in frame `t`. -/
def entry (m : Mem) (t : U64) (i : BitVec 9) : U64 := read64 m (tableSlot t (i.setWidth 64))

def setEntry (m : Mem) (t : U64) (i : BitVec 9) (v : U64) : Mem :=
  write64 m (tableSlot t (i.setWidth 64)) v

theorem tableSlot_toNat {t : U64} (h : IsFrame t) (i : BitVec 9) :
    (tableSlot t (i.setWidth 64)).toNat = t.toNat + 8 * i.toNat := by
  obtain ⟨-, hlt⟩ := (isFrame_iff t).mp h
  have hi := i.isLt
  simp only [tableSlot, BitVec.toNat_add, BitVec.toNat_mul, BitVec.toNat_setWidth,
    BitVec.toNat_ofNat]
  omega

theorem tableSlot_apart {t t' : U64} (h : IsFrame t) (h' : IsFrame t') {i i' : BitVec 9}
    (hne : ¬ (t' = t ∧ i' = i)) :
    Apart (tableSlot t (i.setWidth 64)) (tableSlot t' (i'.setWidth 64)) := by
  obtain ⟨hal, hlt⟩ := (isFrame_iff t).mp h
  obtain ⟨hal', hlt'⟩ := (isFrame_iff t').mp h'
  have hi := i.isLt
  have hi' := i'.isLt
  have hne' : ¬ (t'.toNat = t.toNat ∧ i'.toNat = i.toNat) := fun ⟨ht, hj⟩ =>
    hne ⟨BitVec.eq_of_toNat_eq ht, BitVec.eq_of_toNat_eq hj⟩
  constructor <;> rw [BitVec.toNat_sub, tableSlot_toNat h, tableSlot_toNat h'] <;> omega

/-- Writing one slot changes that entry only. -/
theorem entry_setEntry (m : Mem) {t t' : U64} (h : IsFrame t) (h' : IsFrame t')
    (i i' : BitVec 9) (v : U64) :
    entry (setEntry m t i v) t' i' = if t' = t ∧ i' = i then v else entry m t' i' := by
  by_cases heq : t' = t ∧ i' = i
  · obtain ⟨rfl, rfl⟩ := heq
    rw [if_pos ⟨rfl, rfl⟩]
    exact read64_write64_self m _ v
  · rw [if_neg heq]
    exact read64_write64_apart m v (tableSlot_apart h h' heq)

/-- Clearing part of a frame leaves the entries of others. -/
theorem entry_zeroed_ne (m : Mem) {f t : U64} (hf : IsFrame f) (ht : IsFrame t)
    (hne : t ≠ f) {n : Nat}
    (hn : n ≤ 4096) (i : BitVec 9) : entry (zeroed m f n) t i = entry m t i := by
  obtain ⟨hal, hlt⟩ := (isFrame_iff f).mp hf
  obtain ⟨hal', hlt'⟩ := (isFrame_iff t).mp ht
  have hi := i.isLt
  have hslot := tableSlot_toNat ht i
  have hne' : t.toNat ≠ f.toNat := fun h => hne (BitVec.eq_of_toNat_eq h)
  refine read64_zeroed_outside m ⟨?_, ?_⟩ <;> rw [BitVec.toNat_sub, hslot] <;> omega

/-- Clearing a frame clears its entries and no others. -/
theorem entry_zeroed (m : Mem) {f t : U64} (hf : IsFrame f) (ht : IsFrame t) (i : BitVec 9) :
    entry (zeroed m f 4096) t i = if t = f then 0#64 else entry m t i := by
  by_cases heq : t = f
  · subst heq
    obtain ⟨-, hlt⟩ := (isFrame_iff t).mp hf
    have hi := i.isLt
    have hslot := tableSlot_toNat hf i
    rw [if_pos rfl]
    refine read64_zeroed_inside m (by decide) ?_
    rw [BitVec.toNat_sub, hslot]
    omega
  · rw [if_neg heq]
    exact entry_zeroed_ne m hf ht heq (Nat.le_refl _) i

/-! ## The indices of a virtual address -/

def pml4Index (va : U64) : U64 := (va >>> 39) &&& 0x1FF
def pdptIndex (va : U64) : U64 := (va >>> 30) &&& 0x1FF
def pdIndex (va : U64) : U64 := (va >>> 21) &&& 0x1FF
def ptIndex (va : U64) : U64 := (va >>> 12) &&& 0x1FF

/-- The virtual page number: bits 47..12. -/
def vpn (va : U64) : BitVec 36 := va.extractLsb' 12 36

/-- The slots a page number selects, PML4 first. -/
def slot4 (v : BitVec 36) : BitVec 9 := v.extractLsb' 27 9
def slot3 (v : BitVec 36) : BitVec 9 := v.extractLsb' 18 9
def slot2 (v : BitVec 36) : BitVec 9 := v.extractLsb' 9 9
def slot1 (v : BitVec 36) : BitVec 9 := v.extractLsb' 0 9

/-- The path from the PML4 to the page table of a page. -/
def tablePath (v : BitVec 36) : List (BitVec 9) := [slot4 v, slot3 v, slot2 v]

theorem shift_and_index (va : U64) (k : Nat) :
    (va >>> k) &&& 0x1FF = (va.extractLsb' k 9).setWidth 64 := by
  have hmask : (0x1FF : U64) = (BitVec.allOnes 9).setWidth 64 := by decide
  rw [hmask, BitField.shift_and_low]

/-- An index is a field of the page number. -/
theorem extractLsb'_vpn (va : U64) {k : Nat} (hk : k + 9 ≤ 36) :
    va.extractLsb' (12 + k) 9 = (vpn va).extractLsb' k 9 := by
  ext i hi
  simp [vpn, show k + i < 36 by omega, Nat.add_assoc]

theorem pml4Index_eq (va : U64) : pml4Index va = (slot4 (vpn va)).setWidth 64 := by
  rw [pml4Index, shift_and_index, slot4, ← extractLsb'_vpn va (by decide)]

theorem pdptIndex_eq (va : U64) : pdptIndex va = (slot3 (vpn va)).setWidth 64 := by
  rw [pdptIndex, shift_and_index, slot3, ← extractLsb'_vpn va (by decide)]

theorem pdIndex_eq (va : U64) : pdIndex va = (slot2 (vpn va)).setWidth 64 := by
  rw [pdIndex, shift_and_index, slot2, ← extractLsb'_vpn va (by decide)]

theorem ptIndex_eq (va : U64) : ptIndex va = (slot1 (vpn va)).setWidth 64 := by
  rw [ptIndex, shift_and_index, slot1, ← extractLsb'_vpn va (by decide)]

@[simp] theorem vpn_pageAlignDown (va : U64) : vpn (pageAlignDown va) = vpn va := by
  have hdown := pageAlignDown_toNat va
  apply BitVec.eq_of_toNat_eq
  rw [vpn, vpn, BitField.extractLsb'_toNat_eq, BitField.extractLsb'_toNat_eq, hdown]
  omega

/-- The four slots determine the page. -/
theorem vpn_ext {v v' : BitVec 36} (h4 : slot4 v = slot4 v') (h3 : slot3 v = slot3 v')
    (h2 : slot2 v = slot2 v') (h1 : slot1 v = slot1 v') : v = v' := by
  have hv := v.isLt
  have hv' := v'.isLt
  simp only [slot4, slot3, slot2, slot1, ← BitVec.toNat_inj, BitField.extractLsb'_toNat_eq] at *
  omega

theorem tablePath_slot1_inj {v v' : BitVec 36} (hp : tablePath v' = tablePath v)
    (h1 : slot1 v' = slot1 v) : v' = v := by
  simp only [tablePath, List.cons.injEq, and_true] at hp
  exact vpn_ext hp.1 hp.2.1 hp.2.2 h1

end Myria.Mm
