import Myria.Mm.FrameEffect

/-! Memory through the page tables. The processor loads and stores at virtual addresses, while
the tables and everything `user_as.c` writes are in physical memory. A run of kernel code sees
the bytes that its addresses are translated to, and what it stores goes to where they are
translated. -/
namespace Myria.Mm

open ByteMem RadixForest

/-- Where the byte at `va` is in physical memory. -/
def physOf (m : Mem) (root va : U64) : Option U64 :=
  (hwTranslate m root (vpn va)).map fun tr => tr.frame ||| (va &&& 0xfff)

/-- What is seen through the tables below `root`. Nothing is said about addresses that are not
translated: an access there is a fault. -/
def viewThrough (m : Mem) (root : U64) : Mem := fun va =>
  match physOf m root va with
  | some pa => m pa
  | none => 0

/-- Physical memory once the bytes at `written` are those of `view`. -/
def storeThrough (m : Mem) (root : U64) (written : List U64) (view : Mem) : Mem := fun pa =>
  match written.find? fun va => decide (physOf m root va = some pa) with
  | some va => view va
  | none => m pa

section

variable {m : Mem} {root va pa : U64} {tr : Translation}

theorem pageOffset_toNat (va : U64) : (va &&& 0xfff).toNat = va.toNat % 4096 := by
  rw [BitVec.toNat_and]
  exact Nat.and_two_pow_sub_one_eq_mod _ 12

theorem pageOffset_lt (va : U64) : (va &&& 0xfff).toNat < 4096 := by
  rw [pageOffset_toNat]
  exact Nat.mod_lt _ (by decide)

/-- The bits of the offset are clear in a frame's address. -/
theorem IsFrame.or_offset {f : U64} (hf : IsFrame f) (va : U64) :
    f ||| (va &&& 0xfff) = f + (va &&& 0xfff) := by
  have hclear : f &&& (va &&& 0xfff) = 0#64 := by
    rw [← show f &&& pteAddrMask = f from hf, BitVec.and_comm va, BitVec.and_assoc,
      ← BitVec.and_assoc pteAddrMask, show pteAddrMask &&& 0xfff = 0#64 by decide]
    simp
  exact (BitVec.add_eq_or_of_and_eq_zero _ _ hclear).symm

theorem IsFrame.pageAlignDown_or {f : U64} (hf : IsFrame f) (va : U64) :
    pageAlignDown (f ||| (va &&& 0xfff)) = f := by
  rw [hf.or_offset]
  exact hf.pageAlignDown_add (pageOffset_lt va)

theorem physOf_eq (h : hwTranslate m root (vpn va) = some tr) :
    physOf m root va = some (tr.frame ||| (va &&& 0xfff)) := by
  rw [physOf, h]
  rfl

/-- The byte is in the frame that its page is translated to. -/
theorem pageAlignDown_physOf (h : physOf m root va = some pa) :
    ∃ tr, hwTranslate m root (vpn va) = some tr ∧ pageAlignDown pa = tr.frame := by
  obtain ⟨tr, htr, rfl⟩ := Option.map_eq_some_iff.mp h
  exact ⟨tr, htr, (isFrame_of_hwTranslate htr).pageAlignDown_or va⟩

theorem viewThrough_eq (h : physOf m root va = some pa) : viewThrough m root va = m pa := by
  rw [viewThrough, h]

variable {written : List U64} {view : Mem}

/-- Stores change the frames that their addresses are translated to, -/
theorem changedOnlyIn_storeThrough (m : Mem) (root : U64) (written : List U64) (view : Mem) :
    ChangedOnlyIn (fun f => ∃ va ∈ written, ∃ tr, hwTranslate m root (vpn va) = some tr ∧
      f = tr.frame)
      m (storeThrough m root written view) := by
  intro pa hne
  rw [storeThrough] at hne
  split at hne
  · rename_i va hfind
    have hva := List.find?_some hfind
    rw [decide_eq_true_eq] at hva
    obtain ⟨tr, htr, hframe⟩ := pageAlignDown_physOf hva
    exact ⟨va, List.mem_of_find?_eq_some hfind, tr, htr, hframe⟩
  · exact absurd rfl hne

/-- and in them no byte that none of the addresses is translated to. -/
theorem storeThrough_of_ne (h : ∀ x ∈ written, physOf m root x ≠ some pa) :
    storeThrough m root written view pa = m pa := by
  have hfind : written.find? (fun va => decide (physOf m root va = some pa)) = none := by
    rw [List.find?_eq_none]
    exact fun x hx heq => h x hx (of_decide_eq_true heq)
  rw [storeThrough, hfind]

/-- A byte stored is there, unless another address is translated to it too. -/
theorem storeThrough_of_mem (hva : va ∈ written) (h : physOf m root va = some pa)
    (hinj : ∀ x ∈ written, physOf m root x = some pa → x = va) :
    storeThrough m root written view pa = view va := by
  rcases hfind : written.find? (fun va => decide (physOf m root va = some pa)) with _ | x
  · exact absurd (decide_eq_true h) (List.find?_eq_none.mp hfind va hva)
  · have hx := List.find?_some hfind
    rw [decide_eq_true_eq] at hx
    rw [storeThrough, hfind, hinj x (List.mem_of_find?_eq_some hfind) hx]

end

end Myria.Mm
