import Myria.Mm.Translate
import Myria.Mm.Vmm

/-! The page walk of `paging.c`, which knows large pages, against the one of
`vmm.c`, which does not: where `walk_va_to_leaf` stops at a 1 GiB or 2 MiB page,
`vmm_get_physical` goes on and takes the data in that page for page tables. -/
namespace Myria.Mm

open ByteMem RadixForest

/-- `leaf_t` -/
inductive Leaf where
  | leaf4K | leaf2M | leaf1G | leafNone
deriving DecidableEq, Repr

/-- `walk_t`: the pointers met on the way. -/
structure Walk where
  pml4 : U64
  pml4e : U64
  pdpt : U64
  pdpte : U64
  pd : U64
  pde : U64
  pt : U64
  pte : U64
  leaf : Leaf

/-- `*ptr`, for a pointer into the direct map. -/
def MmState.deref (s : MmState) (ptr : U64) : U64 := read64 s.mem (ptr - s.getHhdmBase)

section

variable (s : MmState) (va : U64)

/-- The last level of `walk_va_to_leaf`, from the page table at `pt` on. -/
def walkPt (w : Walk) (pt : U64) : Bool × Walk :=
  let w := { w with pt, pte := tableSlot pt (ptIndex va) }
  if ¬ HasFlag (s.deref w.pte) ptePresent then (false, w)
  else (true, { w with leaf := .leaf4K })

def walkPd (w : Walk) (pd : U64) : Bool × Walk :=
  let w := { w with pd, pde := tableSlot pd (pdIndex va) }
  if ¬ HasFlag (s.deref w.pde) ptePresent then (false, w)
  else if HasFlag (s.deref w.pde) pteHugePage then (true, { w with leaf := .leaf2M })
  else walkPt s va w (s.physToVirt (s.deref w.pde &&& pteAddrMask))

def walkPdpt (w : Walk) (pdpt : U64) : Bool × Walk :=
  let w := { w with pdpt, pdpte := tableSlot pdpt (pdptIndex va) }
  if ¬ HasFlag (s.deref w.pdpte) ptePresent then (false, w)
  else if HasFlag (s.deref w.pdpte) pteHugePage then (true, { w with leaf := .leaf1G })
  else walkPd s va w (s.physToVirt (s.deref w.pdpte &&& pteAddrMask))

/-- `walk_va_to_leaf`, with what `*w` held before. -/
def walkVaToLeaf (w : Walk) : Bool × Walk :=
  let pml4 := s.physToVirt (s.cr3 &&& pteAddrMask)
  let w := { w with pml4, pml4e := tableSlot pml4 (pml4Index va) }
  if ¬ HasFlag (s.deref w.pml4e) ptePresent then (false, w)
  else walkPdpt s va w (s.physToVirt (s.deref w.pml4e &&& pteAddrMask))

/-- The frame of the 4 KiB page of `va` that a walk determines, `0` if it failed. -/
def walkedFrame : Bool × Walk → U64
  | (true, w) =>
    match w.leaf with
    | .leaf4K => pteToPhys (s.deref w.pte)
    | .leaf2M => largeFrame (s.deref w.pde) (vpn va) 9
    | .leaf1G => largeFrame (s.deref w.pdpte) (vpn va) 18
    | .leafNone => 0
  | (false, _) => 0

end

/-! ## Both walks level by level -/

variable {s : MmState} {va : U64}

/-- A slot of a table behind the direct map is an entry of its frame. -/
theorem MmState.deref_window (s : MmState) (t : U64) (i : BitVec 9) :
    s.deref (tableSlot (s.physToVirt t) (i.setWidth 64)) = entry s.mem t i := by
  rw [deref, physToVirt, tableSlot_window, entry]

/-- What the walk of `vmm.c` finds below table `t`: it follows every present
entry, large page or not. -/
def plainFrame (m : Mem) (t : U64) (p : List (BitVec 9)) (j : BitVec 9) : U64 :=
  ((leaf followPresent m t p j).bind presentRef).getD 0

theorem plainFrame_nil (m : Mem) (t : U64) (j : BitVec 9) :
    plainFrame m t [] j =
      if HasFlag (entry m t j) ptePresent then pteToPhys (entry m t j) else 0 := by
  simp only [plainFrame, leaf, walk, Option.map_some, Option.bind_some, presentRef]
  split <;> rfl

theorem plainFrame_cons (m : Mem) (t : U64) (i : BitVec 9) (p : List (BitVec 9)) (j : BitVec 9) :
    plainFrame m t (i :: p) j =
      if HasFlag (entry m t i) ptePresent then plainFrame m (pteToPhys (entry m t i)) p j
        else 0 := by
  simp only [plainFrame, leaf, walk, child, presentRef]
  split <;> rfl

theorem vmmGetPhysical_plain (s : MmState) (va : U64) :
    vmmGetPhysical s va = plainFrame s.mem s.kernelRoot (tablePath (vpn va)) (slot1 (vpn va)) :=
  vmmGetPhysical_eq s va

theorem walkPt_frame (w : Walk) (t : U64) :
    walkedFrame s va (walkPt s va w (s.physToVirt t)) = plainFrame s.mem t [] (slot1 (vpn va)) := by
  simp only [walkPt, ptIndex_eq, MmState.deref_window, plainFrame_nil, ite_not]
  split
  · exact congrArg pteToPhys (MmState.deref_window s t _)
  · rfl

/-- What `walk_va_to_leaf` determines from the page directory `t` on. -/
def pdFrame (m : Mem) (t : U64) (v : BitVec 36) : U64 :=
  let e := entry m t (slot2 v)
  if ¬ HasFlag e ptePresent then 0
  else if HasFlag e pteHugePage then largeFrame e v 9
  else plainFrame m (pteToPhys e) [] (slot1 v)

theorem walkPd_frame (w : Walk) (t : U64) :
    walkedFrame s va (walkPd s va w (s.physToVirt t)) = pdFrame s.mem t (vpn va) := by
  simp only [walkPd, pdIndex_eq, MmState.deref_window, pdFrame]
  split
  · rfl
  split
  · exact congrArg (largeFrame · _ _) (MmState.deref_window s t _)
  · exact walkPt_frame _ _

/-- What it determines from the page-directory-pointer table `t` on. -/
def pdptFrame (m : Mem) (t : U64) (v : BitVec 36) : U64 :=
  let e := entry m t (slot3 v)
  if ¬ HasFlag e ptePresent then 0
  else if HasFlag e pteHugePage then largeFrame e v 18
  else pdFrame m (pteToPhys e) v

theorem walkPdpt_frame (w : Walk) (t : U64) :
    walkedFrame s va (walkPdpt s va w (s.physToVirt t)) = pdptFrame s.mem t (vpn va) := by
  simp only [walkPdpt, pdptIndex_eq, MmState.deref_window, pdptFrame]
  split
  · rfl
  split
  · exact congrArg (largeFrame · _ _) (MmState.deref_window s t _)
  · exact walkPd_frame _ _

theorem walkVaToLeaf_frame (s : MmState) (va : U64) (w : Walk) :
    walkedFrame s va (walkVaToLeaf s va w) =
      if HasFlag (entry s.mem (pteToPhys s.cr3) (slot4 (vpn va))) ptePresent then
        pdptFrame s.mem (pteToPhys (entry s.mem (pteToPhys s.cr3) (slot4 (vpn va)))) (vpn va)
      else 0 := by
  simp only [walkVaToLeaf, pml4Index_eq, MmState.deref_window, ite_not]
  change
    walkedFrame s va (if HasFlag (entry s.mem (pteToPhys s.cr3) _) ptePresent then _ else _) = _
  split
  · exact walkPdpt_frame _ _
  · rfl

/-! ## Where they agree -/

/-- The word `x`, taken for a page-table entry, stands for `frame`; one that is
not present stands for `0`. -/
def ReadsAs (x frame : U64) : Prop :=
  if HasFlag x ptePresent then pteToPhys x = frame else frame = 0

/-- Below page directory `t`: if `v` lies in a 2 MiB page, the word that page
holds where a page table would hold the entry of `v` stands for the frame of `v`. -/
def PdReadsAlike (m : Mem) (t : U64) (v : BitVec 36) : Prop :=
  let e := entry m t (slot2 v)
  HasFlag e ptePresent → HasFlag e pteHugePage →
    ReadsAs (entry m (pteToPhys e) (slot1 v)) (largeFrame e v 9)

/-- Below page-directory-pointer table `t`: the same of a 1 GiB page, whose words
pass for a page directory and what that refers to for a page table. -/
def PdptReadsAlike (m : Mem) (t : U64) (v : BitVec 36) : Prop :=
  let e := entry m t (slot3 v)
  HasFlag e ptePresent →
    if HasFlag e pteHugePage then
      let x := entry m (pteToPhys e) (slot2 v)
      if HasFlag x ptePresent then ReadsAs (entry m (pteToPhys x) (slot1 v)) (largeFrame e v 18)
      else largeFrame e v 18 = 0
    else PdReadsAlike m (pteToPhys e) v

def LargePageReadsAlike (m : Mem) (root : U64) (v : BitVec 36) : Prop :=
  let e := entry m root (slot4 v)
  HasFlag e ptePresent → PdptReadsAlike m (pteToPhys e) v

theorem plainFrame_nil_eq_iff {m : Mem} {t : U64} {j : BitVec 9} {f : U64} :
    plainFrame m t [] j = f ↔ ReadsAs (entry m t j) f := by
  rw [plainFrame_nil, ReadsAs]
  split
  · rfl
  · exact eq_comm

theorem pdFrame_eq_iff (m : Mem) (t : U64) (v : BitVec 36) :
    plainFrame m t [slot2 v] (slot1 v) = pdFrame m t v ↔ PdReadsAlike m t v := by
  simp only [plainFrame_cons, pdFrame, PdReadsAlike]
  by_cases hp : HasFlag (entry m t (slot2 v)) ptePresent
  swap
  · simp [hp]
  by_cases hh : HasFlag (entry m t (slot2 v)) pteHugePage
  · simp [hp, hh, plainFrame_nil_eq_iff]
  · simp [hp, hh]

theorem pdptFrame_eq_iff (m : Mem) (t : U64) (v : BitVec 36) :
    plainFrame m t [slot3 v, slot2 v] (slot1 v) = pdptFrame m t v ↔ PdptReadsAlike m t v := by
  rw [plainFrame_cons]
  simp only [pdptFrame, PdptReadsAlike]
  by_cases hp : HasFlag (entry m t (slot3 v)) ptePresent
  swap
  · simp [hp]
  simp only [hp, if_true, not_true, if_false, true_imp_iff]
  by_cases hh : HasFlag (entry m t (slot3 v)) pteHugePage
  · -- the directory and the table that the plain walk reads here are data
    rw [if_pos hh, if_pos hh, plainFrame_cons]
    split
    · exact plainFrame_nil_eq_iff
    · exact eq_comm
  · rw [if_neg hh, if_neg hh]
    exact pdFrame_eq_iff m _ v

/-- **Where the two walks agree.** With `current_pml4` and CR3 at one PML4,
`vmm_get_physical` answers what `walk_va_to_leaf` determines exactly if `va` is in
no large page, or in one whose own contents pass for tables that lead to the
same frame. -/
theorem walkers_agree_iff (s : MmState) (hroot : s.kernelRoot = pteToPhys s.cr3) (va : U64)
    (w : Walk) :
    vmmGetPhysical s va = walkedFrame s va (walkVaToLeaf s va w) ↔
      LargePageReadsAlike s.mem (pteToPhys s.cr3) (vpn va) := by
  rw [vmmGetPhysical_plain, walkVaToLeaf_frame, hroot, tablePath, plainFrame_cons]
  simp only [LargePageReadsAlike]
  by_cases hp : HasFlag (entry s.mem (pteToPhys s.cr3) (slot4 (vpn va))) ptePresent
  · rw [if_pos hp, if_pos hp, pdptFrame_eq_iff]
    exact ⟨fun h _ => h, fun h => h hp⟩
  · simp [hp]

/-- A `walk_t` before anything is written to it. -/
def Walk.unset : Walk := ⟨0, 0, 0, 0, 0, 0, 0, 0, .leafNone⟩

/-- One 4 KiB page at `0x400000`, in the frame at `0x300000`. -/
def MmState.oneSmallPage : MmState :=
  { blank with
    mem := setEntry (setEntry (setEntry (setEntry blank.mem 0x1000 0 0x2003) 0x2000 0 0x3003)
      0x3000 2 0x4003) 0x4000 0 0x300003 }

theorem walkers_agree_small_page :
    MmState.oneSmallPage.kernelRoot = pteToPhys MmState.oneSmallPage.cr3 ∧
      vmmGetPhysical .oneSmallPage 0x400000 = 0x300000 ∧
      walkedFrame .oneSmallPage 0x400000 (walkVaToLeaf .oneSmallPage 0x400000 .unset) =
        0x300000 := by
  have hroot : MmState.oneSmallPage.kernelRoot = pteToPhys MmState.oneSmallPage.cr3 := by decide
  have hfound : vmmGetPhysical .oneSmallPage 0x400000 = 0x300000 := by decide +kernel
  have hslots : slot4 (vpn 0x400000) = 0 ∧ slot3 (vpn 0x400000) = 0 ∧ slot2 (vpn 0x400000) = 2 := by
    decide
  have hpdpt : pteToPhys (entry MmState.oneSmallPage.mem 0x1000 0) = 0x2000 := by decide +kernel
  have hpdpte : entry MmState.oneSmallPage.mem 0x2000 0 = 0x3003 := by decide +kernel
  have hpde : entry MmState.oneSmallPage.mem 0x3000 2 = 0x4003 := by decide +kernel
  have hagree : LargePageReadsAlike MmState.oneSmallPage.mem 0x1000 (vpn 0x400000) := by
    intro _ _
    rw [hslots.1, hslots.2.1, hpdpt, hpdpte, if_neg (by decide), PdReadsAlike, hslots.2.2,
      show pteToPhys 0x3003 = 0x3000 by decide, hpde]
    exact fun _ hhuge => absurd hhuge (by decide)
  exact ⟨hroot, hfound, ((walkers_agree_iff .oneSmallPage hroot _ _).mpr hagree).symm.trans hfound⟩

/-- The second 2 MiB of the higher half mapped by one large page, as a
bootloader maps them. -/
def MmState.oneLargePage : MmState :=
  { blank with
    mem := setEntry (setEntry (setEntry blank.mem 0x1000 256 0x2003) 0x2000 0 0x3003)
      0x3000 1 0x200083 }

theorem vmm_misses_large_page :
    MmState.oneLargePage.kernelRoot = pteToPhys MmState.oneLargePage.cr3 ∧
      (walkVaToLeaf .oneLargePage 0xffff800000200000 .unset).2.leaf = .leaf2M ∧
      walkedFrame .oneLargePage 0xffff800000200000
        (walkVaToLeaf .oneLargePage 0xffff800000200000 .unset) = 0x200000 ∧
      vmmGetPhysical .oneLargePage 0xffff800000200000 = 0 := by
  decide +kernel

end Myria.Mm
