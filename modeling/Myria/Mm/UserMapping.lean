import Myria.Lib.Trace
import Myria.Mm.UserAs

/-! The in-place user mappings of `user_mapping.c`: pages for user mode in the
tables CR3 refers to. Every store goes on record, since the file makes a promise
about the time between its calls too. The TLB flushes and the serial messages are
left out. -/
namespace Myria.Mm

open ByteMem RadixForest Trace

/-- `USER_PAGE_WRITE` -/
def userPageWrite : U64 := ptePresent ||| pteUser ||| pteWritable

/-- `USER_PAGE_RW_NOEXEC` -/
def userPageRwNoexec : U64 := ptePresent ||| pteUser ||| pteWritable ||| pteNoExecute

def clearPage (r : Traced MmState) (physAddr : U64) : Traced MmState :=
  let page := r.now.physToVirt physAddr
  let base := r.now.getHhdmBase
  (List.range 4096).foldl (fun r i => r.put (r.now.store8 base page (BitVec.ofNat 64 i) 0)) r

/-- `get_or_make_table`; the null pointer is `0`. -/
def getOrMakeTable (r : Traced MmState) (table index : U64) : U64 × Traced MmState :=
  let base := r.now.getHhdmBase
  if ¬ HasFlag (r.now.load base table index) ptePresent then
    let (phys, pmm) := pmmAllocPage r.now.pmm
    let r := r.put { r.now with pmm }
    if phys = 0#64 then (0#64, r)
    else
      let r := clearPage r phys
      let r := r.put (r.now.store base table index
        (phys ||| ptePresent ||| pteUser ||| pteWritable))
      (r.now.physToVirt (r.now.load base table index &&& pteAddrMask), r)
  else
    let r := r.put (r.now.store base table index (r.now.load base table index ||| pteUser))
    (r.now.physToVirt (r.now.load base table index &&& pteAddrMask), r)

/-- `t = get_or_make_table(table, index); if (!t) return false;` and on with
`next`. -/
def withTable (r : Traced MmState) (table index : U64)
    (next : Traced MmState → U64 → Bool × Traced MmState) : Bool × Traced MmState :=
  let (t, r) := getOrMakeTable r table index
  if t = 0#64 then (false, r) else next r t

section

variable (userVa physAddr flags : U64)

/-- The last step of `map_user_4k`, in the page table at `pt`. -/
def mapInPt (r : Traced MmState) (pt : U64) : Bool × Traced MmState :=
  (true, r.put (r.now.store r.now.getHhdmBase pt (ptIndex userVa)
    ((physAddr &&& pteAddrMask) ||| flags ||| pteUser)))

/-- `map_user_4k` from the page directory at `pd` on. -/
def mapInPd (r : Traced MmState) (pd : U64) : Bool × Traced MmState :=
  if HasFlag (r.now.load r.now.getHhdmBase pd (pdIndex userVa)) pteHugePage then (false, r)
  else withTable r pd (pdIndex userVa) (mapInPt userVa physAddr flags)

/-- `map_user_4k` from the page-directory-pointer table at `pdpt` on. -/
def mapInPdpt (r : Traced MmState) (pdpt : U64) : Bool × Traced MmState :=
  if HasFlag (r.now.load r.now.getHhdmBase pdpt (pdptIndex userVa)) pteHugePage then (false, r)
  else withTable r pdpt (pdptIndex userVa) (mapInPd userVa physAddr flags)

/-- `map_user_4k` -/
def mapUser4k (r : Traced MmState) : Bool × Traced MmState :=
  let pml4 := r.now.physToVirt (r.now.cr3 &&& pteAddrMask)
  withTable r pml4 (pml4Index userVa) (mapInPdpt userVa physAddr flags)

end

/-- `setup_user_address_space`: the code address and the top of the stack, unless
it fails. Of a failed allocation the other pages are given back, in the order of
the source. -/
def setupUserAddressSpace (r : Traced MmState) : Option (U64 × U64) × Traced MmState :=
  let codeVa : U64 := 0x400000
  let stackBase : U64 := 0x800000
  let stackSize : U64 := 0x2000
  let (codePa, pmm) := pmmAllocPage r.now.pmm
  let (stack1Pa, pmm) := pmmAllocPage pmm
  let (stack0Pa, pmm) := pmmAllocPage pmm
  if codePa = 0#64 ∨ stack1Pa = 0#64 ∨ stack0Pa = 0#64 then
    let pmm := if codePa ≠ 0#64 then pmmFreePage pmm codePa else pmm
    let pmm := if stack1Pa ≠ 0#64 then pmmFreePage pmm stack1Pa else pmm
    let pmm := if stack0Pa ≠ 0#64 then pmmFreePage pmm stack0Pa else pmm
    (none, r.put { r.now with pmm })
  else
    match mapUser4k codeVa codePa userPageWrite (r.put { r.now with pmm }) with
    | (false, r) => (none, r)
    | (true, r) =>
      match mapUser4k stackBase stack1Pa userPageRwNoexec r with
      | (false, r) => (none, r)
      | (true, r) =>
        match mapUser4k (stackBase + 0x1000) stack0Pa userPageRwNoexec r with
        | (false, r) => (none, r)
        | (true, r) => (some (codeVa, stackBase + stackSize), r)

/-- A store of the kernel through the page tables. `msr.c` sets `CR0.WP`, so the
page has to be writable; `none` is a page fault. -/
def storeByte (r : Traced MmState) (va : U64) (b : BitVec 8) : Option (Traced MmState) :=
  match hwTranslate r.now.mem (pteToPhys r.now.cr3) (vpn va) with
  | some tr =>
    if tr.writable then
      some (r.put { r.now with mem := write8 r.now.mem (tr.frame ||| (va &&& 0xfff)) b })
    else none
  | none => none

/-- The stores `dst[i] = src[i]` for the indices `is`, and whether none faulted. -/
def copyBytes (dst : U64) (src : U64 → BitVec 8) :
    Traced MmState → List Nat → Bool × Traced MmState
  | r, [] => (true, r)
  | r, i :: is =>
    match storeByte r (dst + BitVec.ofNat 64 i) (src (BitVec.ofNat 64 i)) with
    | none => (false, r)
    | some r => copyBytes dst src r is

/-- `copy_user_code`. The first byte is copied whatever the size. A fault does not
return to the caller, which here is a failure like any other. -/
def copyUserCode (r : Traced MmState) (userCodeVa : U64) (kernelCode : U64 → BitVec 8)
    (codeSize : U64) : Bool × Traced MmState :=
  if 4096 < codeSize then (false, r)
  else copyBytes userCodeVa kernelCode r (0 :: List.range' 1 (codeSize.toNat - 1))

/-- `make_code_page_executable`, which looks at no present bit on its way. -/
def makeCodePageExecutable (r : Traced MmState) (userCodeVa : U64) : Bool × Traced MmState :=
  let base := r.now.getHhdmBase
  let pml4 := r.now.physToVirt (r.now.cr3 &&& pteAddrMask)
  let pdpt := r.now.physToVirt (r.now.load base pml4 (pml4Index userCodeVa) &&& pteAddrMask)
  let pd := r.now.physToVirt (r.now.load base pdpt (pdptIndex userCodeVa) &&& pteAddrMask)
  let pt := r.now.physToVirt (r.now.load base pd (pdIndex userCodeVa) &&& pteAddrMask)
  let i := ptIndex userCodeVa
  let r := r.put (r.now.store base pt i (r.now.load base pt i &&& ~~~pteWritable))
  let r := r.put (r.now.store base pt i (r.now.load base pt i &&& ~~~pteNoExecute))
  (true, r)

/-- The three calls in turn, up to the first that fails. -/
def inPlaceSequence (s : MmState) (kernelCode : U64 → BitVec 8) (codeSize : U64) :
    Traced MmState :=
  match setupUserAddressSpace (.start s) with
  | (none, r) => r
  | (some (codeVa, _), r) =>
    match copyUserCode r codeVa kernelCode codeSize with
    | (false, r) => r
    | (true, r) => (makeCodePageExecutable r codeVa).2

/-! ## Nothing is taken back -/

open Traced

theorem clearPage_extends (r : Traced MmState) (f : U64) : Extends r (clearPage r f) :=
  extends_foldl (fun r _ => (Extends.refl r).put _) _ _

theorem getOrMakeTable_extends (r : Traced MmState) (table index : U64) :
    Extends r (getOrMakeTable r table index).2 := by
  unfold getOrMakeTable
  dsimp only
  split
  · split
    · exact (Extends.refl r).put _
    · exact Extends.put (((Extends.refl r).put _).trans (clearPage_extends _ _)) _
  · exact (Extends.refl r).put _

theorem withTable_extends {next : Traced MmState → U64 → Bool × Traced MmState}
    (hnext : ∀ r t, Extends r (next r t).2) (r : Traced MmState) (table index : U64) :
    Extends r (withTable r table index next).2 := by
  unfold withTable
  have h := getOrMakeTable_extends r table index
  generalize getOrMakeTable r table index = out at h ⊢
  dsimp only
  split
  · exact h
  · exact h.trans (hnext _ _)

section

variable (userVa physAddr flags : U64) (r : Traced MmState)

theorem mapInPt_extends (pt : U64) : Extends r (mapInPt userVa physAddr flags r pt).2 :=
  (Extends.refl r).put _

theorem mapInPd_extends (pd : U64) : Extends r (mapInPd userVa physAddr flags r pd).2 := by
  unfold mapInPd
  split
  · exact Extends.refl r
  · exact withTable_extends (mapInPt_extends userVa physAddr flags) r _ _

theorem mapInPdpt_extends (pdpt : U64) : Extends r (mapInPdpt userVa physAddr flags r pdpt).2 := by
  unfold mapInPdpt
  split
  · exact Extends.refl r
  · exact withTable_extends (mapInPd_extends userVa physAddr flags) r _ _

theorem mapUser4k_extends : Extends r (mapUser4k userVa physAddr flags r).2 :=
  withTable_extends (mapInPdpt_extends userVa physAddr flags) r _ _

end

theorem copyBytes_extends (dst : U64) (src : U64 → BitVec 8) (is : List Nat) (r : Traced MmState) :
    Extends r (copyBytes dst src r is).2 := by
  induction is generalizing r with
  | nil => exact Extends.refl r
  | cons i is ih =>
    simp only [copyBytes, storeByte]
    split
    · exact Extends.refl r
    · rename_i r' hstore
      refine Extends.trans ?_ (ih r')
      split at hstore
      · split at hstore
        · cases Option.some.inj hstore
          exact (Extends.refl r).put _
        · cases hstore
      · cases hstore

theorem makeCodePageExecutable_extends (r : Traced MmState) (userCodeVa : U64) :
    Extends r (makeCodePageExecutable r userCodeVa).2 := ((Extends.refl r).put _).put _

theorem copyUserCode_extends (r : Traced MmState) (userCodeVa : U64) (kernelCode : U64 → BitVec 8)
    (codeSize : U64) : Extends r (copyUserCode r userCodeVa kernelCode codeSize).2 := by
  unfold copyUserCode
  split
  · exact Extends.refl r
  · exact copyBytes_extends _ _ _ _

/-- After the three allocations `setup_user_address_space` maps the code page, and
goes on if it can. -/
theorem setupUserAddressSpace_of_pages {r : Traced MmState} {a b c : U64} {p₁ p₂ p₃ : Pmm}
    (h₁ : pmmAllocPage r.now.pmm = (a, p₁)) (h₂ : pmmAllocPage p₁ = (b, p₂))
    (h₃ : pmmAllocPage p₂ = (c, p₃)) (hnull : ¬ (a = 0#64 ∨ b = 0#64 ∨ c = 0#64)) :
    let out := mapUser4k 0x400000 a userPageWrite (r.put { r.now with pmm := p₃ })
    (out.1 = false → setupUserAddressSpace r = (none, out.2)) ∧
      Extends out.2 (setupUserAddressSpace r).2 := by
  simp only [setupUserAddressSpace, h₁, h₂, h₃, if_neg hnull]
  generalize mapUser4k 0x400000 a userPageWrite (r.put _) = out
  obtain ⟨ok, q⟩ := out
  cases ok with
  | false => exact ⟨fun _ => rfl, Extends.refl q⟩
  | true =>
    refine ⟨fun h => Bool.noConfusion h, ?_⟩
    have hstack := mapUser4k_extends 0x800000 b userPageRwNoexec q
    dsimp only
    generalize mapUser4k 0x800000 b userPageRwNoexec q = out₁ at hstack ⊢
    obtain ⟨ok₁, q₁⟩ := out₁
    cases ok₁ with
    | false => exact hstack
    | true =>
      have htop := mapUser4k_extends (0x800000 + 0x1000) c userPageRwNoexec q₁
      dsimp only
      generalize mapUser4k (0x800000 + 0x1000) c userPageRwNoexec q₁ = out₂ at htop ⊢
      obtain ⟨ok₂, q₂⟩ := out₂
      cases ok₂ <;> exact hstack.trans htop

theorem inPlaceSequence_extends (s : MmState) (kernelCode : U64 → BitVec 8) (codeSize : U64) :
    Extends (setupUserAddressSpace (.start s)).2 (inPlaceSequence s kernelCode codeSize) := by
  unfold inPlaceSequence
  obtain ⟨found, r⟩ := setupUserAddressSpace (.start s)
  cases found with
  | none => exact Extends.refl r
  | some found =>
    have hcopy := copyUserCode_extends r found.1 kernelCode codeSize
    dsimp only
    generalize copyUserCode r found.1 kernelCode codeSize = copied at hcopy ⊢
    obtain ⟨ok, q⟩ := copied
    cases ok with
    | false => exact hcopy
    | true => exact hcopy.trans (makeCodePageExecutable_extends q found.1)

/-! ## Getting or making a table -/

/-- The states in which the first bytes of frame `f` are cleared already. -/
def Clearing (s : MmState) (f : U64) (x : MmState) : Prop :=
  ∃ n ≤ 4096, x = { s with mem := zeroed s.mem f n }

/-- After `n` rounds of the clearing loop. -/
theorem clearPage_loop (r : Traced MmState) (f : U64) (n : Nat) (hn : n ≤ 4096) :
    let out := (List.range n).foldl (fun q i => q.put
      (q.now.store8 r.now.getHhdmBase (r.now.physToVirt f) (BitVec.ofNat 64 i) 0)) r
    out.now = { r.now with mem := zeroed r.now.mem f n } ∧
      ∀ x ∈ out.states, x ∈ r.states ∨ Clearing r.now f x := by
  induction n with
  | zero =>
    refine ⟨?_, fun x hx => .inl hx⟩
    rw [zeroed_zero]
    rfl
  | succ n ih =>
    obtain ⟨hnow, hstates⟩ := ih (by omega)
    have haddr : f + r.now.getHhdmBase + BitVec.ofNat 64 n - r.now.getHhdmBase =
        f + BitVec.ofNat 64 n := by bv_omega
    have hzero := write8_zeroed r.now.mem f (show n < 2 ^ 64 by omega)
    dsimp only
    rw [List.range_succ, List.foldl_append, List.foldl_cons, List.foldl_nil]
    generalize (List.range n).foldl _ r = out at hnow hstates ⊢
    have hput : out.now.store8 r.now.getHhdmBase (r.now.physToVirt f) (BitVec.ofNat 64 n) 0 =
        { r.now with mem := zeroed r.now.mem f (n + 1) } := by
      rw [hnow, MmState.store8, MmState.physToVirt, haddr, hzero]
    rw [hput]
    refine ⟨rfl, fun x hx => ?_⟩
    rcases mem_put.mp hx with rfl | hx
    · exact .inr ⟨n + 1, hn, rfl⟩
    · exact hstates x hx

/-- `table[index] |= PTE_USER` -/
def openSlot (m : Mem) (t : U64) (i : BitVec 9) : Mem := setEntry m t i (entry m t i ||| pteUser)

/-- The entry for a new table. -/
def newTableEntry (f : U64) : U64 := f ||| ptePresent ||| pteUser ||| pteWritable

theorem newTableEntry_eq (f : U64) : newTableEntry f = f ||| userPageWrite := by
  rw [newTableEntry, userPageWrite, BitVec.or_assoc, BitVec.or_assoc, ← BitVec.or_assoc ptePresent]

theorem IsFrame.pteToPhys_newTableEntry {f : U64} (hf : IsFrame f) :
    pteToPhys (newTableEntry f) = f := by
  rw [newTableEntry_eq, hf.pteToPhys_or (by decide)]

/-- An empty slot gets a fresh table. -/
theorem getOrMakeTable_link {r : Traced MmState} {t f : U64} {i : BitVec 9} {p' : Pmm}
    (ht : IsFrame t) (hempty : ¬ HasFlag (entry r.now.mem t i) ptePresent)
    (halloc : pmmAllocPage r.now.pmm = (f, p')) (hf : IsFrame f) (hne : f ≠ 0#64) :
    ∃ q : Traced MmState, (∀ x ∈ q.states, x ∈ r.states ∨ Clearing { r.now with pmm := p' } f x) ∧
      getOrMakeTable r (r.now.physToVirt t) (i.setWidth 64) =
        (r.now.physToVirt f, q.put { r.now with
          mem := linked r.now.mem t i f (newTableEntry f), pmm := p' }) := by
  obtain ⟨hnow, hstates⟩ := clearPage_loop (r.put { r.now with pmm := p' }) f 4096 (Nat.le_refl _)
  refine ⟨clearPage (r.put { r.now with pmm := p' }) f, ?_, ?_⟩
  · -- the state after the allocation is the one with no byte cleared yet
    intro x hx
    rcases hstates x hx with hx | hx
    · rcases mem_put.mp hx with rfl | hx
      · exact .inr ⟨0, Nat.zero_le _, by rw [zeroed_zero]⟩
      · exact .inl hx
    · exact .inr hx
  · have hclear : (clearPage (r.put { r.now with pmm := p' }) f).now =
        { r.now with pmm := p', mem := zeroed r.now.mem f 4096 } := hnow
    simp only [getOrMakeTable, MmState.physToVirt, MmState.load_window, if_pos hempty, halloc,
      if_neg hne]
    rw [hclear, MmState.store_window]
    simp only [now_put]
    rw [← linked, ← newTableEntry, entry_linked _ ht hf ht, if_pos ⟨rfl, rfl⟩, ← pteToPhys,
      hf.pteToPhys_newTableEntry]
    rfl

/-- What one level of `map_user_4k` can do at slot `i` of table `t`: open a present
entry to user mode, fail on an exhausted allocator, or clear a fresh table and
link it. -/
theorem getOrMakeTable_cases {r : Traced MmState} (h : r.now.pmm.Consistent) {t : U64}
    (ht : IsFrame t) (i : BitVec 9) :
    (HasFlag (entry r.now.mem t i) ptePresent ∧
      getOrMakeTable r (r.now.physToVirt t) (i.setWidth 64) =
        (r.now.physToVirt (pteToPhys (entry r.now.mem t i)),
          r.put { r.now with mem := openSlot r.now.mem t i })) ∨
    (¬ HasFlag (entry r.now.mem t i) ptePresent ∧ r.now.pmm.Exhausted ∧
      getOrMakeTable r (r.now.physToVirt t) (i.setWidth 64) = (0#64, r.put r.now)) ∨
    (¬ HasFlag (entry r.now.mem t i) ptePresent ∧ ∃ f p', ∃ q : Traced MmState,
      pmmAllocPage r.now.pmm = (f, p') ∧ TakesPage r.now.pmm f p' ∧
      (∀ x ∈ q.states, x ∈ r.states ∨ Clearing { r.now with pmm := p' } f x) ∧
      getOrMakeTable r (r.now.physToVirt t) (i.setWidth 64) =
        (r.now.physToVirt f, q.put { r.now with
          mem := linked r.now.mem t i f (newTableEntry f), pmm := p' })) := by
  by_cases hpres : HasFlag (entry r.now.mem t i) ptePresent
  · refine .inl ⟨hpres, ?_⟩
    simp only [getOrMakeTable, MmState.physToVirt, MmState.load_window]
    rw [if_neg (not_not.mpr hpres), MmState.store_window, ← openSlot]
    simp only [now_put]
    rw [openSlot, entry_setEntry _ ht ht, if_pos ⟨rfl, rfl⟩, ← pteToPhys, pteToPhys_or_user]
    rfl
  rcases pmmAllocPage_cases h with ⟨heq, hex⟩ | ⟨f, p', heq, htake⟩
  · refine .inr (.inl ⟨hpres, hex, ?_⟩)
    simp only [getOrMakeTable, MmState.physToVirt, MmState.load_window, if_pos hpres, heq, if_true]
  · obtain ⟨q, hq, hlink⟩ := getOrMakeTable_link ht hpres heq htake.isFrame htake.isPage.ne_zero
    exact .inr (.inr ⟨hpres, f, p', q, heq, htake, hq, hlink⟩)

section Fresh

variable {r : Traced MmState} {t f va : U64} {p' : Pmm}

/-- A level of `map_user_4k` at a cleared slot. -/
theorem withTable_link {i : BitVec 9} (ht : IsFrame t) (hempty : entry r.now.mem t i = 0#64)
    (halloc : pmmAllocPage r.now.pmm = (f, p')) (hf : IsFrame f ∧ f ≠ 0#64)
    (hnull : r.now.physToVirt f ≠ 0#64) (next : Traced MmState → U64 → Bool × Traced MmState) :
    ∃ q : Traced MmState, withTable r (r.now.physToVirt t) (i.setWidth 64) next =
      next (q.put { r.now with mem := linked r.now.mem t i f (newTableEntry f), pmm := p' })
        (r.now.physToVirt f) := by
  have habsent : ¬ HasFlag (entry r.now.mem t i) ptePresent := by
    rw [hempty]
    exact not_hasFlag_zero _
  obtain ⟨q, -, heq⟩ := getOrMakeTable_link ht habsent halloc hf.1 hf.2
  refine ⟨q, ?_⟩
  simp only [withTable, heq, if_neg hnull]

theorem mapInPdpt_link (ht : IsFrame t) (hempty : entry r.now.mem t (slot3 (vpn va)) = 0#64)
    (halloc : pmmAllocPage r.now.pmm = (f, p')) (hf : IsFrame f ∧ f ≠ 0#64)
    (hnull : r.now.physToVirt f ≠ 0#64) (pa flags : U64) :
    ∃ q : Traced MmState, mapInPdpt va pa flags r (r.now.physToVirt t) =
      mapInPd va pa flags (q.put { r.now with
        mem := linked r.now.mem t (slot3 (vpn va)) f (newTableEntry f), pmm := p' })
        (r.now.physToVirt f) := by
  obtain ⟨q, heq⟩ := withTable_link ht hempty halloc hf hnull (mapInPd va pa flags)
  refine ⟨q, ?_⟩
  rw [MmState.physToVirt] at heq ⊢
  rw [mapInPdpt, pdptIndex_eq, MmState.load_window, hempty, if_neg (not_hasFlag_zero _), heq]

theorem mapInPd_link (ht : IsFrame t) (hempty : entry r.now.mem t (slot2 (vpn va)) = 0#64)
    (halloc : pmmAllocPage r.now.pmm = (f, p')) (hf : IsFrame f ∧ f ≠ 0#64)
    (hnull : r.now.physToVirt f ≠ 0#64) (pa flags : U64) :
    ∃ q : Traced MmState, mapInPd va pa flags r (r.now.physToVirt t) =
      mapInPt va pa flags (q.put { r.now with
        mem := linked r.now.mem t (slot2 (vpn va)) f (newTableEntry f), pmm := p' })
        (r.now.physToVirt f) := by
  obtain ⟨q, heq⟩ := withTable_link ht hempty halloc hf hnull (mapInPt va pa flags)
  refine ⟨q, ?_⟩
  rw [MmState.physToVirt] at heq ⊢
  rw [mapInPd, pdIndex_eq, MmState.load_window, hempty, if_neg (not_hasFlag_zero _), heq]

/-- A mapping below a cleared PML4 slot, when three pages are left for tables. -/
theorem mapUser4k_fresh {f₃ f₂ f₁ : U64} {p₃ p₂ p₁ : Pmm}
    (hempty : entry r.now.mem (pteToPhys r.now.cr3) (slot4 (vpn va)) = 0#64)
    (h₃ : pmmAllocPage r.now.pmm = (f₃, p₃)) (h₂ : pmmAllocPage p₃ = (f₂, p₂))
    (h₁ : pmmAllocPage p₂ = (f₁, p₁)) (hf₃ : IsFrame f₃ ∧ f₃ ≠ 0#64)
    (hf₂ : IsFrame f₂ ∧ f₂ ≠ 0#64) (hf₁ : IsFrame f₁ ∧ f₁ ≠ 0#64)
    (hd : pteToPhys r.now.cr3 ≠ f₃ ∧ f₃ ≠ f₂ ∧ f₂ ≠ f₁)
    (hnull : r.now.physToVirt f₃ ≠ 0#64 ∧ r.now.physToVirt f₂ ≠ 0#64 ∧ r.now.physToVirt f₁ ≠ 0#64)
    (pa flags : U64) :
    ∃ q : Traced MmState, mapUser4k va pa flags r = (true, q.put { r.now with
      mem := setEntry (linked (linked (linked r.now.mem
        (pteToPhys r.now.cr3) (slot4 (vpn va)) f₃ (newTableEntry f₃))
        f₃ (slot3 (vpn va)) f₂ (newTableEntry f₂)) f₂ (slot2 (vpn va)) f₁ (newTableEntry f₁))
        f₁ (slot1 (vpn va)) ((pa &&& pteAddrMask) ||| flags ||| pteUser)
      pmm := p₁ }) := by
  have hroot : IsFrame (pteToPhys r.now.cr3) := pteToPhys_isFrame _
  obtain ⟨q₃, e₃⟩ := withTable_link hroot hempty h₃ hf₃ hnull.1 (mapInPdpt va pa flags)
  generalize hm₃ :
    linked r.now.mem (pteToPhys r.now.cr3) (slot4 (vpn va)) f₃ (newTableEntry f₃) = m₃
    at e₃ ⊢
  -- every table just made is empty
  have z₃ : entry m₃ f₃ (slot3 (vpn va)) = 0#64 := by
    rw [← hm₃, entry_linked_fresh _ hroot hf₃.1 hd.1]
  obtain ⟨q₂, e₂⟩ := mapInPdpt_link (r := q₃.put { r.now with mem := m₃, pmm := p₃ })
    hf₃.1 z₃ h₂ hf₂
    hnull.2.1 pa flags
  simp only [now_put] at e₂
  generalize hm₂ : linked m₃ f₃ (slot3 (vpn va)) f₂ (newTableEntry f₂) = m₂ at e₂ ⊢
  have z₂ : entry m₂ f₂ (slot2 (vpn va)) = 0#64 := by
    rw [← hm₂, entry_linked_fresh _ hf₃.1 hf₂.1 hd.2.1]
  obtain ⟨q₁, e₁⟩ := mapInPd_link (r := q₂.put { r.now with mem := m₂, pmm := p₂ }) hf₂.1 z₂ h₁ hf₁
    hnull.2.2 pa flags
  simp only [now_put] at e₁
  generalize linked m₂ f₂ (slot2 (vpn va)) f₁ (newTableEntry f₁) = m₁ at e₁ ⊢
  refine ⟨q₁.put { r.now with mem := m₁, pmm := p₁ }, ?_⟩
  rw [mapUser4k, pml4Index_eq, ← pteToPhys]
  refine e₃.trans (e₂.trans (e₁.trans ?_))
  rw [mapInPt, ptIndex_eq]
  exact congrArg (fun s => (true, Traced.put _ s)) (MmState.store_window _ _ f₁ _ _)

end Fresh

end Myria.Mm
