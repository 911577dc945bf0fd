import Mathlib.Data.Finset.Union
import Myria.Mm.Vmm

/-! Mapping and unmapping ranges of pages (`vmm_map_pages`, `vmm_unmap_pages`).
The loops are those of `vmm.c`, over pages whose numbers may repeat when the
range is longer than the address space. -/
namespace Myria.Mm

open ByteMem RadixForest

/-- The first `n` iterations of `vmm_unmap_page(vaddr_start + i * PAGE_SIZE)`:
the loop of `vmm_unmap_pages` and the clean-up loop of `vmm_map_pages`. -/
def unmapFirst (s : MmState) (vaddrStart : U64) (n : Nat) : MmState :=
  (List.range n).foldl (fun s i => vmmUnmapPage s (nthPage vaddrStart i)) s

/-- Iterations `i`, `i + 1`, … of the loop of `vmm_map_pages`, `n` of them. -/
def mapPagesFrom (vaddrStart paddrStart flags : U64) : Nat → Nat → MmState → Bool × MmState
  | _, 0, s => (true, s)
  | i, n + 1, s =>
    match vmmMapPage s (nthPage vaddrStart i) (nthPage paddrStart i) flags with
    | (false, s) => (false, unmapFirst s vaddrStart i)
    | (true, s) => mapPagesFrom vaddrStart paddrStart flags (i + 1) n s

def vmmMapPages (s : MmState) (vaddrStart paddrStart count flags : U64) : Bool × MmState :=
  mapPagesFrom vaddrStart paddrStart flags 0 count.toNat s

def vmmUnmapPages (s : MmState) (vaddrStart count : U64) : MmState :=
  unmapFirst s vaddrStart count.toNat

/-! ## The pages of a range -/

/-- The page numbers of the first `n` pages of a range. -/
def rangePages (vaddrStart : U64) (n : Nat) : Finset (BitVec 36) :=
  (Finset.range n).image fun i => vpn (nthPage vaddrStart i)

/-- The paths to all tables they go through. -/
def rangeTables (vaddrStart : U64) (n : Nat) : Finset (List (BitVec 9)) :=
  (rangePages vaddrStart n).biUnion tablePrefixes

theorem mem_rangePages {va : U64} {n : Nat} {v : BitVec 36} :
    v ∈ rangePages va n ↔ ∃ i < n, vpn (nthPage va i) = v := by
  simp [rangePages]

theorem rangePages_succ (va : U64) (n : Nat) :
    rangePages va (n + 1) = insert (vpn (nthPage va n)) (rangePages va n) := by
  rw [rangePages, Finset.range_add_one, Finset.image_insert]
  rfl

theorem rangeTables_succ (va : U64) (n : Nat) :
    rangeTables va (n + 1) = rangeTables va n ∪ tablePrefixes (vpn (nthPage va n)) := by
  rw [rangeTables, rangePages_succ, Finset.biUnion_insert, Finset.union_comm]
  rfl

theorem rangeTables_one (va : U64) : rangeTables va 1 = tablePrefixes (vpn va) := by
  simp [rangeTables, rangePages, nthPage]

theorem rangeTables_mono (va : U64) {n k : Nat} (h : n ≤ k) :
    rangeTables va n ⊆ rangeTables va k :=
  Finset.biUnion_subset_biUnion_of_subset_left _
    (Finset.image_subset_image (Finset.range_subset_range.mpr h))

theorem tablePrefixes_depth (v : BitVec 36) : ∀ p ∈ tablePrefixes v, p.length ≤ 3 := by
  simp [tablePrefixes, tablePath]

/-- A step of one page is a step of one page number, also across the wrap. -/
theorem vpn_nthPage_toNat (va : U64) (i : Nat) :
    (vpn (nthPage va i)).toNat = ((vpn va).toNat + i) % 2 ^ 36 := by
  have hva := va.isLt
  rw [vpn, vpn, BitField.extractLsb'_toNat_eq, BitField.extractLsb'_toNat_eq, nthPage,
    BitVec.toNat_add, BitVec.toNat_mul, BitVec.toNat_ofNat, pageSize_toNat]
  omega

/-- Up to the size of the address space the pages of a range are distinct. -/
theorem vpn_nthPage_inj {va : U64} {i j : Nat} (hi : i < 2 ^ 36) (hj : j < 2 ^ 36)
    (h : vpn (nthPage va i) = vpn (nthPage va j)) : i = j := by
  have hv := congrArg BitVec.toNat h
  rw [vpn_nthPage_toNat, vpn_nthPage_toNat] at hv
  omega

theorem pageAlignDown_nthPage {pa : U64} {i : Nat} (h : pa.toNat + i * 4096 < 2 ^ 64) :
    pageAlignDown (nthPage pa i) = nthPage (pageAlignDown pa) i := by
  have hdown := pageAlignDown_toNat pa
  apply BitVec.eq_of_toNat_eq
  rw [pageAlignDown_toNat, nthPage_toNat h, nthPage_toNat (by omega)]
  omega

/-! ## The loops -/

/-- Unmapping takes exactly the pages of the range off the map. -/
theorem unmapFirst_spec {s : MmState} (h : s.WellFormed) (va : U64) (n : Nat) :
    (unmapFirst s va n).WellFormed ∧
      ∀ v, (unmapFirst s va n).pageMap v = if v ∈ rangePages va n then none else s.pageMap v := by
  induction n with
  | zero =>
    refine ⟨h, fun v => ?_⟩
    rw [if_neg (by simp [rangePages])]
    rfl
  | succ n ih =>
    obtain ⟨hwf, hmap⟩ := ih
    have hlast : unmapFirst s va (n + 1) = vmmUnmapPage (unmapFirst s va n) (nthPage va n) := by
      rw [unmapFirst, List.range_succ, List.foldl_append]
      rfl
    obtain ⟨hwf', hmap'⟩ := vmmUnmapPage_spec hwf (nthPage va n)
    rw [hlast]
    refine ⟨hwf', fun v => ?_⟩
    rw [hmap', rangePages_succ, Function.update_apply, hmap v]
    by_cases hv : v = vpn (nthPage va n)
    · rw [if_pos hv, if_pos (Finset.mem_insert.mpr (.inl hv))]
    · simp only [Finset.mem_insert, hv, false_or, if_false]

/-- The entry `vmm_map_pages` writes for page `i` of its range. -/
def rangeEntry (paddrStart flags : U64) (i : Nat) : U64 :=
  pageAlignDown (nthPage paddrStart i) ||| flags ||| ptePresent

/-- Where the loop of `vmm_map_pages`, started in `s`, stands before iteration
`k`. The tables so far took what `s` lacked of them; a page the range names
more than once has its last entry. -/
structure MappedTo (s : MmState) (va pa flags : U64) (k : Nat) (s' : MmState) : Prop where
  wellFormed : s'.WellFormed
  gains : s.Gains s' (rangeTables va k)
  last : ∀ j < k, (∀ j' < k, j < j' → vpn (nthPage va j') ≠ vpn (nthPage va j)) →
    s'.pageMap (vpn (nthPage va j)) = presentRef (rangeEntry pa flags j)
  others : ∀ v, v ∉ rangePages va k → s'.pageMap v = s.pageMap v

theorem MappedTo.start {s : MmState} (h : s.WellFormed) (va pa flags : U64) :
    MappedTo s va pa flags 0 s where
  wellFormed := h
  gains := .refl s
  last := by simp
  others := fun _ _ => rfl

/-- One iteration that succeeds. -/
theorem MappedTo.next {s s' s'' : MmState} {va pa flags : U64} {k : Nat}
    (h : MappedTo s va pa flags k s') (hwf : s''.WellFormed)
    (hmap : s''.pageMap =
      Function.update s'.pageMap (vpn (nthPage va k)) (presentRef (rangeEntry pa flags k)))
    (hgains : s'.Gains s'' (tablePrefixes (vpn (nthPage va k)))) :
    MappedTo s va pa flags (k + 1) s'' where
  wellFormed := hwf
  gains := by
    rw [rangeTables_succ]
    exact h.gains.trans hgains
  last := by
    intro j hj hlater
    rw [hmap]
    rcases Nat.lt_succ_iff_lt_or_eq.mp hj with hlt | rfl
    · have hne : vpn (nthPage va j) ≠ vpn (nthPage va k) := (hlater k (Nat.lt_succ_self k) hlt).symm
      rw [Function.update_of_ne hne]
      exact h.last j hlt fun j' hj' => hlater j' (Nat.lt_succ_of_lt hj')
    · rw [Function.update_self]
  others := by
    intro v hv
    rw [rangePages_succ, Finset.mem_insert, not_or] at hv
    rw [hmap, Function.update_of_ne hv.1]
    exact h.others v hv.2

/-- What is left when the loop of `vmm_map_pages` stops at iteration `k`: there
are pages for the tables of the range before `k` and too few for those of page
`k` as well, and every page before `k` is off the map. -/
structure RolledBack (s : MmState) (va : U64) (k : Nat) (s' : MmState) : Prop where
  wellFormed : s'.WellFormed
  enough : (s.missing (rangeTables va k)).card ≤ s.pmm.freeCount
  short : s.pmm.freeCount < (s.missing (rangeTables va (k + 1))).card
  pageMap : ∀ v, s'.pageMap v = if v ∈ rangePages va k then none else s.pageMap v

theorem mapPagesFrom_spec {s : MmState} {va pa flags : U64} (n : Nat) {k : Nat} {s' : MmState}
    (h : MappedTo s va pa flags k s') :
    (∃ t, mapPagesFrom va pa flags k n s' = (true, t) ∧ MappedTo s va pa flags (k + n) t) ∨
    ∃ t i, mapPagesFrom va pa flags k n s' = (false, t) ∧ i < k + n ∧ RolledBack s va i t := by
  induction n generalizing k s' with
  | zero => exact .inl ⟨s', rfl, h⟩
  | succ n ih =>
    rcases vmmMapPage_cases h.wellFormed (nthPage va k) (nthPage pa k) flags with
      ⟨t, heq, hwf, hmap, hgains⟩ | ⟨t, heq, hgrows, -, hshort⟩
    · have hrest := ih (h.next hwf hmap hgains)
      rw [Nat.add_right_comm, Nat.add_assoc] at hrest
      simpa only [mapPagesFrom, heq] using hrest
    · obtain ⟨hwf, hmap⟩ := unmapFirst_spec hgrows.wellFormed va k
      refine .inr ⟨unmapFirst t va k, k, by simp only [mapPagesFrom, heq], by omega, hwf,
        h.gains.suffices, ?_, fun v => ?_⟩
      · rw [rangeTables_succ]
        exact h.gains.short (tablePrefixes_depth _) hshort
      · rw [hmap v, hgrows.pageMap]
        split
        · rfl
        · exact h.others v ‹_›

/-- What `vmm_map_pages` does. -/
theorem vmmMapPages_cases {s : MmState} (h : s.WellFormed) (va pa count flags : U64) :
    (∃ t, vmmMapPages s va pa count flags = (true, t) ∧ MappedTo s va pa flags count.toNat t) ∨
    ∃ t i, vmmMapPages s va pa count flags = (false, t) ∧ i < count.toNat ∧
      RolledBack s va i t := by
  have hloop := mapPagesFrom_spec count.toNat (.start h va pa flags)
  rwa [Nat.zero_add] at hloop

/-! ## Exactness -/

/-- **Range mapping and unmapping are exact.** -/
theorem map_pages_exact {s : MmState} (h : s.WellFormed) (va : U64) {pa count flags : U64}
    (hcount : count.toNat ≤ 2 ^ 36) (hpa : pa.toNat + count.toNat * 4096 ≤ 2 ^ 52)
    (hflags : flags &&& pteAddrMask = 0#64) {t : MmState}
    (hmap : vmmMapPages s va pa count flags = (true, t)) :
    (∀ i < count.toNat, vmmGetPhysical t (nthPage va i) =
      pageAlignDown pa + BitVec.ofNat 64 i * pageSize) ∧
    (∀ v, vpn v ∉ rangePages va count.toNat → vmmGetPhysical t v = vmmGetPhysical s v) ∧
    ∀ v, vmmGetPhysical (vmmUnmapPages t va count) v =
      if vpn v ∈ rangePages va count.toNat then 0 else vmmGetPhysical t v := by
  have hto : MappedTo s va pa flags count.toNat t := by
    rcases vmmMapPages_cases h va pa count flags with ⟨t', heq, hto⟩ | ⟨t', i, heq, -⟩
    · rw [hmap] at heq
      cases heq
      exact hto
    · rw [hmap] at heq
      cases heq
  refine ⟨fun i hi => ?_, fun v hv => ?_, fun v => ?_⟩
  · have hfit : (nthPage pa i).toNat < 2 ^ 52 := by
      rw [nthPage_toNat (by omega)]
      omega
    -- no later page of the range has the same number
    have hlast : t.pageMap (vpn (nthPage va i)) = presentRef (rangeEntry pa flags i) :=
      hto.last i hi fun j hj hlt heq =>
        absurd (vpn_nthPage_inj (by omega) (by omega) heq) (by omega)
    rw [vmmGetPhysical_eq, hlast, rangeEntry, presentRef_pte hfit hflags, Option.getD_some,
      pageAlignDown_nthPage (by omega)]
    rfl
  · rw [vmmGetPhysical_eq, vmmGetPhysical_eq, hto.others _ hv]
  · rw [vmmGetPhysical_eq, vmmGetPhysical_eq, vmmUnmapPages,
      (unmapFirst_spec hto.wellFormed va count.toNat).2]
    split <;> rfl

/-- Two pages on both sides of a page-table boundary. -/
theorem map_pages_exact_blank :
    ∃ t, vmmMapPages .blank 0x1ff234 0x300000 2 0x3 = (true, t) ∧
      ∀ i < 2, vmmGetPhysical t (nthPage 0x1ff234 i) = nthPage 0x300000 i := by
  have hroom : ∀ n ≤ 2, (MmState.blank.missing (rangeTables 0x1ff234 n)).card ≤ 6 := by
    intro n hn
    calc (MmState.blank.missing (rangeTables 0x1ff234 n)).card
        ≤ (rangeTables 0x1ff234 n).card := Finset.card_filter_le _ _
      _ ≤ (rangeTables 0x1ff234 2).card := Finset.card_le_card (rangeTables_mono _ hn)
      _ ≤ 6 := by decide
  rcases vmmMapPages_cases MmState.blank_wellFormed 0x1ff234 0x300000 2 0x3 with
    ⟨t, heq, -⟩ | ⟨t, i, -, hi, hback⟩
  · exact ⟨t, heq, (map_pages_exact MmState.blank_wellFormed 0x1ff234 (by decide) (by decide)
      (by decide) heq).1⟩
  · have hfree : MmState.blank.pmm.freeCount = 0x3fe00 := by decide
    have hshort := hback.short
    have hle := hroom (i + 1) hi
    omega

/-! ## Failure -/

/-- There is a page for every table that the first `n` pages of a range lack. -/
def MmState.TablesFit (s : MmState) (vaddrStart : U64) (n : Nat) : Prop :=
  (s.missing (rangeTables vaddrStart n)).card ≤ s.pmm.freeCount

/-- A failed `vmm_map_pages` changes no translation. -/
def AllOrNothing (s : MmState) (vaddrStart paddrStart count flags : U64) : Prop :=
  (vmmMapPages s vaddrStart paddrStart count flags).1 = false →
    ∀ v, vmmGetPhysical (vmmMapPages s vaddrStart paddrStart count flags).2 v = vmmGetPhysical s v

/-- The pages the clean-up loop reaches are those for which the tables fit. -/
theorem RolledBack.tablesFit_iff {s t : MmState} {va : U64} {k : Nat} (h : RolledBack s va k t)
    (j : Nat) : s.TablesFit va (j + 1) ↔ j < k := by
  constructor
  · intro hfit
    by_contra hge
    have hmono := s.missing_mono (rangeTables_mono va (Nat.succ_le_succ (Nat.not_lt.mp hge)))
    exact absurd (hmono.trans hfit) (Nat.not_le.mpr h.short)
  · intro hlt
    exact (s.missing_mono (rangeTables_mono va hlt)).trans h.enough

/-- A call that was rolled back at `k` restored the translations if the pages
before `k` had none. -/
theorem RolledBack.restores_iff {s t : MmState} {va : U64} {k : Nat} (h : RolledBack s va k t) :
    (∀ v, vmmGetPhysical t v = vmmGetPhysical s v) ↔
      ∀ j < k, vmmGetPhysical s (nthPage va j) = 0 := by
  constructor
  · intro hsame j hj
    rw [← hsame, vmmGetPhysical_eq, h.pageMap, if_pos (mem_rangePages.mpr ⟨j, hj, rfl⟩)]
    rfl
  · intro hzero v
    rw [vmmGetPhysical_eq, h.pageMap]
    split
    · rename_i hv
      obtain ⟨j, hj, hvj⟩ := mem_rangePages.mp hv
      rw [vmmGetPhysical_eq, ← hvj, ← vmmGetPhysical_eq, hzero j hj]
      rfl
    · rw [vmmGetPhysical_eq]

/-- **When a failed range mapping changes nothing.** The clean-up loop unmaps
every page mapped before the failure, also one that was mapped before the call.
So all is as before unless the pages for tables run out after a page of the
range that used to translate. -/
theorem map_pages_all_or_nothing_iff {s : MmState} (h : s.WellFormed) (va pa count flags : U64) :
    AllOrNothing s va pa count flags ↔
      s.TablesFit va count.toNat ∨
        ∀ j < count.toNat, s.TablesFit va (j + 1) → vmmGetPhysical s (nthPage va j) = 0 := by
  unfold AllOrNothing
  rcases vmmMapPages_cases h va pa count flags with ⟨t, heq, hto⟩ | ⟨t, k, heq, hk, hback⟩
  · rw [heq]
    exact ⟨fun _ => .inl hto.gains.suffices, fun _ hfalse => absurd hfalse (by simp)⟩
  · have hnofit : ¬ s.TablesFit va count.toNat := fun hfit =>
      absurd ((s.missing_mono (rangeTables_mono va hk)).trans hfit) (Nat.not_le.mpr hback.short)
    rw [heq, forall_prop_of_true rfl, hback.restores_iff, or_iff_right hnofit]
    constructor
    · intro hzero j _ hfit
      exact hzero j ((hback.tablesFit_iff j).mp hfit)
    · intro hzero j hj
      exact hzero j (hj.trans hk) ((hback.tablesFit_iff j).mpr hj)

/-- A fresh pool after a request that leaves three pages. -/
def threePages : Pmm := (pmmAllocPages MmState.blank.pmm 0x3fdfd).2

theorem threePages_wellFormed :
    ({ MmState.blank with pmm := threePages } : MmState).WellFormed := by
  have h := MmState.blank_wellFormed
  obtain ⟨p, halloc, hp, hfewer⟩ : ∃ p, threePages = p ∧ p.Consistent ∧
      ∀ b, p.Available b → MmState.blank.pmm.Available b := by
    have hcount : NoWrap 0x3fdfd := by decide
    rcases pmmAllocPages_cases h.pmm hcount with heq | ⟨a, p, heq, -, hp, -, hfewer⟩
    · exact ⟨_, by rw [threePages, heq], h.pmm, fun _ hb => hb⟩
    · exact ⟨p, by rw [threePages, heq], hp, hfewer⟩
  rw [halloc]
  refine ⟨(h.tables.of_entry_eq (fun _ _ _ => rfl) fun t ht hav => ?_).1, hp⟩
  exact h.tables.unavailable t ht (hfewer t hav)

section UsedUp

variable {va : U64} {s : MmState}
  (h : s = (vmmMapPage { MmState.blank with pmm := threePages } va 0x300000 0x3).2)

include h

/-- The last three pages become the tables of the page at `va`. -/
theorem usedUp_pmm : s.pmm.Reachable ∧ s.pmm.freeCount = 0 := by
  obtain ⟨p₃, p₂, p₁, h₃, h₂, h₁, hp⟩ : ∃ p₃ p₂ p₁,
      pmmAllocPage threePages = (0x3fffd000#64, p₃) ∧ pmmAllocPage p₃ = (0x3fffe000#64, p₂) ∧
      pmmAllocPage p₂ = (0x3ffff000#64, p₁) ∧ p₁ = ⟨[], 0x40000000, 0x3fe00, 0x3fe00, 0⟩ :=
    ⟨_, _, _, rfl, rfl, rfl, rfl⟩
  have hempty : ¬ HasFlag (entry MmState.blank.mem MmState.blank.kernelRoot
      (slot4 (vpn va))) ptePresent := by
    rw [MmState.entry_blank]
    exact not_hasFlag_zero _
  have hmap := vmmMapPage_fresh (s := { MmState.blank with pmm := threePages }) (by decide) hempty
    h₃ h₂ h₁ (by decide) (by decide) (by decide) 0x300000 0x3
  have hpmm : s.pmm = p₁ := by
    rw [h, hmap]
  have hboot : MmState.blank.pmm.Reachable := pmmInit_reachable _
  have hthree : threePages.Reachable := hboot.allocPages (by decide)
  have hreach : p₁.Reachable := by
    have hlast := hthree.allocPage.allocPage.allocPage
    rwa [h₃, h₂, h₁] at hlast
  rw [hpmm]
  exact ⟨hreach, by rw [hp]; decide⟩

variable (hva : tablePrefixes (vpn va) = tablePrefixes (vpn 0x1ff000))

include hva

/-- With a page of the page table that ends at `0x200000`, only this page translates. -/
theorem usedUp_spec :
    s.WellFormed ∧ (∀ v, s.pageMap v = if v = vpn va then some 0x300000#64 else none) ∧
      (∀ p ∈ rangeTables 0x1ff000 1, s.HasTable p) ∧
      ¬ s.HasTable (tablePath (vpn 0x200000)) := by
  have hempty : ∀ i p, ¬ ({ MmState.blank with pmm := threePages } : MmState).HasTable
      (i :: p) := by
    intro i p
    rw [MmState.HasTable, walk, MmState.blank_child]
    simp
  rcases vmmMapPage_cases threePages_wellFormed va 0x300000 0x3 with
    ⟨t, heq, hwf, hmap, hgains⟩ | ⟨t, heq, -, -, hshort⟩
  · rw [heq] at h
    subst h
    refine ⟨hwf, fun v => ?_, fun p hp => ?_, fun hhas => ?_⟩
    · rw [hmap, Function.update_apply]
      refine if_congr Iff.rfl (by decide) ?_
      rw [MmState.pageMap, leaf, tablePath, walk, MmState.blank_child]
      rfl
    · rw [rangeTables_one, ← hva] at hp
      exact (hgains.hasTable p (hgains.depth p hp)).mpr (.inr hp)
    · rcases (hgains.hasTable _ (by decide)).mp hhas with hold | hnew
      · exact hempty _ _ hold
      · rw [hva] at hnew
        exact absurd hnew (by decide)
  · -- three pages are enough for one path
    have hthree : (tablePrefixes (vpn 0x1ff000)).card = 3 := by decide
    have hfree : threePages.freeCount = 3 := by decide
    have hle := Finset.card_filter_le (tablePrefixes (vpn 0x1ff000))
      (¬ ({ MmState.blank with pmm := threePages } : MmState).HasTable ·)
    change threePages.freeCount < _ at hshort
    rw [MmState.missing, hva] at hshort
    omega

/-- Mapping the last page of that table and one more fails at the second. -/
theorem usedUp_fails :
    ∃ t, vmmMapPages s 0x1ff000 0x500000 2 0x3 = (false, t) ∧ RolledBack s 0x1ff000 1 t := by
  obtain ⟨-, hfree⟩ := usedUp_pmm h
  obtain ⟨hwf, -, hhas, hlacks⟩ := usedUp_spec h hva
  rcases vmmMapPages_cases hwf 0x1ff000 0x500000 2 0x3 with ⟨t, -, hto⟩ | ⟨t, k, heq, hk, hback⟩
  · -- the page table of the second page has nowhere to come from
    have hfit := hto.gains.suffices
    rw [hfree, Nat.le_zero, Finset.card_eq_zero, MmState.missing,
      Finset.filter_eq_empty_iff] at hfit
    exact absurd hlacks (hfit (by decide))
  · have hk1 : k = 1 := by
      rcases Nat.lt_succ_iff_lt_or_eq.mp hk with hlt | rfl
      · obtain rfl : k = 0 := Nat.lt_one_iff.mp hlt
        have hshort := hback.short
        rw [hfree, Finset.card_pos] at hshort
        obtain ⟨p, hp⟩ := hshort
        obtain ⟨hp, hno⟩ := Finset.mem_filter.mp hp
        exact absurd (hhas p hp) hno
      · rfl
    subst hk1
    exact ⟨t, heq, hback⟩

end UsedUp

/-- The last three pages become the tables of a page at the end of a page table. -/
def tablesUsedUp : MmState :=
  (vmmMapPage { MmState.blank with pmm := threePages } 0x1ff000 0x300000 0x3).2

/-- With an existing mapping, a table boundary inside the range and no page
left, a failed call takes the mapping away. -/
theorem map_pages_loses_mapping :
    tablesUsedUp.WellFormed ∧ tablesUsedUp.pmm.Reachable ∧
      vmmGetPhysical tablesUsedUp 0x1ff000 = 0x300000 ∧
      (vmmMapPages tablesUsedUp 0x1ff000 0x500000 2 0x3).1 = false ∧
      vmmGetPhysical (vmmMapPages tablesUsedUp 0x1ff000 0x500000 2 0x3).2 0x1ff000 = 0 := by
  have h := tablesUsedUp.eq_def
  obtain ⟨hwf, hmap, -, -⟩ := usedUp_spec h rfl
  obtain ⟨t, heq, hback⟩ := usedUp_fails h rfl
  refine ⟨hwf, (usedUp_pmm h).1, by rw [vmmGetPhysical_eq, hmap, if_pos rfl]; rfl, ?_⟩
  rw [heq, vmmGetPhysical_eq, hback.pageMap, if_pos (by decide)]
  exact ⟨rfl, rfl⟩

/-- The same with the page before it. -/
def tablesUsedUpBefore : MmState :=
  (vmmMapPage { MmState.blank with pmm := threePages } 0x1fe000 0x300000 0x3).2

/-- Then the call fails and changes nothing. -/
theorem map_pages_keeps_neighbour :
    vmmGetPhysical tablesUsedUpBefore 0x1fe000 = 0x300000 ∧
      (vmmMapPages tablesUsedUpBefore 0x1ff000 0x500000 2 0x3).1 = false ∧
      AllOrNothing tablesUsedUpBefore 0x1ff000 0x500000 2 0x3 := by
  have h := tablesUsedUpBefore.eq_def
  have hva : tablePrefixes (vpn 0x1fe000) = tablePrefixes (vpn 0x1ff000) := by decide
  obtain ⟨hwf, hmap, -, -⟩ := usedUp_spec h hva
  obtain ⟨t, heq, hback⟩ := usedUp_fails h hva
  refine ⟨by rw [vmmGetPhysical_eq, hmap, if_pos rfl]; rfl, by rw [heq],
    (map_pages_all_or_nothing_iff hwf _ _ _ _).mpr (.inr fun j _ hfit => ?_)⟩
  -- the call gets past the first page, which was not mapped
  obtain rfl : j = 0 := Nat.lt_one_iff.mp ((hback.tablesFit_iff j).mp hfit)
  rw [vmmGetPhysical_eq, hmap, if_neg (by decide)]
  rfl

end Myria.Mm
