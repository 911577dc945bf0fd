import Myria.Mm.PmmOwnership

/-! What `pmm_get_stats` reports. The counters are kept apart from the stack and
the bump pointer, a full stack drops freed pages, and the decrement of
`allocated_pages` is conditional; still every page below the bump pointer is
counted exactly once, as allocated or as stacked. A dropped page stays counted
as allocated. -/
namespace Myria.Mm

/-- Pages the allocator can still hand out. -/
def Pmm.freeCount (s : Pmm) : Nat :=
  s.freePages.length + (pmmEndAddr.toNat - s.nextPageAddr.toNat) / 4096

/-- Pages below the bump pointer. -/
def Pmm.passedCount (s : Pmm) : Nat := (s.nextPageAddr.toNat - pmmStartAddr.toNat) / 4096

/-- Every page below the bump pointer is allocated or stacked, never both. -/
structure Pmm.Balanced (s : Pmm) : Prop where
  total : s.totalPages = (pmmEndAddr - pmmStartAddr) / pageSize
  counted : s.allocatedPages.toNat + s.freePages.length = s.passedCount

/-! ## Counting pages -/

/-- Distinct pages below the bump pointer are at most as many as it has passed. -/
theorem Pmm.Consistent.length_le_passed {s : Pmm} (h : s.Consistent) {l : List U64} (hnd : l.Nodup)
    (hl : ∀ a ∈ l, IsPage a ∧ a < s.nextPageAddr) : l.length ≤ s.passedCount := by
  have hal := h.aligned
  have hnum : ∀ a ∈ l, a.toNat % 4096 = 0 ∧ pmmStartAddr.toNat ≤ a.toNat ∧
      a.toNat < s.nextPageAddr.toNat := by
    intro a ha
    obtain ⟨⟨hpage, hlo, -⟩, hlt⟩ := hl a ha
    exact ⟨hpage, BitVec.le_def.mp hlo, BitVec.lt_def.mp hlt⟩
  -- number the pages of the pool from zero
  have hmap : (l.map fun a => (a.toNat - pmmStartAddr.toNat) / 4096).Nodup := by
    refine hnd.map_on fun a ha b hb heq => BitVec.eq_of_toNat_eq ?_
    have hna := hnum a ha
    have hnb := hnum b hb
    simp only [pmmStartAddr_toNat] at *
    omega
  have hsub : (l.map fun a => (a.toNat - pmmStartAddr.toNat) / 4096) ⊆
      List.range s.passedCount := by
    intro n hn
    obtain ⟨a, ha, rfl⟩ := List.mem_map.mp hn
    have hna := hnum a ha
    simp only [Pmm.passedCount, pmmStartAddr_toNat, List.mem_range] at *
    omega
  simpa using (List.subperm_of_subset hmap hsub).length_le

theorem Pmm.Consistent.free_add_passed {s : Pmm} (h : s.Consistent) :
    s.freeCount + s.passedCount = s.freePages.length + 0x3fe00 := by
  have hlo := BitVec.le_def.mp h.start_le
  have hhi := BitVec.le_def.mp h.le_end
  have hal := h.aligned
  simp only [Pmm.freeCount, Pmm.passedCount, pmmStartAddr_toNat, pmmEndAddr_toNat] at *
  omega

/-- The reported free pages are the ones that can be handed out. -/
theorem Pmm.Consistent.stats_free {s : Pmm} (h : s.Consistent) :
    (pmmGetStats s).2.1.toNat = s.freeCount := by
  have hlen : s.freePages.length ≤ s.passedCount :=
    h.length_le_passed h.nodup fun a ha => ⟨h.stack_isPage ha, (h.stacked a ha).2.2⟩
  have hsum := h.free_add_passed
  have hfree : s.freeCount < 2 ^ 64 := by omega
  have hdiv : ((pmmEndAddr - s.nextPageAddr) / pageSize).toNat =
      (pmmEndAddr.toNat - s.nextPageAddr.toNat) / 4096 := by
    rw [BitVec.toNat_udiv, BitVec.toNat_sub_of_le h.le_end, pageSize_toNat]
  unfold Pmm.freeCount at hfree ⊢
  change (BitVec.ofNat 64 s.freePages.length + _).toNat = _
  rw [BitVec.toNat_add, BitVec.toNat_ofNat, hdiv,
    Nat.mod_eq_of_lt (Nat.lt_of_le_of_lt (Nat.le_add_right _ _) hfree), Nat.mod_eq_of_lt hfree]

/-- Free, used and total pages add up, without wrapping. -/
theorem Pmm.Balanced.stats_sum {s : Pmm} (h : s.Balanced) (hc : s.Consistent) :
    (pmmGetStats s).2.1.toNat + (pmmGetStats s).2.2.toNat = (pmmGetStats s).1.toNat := by
  have htotal : (pmmGetStats s).1.toNat = 0x3fe00 := by
    change s.totalPages.toNat = _
    rw [h.total]
    rfl
  have hsum := hc.free_add_passed
  have hcount := h.counted
  rw [hc.stats_free, htotal]
  change s.freeCount + s.allocatedPages.toNat = 0x3fe00
  omega

/-! ## Allocating until nothing is left -/

theorem Pmm.Consistent.exhausted_iff {s : Pmm} (h : s.Consistent) :
    s.Exhausted ↔ s.freeCount = 0 := by
  have hhi := BitVec.le_def.mp h.le_end
  have hal := h.aligned
  unfold Pmm.Exhausted Pmm.freeCount
  rw [← List.length_eq_zero_iff, ← BitVec.toNat_inj]
  rw [pmmEndAddr_toNat] at *
  omega

/-- A page handed out is one page fewer to hand out. -/
theorem pmmAllocPage_freeCount {s s' : Pmm} (h : s.Consistent) {a : U64}
    (hs : pmmAllocPage s = (a, s')) (ha : a ≠ 0#64) : s.freeCount = s'.freeCount + 1 := by
  unfold pmmAllocPage at hs
  split at hs
  · rename_i page rest hf
    cases hs
    simp only [Pmm.freeCount, hf, List.length_cons]
    omega
  · rename_i hf
    split at hs
    · rename_i hlt
      cases hs
      have hal := h.aligned
      have hnext : (s.nextPageAddr + pageSize).toNat = s.nextPageAddr.toNat + 4096 :=
        add_pageSize_toNat hlt
      rw [BitVec.lt_def] at hlt
      simp only [Pmm.freeCount, hf, hnext, pmmEndAddr_toNat] at *
      omega
    · cases hs
      exact absurd rfl ha

/-- `n` consecutive calls of `pmm_alloc_page`, with what each returned. -/
def allocPagesInTurn : Nat → Pmm → List U64 × Pmm
  | 0, s => ([], s)
  | n + 1, s =>
    let (a, s') := pmmAllocPage s
    let (as, t) := allocPagesInTurn n s'
    (a :: as, t)

/-- More calls return more pages. -/
theorem mem_allocPagesInTurn_succ {n : Nat} {s : Pmm} {b : U64}
    (h : b ∈ (allocPagesInTurn n s).1) : b ∈ (allocPagesInTurn (n + 1) s).1 := by
  induction n generalizing s with
  | zero => cases h
  | succ n ih =>
    rcases List.mem_cons.mp h with rfl | h
    · exact List.mem_cons_self
    · exact List.mem_cons_of_mem _ (ih h)

theorem eq_zero_of_mem_allocPagesInTurn {n : Nat} {s : Pmm} (h : pmmAllocPage s = (0#64, s))
    {b : U64} (hb : b ∈ (allocPagesInTurn n s).1) : b = 0#64 := by
  induction n with
  | zero => cases hb
  | succ n ih =>
    simp only [allocPagesInTurn, h] at hb
    rcases List.mem_cons.mp hb with rfl | hb
    · rfl
    · exact ih hb

/-- As many calls as there are free pages return distinct available pages and
leave nothing. -/
theorem allocPagesInTurn_freeCount {s : Pmm} (h : s.Consistent) {n : Nat} (hn : s.freeCount = n) :
    (∀ a ∈ (allocPagesInTurn n s).1, IsPage a ∧ s.Available a) ∧
    (allocPagesInTurn n s).1.Nodup ∧ (allocPagesInTurn n s).1.length = n ∧
    pmmAllocPage (allocPagesInTurn n s).2 = (0#64, (allocPagesInTurn n s).2) := by
  induction n generalizing s with
  | zero =>
    rcases pmmAllocPage_cases h with ⟨heq, -⟩ | ⟨a, s', heq, htake⟩
    · exact ⟨by simp [allocPagesInTurn], List.nodup_nil, rfl, heq⟩
    · have hone := pmmAllocPage_freeCount h heq htake.isPage.ne_zero
      omega
  | succ n ih =>
    rcases pmmAllocPage_cases h with ⟨-, hex⟩ | ⟨a, s', heq, htake⟩
    · rw [h.exhausted_iff] at hex
      omega
    · have hone := pmmAllocPage_freeCount h heq htake.isPage.ne_zero
      obtain ⟨hav, hnd, hlen, hlast⟩ := ih htake.consistent (by omega)
      simp only [allocPagesInTurn, heq]
      refine ⟨?_, ?_, by rw [List.length_cons, hlen], hlast⟩
      · intro b hb
        rcases List.mem_cons.mp hb with rfl | hb
        · exact ⟨htake.isPage, htake.available⟩
        · exact ⟨(hav b hb).1, htake.fewer b (hav b hb).2⟩
      · -- the first page is not available any more to the later calls
        exact List.nodup_cons.mpr ⟨fun hmem => htake.taken (hav a hmem).2, hnd⟩

/-- Calls fail as soon as there are no more free pages than calls before them. -/
theorem allocPagesInTurn_ne_zero_iff {n : Nat} {s : Pmm} (h : s.Consistent) :
    (∀ a ∈ (allocPagesInTurn n s).1, a ≠ 0#64) ↔ n ≤ s.freeCount := by
  induction n generalizing s with
  | zero => simp [allocPagesInTurn]
  | succ n ih =>
    rcases pmmAllocPage_cases h with ⟨heq, hex⟩ | ⟨a, s', heq, htake⟩
    · rw [h.exhausted_iff] at hex
      simp [allocPagesInTurn, heq, hex]
    · have hone := pmmAllocPage_freeCount h heq htake.isPage.ne_zero
      have hrest := ih htake.consistent
      simp only [allocPagesInTurn, heq, List.forall_mem_cons, hrest, hone]
      have hne := htake.isPage.ne_zero
      constructor
      · intro hall
        exact Nat.succ_le_succ hall.2
      · intro hle
        exact ⟨hne, Nat.le_of_succ_le_succ hle⟩

/-! ## The counters along a run -/

theorem pmmInit_balanced (s : Pmm) : (pmmInit s).Balanced := by
  refine ⟨rfl, ?_⟩
  simp [pmmInit, initMemoryPool, Pmm.passedCount]

theorem Pmm.Consistent.passedCount_le {s : Pmm} (h : s.Consistent) : s.passedCount ≤ 0x3fe00 := by
  have hsum := h.free_add_passed
  unfold Pmm.freeCount at hsum
  omega

/-- The counter grows by the pages that leave the stack or the bump area. -/
theorem Pmm.Balanced.take {s t : Pmm} (h : s.Balanced) (ht : t.Consistent)
    (htotal : t.totalPages = s.totalPages) {k : U64}
    (halloc : t.allocatedPages = s.allocatedPages + k)
    (hk : s.passedCount + t.freePages.length + k.toNat = t.passedCount + s.freePages.length) :
    t.Balanced := by
  refine ⟨htotal.trans h.total, ?_⟩
  have hcount := h.counted
  have hle := ht.passedCount_le
  have hadd : (s.allocatedPages + k).toNat = s.allocatedPages.toNat + k.toNat := by
    rw [BitVec.toNat_add, Nat.mod_eq_of_lt]
    omega
  rw [halloc, hadd]
  omega

theorem Pmm.Balanced.allocPage {s : Pmm} (h : s.Balanced) (hc : s.Consistent) :
    (pmmAllocPage s).2.Balanced := by
  rcases pmmAllocPage_cases hc with ⟨heq, -⟩ | ⟨a, s', heq, htake⟩
  · rw [heq]
    exact h
  · have hone := pmmAllocPage_freeCount hc heq htake.isPage.ne_zero
    have hsum := hc.free_add_passed
    have hsum' := htake.consistent.free_add_passed
    have hcounter : s'.totalPages = s.totalPages ∧ s'.allocatedPages = s.allocatedPages + 1#64 := by
      have hne := htake.isPage.ne_zero
      unfold pmmAllocPage at heq
      split at heq
      · cases heq
        exact ⟨rfl, rfl⟩
      · split at heq
        · cases heq
          exact ⟨rfl, rfl⟩
        · cases heq
          exact absurd rfl hne
    rw [heq]
    show s'.Balanced
    apply h.take htake.consistent hcounter.1 hcounter.2
    show _ + 1 = _
    omega

theorem Pmm.Balanced.allocPages {s : Pmm} (h : s.Balanced) (hc : s.Consistent) {count : U64}
    (hw : NoWrap count) : (pmmAllocPages s count).2.Balanced := by
  have hcons : (pmmAllocPages s count).2.Consistent := by
    rcases pmmAllocPages_cases hc hw with heq | ⟨a, s', heq, -, hc', -⟩
    · rw [heq]
      exact hc
    · rw [heq]
      exact hc'
  unfold pmmAllocPages at hcons ⊢
  split
  · exact h
  · rename_i h0
    rw [if_neg h0] at hcons
    split
    · rename_i hfit
      rw [if_pos hfit] at hcons
      apply h.take hcons
      · rfl
      · rfl
      · have hnext := add_count_toNat hc hw
        have hlo := BitVec.le_def.mp hc.start_le
        simp only [Pmm.passedCount, hnext, pmmStartAddr_toNat] at *
        omega
    · exact h

/-- A page that was handed out is counted, so the conditional decrement of the
counter is never skipped. -/
theorem Pmm.Balanced.freePage {s : Pmm} (h : s.Balanced) (hc : s.Consistent) {a : U64}
    (ha : IsPage a) (hna : ¬ s.Available a) : (pmmFreePage s a).Balanced := by
  have hbelow : a < s.nextPageAddr := lt_next_of_not_available ha hna
  have hcount := h.counted
  have hroom : (a :: s.freePages).length ≤ s.passedCount := by
    apply hc.length_le_passed
    · exact List.nodup_cons.mpr ⟨fun hmem => hna (.inl hmem), hc.nodup⟩
    · intro b hb
      rcases List.mem_cons.mp hb with rfl | hb
      · exact ⟨ha, hbelow⟩
      · exact ⟨hc.stack_isPage hb, (hc.stacked b hb).2.2⟩
  rw [List.length_cons] at hroom
  have hpos : 0 < s.allocatedPages.toNat := by omega
  have hdec : 0 < s.allocatedPages := BitVec.lt_def.mpr hpos
  have hsub : (s.allocatedPages - 1).toNat = s.allocatedPages.toNat - 1 :=
    BitVec.toNat_sub_of_le (BitVec.le_def.mpr hpos)
  unfold pmmFreePage
  split
  · exact h
  · split
    · refine ⟨h.total, ?_⟩
      show (s.allocatedPages - 1).toNat + (s.freePages.length + 1) = s.passedCount
      rw [hsub]
      omega
    · exact h

/-- Ownership together with the balance of the counters. -/
structure Client.Accounted (c : Client) : Prop where
  owned : c.Owned
  balanced : c.pmm.Balanced

theorem Client.Accounted.freeHeld {c c' : Client} (h : c.Accounted) {a : U64}
    (hs : c.freeHeld a = some c') : c'.Accounted := by
  refine ⟨h.owned.freeHeld hs, ?_⟩
  unfold Client.freeHeld at hs
  split at hs
  · rename_i hmem
    cases Option.some.inj hs
    obtain ⟨hpage, hna⟩ := h.owned.held a hmem
    exact h.balanced.freePage h.owned.consistent hpage hna
  · cases hs

theorem Client.Accounted.freePages {c : Client} (h : c.Accounted) (physAddr : U64) (is : List Nat)
    {c' : Client} (hs : is.foldlM (fun c i => c.freeHeld (nthPage physAddr i)) c = some c') :
    c'.Accounted := by
  induction is generalizing c with
  | nil =>
    cases Option.some.inj hs
    exact h
  | cons i is ih =>
    rw [List.foldlM_cons] at hs
    obtain ⟨d, hd, hrest⟩ := Option.bind_eq_some_iff.mp hs
    exact ih (h.freeHeld hd) hrest

theorem Client.Accounted.step {c c' : Client} (h : c.Accounted) {op : PmmOp}
    (hs : clientStep c op = some c') : c'.Accounted := by
  cases op with
  | allocPage =>
    refine ⟨h.owned.allocPage hs, ?_⟩
    cases Option.some.inj hs
    exact h.balanced.allocPage h.owned.consistent
  | allocPages count =>
    refine ⟨h.owned.allocPages hs, ?_⟩
    simp only [clientStep] at hs
    split at hs
    · rename_i hw
      cases Option.some.inj hs
      exact h.balanced.allocPages h.owned.consistent hw
    · cases hs
  | freePage a => exact h.freeHeld hs
  | freePages a count => exact h.freePages a _ hs

theorem run_accounted (s : Pmm) (ops : List PmmOp) (c : Client)
    (h : Runs.run clientStep (Client.boot s) ops = some c) : c.Accounted :=
  Runs.run_invariant (P := fun _ c => c.Accounted) ⟨Client.boot_owned s, pmmInit_balanced s⟩
    (fun _ _ _ _ _ ih hs => ih.step hs) ops c h

theorem Pmm.Reachable.balanced {p : Pmm} (h : p.Reachable) : p.Balanced := by
  obtain ⟨s, ops, held, hrun⟩ := h
  exact (run_accounted s ops _ hrun).balanced

/-- **Reported free memory is what can be allocated.** In every reachable state
free and used pages add up to the total, an allocation fails exactly when no
page is free, and as many allocations as there are free pages succeed with
distinct pages; the one after them fails and changes nothing. -/
theorem pmm_free_is_allocatable (p : Pmm) (h : p.Reachable) :
    (pmmGetStats p).2.1.toNat + (pmmGetStats p).2.2.toNat = (pmmGetStats p).1.toNat ∧
    ((pmmAllocPage p).1 = 0#64 ↔ (pmmGetStats p).2.1 = 0#64) ∧
    ∀ k, (pmmGetStats p).2.1.toNat = k →
      (allocPagesInTurn k p).1.length = k ∧
      (∀ a ∈ (allocPagesInTurn k p).1, a ≠ 0#64) ∧ (allocPagesInTurn k p).1.Nodup ∧
      pmmAllocPage (allocPagesInTurn k p).2 = (0#64, (allocPagesInTurn k p).2) := by
  have hc := h.consistent
  refine ⟨h.balanced.stats_sum hc, ?_, ?_⟩
  · have hfree : (pmmGetStats p).2.1 = 0#64 ↔ p.Exhausted := by
      rw [hc.exhausted_iff, ← hc.stats_free, ← BitVec.toNat_inj]
      rfl
    rw [hfree]
    rcases pmmAllocPage_cases hc with ⟨heq, hex⟩ | ⟨a, s', heq, htake⟩
    · simp only [heq, hex]
    · have hne := htake.isPage.ne_zero
      have hone := pmmAllocPage_freeCount hc heq hne
      rw [heq, hc.exhausted_iff]
      constructor
      · intro hz
        exact absurd hz hne
      · intro hz
        omega
  · intro k hk
    rw [hc.stats_free] at hk
    obtain ⟨hav, hnd, hlen, hlast⟩ := allocPagesInTurn_freeCount hc hk
    exact ⟨hlen, fun a ha => (hav a ha).1.ne_zero, hnd, hlast⟩

/-- After one page was taken of the fresh pool, 261631 are free. -/
theorem pmm_free_is_allocatable_after_one :
    let p : Pmm := ⟨[], 0x201000, 0x3fe00, 1, 0⟩
    p.Reachable ∧ (pmmGetStats p).2.1 = 0x3fdff ∧
    (allocPagesInTurn 0x3fdff p).1.Nodup ∧
    (pmmAllocPage (allocPagesInTurn 0x3fdff p).2).1 = 0#64 := by
  have hreach : (⟨[], 0x201000, 0x3fe00, 1, 0⟩ : Pmm).Reachable :=
    ⟨Pmm.bss, [.allocPage], {0x200000}, rfl⟩
  have hfree : (pmmGetStats ⟨[], 0x201000, 0x3fe00, 1, 0⟩).2.1 = 0x3fdff := by decide
  obtain ⟨-, -, hturn⟩ := pmm_free_is_allocatable _ hreach
  obtain ⟨-, -, hnd, hlast⟩ := hturn 0x3fdff (by rw [hfree]; rfl)
  exact ⟨hreach, hfree, hnd, by rw [hlast]⟩

end Myria.Mm
