import Myria.Mm.PmmBitmap

/-! The books of `pmm.c`. The byte counters are kept apart from the bits and the
search hint moves by one rule in the single-page path, by none in the multi-page
path and by a third when a page is freed. Here they are shown to agree: the
counters follow the number of set bits, and freeing a block just allocated undoes
the allocation to the last bit. -/
namespace Myria.Mm.PageBitmap

open Bitmap

/-- The number of set bits of `page_bitmap`. -/
def usedPages (s : State) : Nat := population s.pageBitmap maxPages

theorem usedPages_le (s : State) : usedPages s ≤ maxPages := population_le _ _

/-! ## What an allocation does -/

variable {s : State}

/-- The state after page `page` was taken. -/
def tookPage (s : State) (page : Nat) : State :=
  { setPageUsed s page with
    freeMemory := s.freeMemory - pageSize
    usedMemory := s.usedMemory + pageSize
    firstFreePage :=
      if page = s.firstFreePage.toNat then s.firstFreePage + 1 else s.firstFreePage }

/-- The state after `count` pages from `start` on were taken. -/
def tookRegion (s : State) (start : Nat) (count : U64) : State :=
  { setRegionUsed s start count.toNat with
    freeMemory := s.freeMemory - count * pageSize
    usedMemory := s.usedMemory + count * pageSize }

theorem pmmAllocPage_cases (s : State) :
    pmmAllocPage s = (0#64, s) ∨
    ∃ page, s.firstFreePage.toNat ≤ page ∧ page < s.bitmapPages.toNat ∧
      isPageFree s page = true ∧ pmmAllocPage s = (pageAddr page, tookPage s page) := by
  rw [pmmAllocPage]
  split
  case h_1 page hfind =>
    rw [List.find?_range'_eq_some, List.mem_range'_1] at hfind
    obtain ⟨hfree, hrange, -⟩ := hfind
    exact .inr ⟨page, hrange.1, by omega, hfree, rfl⟩
  case h_2 => exact .inl rfl

theorem pmmAllocPages_cases {count : U64} (hone : count ≠ 1) (hle : count ≤ s.bitmapPages) :
    pmmAllocPages s count = (0#64, s) ∨
    ∃ start, s.firstFreePage.toNat ≤ start ∧ start + count.toNat ≤ s.bitmapPages.toNat ∧
      (∀ k < count.toNat, isPageFree s (start + k) = true) ∧
      pmmAllocPages s count = (pageAddr start, tookRegion s start count) := by
  have hstop : (s.bitmapPages - count).toNat = s.bitmapPages.toNat - count.toNat := by bv_omega
  have hle' : count.toNat ≤ s.bitmapPages.toNat := hle
  rw [pmmAllocPages, if_neg hone, hstop, search]
  split
  case h_1 start hfind =>
    rw [List.find?_range'_eq_some, List.mem_range'_1] at hfind
    obtain ⟨hfree, hrange, -⟩ := hfind
    refine .inr ⟨start, hrange.1, by omega, all_free_iff.mp hfree, ?_⟩
    rw [tookRegion, setRegionUsed_eq]
  case h_2 => exact .inl rfl

theorem test_of_isPageFree {p : Nat} (h : isPageFree s p = true) : test s.pageBitmap p = false := by
  simpa [isPageFree] using h

theorem test_of_not_isPageFree {p : Nat} (h : isPageFree s p = false) :
    test s.pageBitmap p = true := by
  simpa [isPageFree] using h

/-! ## The counters -/

/-- The counters follow the bits. -/
structure Counted (s : State) : Prop where
  hinted : Hinted s
  total : s.totalMemory = 512 * 1024 * 1024
  used : s.usedMemory.toNat = 256 * 1024 * 1024 + 4096 * usedPages s
  free : s.freeMemory.toNat + 4096 * usedPages s = 256 * 1024 * 1024

theorem pmmInit_counted : Counted (pmmInit blank) := by
  have hnone : usedPages (pmmInit blank) = 0 := by
    rw [usedPages, population, Finset.card_eq_zero, Finset.filter_eq_empty_iff]
    intro p _
    simp [pmmInit, blank, test]
  refine ⟨pmmInit_hinted, rfl, ?_, ?_⟩
  · rw [hnone]
    rfl
  · rw [hnone]
    rfl

theorem mul_pageSize_toNat {n : U64} (hn : n.toNat ≤ maxPages) :
    (n * pageSize).toNat = n.toNat * 4096 := by
  simp only [maxPages] at hn
  rw [BitVec.toNat_mul]
  exact Nat.mod_eq_of_lt (show n.toNat * 4096 < 2 ^ 64 by omega)

/-- Taking `n` free pages. -/
theorem Counted.take (h : Counted s) {t : State} {n : U64} (ht : Hinted t)
    (htotal : t.totalMemory = s.totalMemory) (hn : usedPages t = usedPages s + n.toNat)
    (hfree : t.freeMemory = s.freeMemory - n * pageSize)
    (hused : t.usedMemory = s.usedMemory + n * pageSize) : Counted t := by
  obtain ⟨-, htot, hu, hf⟩ := h
  have hle := usedPages_le t
  simp only [maxPages] at hle
  have hmul := mul_pageSize_toNat (n := n) (by simp only [maxPages]; omega)
  refine ⟨ht, htotal.trans htot, ?_, ?_⟩
  · rw [hused, hn]
    bv_omega
  · rw [hfree, hn]
    bv_omega

/-- Giving back one page in use. -/
theorem Counted.give (h : Counted s) {t : State} (ht : Hinted t)
    (htotal : t.totalMemory = s.totalMemory) (hn : usedPages t + 1 = usedPages s)
    (hfree : t.freeMemory = s.freeMemory + pageSize)
    (hused : t.usedMemory = s.usedMemory - pageSize) : Counted t := by
  obtain ⟨-, htot, hu, hf⟩ := h
  have hle := usedPages_le s
  simp only [maxPages] at hle
  have hsize : pageSize.toNat = 4096 := rfl
  refine ⟨ht, htotal.trans htot, ?_, ?_⟩
  · rw [hused]
    bv_omega
  · rw [hfree]
    bv_omega

theorem Hinted.pages_toNat (h : Hinted s) : s.bitmapPages.toNat = maxPages := by
  rw [h.pages]
  rfl

theorem pmmAllocPage_counted (h : Counted s) : Counted (pmmAllocPage s).2 := by
  have hhint := pmmAllocPage_hinted h.hinted
  rcases pmmAllocPage_cases s with heq | ⟨page, -, hlt, hfree, heq⟩
  · rw [heq]
    exact h
  · rw [heq] at hhint ⊢
    rw [h.hinted.pages_toNat] at hlt
    exact h.take (n := 1) hhint rfl (population_set hlt (test_of_isPageFree hfree)) rfl rfl

theorem pmmAllocPages_counted (h : Counted s) {count : U64} (hle : count ≤ s.bitmapPages) :
    Counted (pmmAllocPages s count).2 := by
  have hhint := pmmAllocPages_hinted h.hinted count
  by_cases hone : count = 1
  · rw [pmmAllocPages, if_pos hone]
    exact pmmAllocPage_counted h
  rcases pmmAllocPages_cases hone hle with heq | ⟨start, -, hend, hfree, heq⟩
  · rw [heq]
    exact h
  · rw [heq] at hhint ⊢
    rw [h.hinted.pages_toNat] at hend
    refine h.take (n := count) hhint ?_ ?_ rfl rfl
    · rw [tookRegion, setRegionUsed_eq]
    · rw [usedPages, tookRegion, setRegionUsed_eq]
      exact population_foldl_set _ hend fun k hk => test_of_isPageFree (hfree k hk)

theorem pmmFreePage_counted (h : Counted s) (physAddr : U64) :
    Counted (pmmFreePage s physAddr) := by
  rcases pmmFreePage_cases s physAddr with heq | ⟨page, hpage, hused, heq⟩
  · rw [heq]
    exact h
  · have hlt : page.toNat < maxPages := by
      rw [← h.hinted.pages_toNat]
      exact hpage
    have hclear := population_clear hlt (test_of_not_isPageFree hused)
    rw [heq]
    exact h.give (h.hinted.freed hpage) rfl hclear rfl rfl

theorem Reachable.counted (h : Reachable s) : Counted s :=
  h.invariant pmmInit_counted (fun _ hs => pmmAllocPage_counted hs)
    (fun _ _ hle hs => pmmAllocPages_counted hs hle)
    (fun _ physAddr hs => pmmFreePage_counted hs physAddr)

/-! ## Freeing what was just allocated -/

theorem ofNat_page_toNat {page : Nat} (h : page ≤ maxPages) :
    (BitVec.ofNat 64 page : U64).toNat = page := by
  simp only [maxPages] at h
  rw [BitVec.toNat_ofNat]
  exact Nat.mod_eq_of_lt (by omega)

theorem pageAddr_toNat {page : Nat} (h : page ≤ maxPages) :
    (pageAddr page).toNat = page * 4096 := by
  rw [pageAddr, mul_pageSize_toNat (by rw [ofNat_page_toNat h]; exact h), ofNat_page_toNat h]

theorem pageAddr_add (start i : Nat) :
    pageAddr start + BitVec.ofNat 64 i * pageSize = pageAddr (start + i) := by
  rw [pageAddr, pageAddr, BitVec.ofNat_add, BitVec.add_mul]

/-- A page in use other than page zero can be freed. -/
theorem pmmFreePage_of_used (hpages : s.bitmapPages.toNat = maxPages) {page : Nat}
    (hpos : 0 < page) (hlt : page < maxPages) (hused : isPageFree s page = false) :
    pmmFreePage s (pageAddr page) =
      { setPageFree s page with
        freeMemory := s.freeMemory + pageSize
        usedMemory := s.usedMemory - pageSize
        firstFreePage :=
          if page < s.firstFreePage.toNat then BitVec.ofNat 64 page else s.firstFreePage } := by
  have haddr := pageAddr_toNat (Nat.le_of_lt hlt)
  have hsize : pageSize.toNat = 4096 := rfl
  have hnat := ofNat_page_toNat (Nat.le_of_lt hlt)
  have hindex : pageAddr page / pageSize = BitVec.ofNat 64 page := by
    apply BitVec.eq_of_toNat_eq
    rw [BitVec.toNat_udiv, haddr, hsize, Nat.mul_div_cancel _ (by decide), hnat]
  have hvalid : ¬ (pageAddr page = 0 ∨ pageAddr page % pageSize ≠ 0) := by
    rintro (hzero | hmod)
    · rw [hzero] at haddr
      simp only [BitVec.ofNat_eq_ofNat, BitVec.toNat_zero] at haddr
      omega
    · apply hmod
      apply BitVec.eq_of_toNat_eq
      rw [BitVec.toNat_umod, haddr, hsize, Nat.mul_mod_left]
      rfl
  have hinside : ¬ s.bitmapPages ≤ BitVec.ofNat 64 page := by
    rw [BitVec.le_def, hnat, hpages]
    omega
  rw [pmmFreePage, if_neg hvalid]
  simp only [hindex, if_neg hinside, hnat, hused, BitVec.lt_def]
  rfl

/-- Freeing the pages of a block from the first to the last, with the hint not
above the block. -/
theorem pmmFreePages_region (hpages : s.bitmapPages.toNat = maxPages) {start : Nat}
    (hpos : 0 < start) (hhint : s.firstFreePage.toNat ≤ start) {n : Nat}
    (hend : start + n ≤ maxPages) (hused : ∀ k < n, isPageFree s (start + k) = false) :
    (List.range n).foldl
        (fun s i => pmmFreePage s (pageAddr start + BitVec.ofNat 64 i * pageSize)) s =
      { s with
        pageBitmap := (List.range n).foldl (fun b k => clear b (start + k)) s.pageBitmap
        freeMemory := s.freeMemory + BitVec.ofNat 64 n * pageSize
        usedMemory := s.usedMemory - BitVec.ofNat 64 n * pageSize } := by
  induction n with
  | zero => simp
  | succ n ih =>
    rw [List.range_succ, List.foldl_append, List.foldl_append, ih (by omega)
      fun k hk => hused k (by omega), List.foldl_cons, List.foldl_nil, List.foldl_cons,
      List.foldl_nil, pageAddr_add]
    generalize hfreed : ({ s with
      pageBitmap := (List.range n).foldl (fun b k => clear b (start + k)) s.pageBitmap
      freeMemory := s.freeMemory + BitVec.ofNat 64 n * pageSize
      usedMemory := s.usedMemory - BitVec.ofNat 64 n * pageSize } : State) = t
    have hstill : isPageFree t (start + n) = false := by
      rw [← hfreed, isPageFree, test_foldl_clear,
        test_of_not_isPageFree (hused n (Nat.lt_succ_self n))]
      simp
    rw [pmmFreePage_of_used (by rw [← hfreed]; exact hpages) (by omega) (by omega) hstill]
    -- the hint lies below the page, and the counters add up
    have hfirst : t.firstFreePage = s.firstFreePage := by rw [← hfreed]
    have hlow : ¬ start + n < t.firstFreePage.toNat := by
      rw [hfirst]
      omega
    rw [if_neg hlow, ← hfreed, BitVec.ofNat_add, BitVec.add_mul]
    simp only [setPageFree, BitVec.one_mul, BitVec.add_assoc, sub_sub]

/-- The single-page path: the hint moved past the page moves back to it. -/
theorem pmmFreePages_tookPage (h : Hinted s) {page : Nat} (hpos : 0 < page)
    (hhint : s.firstFreePage.toNat ≤ page) (hlt : page < maxPages)
    (hfree : isPageFree s page = true) :
    pmmFreePages (tookPage s page) (pageAddr page) 1 = s := by
  have hpages : (tookPage s page).bitmapPages.toNat = maxPages := h.pages_toNat
  have hused : isPageFree (tookPage s page) page = false := by
    show isPageFree (setPageUsed s page) page = false
    simp
  have hbits := clear_set (test_of_isPageFree hfree)
  have hfirst : (if page < (tookPage s page).firstFreePage.toNat then BitVec.ofNat 64 page
      else (tookPage s page).firstFreePage) = s.firstFreePage := by
    simp only [maxPages] at hlt
    by_cases hat : page = s.firstFreePage.toNat
    · have hnext : (s.firstFreePage + 1).toNat = page + 1 := by bv_omega
      simp only [tookPage, if_pos hat]
      rw [if_pos (by omega), hat, BitVec.ofNat_toNat, BitVec.setWidth_eq]
    · simp only [tookPage, if_neg hat]
      rw [if_neg (by omega)]
  have hone : pmmFreePages (tookPage s page) (pageAddr page) 1 =
      pmmFreePage (tookPage s page) (pageAddr page) := by
    show pmmFreePage _ (pageAddr page + BitVec.ofNat 64 0 * pageSize) = _
    rw [pageAddr_add, Nat.add_zero]
  rw [hone, pmmFreePage_of_used hpages hpos hlt hused, hfirst]
  simp only [setPageFree, tookPage, setPageUsed, hbits, BitVec.sub_add_cancel,
    BitVec.add_sub_cancel]

theorem pmmFreePages_tookRegion (h : Hinted s) {start : Nat} {count : U64} (hpos : 0 < start)
    (hhint : s.firstFreePage.toNat ≤ start) (hend : start + count.toNat ≤ maxPages)
    (hfree : ∀ k < count.toNat, isPageFree s (start + k) = true) :
    pmmFreePages (tookRegion s start count) (pageAddr start) count = s := by
  have htook : tookRegion s start count =
      { s with
        pageBitmap := (List.range count.toNat).foldl (fun b i => set b (start + i)) s.pageBitmap
        freeMemory := s.freeMemory - count * pageSize
        usedMemory := s.usedMemory + count * pageSize } := by
    rw [tookRegion, setRegionUsed_eq]
  have hused : ∀ k < count.toNat, isPageFree (tookRegion s start count) (start + k) = false := by
    intro k hk
    show isPageFree (setRegionUsed s start count.toNat) (start + k) = false
    rw [isPageFree_setRegionUsed]
    simp [hk]
  have hpages : (tookRegion s start count).bitmapPages.toNat = maxPages := by
    rw [htook]
    exact h.pages_toNat
  have hsame : (tookRegion s start count).firstFreePage = s.firstFreePage := by rw [htook]
  rw [pmmFreePages, pmmFreePages_region hpages hpos (by rw [hsame]; exact hhint) hend hused, htook]
  simp only [clear_foldl_set fun k hk => test_of_isPageFree (hfree k hk), BitVec.ofNat_toNat,
    BitVec.setWidth_eq, BitVec.sub_add_cancel, BitVec.add_sub_cancel]

theorem pageAddr_pos {page : Nat} (h : pageAddr page ≠ 0#64) : 0 < page := by
  rcases Nat.eq_zero_or_pos page with rfl | hpos
  · exact absurd (by decide) h
  · exact hpos

/-- **Freeing a block just allocated undoes the allocation**, bitmap, hint and
counters, and in every reachable state the counters add up and follow the number
of set bits. The sums are of naturals, so no counter has wrapped. -/
theorem bitmap_books_balance (h : Reachable s) :
    (∀ count, 1 ≤ count → count ≤ s.bitmapPages → (pmmAllocPages s count).1 ≠ 0#64 →
      pmmFreePages (pmmAllocPages s count).2 (pmmAllocPages s count).1 count = s) ∧
    s.freeMemory.toNat + s.usedMemory.toNat = s.totalMemory.toNat ∧
    s.usedMemory.toNat = (pmmInit blank).usedMemory.toNat + 4096 * usedPages s := by
  have hc := h.counted
  refine ⟨fun count _ hle hne => ?_, ?_, hc.used⟩
  · have hpages := hc.hinted.pages_toNat
    by_cases hone : count = 1
    · subst hone
      rw [pmmAllocPages, if_pos rfl] at hne ⊢
      rcases pmmAllocPage_cases s with heq | ⟨page, hhint, hlt, hfree, heq⟩
      · rw [heq] at hne
        exact absurd rfl hne
      · rw [heq] at hne ⊢
        rw [hpages] at hlt
        exact pmmFreePages_tookPage hc.hinted (pageAddr_pos hne) hhint hlt hfree
    rcases pmmAllocPages_cases hone hle with heq | ⟨start, hhint, hend, hfree, heq⟩
    · rw [heq] at hne
      exact absurd rfl hne
    · rw [heq] at hne ⊢
      rw [hpages] at hend
      exact pmmFreePages_tookRegion hc.hinted (pageAddr_pos hne) hhint hend hfree
  · rw [hc.total]
    have hused := hc.used
    have hfree := hc.free
    show s.freeMemory.toNat + s.usedMemory.toNat = 512 * 1024 * 1024
    omega

theorem bitmap_books_balance_after_alloc :
    Reachable (pmmAllocPage (pmmInit blank)).2 ∧
      (pmmAllocPages (pmmAllocPage (pmmInit blank)).2 2).1 ≠ 0#64 ∧
      pmmFreePages (pmmAllocPages (pmmAllocPage (pmmInit blank)).2 2).2
        (pmmAllocPages (pmmAllocPage (pmmInit blank)).2 2).1 2 =
          (pmmAllocPage (pmmInit blank)).2 := by
  have hreach : Reachable (pmmAllocPage (pmmInit blank)).2 := ⟨[.allocPage], rfl⟩
  have hne : (pmmAllocPages (pmmAllocPage (pmmInit blank)).2 2).1 ≠ 0#64 := by decide
  refine ⟨hreach, hne, (bitmap_books_balance hreach).1 2 (by decide) ?_ hne⟩
  rw [hreach.hinted.pages]
  decide

end Myria.Mm.PageBitmap
