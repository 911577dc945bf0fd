import Myria.Mm.BitmapAccounting

/-! The edges of `pmm.c`: the page whose address is also the error value, and the
requests for no page or for more pages than there are. A call may have any
arguments here. Past the last bit the model has further bytes, clear at first, where
the source has whatever lies behind `page_bitmap`. A request for too many pages looks
there and may write there, so its answer and the states behind it in a run are those
of a kernel with clear memory in that place; before the first such request nothing
depends on those bytes. -/
namespace Myria.Mm.PageBitmap

open Bitmap

variable {s : State}

/-- Any call, with any arguments. -/
def callStep (s : State) : Op → Option State
  | .allocPage => some (pmmAllocPage s).2
  | .allocPages count => some (pmmAllocPages s count).2
  | .freePage physAddr => some (pmmFreePage s physAddr)
  | .freePages physAddr count => some (pmmFreePages s physAddr count)

def CallReachable (s : State) : Prop := ∃ ops, Runs.run callStep (pmmInit blank) ops = some s

theorem callStep_hinted (h : Hinted s) {op : Op} {t : State} (hs : callStep s op = some t) :
    Hinted t := by
  cases op with
  | allocPage =>
    cases hs
    exact pmmAllocPage_hinted h
  | allocPages count =>
    cases hs
    exact pmmAllocPages_hinted h count
  | freePage physAddr =>
    cases hs
    exact pmmFreePage_hinted h physAddr
  | freePages physAddr count =>
    cases hs
    exact pmmFreePages_invariant (P := Hinted) (fun _ a ht => pmmFreePage_hinted ht a) h physAddr
      count

theorem CallReachable.hinted (h : CallReachable s) : Hinted s := by
  obtain ⟨ops, hrun⟩ := h
  exact Runs.run_invariant (P := fun _ t => Hinted t) pmmInit_hinted
    (fun _ _ _ _ _ ht hs => callStep_hinted ht hs) ops s hrun

/-! ## Zero as an answer -/

/-- The answer `r` to a request for `count` pages is zero on failure only, a
failure changes nothing, and what was taken can be freed in every later state in
which it is still in use. -/
structure ZeroIsFailure (s : State) (count : Nat) (r : U64 × State) : Prop where
  zero_iff : r.1 = 0#64 ↔ ∀ p, ¬ FreeRun (isPageFree s) s.bitmapPages.toNat count p
  unchanged : r.1 = 0#64 → r.2 = s
  releasable : ∀ q < s.bitmapPages.toNat, isPageFree s q = true → isPageFree r.2 q = false →
    ∀ t, CallReachable t → isPageFree t q = false →
      isPageFree (pmmFreePage t (pageAddr q)) q = true

theorem pageAddr_eq_zero_iff {page : Nat} (h : page ≤ maxPages) :
    pageAddr page = 0#64 ↔ page = 0 := by
  rw [← BitVec.toNat_inj, pageAddr_toNat h, BitVec.toNat_zero]
  omega

/-- A first fit fails with zero as long as it does not begin with page zero. -/
theorem AllocatesFirstFit.zeroIsFailure_iff (h : Hinted s) {count : Nat} {r : U64 × State}
    (hfit : AllocatesFirstFit s count r) :
    ZeroIsFailure s count r ↔ ¬ FreeRun (isPageFree s) s.bitmapPages.toNat count 0 := by
  have hpages := h.pages_toNat
  constructor
  · -- the run at page zero is the first one, so its address is the answer
    intro hzero hrun
    obtain ⟨haddr, -⟩ := hfit.found 0 ⟨hrun, fun q hq => absurd hq (Nat.not_lt_zero q)⟩
    exact hzero.zero_iff.mp (haddr.trans (by decide)) 0 hrun
  intro hnot
  by_cases hsome : ∃ p, FreeRun (isPageFree s) s.bitmapPages.toNat count p
  · obtain ⟨p, hp⟩ := hsome
    obtain ⟨start, hfirst⟩ := hp.exists_firstRun
    obtain ⟨haddr, hbits⟩ := hfit.found start hfirst
    have hend := hfirst.le
    rw [hpages] at hend
    have hstart : start ≠ 0 := by
      rintro rfl
      exact hnot hfirst.toFreeRun
    have hne : r.1 ≠ 0#64 := by
      rw [haddr]
      exact fun h0 => hstart ((pageAddr_eq_zero_iff (by omega)).mp h0)
    refine ⟨⟨fun h0 => absurd h0 hne, fun hnone => absurd hp (hnone p)⟩,
      fun h0 => absurd h0 hne, ?_⟩
    intro q hq hwas hnow t ht hused
    rw [hpages] at hq
    -- what was taken lies in the run, hence behind page zero
    have hin : start ≤ q := by
      rw [hbits q, hwas] at hnow
      simp at hnow
      exact hnow.1
    rw [pmmFreePage_of_used ht.hinted.pages_toNat (by omega) hq hused]
    show isPageFree (setPageFree t q) q = true
    simp
  · push Not at hsome
    rw [hfit.exhausted hsome]
    refine ⟨⟨fun _ => hsome, fun _ => rfl⟩, fun _ => rfl, ?_⟩
    intro q _ hwas hnow
    rw [hwas] at hnow
    cases hnow

/-- **Zero means failure exactly as long as the pages from page zero on are not
all free.** Page zero is never marked by `pmm_init`, so the first allocation takes
it and answers with its address, which `pmm_free_page` refuses. -/
theorem bitmap_zero_is_failure_iff (h : CallReachable s) :
    (ZeroIsFailure s 1 (pmmAllocPage s) ↔
      ¬ FreeRun (isPageFree s) s.bitmapPages.toNat 1 0) ∧
    ∀ count, 1 ≤ count → count ≤ s.bitmapPages →
      (ZeroIsFailure s count.toNat (pmmAllocPages s count) ↔
        ¬ FreeRun (isPageFree s) s.bitmapPages.toNat count.toNat 0) := by
  refine ⟨?_, fun count hpos hle => ?_⟩
  · exact (pmmAllocPage_firstFit h.hinted).zeroIsFailure_iff h.hinted
  · exact (pmmAllocPages_firstFit h.hinted hpos hle).zeroIsFailure_iff h.hinted

theorem bitmap_zero_is_failure_after_alloc :
    CallReachable (pmmAllocPage (pmmInit blank)).2 ∧
      ZeroIsFailure (pmmAllocPage (pmmInit blank)).2 1
        (pmmAllocPage (pmmAllocPage (pmmInit blank)).2) := by
  have hreach : CallReachable (pmmAllocPage (pmmInit blank)).2 := ⟨[.allocPage], rfl⟩
  refine ⟨hreach, (bitmap_zero_is_failure_iff hreach).1.mpr fun hrun => ?_⟩
  exact absurd (hrun.allFree 0 Nat.one_pos) (by decide)

/-- Right after `pmm_init` the page at address zero is handed out, which looks
like a failure, and it cannot be given back. -/
theorem first_allocation_is_page_zero :
    CallReachable (pmmInit blank) ∧
      (pmmAllocPage (pmmInit blank)).1 = 0#64 ∧
      isPageFree (pmmInit blank) 0 = true ∧
      isPageFree (pmmAllocPage (pmmInit blank)).2 0 = false ∧
      pmmFreePage (pmmAllocPage (pmmInit blank)).2 0 = (pmmAllocPage (pmmInit blank)).2 ∧
      ¬ ZeroIsFailure (pmmInit blank) 1 (pmmAllocPage (pmmInit blank)) := by
  have hzero : (pmmAllocPage (pmmInit blank)).1 = 0#64 := by decide
  refine ⟨⟨[], rfl⟩, hzero, by decide, by decide, rfl, fun hfail => ?_⟩
  refine hfail.zero_iff.mp hzero 1 ⟨by decide, fun i hi => ?_⟩
  rw [Nat.lt_one_iff.mp hi]
  decide

/-! ## Indices -/

/-- `pmm_alloc_page` with the page indices it passes to `is_page_free` and
`set_page_used`. -/
def pmmAllocPageLogged (s : State) : List Nat × (U64 × State) :=
  let first := s.firstFreePage.toNat
  match searchLogged (isPageFree s) 1 (List.range' first (s.bitmapPages.toNat - first)) with
  | (asked, some page) => (asked ++ [page], (pageAddr page, tookPage s page))
  | (asked, none) => (asked, (0#64, s))

/-- `pmm_alloc_pages` with the page indices it passes on. -/
def pmmAllocPagesLogged (s : State) (count : U64) : List Nat × (U64 × State) :=
  if count = 1 then pmmAllocPageLogged s
  else
    let first := s.firstFreePage.toNat
    match searchLogged (isPageFree s) count.toNat
      (List.range' first ((s.bitmapPages - count).toNat + 1 - first)) with
    | (asked, some start) =>
      (asked ++ (List.range count.toNat).map (start + ·),
        (pageAddr start, tookRegion s start count))
    | (asked, none) => (asked, (0#64, s))

section

variable (s : State) (count : U64)

/-- The log changes nothing about the allocation. -/
theorem pmmAllocPageLogged_snd : (pmmAllocPageLogged s).2 = pmmAllocPage s := by
  rw [pmmAllocPageLogged, pmmAllocPage, ← search_one, search, ← searchLogged_snd]
  dsimp only
  generalize searchLogged (isPageFree s) 1 _ = out
  obtain ⟨asked, found⟩ := out
  cases found with
  | none => rfl
  | some page => rfl

theorem pmmAllocPagesLogged_snd : (pmmAllocPagesLogged s count).2 = pmmAllocPages s count := by
  rw [pmmAllocPagesLogged, pmmAllocPages]
  split
  · exact pmmAllocPageLogged_snd s
  · rw [search, ← searchLogged_snd]
    dsimp only
    generalize searchLogged (isPageFree s) count.toNat _ = out
    obtain ⟨asked, found⟩ := out
    cases found with
    | none => rfl
    | some start =>
      simp only [tookRegion]
      rw [setRegionUsed_eq]

/-- Every index stays below `bitmap_pages`, and a block that is granted has at
least one page and lies in the pool. -/
structure StaysInBitmap : Prop where
  indices : ∀ p ∈ (pmmAllocPagesLogged s count).1, p < s.bitmapPages.toNat
  granted : (pmmAllocPages s count).1 ≠ 0#64 → 1 ≤ count.toNat ∧
    ∃ start, (pmmAllocPages s count).1 = pageAddr start ∧
      (pmmAllocPages s count).1.toNat + count.toNat * 4096 ≤ s.bitmapPages.toNat * 4096

theorem pmmAllocPageLogged_lt : ∀ p ∈ (pmmAllocPageLogged s).1, p < s.bitmapPages.toNat := by
  have hinside : ∀ p ∈ List.range' s.firstFreePage.toNat
      (s.bitmapPages.toNat - s.firstFreePage.toNat), p + 1 ≤ s.bitmapPages.toNat := by
    intro p hp
    rw [List.mem_range'_1] at hp
    omega
  have hasked : ∀ p ∈ (searchLogged (isPageFree s) 1 _).1, _ := searchLogged_lt hinside
  have htaken : ∀ p, (searchLogged (isPageFree s) 1 _).2 = some p → _ := fun p => region_lt hinside
  simp only [pmmAllocPageLogged]
  generalize searchLogged (isPageFree s) 1 _ = out at hasked htaken ⊢
  obtain ⟨asked, found⟩ := out
  cases found with
  | none => exact hasked
  | some page =>
    intro p hp
    rcases List.mem_append.mp hp with hp | hp
    · exact hasked p hp
    · exact htaken page rfl p (by simpa using hp)

variable {s count}

theorem pmmAllocPagesLogged_lt (hle : count ≤ s.bitmapPages) :
    ∀ p ∈ (pmmAllocPagesLogged s count).1, p < s.bitmapPages.toNat := by
  have hle' : count.toNat ≤ s.bitmapPages.toNat := hle
  have hstop : (s.bitmapPages - count).toNat = s.bitmapPages.toNat - count.toNat := by bv_omega
  have hinside : ∀ p ∈ List.range' s.firstFreePage.toNat
      ((s.bitmapPages - count).toNat + 1 - s.firstFreePage.toNat),
      p + count.toNat ≤ s.bitmapPages.toNat := by
    intro p hp
    rw [List.mem_range'_1] at hp
    omega
  have hasked : ∀ p ∈ (searchLogged (isPageFree s) count.toNat _).1, _ := searchLogged_lt hinside
  have htaken : ∀ p, (searchLogged (isPageFree s) count.toNat _).2 = some p → _ :=
    fun p => region_lt hinside
  rw [pmmAllocPagesLogged]
  split
  · exact pmmAllocPageLogged_lt s
  · dsimp only
    generalize searchLogged (isPageFree s) count.toNat _ = out at hasked htaken ⊢
    obtain ⟨asked, found⟩ := out
    cases found with
    | none => exact hasked
    | some start =>
      intro p hp
      rcases List.mem_append.mp hp with hp | hp
      · exact hasked p hp
      · exact htaken start rfl p hp

/-- A request for more pages than there are asks about the first page that does
not exist. -/
theorem mem_pmmAllocPagesLogged (h : Hinted s) (hgt : s.bitmapPages < count) :
    s.bitmapPages.toNat ∈ (pmmAllocPagesLogged s count).1 := by
  have hpages := h.pages
  have hone : count ≠ 1 := by
    rintro rfl
    rw [hpages] at hgt
    exact absurd hgt (by decide)
  have hfirst := h.le
  have hreach : s.bitmapPages.toNat ∈ (searchLogged (isPageFree s) count.toNat
      (List.range' s.firstFreePage.toNat
        ((s.bitmapPages - count).toNat + 1 - s.firstFreePage.toNat))).1 := by
    refine mem_searchLogged hgt _ hfirst ?_
    -- the bound of the outer loop wraps to a number above `bitmap_pages`
    rw [hpages] at hgt hfirst ⊢
    simp only [maxPages] at hgt hfirst ⊢
    bv_omega
  rw [pmmAllocPagesLogged, if_neg hone]
  dsimp only
  generalize searchLogged (isPageFree s) count.toNat _ = out at hreach ⊢
  obtain ⟨asked, found⟩ := out
  cases found with
  | none => exact hreach
  | some start => exact List.mem_append_left _ hreach

/-- A request for no page is granted at the hint, and touches nothing. -/
theorem pmmAllocPagesLogged_zero (h : Hinted s) :
    pmmAllocPagesLogged s 0 = ([], (pageAddr s.firstFreePage.toNat,
      tookRegion s s.firstFreePage.toNat 0)) := by
  have hle : s.firstFreePage.toNat ≤ s.bitmapPages.toNat := h.le
  obtain ⟨k, hk⟩ : ∃ k, (s.bitmapPages - 0#64).toNat + 1 - s.firstFreePage.toNat = k + 1 :=
    ⟨s.bitmapPages.toNat - s.firstFreePage.toNat, by rw [BitVec.sub_zero]; omega⟩
  rw [pmmAllocPagesLogged, if_neg (by decide)]
  dsimp only
  rw [BitVec.ofNat_eq_ofNat, hk, List.range'_succ]
  rfl

end

theorem StaysInBitmap.of_le (hpages : s.bitmapPages.toNat = maxPages) {count : U64}
    (hpos : 1 ≤ count) (hle : count ≤ s.bitmapPages) : StaysInBitmap s count := by
  refine ⟨pmmAllocPagesLogged_lt hle, fun hne => ⟨hpos, ?_⟩⟩
  by_cases hone : count = 1
  · subst hone
    rw [pmmAllocPages, if_pos rfl] at hne ⊢
    rcases pmmAllocPage_cases s with heq | ⟨page, -, hlt, -, heq⟩
    · rw [heq] at hne
      exact absurd rfl hne
    · rw [heq, hpages] at *
      refine ⟨page, rfl, ?_⟩
      rw [pageAddr_toNat (by omega)]
      show page * 4096 + 1 * 4096 ≤ _
      omega
  · rcases pmmAllocPages_cases hone hle with heq | ⟨start, -, hend, -, heq⟩
    · rw [heq] at hne
      exact absurd rfl hne
    · rw [heq]
      rw [hpages] at hend ⊢
      refine ⟨start, rfl, ?_⟩
      rw [pageAddr_toNat (by omega)]
      omega

/-- **`pmm_alloc_pages` stays in its bitmap exactly for requests that the bitmap
can hold**, and for a request of no page while the hint is zero. -/
theorem bitmap_stays_inside_iff (h : CallReachable s) (count : U64) :
    StaysInBitmap s count ↔
      (1 ≤ count ∧ count ≤ s.bitmapPages) ∨ (count = 0 ∧ s.firstFreePage = 0) := by
  have hpages := h.hinted.pages_toNat
  by_cases hzero : count = 0
  · subst hzero
    have hlog := pmmAllocPagesLogged_zero h.hinted
    have hfirst : s.firstFreePage.toNat ≤ maxPages := by
      rw [← hpages]
      exact h.hinted.le
    have hanswer : (pmmAllocPages s 0).1 = pageAddr s.firstFreePage.toNat := by
      rw [← pmmAllocPagesLogged_snd, hlog]
    constructor
    · intro hstays
      refine .inr ⟨rfl, ?_⟩
      by_contra hne
      have hgranted := hstays.granted (by
        rw [hanswer]
        intro h0
        exact hne (BitVec.eq_of_toNat_eq ((pageAddr_eq_zero_iff hfirst).mp h0)))
      exact absurd hgranted.1 (by decide)
    · rintro (⟨hpos, -⟩ | ⟨-, hhint⟩)
      · exact absurd hpos (by decide)
      · refine ⟨?_, fun hne => absurd ?_ hne⟩
        · rw [hlog]
          intro p hp
          cases hp
        · rw [hanswer, hhint]
          decide
  · have hpos : 1 ≤ count := by bv_omega
    constructor
    · intro hstays
      refine .inl ⟨hpos, ?_⟩
      by_contra hgt
      exact Nat.lt_irrefl _
        (hstays.indices _ (mem_pmmAllocPagesLogged h.hinted (BitVec.not_le.mp hgt)))
    · rintro (⟨-, hle⟩ | ⟨h0, -⟩)
      · exact .of_le hpages hpos hle
      · exact absurd h0 hzero

theorem bitmap_stays_inside_four :
    CallReachable (pmmInit blank) ∧ StaysInBitmap (pmmInit blank) 4 := by
  have hreach : CallReachable (pmmInit blank) := ⟨[], rfl⟩
  exact ⟨hreach, (bitmap_stays_inside_iff hreach 4).mpr (.inl ⟨by decide, by decide⟩)⟩

/-- One page more than there are: `is_page_free` reads behind the bitmap. No page
at all: the answer is a page that was not granted. -/
theorem alloc_pages_leaves_bitmap :
    CallReachable (pmmInit blank) ∧
      (pmmInit blank).bitmapPages = 8192 ∧
      8192 ∈ (pmmAllocPagesLogged (pmmInit blank) 8193).1 ∧
      (pmmAllocPages (pmmAllocPage (pmmInit blank)).2 0).1 = 0x1000#64 ∧
      ¬ StaysInBitmap (pmmInit blank) 8193 := by
  have hreach : CallReachable (pmmInit blank) := ⟨[], rfl⟩
  have hasked : 8192 ∈ (pmmAllocPagesLogged (pmmInit blank) 8193).1 :=
    mem_pmmAllocPagesLogged hreach.hinted (by decide)
  exact ⟨hreach, rfl, hasked, by decide, fun hstays => absurd (hstays.indices _ hasked) (by decide)⟩

end Myria.Mm.PageBitmap
