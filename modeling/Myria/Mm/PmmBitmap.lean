import Myria.Lib.Bitmap
import Myria.Lib.Runs
import Myria.Types

/-! The bitmap allocator of `pmm.c`, the alternative to `pmm_simple.c`. A set
bit is a page in use. Page indices are naturals: for requests that the bitmap can
hold all loops stay at or below `bitmap_pages`, which `pmm_init` fixes at
`MAX_PAGES`. -/
namespace Myria.Mm.PageBitmap

open Bitmap

def maxPages : Nat := 8 * 1024

structure State where
  pageBitmap : Bytes
  bitmapPages : U64
  firstFreePage : U64
  totalMemory : U64
  freeMemory : U64
  usedMemory : U64

/-- The zero-initialised statics. -/
def blank : State where
  pageBitmap := fun _ => 0
  bitmapPages := 0
  firstFreePage := 0
  totalMemory := 0
  freeMemory := 0
  usedMemory := 0

def setPageUsed (s : State) (page : Nat) : State :=
  { s with pageBitmap := set s.pageBitmap page }

def setPageFree (s : State) (page : Nat) : State :=
  { s with pageBitmap := clear s.pageBitmap page }

def isPageFree (s : State) (page : Nat) : Bool := !test s.pageBitmap page

def pmmInit (s : State) : State :=
  { s with
    totalMemory := 512 * 1024 * 1024
    freeMemory := 256 * 1024 * 1024
    usedMemory := 512 * 1024 * 1024 - 256 * 1024 * 1024
    bitmapPages := BitVec.ofNat 64 maxPages }

def pageAddr (page : Nat) : U64 := BitVec.ofNat 64 page * pageSize

def pmmAllocPage (s : State) : U64 × State :=
  let first := s.firstFreePage.toNat
  match (List.range' first (s.bitmapPages.toNat - first)).find? (isPageFree s) with
  | some page =>
    let s := setPageUsed s page
    (pageAddr page,
      { s with
        freeMemory := s.freeMemory - pageSize
        usedMemory := s.usedMemory + pageSize
        firstFreePage := if page = first then s.firstFreePage + 1 else s.firstFreePage })
  | none => (0#64, s)

def pmmFreePage (s : State) (physAddr : U64) : State :=
  if physAddr = 0 ∨ physAddr % pageSize ≠ 0 then s
  else
    let page := physAddr / pageSize
    if s.bitmapPages ≤ page then s
    else if isPageFree s page.toNat then s -- perhaps a double free
    else
      let s := setPageFree s page.toNat
      { s with
        freeMemory := s.freeMemory + pageSize
        usedMemory := s.usedMemory - pageSize
        firstFreePage := if page < s.firstFreePage then page else s.firstFreePage }

/-- The loop that marks a region. -/
def setRegionUsed (s : State) (start count : Nat) : State :=
  (List.range count).foldl (fun s i => setPageUsed s (start + i)) s

/-- `pmm_alloc_pages`. The bound `bitmap_pages - count` is inclusive and wraps
for a count above `bitmap_pages`. -/
def pmmAllocPages (s : State) (count : U64) : U64 × State :=
  if count = 1 then pmmAllocPage s
  else
    match search (isPageFree s) count.toNat s.firstFreePage.toNat
      ((s.bitmapPages - count).toNat + 1) with
    | some start =>
      let s := setRegionUsed s start count.toNat
      (pageAddr start,
        { s with
          freeMemory := s.freeMemory - count * pageSize
          usedMemory := s.usedMemory + count * pageSize })
    | none => (0#64, s)

def pmmFreePages (s : State) (physAddr count : U64) : State :=
  (List.range count.toNat).foldl
    (fun s i => pmmFreePage s (physAddr + BitVec.ofNat 64 i * pageSize)) s

/-- `pmm_get_stats`: total, free and used memory. -/
def pmmGetStats (s : State) : U64 × U64 × U64 := (s.totalMemory, s.freeMemory, s.usedMemory)

/-! ## Clients -/

inductive Op where
  | allocPage
  | allocPages (count : U64)
  | freePage (physAddr : U64)
  | freePages (physAddr count : U64)
deriving DecidableEq, Repr

/-- Any call but one for no page, or for more than there are. -/
def step (s : State) : Op → Option State
  | .allocPage => some (pmmAllocPage s).2
  | .allocPages count =>
    if 1 ≤ count ∧ count ≤ s.bitmapPages then some (pmmAllocPages s count).2 else none
  | .freePage physAddr => some (pmmFreePage s physAddr)
  | .freePages physAddr count => some (pmmFreePages s physAddr count)

def Reachable (s : State) : Prop := ∃ ops, Runs.run step (pmmInit blank) ops = some s

/-! ## The search hint -/

/-- Nothing below the hint is free. -/
structure Hinted (s : State) : Prop where
  pages : s.bitmapPages = BitVec.ofNat 64 maxPages
  le : s.firstFreePage ≤ s.bitmapPages
  used : ∀ p < s.firstFreePage.toNat, isPageFree s p = false
  /-- what is not free is accounted for as used -/
  accounted : s.freeMemory + s.usedMemory = s.totalMemory

@[simp] theorem isPageFree_setPageUsed (s : State) (page p : Nat) :
    isPageFree (setPageUsed s page) p = (isPageFree s p && decide (p ≠ page)) := by
  simp [isPageFree, setPageUsed, test_set, Bool.and_comm]

@[simp] theorem isPageFree_setPageFree (s : State) (page p : Nat) :
    isPageFree (setPageFree s page) p = (isPageFree s p || decide (p = page)) := by
  simp [isPageFree, setPageFree, test_clear, Bool.or_comm]

/-- Only the bitmap changes. -/
theorem setRegionUsed_eq (s : State) (start count : Nat) :
    setRegionUsed s start count =
      { s with
        pageBitmap := (List.range count).foldl (fun b i => set b (start + i)) s.pageBitmap } := by
  induction count with
  | zero => rfl
  | succ n ih =>
    rw [setRegionUsed, List.range_succ, List.foldl_append, List.foldl_append, ← setRegionUsed, ih]
    rfl

theorem isPageFree_setRegionUsed (s : State) (start count p : Nat) :
    isPageFree (setRegionUsed s start count) p =
      (isPageFree s p && !decide (start ≤ p ∧ p < start + count)) := by
  rw [setRegionUsed_eq, isPageFree, isPageFree, test_foldl_set, Bool.not_or, Bool.and_comm]

theorem pmmInit_hinted : Hinted (pmmInit blank) where
  pages := rfl
  le := by decide
  used := by
    intro p hp
    exact absurd hp (Nat.not_lt_zero p)
  accounted := by decide

variable {s : State}

/-- Marking more pages used keeps the hint as it is. -/
theorem Hinted.of_le (h : Hinted s) {t : State} (hpages : t.bitmapPages = s.bitmapPages)
    (hfirst : t.firstFreePage = s.firstFreePage)
    (hfree : ∀ p, isPageFree t p = true → isPageFree s p = true)
    (hmem : t.freeMemory + t.usedMemory = t.totalMemory) : Hinted t where
  pages := hpages.trans h.pages
  le := by rw [hfirst, hpages]; exact h.le
  used := by
    intro p hp
    by_contra hne
    rw [hfirst] at hp
    have hwas := hfree p (by simpa using hne)
    rw [h.used p hp] at hwas
    cases hwas
  accounted := hmem

theorem pmmAllocPage_hinted (h : Hinted s) : Hinted (pmmAllocPage s).2 := by
  have hpages := h.pages
  have hle := h.le
  have hmem := h.accounted
  rw [pmmAllocPage]
  split
  case h_1 page hfind =>
    rw [List.find?_range'_eq_some, List.mem_range'_1] at hfind
    obtain ⟨-, hrange, -⟩ := hfind
    have hmem' : s.freeMemory - pageSize + (s.usedMemory + pageSize) = s.totalMemory := by
      rw [← hmem]
      bv_omega
    by_cases hfirst : page = s.firstFreePage.toNat
    · have hsucc : (s.firstFreePage + 1).toNat = s.firstFreePage.toNat + 1 := by
        rw [hpages, maxPages] at hrange
        bv_omega
      simp only [if_pos hfirst]
      refine ⟨hpages, ?_, fun p hp => ?_, hmem'⟩
      · show s.firstFreePage + 1 ≤ s.bitmapPages
        bv_omega
      · -- the page just taken is the one the hint moves past
        change p < (s.firstFreePage + 1).toNat at hp
        show isPageFree (setPageUsed s page) p = false
        rw [isPageFree_setPageUsed]
        by_cases hp' : p = page
        · simp [hp']
        · rw [h.used p (by omega)]
          rfl
    · simp only [if_neg hfirst]
      refine h.of_le rfl rfl (fun p hp => ?_) hmem'
      change isPageFree (setPageUsed s page) p = true at hp
      rw [isPageFree_setPageUsed, Bool.and_eq_true] at hp
      exact hp.1
  case h_2 => exact h

theorem pmmAllocPages_hinted (h : Hinted s) (count : U64) : Hinted (pmmAllocPages s count).2 := by
  rw [pmmAllocPages]
  split
  · exact pmmAllocPage_hinted h
  · split
    case h_1 start _ =>
      have hmem := h.accounted
      refine h.of_le ?_ ?_ (fun p hp => ?_) ?_
      · rw [setRegionUsed_eq]
      · rw [setRegionUsed_eq]
      · change isPageFree (setRegionUsed s start count.toNat) p = true at hp
        rw [isPageFree_setRegionUsed, Bool.and_eq_true] at hp
        exact hp.1
      · rw [setRegionUsed_eq]
        show s.freeMemory - count * pageSize + (s.usedMemory + count * pageSize) = s.totalMemory
        rw [← hmem]
        bv_omega
    case h_2 => exact h

/-- Freeing a page moves the hint down to it. -/
theorem Hinted.freed (h : Hinted s) {page : U64} (hpage : page < s.bitmapPages) :
    Hinted
      { setPageFree s page.toNat with
        freeMemory := s.freeMemory + pageSize
        usedMemory := s.usedMemory - pageSize
        firstFreePage := if page < s.firstFreePage then page else s.firstFreePage } where
  pages := h.pages
  le := by
    have hle := h.le
    show (if page < s.firstFreePage then page else s.firstFreePage) ≤ s.bitmapPages
    split <;> bv_omega
  used := by
    intro p hp
    -- below the new hint lies neither the freed page nor a page free before
    have hlt : p < page.toNat ∧ p < s.firstFreePage.toNat := by
      dsimp only at hp
      split at hp <;> bv_omega
    show isPageFree (setPageFree s page.toNat) p = false
    rw [isPageFree_setPageFree, h.used p hlt.2, Bool.false_or, decide_eq_false_iff_not]
    omega
  accounted := by
    show s.freeMemory + pageSize + (s.usedMemory - pageSize) = s.totalMemory
    rw [← h.accounted]
    bv_omega

/-- What `pmm_free_page` can do: nothing, or clear the bit of a page in use. -/
theorem pmmFreePage_cases (s : State) (physAddr : U64) :
    pmmFreePage s physAddr = s ∨
    ∃ page, page < s.bitmapPages ∧ isPageFree s page.toNat = false ∧
      pmmFreePage s physAddr =
        { setPageFree s page.toNat with
          freeMemory := s.freeMemory + pageSize
          usedMemory := s.usedMemory - pageSize
          firstFreePage := if page < s.firstFreePage then page else s.firstFreePage } := by
  rw [pmmFreePage]
  split
  case isTrue => exact .inl rfl
  case isFalse =>
    dsimp only
    split
    case isTrue => exact .inl rfl
    case isFalse hpage =>
      split
      case isTrue => exact .inl rfl
      case isFalse hused =>
        exact .inr ⟨physAddr / pageSize, BitVec.not_le.mp hpage, Bool.not_eq_true _ ▸ hused, rfl⟩

theorem pmmFreePage_hinted (h : Hinted s) (physAddr : U64) : Hinted (pmmFreePage s physAddr) := by
  rcases pmmFreePage_cases s physAddr with heq | ⟨page, hpage, -, heq⟩
  · rw [heq]
    exact h
  · rw [heq]
    exact h.freed hpage

/-- What freeing one page keeps, freeing several keeps. -/
theorem pmmFreePages_invariant {P : State → Prop}
    (hfree : ∀ s physAddr, P s → P (pmmFreePage s physAddr)) (h : P s) (physAddr count : U64) :
    P (pmmFreePages s physAddr count) := by
  rw [pmmFreePages]
  induction count.toNat with
  | zero => exact h
  | succ n ih =>
    rw [List.range_succ, List.foldl_append]
    exact hfree _ _ ih

/-- A property that `pmm_init` establishes and the calls keep holds in every
reachable state. -/
theorem Reachable.invariant {P : State → Prop} (hinit : P (pmmInit blank))
    (halloc : ∀ s, P s → P (pmmAllocPage s).2)
    (hallocs : ∀ s count, count ≤ s.bitmapPages → P s → P (pmmAllocPages s count).2)
    (hfree : ∀ s physAddr, P s → P (pmmFreePage s physAddr)) (h : Reachable s) : P s := by
  obtain ⟨ops, hrun⟩ := h
  refine Runs.run_invariant (P := fun _ t => P t) hinit (fun _ s op t _ hs hstep => ?_) ops s hrun
  cases op with
  | allocPage =>
    cases hstep
    exact halloc s hs
  | allocPages count =>
    simp only [step] at hstep
    split at hstep
    case isTrue hcount =>
      cases hstep
      exact hallocs s count hcount.2 hs
    case isFalse => cases hstep
  | freePage physAddr =>
    cases hstep
    exact hfree s physAddr hs
  | freePages physAddr count =>
    cases hstep
    exact pmmFreePages_invariant hfree hs physAddr count

theorem Reachable.hinted (h : Reachable s) : Hinted s :=
  h.invariant pmmInit_hinted (fun _ hs => pmmAllocPage_hinted hs)
    (fun _ count _ hs => pmmAllocPages_hinted hs count)
    (fun _ physAddr hs => pmmFreePage_hinted hs physAddr)

/-! ## First fit -/

/-- The lowest run of `count` free pages of the whole bitmap is taken, and
nothing else; without one, nothing happens. -/
structure AllocatesFirstFit (s : State) (count : Nat) (r : U64 × State) : Prop where
  found : ∀ p, FirstRun (isPageFree s) s.bitmapPages.toNat count p →
    r.1 = pageAddr p ∧
      ∀ q, isPageFree r.2 q = (isPageFree s q && !decide (p ≤ q ∧ q < p + count))
  exhausted : (∀ p, ¬ FreeRun (isPageFree s) s.bitmapPages.toNat count p) → r = (0#64, s)

theorem allocatesFirstFit_of_some {count start : Nat} {r : U64 × State}
    (hrun : FirstRun (isPageFree s) s.bitmapPages.toNat count start) (haddr : r.1 = pageAddr start)
    (hbits : ∀ q, isPageFree r.2 q =
      (isPageFree s q && !decide (start ≤ q ∧ q < start + count))) :
    AllocatesFirstFit s count r where
  found := by
    intro p hp
    rw [hp.unique hrun]
    exact ⟨haddr, hbits⟩
  exhausted := fun hnone => absurd hrun.toFreeRun (hnone start)

theorem allocatesFirstFit_of_none {count : Nat}
    (hnone : ∀ p, ¬ FreeRun (isPageFree s) s.bitmapPages.toNat count p) :
    AllocatesFirstFit s count (0#64, s) where
  found := fun p hp => absurd hp.toFreeRun (hnone p)
  exhausted := fun _ => rfl

theorem pmmAllocPage_firstFit (h : Hinted s) : AllocatesFirstFit s 1 (pmmAllocPage s) := by
  have hpos : 1 ≤ s.bitmapPages.toNat := by rw [h.pages]; decide
  have hstop : s.bitmapPages.toNat - 1 + 1 = s.bitmapPages.toNat := by omega
  have hsearch := search_one (isPageFree s) s.firstFreePage.toNat s.bitmapPages.toNat
  rw [pmmAllocPage, ← hsearch]
  split
  case h_1 page hfind =>
    rw [← hstop] at hfind
    refine allocatesFirstFit_of_some (search_eq_some Nat.one_pos hpos h.used hfind) rfl fun q => ?_
    show isPageFree (setPageUsed s page) q = _
    rw [isPageFree_setPageUsed, ← decide_not]
    congr 1
    rw [decide_eq_decide]
    omega
  case h_2 hfind =>
    rw [← hstop] at hfind
    exact allocatesFirstFit_of_none (search_eq_none Nat.one_pos h.used hfind)

theorem pmmAllocPages_firstFit (h : Hinted s) {count : U64} (hpos : 1 ≤ count)
    (hle : count ≤ s.bitmapPages) : AllocatesFirstFit s count.toNat (pmmAllocPages s count) := by
  rw [pmmAllocPages]
  split
  case isTrue hone =>
    rw [hone]
    exact pmmAllocPage_firstFit h
  case isFalse =>
    have hcount : 0 < count.toNat := by bv_omega
    have hle' : count.toNat ≤ s.bitmapPages.toNat := hle
    have hstop : (s.bitmapPages - count).toNat = s.bitmapPages.toNat - count.toNat := by bv_omega
    rw [hstop]
    split
    case h_1 start hfind =>
      refine allocatesFirstFit_of_some (search_eq_some hcount hle' h.used hfind) rfl fun q => ?_
      exact isPageFree_setRegionUsed s start count.toNat q
    case h_2 hfind => exact allocatesFirstFit_of_none (search_eq_none hcount h.used hfind)

/-- **The bitmap allocator is a complete first fit.** In every reachable state
all pages below the search hint are in use, so a search that starts at the hint
finds the lowest run of the whole bitmap. -/
theorem bitmap_first_fit (h : Reachable s) :
    (∀ p < s.firstFreePage.toNat, isPageFree s p = false) ∧
      AllocatesFirstFit s 1 (pmmAllocPage s) ∧
      ∀ count, 1 ≤ count → count ≤ s.bitmapPages →
        AllocatesFirstFit s count.toNat (pmmAllocPages s count) :=
  ⟨h.hinted.used, pmmAllocPage_firstFit h.hinted,
    fun _ hpos hle => pmmAllocPages_firstFit h.hinted hpos hle⟩

theorem bitmap_first_fit_after_alloc :
    Reachable (pmmAllocPage (pmmInit blank)).2 ∧
      AllocatesFirstFit (pmmAllocPage (pmmInit blank)).2 2
        (pmmAllocPages (pmmAllocPage (pmmInit blank)).2 2) := by
  have hreach : Reachable (pmmAllocPage (pmmInit blank)).2 := ⟨[.allocPage], rfl⟩
  refine ⟨hreach, (bitmap_first_fit hreach).2.2 2 (by decide) ?_⟩
  rw [hreach.hinted.pages]
  decide

end Myria.Mm.PageBitmap
