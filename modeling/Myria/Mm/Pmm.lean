import Mathlib.Data.Finset.Image
import Myria.Lib.Runs
import Myria.Types

/-! The physical page allocator of `pmm_simple.c`: a bump pointer and a bounded
stack of freed pages. The used part of `free_pages[]` is a list with the top of
the stack first, so its length is `free_page_count` and the dead entries above
the top do not exist. -/
namespace Myria.Mm

def maxFreePages : Nat := 1024
def pmmStartAddr : U64 := 0x200000
def pmmEndAddr : U64 := 0x40000000

structure Pmm where
  freePages : List U64
  nextPageAddr : U64
  totalPages : U64
  allocatedPages : U64
  freedPages : U64
deriving DecidableEq, Repr

def initMemoryPool (s : Pmm) : Pmm :=
  { s with
    totalPages := (pmmEndAddr - pmmStartAddr) / pageSize
    freePages := []
    nextPageAddr := pmmStartAddr }

/-- The state left by `pmm_init`, whatever the statics held before. -/
def pmmInit (s : Pmm) : Pmm :=
  initMemoryPool { s with freePages := [], allocatedPages := 0, freedPages := 0 }

/-- The page and the next state; page `0` is the out-of-memory answer. -/
def pmmAllocPage (s : Pmm) : U64 × Pmm :=
  match s.freePages with
  | page :: rest => (page, { s with freePages := rest, allocatedPages := s.allocatedPages + 1 })
  | [] =>
    if s.nextPageAddr < pmmEndAddr then
      (s.nextPageAddr,
        { s with
          nextPageAddr := s.nextPageAddr + pageSize
          allocatedPages := s.allocatedPages + 1 })
    else (0#64, s)

def pmmFreePage (s : Pmm) (physAddr : U64) : Pmm :=
  if physAddr < pmmStartAddr ∨ pmmEndAddr ≤ physAddr then s
  else if s.freePages.length < maxFreePages then
    { s with
      freePages := physAddr :: s.freePages
      freedPages := s.freedPages + 1
      allocatedPages := if 0 < s.allocatedPages then s.allocatedPages - 1 else s.allocatedPages }
  else s -- a full stack drops the page

def pmmAllocPages (s : Pmm) (count : U64) : U64 × Pmm :=
  if count = 0 then (0#64, s)
  else if s.nextPageAddr + count * pageSize ≤ pmmEndAddr then
    (s.nextPageAddr,
      { s with
        nextPageAddr := s.nextPageAddr + count * pageSize
        allocatedPages := s.allocatedPages + count })
  else (0#64, s)

/-- The address of the `i`-th page of a multi-page block. -/
def nthPage (physAddr : U64) (i : Nat) : U64 := physAddr + BitVec.ofNat 64 i * pageSize

def pmmFreePages (s : Pmm) (physAddr count : U64) : Pmm :=
  (List.range count.toNat).foldl (fun s i => pmmFreePage s (nthPage physAddr i)) s

/-- `pmm_get_stats`: total, free and used pages. -/
def pmmGetStats (s : Pmm) : U64 × U64 × U64 :=
  (s.totalPages,
    BitVec.ofNat 64 s.freePages.length + (pmmEndAddr - s.nextPageAddr) / pageSize,
    s.allocatedPages)

@[simp] theorem pmmStartAddr_toNat : pmmStartAddr.toNat = 0x200000 := rfl
@[simp] theorem pmmEndAddr_toNat : pmmEndAddr.toNat = 0x40000000 := rfl

/-! ## What a consistent allocator hands out -/

/-- A page-aligned address of the pool. -/
def IsPage (a : U64) : Prop :=
  a.toNat % 4096 = 0 ∧ pmmStartAddr ≤ a ∧ a < pmmEndAddr

/-- A page the allocator may still hand out. -/
def Pmm.Available (s : Pmm) (a : U64) : Prop :=
  a ∈ s.freePages ∨ (s.nextPageAddr ≤ a ∧ a < pmmEndAddr)

structure Pmm.Consistent (s : Pmm) : Prop where
  aligned : s.nextPageAddr.toNat % 4096 = 0
  start_le : pmmStartAddr ≤ s.nextPageAddr
  le_end : s.nextPageAddr ≤ pmmEndAddr
  nodup : s.freePages.Nodup
  stacked : ∀ a ∈ s.freePages, a.toNat % 4096 = 0 ∧ pmmStartAddr ≤ a ∧ a < s.nextPageAddr

/-- Nothing is left to hand out. -/
def Pmm.Exhausted (s : Pmm) : Prop := s.freePages = [] ∧ s.nextPageAddr = pmmEndAddr

theorem Pmm.Exhausted.allocPage {s : Pmm} (h : s.Exhausted) : pmmAllocPage s = (0#64, s) := by
  have hend : ¬ pmmEndAddr < pmmEndAddr := by decide
  simp only [pmmAllocPage, h.1, h.2, if_neg hend]

theorem pmmInit_consistent (s : Pmm) : (pmmInit s).Consistent where
  aligned := by simp [pmmInit, initMemoryPool]
  start_le := BitVec.le_refl _
  le_end := by simp [pmmInit, initMemoryPool, BitVec.le_def]
  nodup := List.nodup_nil
  stacked := by simp [pmmInit, initMemoryPool]

/-- The page after one below the end of the pool. -/
theorem add_pageSize_toNat {a : U64} (h : a < pmmEndAddr) :
    (a + pageSize).toNat = a.toNat + 4096 := by
  simp only [pmmEndAddr, pageSize] at *
  bv_omega

theorem IsPage.ne_zero {a : U64} (h : IsPage a) : a ≠ 0#64 := by
  rintro rfl
  exact absurd h.2.1 (by decide)

theorem Pmm.Consistent.stack_isPage {s : Pmm} (h : s.Consistent) {a : U64}
    (ha : a ∈ s.freePages) : IsPage a := by
  obtain ⟨hal, hlo, hhi⟩ := h.stacked a ha
  have hend := h.le_end
  exact ⟨hal, hlo, by bv_omega⟩

theorem Pmm.Consistent.not_available_zero {s : Pmm} (h : s.Consistent) : ¬ s.Available 0#64 := by
  rintro (hmem | ⟨hle, -⟩)
  · exact (h.stack_isPage hmem).ne_zero rfl
  · have hlo := h.start_le
    simp only [pmmStartAddr] at hlo
    bv_omega

theorem Pmm.Consistent.pop {s t : Pmm} (h : s.Consistent) {page : U64} {rest : List U64}
    (hs : s.freePages = page :: rest) (hf : t.freePages = rest)
    (hn : t.nextPageAddr = s.nextPageAddr) :
    t.Consistent ∧ ¬ t.Available page := by
  have hnd := h.nodup
  have hpage := h.stacked page (by simp [hs])
  rw [hs, List.nodup_cons] at hnd
  refine ⟨⟨by rw [hn]; exact h.aligned, by rw [hn]; exact h.start_le, by rw [hn]; exact h.le_end,
    by rw [hf]; exact hnd.2, fun a ha => ?_⟩, ?_⟩
  · rw [hn]
    exact h.stacked a (by rw [hs]; exact List.mem_cons_of_mem _ (hf ▸ ha))
  · rintro (hmem | hrange)
    · exact hnd.1 (hf ▸ hmem)
    · rw [hn] at hrange
      bv_omega

theorem Pmm.Consistent.bump {s t : Pmm} (h : s.Consistent) {k : Nat}
    (hk : s.nextPageAddr.toNat + k * 4096 ≤ pmmEndAddr.toNat) (hf : t.freePages = s.freePages)
    (hn : t.nextPageAddr.toNat = s.nextPageAddr.toNat + k * 4096) : t.Consistent := by
  obtain ⟨hal, hlo, hhi, hnd, hst⟩ := h
  rw [BitVec.le_def] at hlo
  refine ⟨by omega, by rw [BitVec.le_def]; omega, by rw [BitVec.le_def]; omega, by rwa [hf], ?_⟩
  intro a ha
  obtain ⟨h1, h2, h3⟩ := hst a (hf ▸ ha)
  exact ⟨h1, h2, by rw [BitVec.lt_def] at h3 ⊢; omega⟩

/-- Bumping the pointer makes no page available. -/
theorem Pmm.available_of_bump {s t : Pmm} (hf : t.freePages = s.freePages)
    (hn : s.nextPageAddr.toNat ≤ t.nextPageAddr.toNat) {b : U64} (hb : t.Available b) :
    s.Available b := by
  rcases hb with hmem | ⟨hlo, hhi⟩
  · exact .inl (hf ▸ hmem)
  · exact .inr ⟨BitVec.le_def.mpr (Nat.le_trans hn (BitVec.le_def.mp hlo)), hhi⟩

/-- The pages the pointer has passed are not available any more. -/
theorem Pmm.Consistent.passed {s t : Pmm} (h : s.Consistent) (hf : t.freePages = s.freePages)
    {b : U64} (hlo : s.nextPageAddr.toNat ≤ b.toNat) (hhi : b.toNat < t.nextPageAddr.toNat) :
    ¬ t.Available b := by
  intro hb
  rcases hb with hmem | ⟨hle, -⟩
  · have hlt := (h.stacked b (hf ▸ hmem)).2.2
    rw [BitVec.lt_def] at hlt
    omega
  · rw [BitVec.le_def] at hle
    omega

/-- Allocating `f` takes it out of the available pages and adds none. -/
structure TakesPage (s : Pmm) (f : U64) (s' : Pmm) : Prop where
  isPage : IsPage f
  available : s.Available f
  consistent : s'.Consistent
  taken : ¬ s'.Available f
  fewer : ∀ b, s'.Available b → s.Available b

/-- What one allocation can do: refuse because nothing is left, or hand out an
available page that is not available any more. -/
theorem pmmAllocPage_cases {s : Pmm} (h : s.Consistent) :
    (pmmAllocPage s = (0#64, s) ∧ s.Exhausted) ∨
    ∃ a s', pmmAllocPage s = (a, s') ∧ TakesPage s a s' := by
  cases hf : s.freePages with
  | cons page rest =>
    have hmem : page ∈ s.freePages := by simp [hf]
    obtain ⟨hc, hna⟩ := h.pop (t := { s with
      freePages := rest, allocatedPages := s.allocatedPages + 1 }) hf rfl rfl
    refine .inr ⟨page, _, by simp only [pmmAllocPage, hf], h.stack_isPage hmem, .inl hmem,
      hc, hna, ?_⟩
    rintro b (hb | hb)
    · exact .inl (by rw [hf]; exact List.mem_cons_of_mem _ hb)
    · exact .inr hb
  | nil =>
    have hlo := h.start_le
    have hhi := h.le_end
    have hal := h.aligned
    by_cases hlt : s.nextPageAddr < pmmEndAddr
    · have hnext : (s.nextPageAddr + pageSize).toNat = s.nextPageAddr.toNat + 1 * 4096 :=
        add_pageSize_toNat hlt
      have hend : s.nextPageAddr.toNat + 1 * 4096 ≤ pmmEndAddr.toNat := by
        rw [BitVec.lt_def, pmmEndAddr_toNat] at hlt
        rw [pmmEndAddr_toNat]
        omega
      refine .inr ⟨s.nextPageAddr,
        { s with nextPageAddr := s.nextPageAddr + pageSize
                 allocatedPages := s.allocatedPages + 1 },
        by simp only [pmmAllocPage, hf, if_pos hlt], ⟨hal, hlo, hlt⟩,
        .inr ⟨BitVec.le_refl _, hlt⟩, h.bump hend rfl hnext, ?_, ?_⟩
      · refine h.passed ?_ (Nat.le_refl _) ?_
        · rfl
        · rw [hnext]
          omega
      · intro b hb
        refine Pmm.available_of_bump ?_ ?_ hb
        · rfl
        · rw [hnext]
          omega
    · exact .inl ⟨by simp only [pmmAllocPage, hf, if_neg hlt], hf, by bv_omega⟩

/-- A page that was handed out. -/
theorem pmmAllocPage_takes {s s' : Pmm} {f : U64} (h : s.Consistent)
    (heq : pmmAllocPage s = (f, s')) (hf : f ≠ 0#64) : TakesPage s f s' := by
  rcases pmmAllocPage_cases h with ⟨hfail, -⟩ | ⟨f', t, hdone, htake⟩
  · cases heq.symm.trans hfail
    exact absurd rfl hf
  · cases heq.symm.trans hdone
    exact htake

end Myria.Mm
