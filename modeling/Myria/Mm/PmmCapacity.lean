import Myria.Mm.PmmAccounting

/-! Giving back a block. `pmm_alloc_pages` takes a block off the bump pointer,
`pmm_free_pages` pushes its pages one by one on the free stack, which holds
`MAX_FREE_PAGES` and ignores what does not fit. So a block comes back whole
exactly when the stack has room for all of it. -/
namespace Myria.Mm

/-- The state after the first `m` pages of the block at `a` were freed. -/
def freeFirst (p : Pmm) (a : U64) (m : Nat) : Pmm :=
  (List.range m).foldl (fun s i => pmmFreePage s (nthPage a i)) p

theorem freeFirst_succ (p : Pmm) (a : U64) (m : Nat) :
    freeFirst p a (m + 1) = pmmFreePage (freeFirst p a m) (nthPage a m) := by
  rw [freeFirst, List.range_succ, List.foldl_append]
  rfl

/-! ## Pushing and popping -/

theorem pmmFreePage_nextPageAddr (p : Pmm) (a : U64) :
    (pmmFreePage p a).nextPageAddr = p.nextPageAddr := by
  unfold pmmFreePage
  split
  · rfl
  · split <;> rfl

theorem pmmFreePage_length_le (p : Pmm) (a : U64) :
    (pmmFreePage p a).freePages.length ≤ max maxFreePages p.freePages.length := by
  unfold pmmFreePage
  split
  · exact Nat.le_max_right _ _
  · split
    · rw [List.length_cons]
      omega
    · exact Nat.le_max_right _ _

/-- With room on the stack a page of the pool is pushed. -/
theorem IsPage.pmmFreePage_freePages {p : Pmm} {a : U64} (ha : IsPage a)
    (hroom : p.freePages.length < maxFreePages) :
    (pmmFreePage p a).freePages = a :: p.freePages := by
  obtain ⟨-, hlo, hhi⟩ := ha
  have hin : ¬ (a < pmmStartAddr ∨ pmmEndAddr ≤ a) := by bv_omega
  rw [pmmFreePage, if_neg hin, if_pos hroom]

/-- What lies on the stack is handed out from the top. -/
theorem allocPagesInTurn_of_stack {p : Pmm} {top rest : List U64}
    (h : p.freePages = top ++ rest) : (allocPagesInTurn top.length p).1 = top := by
  induction top generalizing p with
  | nil => rfl
  | cons a top ih =>
    have hpop : pmmAllocPage p =
        (a, { p with freePages := top ++ rest, allocatedPages := p.allocatedPages + 1 }) := by
      rw [pmmAllocPage, h]
      rfl
    rw [List.length_cons, allocPagesInTurn, hpop]
    exact congrArg (a :: ·) (ih rfl)

/-! ## Freeing a block page by page -/

section

variable {p : Pmm} {a : U64} {n : Nat}

/-- The pages of a block in use, all of them different. -/
structure BlockInUse (p : Pmm) (a : U64) (n : Nat) : Prop where
  inUse : ∀ i < n, IsPage (nthPage a i) ∧ ¬ p.Available (nthPage a i)
  distinct : ∀ i < n, ∀ j < n, nthPage a i = nthPage a j → i = j

/-- What holds after the first `m` pages were freed, whether or not they fit. -/
structure FreedFirst (p : Pmm) (a : U64) (m : Nat) (q : Pmm) : Prop where
  consistent : q.Consistent
  balanced : q.Balanced
  next : q.nextPageAddr = p.nextPageAddr
  bounded : q.freePages.length ≤ max maxFreePages p.freePages.length
  available : ∀ b, q.Available b → p.Available b ∨ ∃ i < m, b = nthPage a i
  stack : p.freePages.length + m ≤ maxFreePages →
    q.freePages = ((List.range m).map (nthPage a)).reverse ++ p.freePages

theorem FreedFirst.succ (hblock : BlockInUse p a n) {m : Nat} (hm : m < n) {q : Pmm}
    (h : FreedFirst p a m q) : FreedFirst p a (m + 1) (pmmFreePage q (nthPage a m)) := by
  obtain ⟨hpage, hna⟩ := hblock.inUse m hm
  -- the page is still in use: it is none of those freed before
  have hstill : ¬ q.Available (nthPage a m) := by
    intro hav
    rcases h.available _ hav with hav | ⟨i, hi, heq⟩
    · exact hna hav
    · have hsame := hblock.distinct m hm i (by omega) heq
      omega
  obtain ⟨hc, hav⟩ := pmmFreePage_cases h.consistent hpage hstill
  refine ⟨hc, h.balanced.freePage h.consistent hpage hstill,
    (pmmFreePage_nextPageAddr q _).trans h.next, ?_, ?_, ?_⟩
  · have hle := pmmFreePage_length_le q (nthPage a m)
    have hbound := h.bounded
    omega
  · intro b hb
    rcases hav b hb with rfl | hb
    · exact .inr ⟨m, Nat.lt_succ_self m, rfl⟩
    · rcases h.available b hb with hb | ⟨i, hi, heq⟩
      · exact .inl hb
      · exact .inr ⟨i, by omega, heq⟩
  · intro hroom
    have hstack := h.stack (by omega)
    have hlen : q.freePages.length = m + p.freePages.length := by simp [hstack]
    rw [hpage.pmmFreePage_freePages (by omega), hstack, List.range_succ]
    simp

theorem BlockInUse.freeFirst (hblock : BlockInUse p a n) (hc : p.Consistent) (hb : p.Balanced)
    {m : Nat} (hm : m ≤ n) : FreedFirst p a m (freeFirst p a m) := by
  induction m with
  | zero =>
    refine ⟨hc, hb, rfl, Nat.le_max_right _ _, fun b hav => .inl hav, fun _ => ?_⟩
    simp [Myria.Mm.freeFirst]
  | succ m ih =>
    rw [freeFirst_succ]
    exact FreedFirst.succ hblock hm (ih (by omega))

end

/-! ## A block taken and given back -/

/-- A block that is granted begins at the bump pointer. -/
theorem pmmAllocPages_of_granted {p : Pmm} {count : U64} (hne : (pmmAllocPages p count).1 ≠ 0#64) :
    count ≠ 0 ∧ p.nextPageAddr + count * pageSize ≤ pmmEndAddr ∧
    pmmAllocPages p count =
      (p.nextPageAddr,
        { p with
          nextPageAddr := p.nextPageAddr + count * pageSize
          allocatedPages := p.allocatedPages + count }) := by
  unfold pmmAllocPages at hne ⊢
  split at hne
  case isTrue => exact absurd rfl hne
  case isFalse h0 =>
    split at hne
    case isTrue hfit => exact ⟨h0, hfit, by rw [if_neg h0, if_pos hfit]⟩
    case isFalse => exact absurd rfl hne

section

variable {p : Pmm} {count : U64}

/-- The block that `pmm_alloc_pages` just took can be given back. -/
theorem pmmAllocPages_blockInUse (h : p.Consistent) (hw : NoWrap count)
    (hne : (pmmAllocPages p count).1 ≠ 0#64) :
    BlockInUse (pmmAllocPages p count).2 (pmmAllocPages p count).1 count.toNat := by
  have haddr : (pmmAllocPages p count).1 = p.nextPageAddr := by
    rw [(pmmAllocPages_of_granted hne).2.2]
  refine ⟨fun i hi => ?_, fun i hi j hj hij => ?_⟩
  · rcases pmmAllocPages_cases h hw with heq | ⟨a, s', heq, -, -, hblock, -⟩
    · exact absurd (by rw [heq]) hne
    · rw [heq]
      obtain ⟨hpage, -, hna⟩ :=
        hblock (nthPage a i) (Finset.mem_image_of_mem _ (Finset.mem_range.mpr hi))
      exact ⟨hpage, hna⟩
  · have hend := BitVec.le_def.mp h.le_end
    simp only [NoWrap, pmmEndAddr_toNat] at hw hend
    rw [haddr, ← BitVec.toNat_inj, nthPage_toNat (by omega), nthPage_toNat (by omega)] at hij
    omega

theorem pmmAllocPages_consistent (h : p.Consistent) (hw : NoWrap count) :
    (pmmAllocPages p count).2.Consistent := by
  rcases pmmAllocPages_cases h hw with heq | ⟨a, s', heq, -, hc, -⟩
  · rw [heq]
    exact h
  · rw [heq]
    exact hc

/-- `pmm_free_pages` right after `pmm_alloc_pages` brings the reported free and
used pages back, and the pages of the block can be allocated again. -/
structure RestoresCapacity (p : Pmm) (count : U64) (q : Pmm) : Prop where
  free : (pmmGetStats q).2.1 = (pmmGetStats p).2.1
  used : (pmmGetStats q).2.2 = (pmmGetStats p).2.2
  again : ∀ b ∈ blockPages (pmmAllocPages p count).1 count, b ∈ (allocPagesInTurn count.toNat q).1

/-- The pages below the bump pointer before and after a block is granted. -/
theorem passedCount_granted (h : p.Consistent) (hw : NoWrap count)
    (hne : (pmmAllocPages p count).1 ≠ 0#64) :
    (pmmAllocPages p count).2.passedCount = p.passedCount + count.toNat ∧
      (pmmAllocPages p count).2.freePages = p.freePages := by
  have hnext := add_count_toNat h hw
  have hlo := BitVec.le_def.mp h.start_le
  rw [(pmmAllocPages_of_granted hne).2.2]
  refine ⟨?_, rfl⟩
  simp only [Pmm.passedCount, hnext, pmmStartAddr_toNat] at *
  omega

/-- What is known about the state after the block was given back. -/
theorem Pmm.Reachable.freed (h : p.Reachable) (hw : NoWrap count)
    (hne : (pmmAllocPages p count).1 ≠ 0#64) :
    FreedFirst (pmmAllocPages p count).2 (pmmAllocPages p count).1 count.toNat
      (pmmFreePages (pmmAllocPages p count).2 (pmmAllocPages p count).1 count) := by
  have hc := h.consistent
  exact (pmmAllocPages_blockInUse hc hw hne).freeFirst (pmmAllocPages_consistent hc hw)
    (h.balanced.allocPages hc hw) (Nat.le_refl _)

/-- The counter of used pages tells how many pages came back. -/
theorem FreedFirst.allocated (h : p.Reachable) (hw : NoWrap count)
    (hne : (pmmAllocPages p count).1 ≠ 0#64) {q : Pmm}
    (hq : FreedFirst (pmmAllocPages p count).2 (pmmAllocPages p count).1 count.toNat q) :
    q.passedCount = p.passedCount + count.toNat ∧
    q.allocatedPages.toNat + q.freePages.length =
      p.allocatedPages.toNat + p.freePages.length + count.toNat := by
  obtain ⟨hpassed, -⟩ := passedCount_granted h.consistent hw hne
  have hsame : q.passedCount = (pmmAllocPages p count).2.passedCount := by
    rw [Pmm.passedCount, Pmm.passedCount, hq.next]
  have hbefore := h.balanced.counted
  have hafter := hq.balanced.counted
  omega

theorem restoresCapacity_of_fits (h : p.Reachable) (hw : NoWrap count)
    (hne : (pmmAllocPages p count).1 ≠ 0#64)
    (hfits : p.freePages.length + count.toNat ≤ maxFreePages) :
    RestoresCapacity p count
      (pmmFreePages (pmmAllocPages p count).2 (pmmAllocPages p count).1 count) := by
  have hq := h.freed hw hne
  generalize pmmFreePages (pmmAllocPages p count).2 (pmmAllocPages p count).1 count = q at hq
  obtain ⟨hpassed, hcount⟩ := hq.allocated h hw hne
  obtain ⟨-, hkept⟩ := passedCount_granted h.consistent hw hne
  have hstack := hq.stack (by rw [hkept]; exact hfits)
  rw [hkept] at hstack
  have hlen : q.freePages.length = count.toNat + p.freePages.length := by simp [hstack]
  refine ⟨?_, ?_, fun b hb => ?_⟩
  · rw [← BitVec.toNat_inj, hq.consistent.stats_free, h.consistent.stats_free]
    have hp := h.consistent.free_add_passed
    have hq' := hq.consistent.free_add_passed
    omega
  · show q.allocatedPages = p.allocatedPages
    rw [← BitVec.toNat_inj]
    omega
  · have hturn := allocPagesInTurn_of_stack hstack
    rw [List.length_reverse, List.length_map, List.length_range] at hturn
    obtain ⟨i, hi, rfl⟩ := Finset.mem_image.mp hb
    rw [hturn, List.mem_reverse]
    exact List.mem_map_of_mem (List.mem_range.mpr (Finset.mem_range.mp hi))

/-- Of a block that does not fit, pages are lost. -/
theorem fits_of_restoresCapacity (h : p.Reachable) (hw : NoWrap count)
    (hne : (pmmAllocPages p count).1 ≠ 0#64)
    (hrest : RestoresCapacity p count
      (pmmFreePages (pmmAllocPages p count).2 (pmmAllocPages p count).1 count)) :
    p.freePages.length + count.toNat ≤ maxFreePages := by
  have hq := h.freed hw hne
  generalize pmmFreePages (pmmAllocPages p count).2 (pmmAllocPages p count).1 count = q at hq hrest
  obtain ⟨-, hcount⟩ := hq.allocated h hw hne
  obtain ⟨-, hkept⟩ := passedCount_granted h.consistent hw hne
  have hused : q.allocatedPages = p.allocatedPages := hrest.used
  have hbound := hq.bounded
  rw [hused] at hcount
  rw [hkept] at hbound
  have hpos : count.toNat ≠ 0 := by
    intro h0
    exact (pmmAllocPages_of_granted hne).1 (BitVec.eq_of_toNat_eq h0)
  omega

end

/-- **A block comes back whole exactly when it fits on the free stack.** -/
theorem free_restores_capacity_iff (p : Pmm) (h : p.Reachable) (count : U64) (hw : NoWrap count)
    (hne : (pmmAllocPages p count).1 ≠ 0#64) :
    RestoresCapacity p count
        (pmmFreePages (pmmAllocPages p count).2 (pmmAllocPages p count).1 count) ↔
      p.freePages.length + count.toNat ≤ maxFreePages :=
  ⟨fits_of_restoresCapacity h hw hne, restoresCapacity_of_fits h hw hne⟩

theorem free_restores_capacity_four :
    (pmmInit Pmm.bss).Reachable ∧ NoWrap 4 ∧ (pmmAllocPages (pmmInit Pmm.bss) 4).1 ≠ 0#64 ∧
      RestoresCapacity (pmmInit Pmm.bss) 4
        (pmmFreePages (pmmAllocPages (pmmInit Pmm.bss) 4).2
          (pmmAllocPages (pmmInit Pmm.bss) 4).1 4) := by
  have hreach := pmmInit_reachable Pmm.bss
  have hne : (pmmAllocPages (pmmInit Pmm.bss) 4).1 ≠ 0#64 := by decide
  exact ⟨hreach, by decide, hne,
    (free_restores_capacity_iff _ hreach 4 (by decide) hne).mpr (by decide)⟩

/-- A block of one page more than the stack holds, freed right after it was
allocated from the fresh pool. -/
theorem freed_block_loses_a_page :
    (pmmInit Pmm.bss).Reachable ∧ NoWrap 1025 ∧
      (pmmAllocPages (pmmInit Pmm.bss) 1025).1 = 0x200000#64 ∧
      ¬ RestoresCapacity (pmmInit Pmm.bss) 1025
        (pmmFreePages (pmmAllocPages (pmmInit Pmm.bss) 1025).2
          (pmmAllocPages (pmmInit Pmm.bss) 1025).1 1025) := by
  have hreach := pmmInit_reachable Pmm.bss
  have hne : (pmmAllocPages (pmmInit Pmm.bss) 1025).1 ≠ 0#64 := by decide
  refine ⟨hreach, by decide, by decide, fun hrest => ?_⟩
  exact absurd (fits_of_restoresCapacity hreach (by decide) hne hrest) (by decide)

end Myria.Mm
