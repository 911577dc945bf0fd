import Myria.Mm.Pmm

/-! Who holds which page. The allocator itself keeps no record of the pages it
has handed out, so the client's side is tracked next to it: a page is held from
the allocation that returned it until it is freed. The step function refuses to
free a page that is not held, which is the discipline the results are about. -/
namespace Myria.Mm

structure Client where
  pmm : Pmm
  held : Finset U64

inductive PmmOp where
  | allocPage
  | allocPages (count : U64)
  | freePage (physAddr : U64)
  | freePages (physAddr count : U64)
deriving DecidableEq, Repr

/-- Requests whose byte count cannot wrap past the end of the pool. -/
def NoWrap (count : U64) : Prop := count.toNat * 4096 + pmmEndAddr.toNat < 2 ^ 64

instance (count : U64) : Decidable (NoWrap count) := inferInstanceAs (Decidable (_ < _))

/-- The pages of the block of `count` pages at `physAddr`. -/
def blockPages (physAddr count : U64) : Finset U64 :=
  (Finset.range count.toNat).image (nthPage physAddr)

def Client.freeHeld (c : Client) (physAddr : U64) : Option Client :=
  if physAddr ∈ c.held then some ⟨pmmFreePage c.pmm physAddr, c.held.erase physAddr⟩ else none

def clientStep (c : Client) : PmmOp → Option Client
  | .allocPage =>
    some ⟨(pmmAllocPage c.pmm).2,
      if (pmmAllocPage c.pmm).1 = 0#64 then c.held else insert (pmmAllocPage c.pmm).1 c.held⟩
  | .allocPages count =>
    if NoWrap count then
      some ⟨(pmmAllocPages c.pmm count).2,
        if (pmmAllocPages c.pmm count).1 = 0#64 then c.held
        else c.held ∪ blockPages (pmmAllocPages c.pmm count).1 count⟩
    else none
  | .freePage physAddr => c.freeHeld physAddr
  | .freePages physAddr count =>
    (List.range count.toNat).foldlM (fun c i => c.freeHeld (nthPage physAddr i)) c

/-- The client as `pmm_init` leaves it, from any contents of the statics. -/
def Client.boot (s : Pmm) : Client := ⟨pmmInit s, ∅⟩

/-- Allocator states reachable from `pmm_init` with only held pages freed. -/
def Pmm.Reachable (p : Pmm) : Prop :=
  ∃ s ops held, Runs.run clientStep (Client.boot s) ops = some ⟨p, held⟩

/-- Freeing a held block page by page is `pmm_free_pages` on the allocator. -/
theorem freeHeld_foldlM_pmm (physAddr : U64) (is : List Nat) {c c' : Client}
    (h : is.foldlM (fun c i => c.freeHeld (nthPage physAddr i)) c = some c') :
    c'.pmm = is.foldl (fun s i => pmmFreePage s (nthPage physAddr i)) c.pmm := by
  induction is generalizing c with
  | nil =>
    cases Option.some.inj h
    rfl
  | cons i is ih =>
    rw [List.foldlM_cons] at h
    obtain ⟨d, hd, hrest⟩ := Option.bind_eq_some_iff.mp h
    rw [ih hrest, List.foldl_cons]
    unfold Client.freeHeld at hd
    split at hd
    · cases Option.some.inj hd
      rfl
    · cases hd

theorem clientStep_freePages_pmm {c c' : Client} {physAddr count : U64}
    (h : clientStep c (.freePages physAddr count) = some c') :
    c'.pmm = pmmFreePages c.pmm physAddr count :=
  freeHeld_foldlM_pmm physAddr _ h

/-! ## The multi-page cases -/

theorem nthPage_toNat {a : U64} {i : Nat} (h : a.toNat + i * 4096 < 2 ^ 64) :
    (nthPage a i).toNat = a.toNat + i * 4096 := by
  simp only [nthPage, BitVec.toNat_add, BitVec.toNat_mul, BitVec.toNat_ofNat, pageSize_toNat]
  omega

/-- The pages the pointer passes when it moves up by `count` pages. -/
theorem Pmm.Consistent.block {s t : Pmm} (h : s.Consistent) (hf : t.freePages = s.freePages)
    {count : U64} (hn : t.nextPageAddr.toNat = s.nextPageAddr.toNat + count.toNat * 4096)
    (hend : t.nextPageAddr.toNat ≤ pmmEndAddr.toNat) :
    ∀ b ∈ blockPages s.nextPageAddr count, IsPage b ∧ s.Available b ∧ ¬ t.Available b := by
  intro b hb
  obtain ⟨i, hi, rfl⟩ := Finset.mem_image.mp hb
  have hlo := h.start_le
  have hal := h.aligned
  rw [Finset.mem_range] at hi
  rw [pmmEndAddr_toNat] at hend
  have hbi : (nthPage s.nextPageAddr i).toNat = s.nextPageAddr.toNat + i * 4096 :=
    nthPage_toNat (by omega)
  have hge : s.nextPageAddr ≤ nthPage s.nextPageAddr i := by
    rw [BitVec.le_def]
    omega
  have hlt : nthPage s.nextPageAddr i < pmmEndAddr := by
    rw [BitVec.lt_def, pmmEndAddr_toNat]
    omega
  refine ⟨⟨by omega, BitVec.le_trans hlo hge, hlt⟩, .inr ⟨hge, hlt⟩, ?_⟩
  exact h.passed hf (by omega) (by omega)

/-- The end of a block that a request without wrap asks for. -/
theorem add_count_toNat {s : Pmm} (h : s.Consistent) {count : U64} (hc : NoWrap count) :
    (s.nextPageAddr + count * pageSize).toNat =
      s.nextPageAddr.toNat + count.toNat * 4096 := by
  have hhi := BitVec.le_def.mp h.le_end
  simp only [NoWrap, pmmEndAddr_toNat] at hhi hc
  simp only [BitVec.toNat_add, BitVec.toNat_mul, pageSize_toNat]
  omega

/-- The multi-page counterpart of `pmmAllocPage_cases`. -/
theorem pmmAllocPages_cases {s : Pmm} (h : s.Consistent) {count : U64} (hc : NoWrap count) :
    pmmAllocPages s count = (0#64, s) ∨
    ∃ a s', pmmAllocPages s count = (a, s') ∧ a ≠ 0#64 ∧ s'.Consistent ∧
      (∀ b ∈ blockPages a count, IsPage b ∧ s.Available b ∧ ¬ s'.Available b) ∧
      ∀ b, s'.Available b → s.Available b := by
  have hlo := h.start_le
  rw [BitVec.le_def, pmmStartAddr_toNat] at hlo
  unfold pmmAllocPages
  by_cases h0 : count = 0
  · exact .inl (by rw [if_pos h0])
  by_cases hfit : s.nextPageAddr + count * pageSize ≤ pmmEndAddr
  · have hnext := add_count_toNat h hc
    have hend : s.nextPageAddr.toNat + count.toNat * 4096 ≤ pmmEndAddr.toNat := by
      rwa [BitVec.le_def, hnext] at hfit
    refine .inr ⟨s.nextPageAddr,
      { s with nextPageAddr := s.nextPageAddr + count * pageSize
               allocatedPages := s.allocatedPages + count },
      by rw [if_neg h0, if_pos hfit], ?_, h.bump hend rfl hnext, ?_, ?_⟩
    · intro hz
      rw [hz] at hlo
      simp at hlo
    · refine h.block ?_ hnext (BitVec.le_def.mp hfit)
      rfl
    · intro b hb
      refine Pmm.available_of_bump ?_ ?_ hb
      · rfl
      · rw [hnext]
        omega
  · exact .inl (by rw [if_neg h0, if_neg hfit])

/-- A page that was handed out lies below the bump pointer. -/
theorem lt_next_of_not_available {s : Pmm} {a : U64} (ha : IsPage a) (hna : ¬ s.Available a) :
    a < s.nextPageAddr := by
  by_contra hge
  exact hna (.inr ⟨by bv_omega, ha.2.2⟩)

/-- Freeing a page that was handed out makes at most that page available. -/
theorem pmmFreePage_cases {s : Pmm} (h : s.Consistent) {a : U64} (ha : IsPage a)
    (hna : ¬ s.Available a) :
    (pmmFreePage s a).Consistent ∧
      ∀ b, (pmmFreePage s a).Available b → b = a ∨ s.Available b := by
  have hpage := ha
  obtain ⟨hal, hlo, hhi⟩ := ha
  have hin : ¬ (a < pmmStartAddr ∨ pmmEndAddr ≤ a) := by bv_omega
  unfold pmmFreePage
  rw [if_neg hin]
  split
  · have hnext := lt_next_of_not_available hpage hna
    refine ⟨⟨h.aligned, h.start_le, h.le_end,
      List.nodup_cons.mpr ⟨fun hmem => hna (.inl hmem), h.nodup⟩, ?_⟩, ?_⟩
    · intro b hb
      rcases List.mem_cons.mp hb with rfl | hb
      · exact ⟨hal, hlo, hnext⟩
      · exact h.stacked b hb
    · rintro b (hb | hb)
      · rcases List.mem_cons.mp hb with rfl | hb
        · exact .inl rfl
        · exact .inr (.inl hb)
      · exact .inr (.inr hb)
  · exact ⟨h, fun b hb => .inr hb⟩

/-! ## The ownership invariant -/

/-- What is held is a pool page that the allocator will not hand out. -/
structure Client.Owned (c : Client) : Prop where
  consistent : c.pmm.Consistent
  held : ∀ a ∈ c.held, IsPage a ∧ ¬ c.pmm.Available a

theorem Client.boot_owned (s : Pmm) : (Client.boot s).Owned :=
  ⟨pmmInit_consistent s, by simp [Client.boot]⟩

theorem Client.Owned.freeHeld {c c' : Client} (h : c.Owned) {a : U64}
    (hs : c.freeHeld a = some c') : c'.Owned := by
  unfold Client.freeHeld at hs
  split at hs
  · rename_i hmem
    cases Option.some.inj hs
    obtain ⟨hpage, hna⟩ := h.held a hmem
    obtain ⟨hc, hav⟩ := pmmFreePage_cases h.consistent hpage hna
    refine ⟨hc, fun b hb => ?_⟩
    obtain ⟨hne, hbh⟩ := Finset.mem_erase.mp hb
    obtain ⟨hbp, hbn⟩ := h.held b hbh
    exact ⟨hbp, fun hba => (hav b hba).elim hne hbn⟩
  · cases hs

theorem Client.Owned.allocPage {c : Client} (h : c.Owned) {c' : Client}
    (hs : clientStep c .allocPage = some c') : c'.Owned := by
  cases Option.some.inj hs
  rcases pmmAllocPage_cases h.consistent with ⟨heq, -⟩ | ⟨a, s', heq, hp, -, hc, hna, hav⟩
  · simpa only [heq, if_true] using h
  · simp only [heq, if_neg hp.ne_zero]
    refine ⟨hc, fun b hb => ?_⟩
    rcases Finset.mem_insert.mp hb with rfl | hb
    · exact ⟨hp, hna⟩
    · obtain ⟨hbp, hbn⟩ := h.held b hb
      exact ⟨hbp, fun hba => hbn (hav b hba)⟩

theorem Client.Owned.allocPages {c : Client} (h : c.Owned) {count : U64} {c' : Client}
    (hs : clientStep c (.allocPages count) = some c') : c'.Owned := by
  simp only [clientStep] at hs
  split at hs
  · rename_i hw
    cases Option.some.inj hs
    rcases pmmAllocPages_cases h.consistent hw with heq | ⟨a, s', heq, hne, hc, hblock, hav⟩
    · simpa only [heq, if_true] using h
    · simp only [heq, if_neg hne]
      refine ⟨hc, fun b hb => ?_⟩
      rcases Finset.mem_union.mp hb with hb | hb
      · obtain ⟨hbp, hbn⟩ := h.held b hb
        exact ⟨hbp, fun hba => hbn (hav b hba)⟩
      · obtain ⟨hbp, -, hbn⟩ := hblock b hb
        exact ⟨hbp, hbn⟩
  · cases hs

theorem Client.Owned.freePages {c : Client} (h : c.Owned) (physAddr : U64) (is : List Nat)
    {c' : Client} (hs : is.foldlM (fun c i => c.freeHeld (nthPage physAddr i)) c = some c') :
    c'.Owned := by
  induction is generalizing c with
  | nil =>
    cases Option.some.inj hs
    exact h
  | cons i is ih =>
    rw [List.foldlM_cons] at hs
    obtain ⟨d, hd, hrest⟩ := Option.bind_eq_some_iff.mp hs
    exact ih (h.freeHeld hd) hrest

theorem Client.Owned.step {c c' : Client} (h : c.Owned) {op : PmmOp}
    (hs : clientStep c op = some c') : c'.Owned := by
  cases op with
  | allocPage => exact h.allocPage hs
  | allocPages count => exact h.allocPages hs
  | freePage a => exact h.freeHeld hs
  | freePages a count => exact h.freePages a _ hs

theorem run_owned (s : Pmm) (ops : List PmmOp) (c : Client)
    (h : Runs.run clientStep (Client.boot s) ops = some c) : c.Owned :=
  Runs.run_invariant (P := fun _ c => c.Owned) (Client.boot_owned s)
    (fun _ _ _ _ _ ih hs => ih.step hs) ops c h

theorem Pmm.Reachable.step {p : Pmm} (h : p.Reachable) (op : PmmOp) {q : Pmm}
    (hs : ∀ held, ∃ held', clientStep ⟨p, held⟩ op = some ⟨q, held'⟩) : q.Reachable := by
  obtain ⟨s, ops, held, hrun⟩ := h
  obtain ⟨held', hstep⟩ := hs held
  refine ⟨s, ops ++ [op], held', ?_⟩
  rw [Runs.run_concat, hrun]
  exact hstep

theorem pmmInit_reachable (s : Pmm) : (pmmInit s).Reachable := ⟨s, [], ∅, rfl⟩

theorem Pmm.Reachable.allocPage {p : Pmm} (h : p.Reachable) : (pmmAllocPage p).2.Reachable :=
  h.step .allocPage fun _ => ⟨_, rfl⟩

theorem Pmm.Reachable.allocPages {p : Pmm} (h : p.Reachable) {count : U64} (hc : NoWrap count) :
    (pmmAllocPages p count).2.Reachable := by
  apply h.step (.allocPages count)
  intro held
  rw [clientStep, if_pos hc]
  exact ⟨_, rfl⟩

theorem Pmm.Reachable.consistent {p : Pmm} (h : p.Reachable) : p.Consistent := by
  obtain ⟨s, ops, held, hrun⟩ := h
  exact (run_owned s ops _ hrun).consistent

/-- **No page is handed out twice.** In every state reached by allocations and
by frees of held pages, the free stack holds no page twice and no held page,
and every page the next allocation returns is an aligned pool page that nobody
holds. -/
theorem pmm_hands_out_unheld (s : Pmm) (ops : List PmmOp) (c : Client)
    (h : Runs.run clientStep (Client.boot s) ops = some c) :
    c.pmm.freePages.Nodup ∧ (∀ a ∈ c.pmm.freePages, a ∉ c.held) ∧
    ((pmmAllocPage c.pmm).1 ≠ 0#64 →
      IsPage (pmmAllocPage c.pmm).1 ∧ (pmmAllocPage c.pmm).1 ∉ c.held) ∧
    ∀ count, NoWrap count → (pmmAllocPages c.pmm count).1 ≠ 0#64 →
      ∀ a ∈ blockPages (pmmAllocPages c.pmm count).1 count, IsPage a ∧ a ∉ c.held := by
  have hO := run_owned s ops c h
  have hheld : ∀ {a}, c.pmm.Available a → a ∉ c.held := fun hav hmem => (hO.held _ hmem).2 hav
  refine ⟨hO.consistent.nodup, fun a ha => hheld (.inl ha), fun hne => ?_, fun count hw hne => ?_⟩
  · rcases pmmAllocPage_cases hO.consistent with ⟨heq, -⟩ | ⟨a, s', heq, hp, hav, -⟩
    · exact absurd (by rw [heq]) hne
    · rw [heq]
      exact ⟨hp, hheld hav⟩
  · rcases pmmAllocPages_cases hO.consistent hw with heq | ⟨a, s', heq, -, -, hblock, -⟩
    · exact absurd (by rw [heq]) hne
    · rw [heq]
      intro b hb
      obtain ⟨hp, hav, -⟩ := hblock b hb
      exact ⟨hp, hheld hav⟩

/-- The BSS image of the allocator's statics. -/
def Pmm.bss : Pmm := ⟨[], 0, 0, 0, 0⟩

/-- Two pages taken, the first given back and taken again: the next page is
the third of the pool, and it is not one of the two held ones. -/
theorem pmm_hands_out_unheld_third_page :
    let c : Client := ⟨⟨[], 0x202000, 0x3fe00, 2, 1⟩, {0x200000, 0x201000}⟩
    Runs.run clientStep (Client.boot Pmm.bss)
      [.allocPage, .allocPage, .freePage 0x200000, .allocPage] = some c ∧
    (pmmAllocPage c.pmm).1 = 0x202000 ∧ (pmmAllocPage c.pmm).1 ∉ c.held := by
  have hrun : Runs.run clientStep (Client.boot Pmm.bss)
      [.allocPage, .allocPage, .freePage 0x200000, .allocPage] =
      some ⟨⟨[], 0x202000, 0x3fe00, 2, 1⟩, {0x200000, 0x201000}⟩ := by
    rfl
  exact ⟨hrun, by decide,
    ((pmm_hands_out_unheld Pmm.bss _ _ hrun).2.2.1 (by decide)).2⟩

end Myria.Mm
