import Myria.Mm.PmmCapacity

/-! What `pmm_simple.c` does with requests and frees that nothing keeps within
bounds: a page count so large that its byte count wraps, and the free of an
address that is not a page in use. -/
namespace Myria.Mm

/-! ## Requests that wrap -/

/-- A block that is granted ends inside the pool, the bump pointer stands at its
end and the counter grew by its size, all without wrap; a refusal changes
nothing. -/
structure GrantsExisting (s : Pmm) (count : U64) (r : U64 × Pmm) : Prop where
  inside : r.1 ≠ 0#64 → r.1.toNat + count.toNat * 4096 ≤ pmmEndAddr.toNat
  bumped : r.1 ≠ 0#64 → r.2.nextPageAddr.toNat = r.1.toNat + count.toNat * 4096 ∧
    s.nextPageAddr ≤ r.2.nextPageAddr
  counted : r.1 ≠ 0#64 → r.2.allocatedPages.toNat = s.allocatedPages.toNat + count.toNat
  refused : r.1 = 0#64 → r.2 = s

theorem grantsExisting_refused (s : Pmm) (count : U64) : GrantsExisting s count (0#64, s) where
  inside := fun hne => absurd rfl hne
  bumped := fun hne => absurd rfl hne
  counted := fun hne => absurd rfl hne
  refused := fun _ => rfl

/-- **A request is granted from what exists exactly when it is refused or fits
without wrap.** The bound check compares the wrapped sum, so a request of `2^52`
pages passes it. -/
theorem alloc_pages_grants_existing_iff (s : Pmm) (count : U64) :
    GrantsExisting s count (pmmAllocPages s count) ↔
      count = 0 ∨ pmmEndAddr < s.nextPageAddr + count * pageSize ∨
      (s.nextPageAddr ≠ 0#64 ∧ s.nextPageAddr.toNat + count.toNat * 4096 ≤ pmmEndAddr.toNat ∧
        s.allocatedPages.toNat + count.toNat < 2 ^ 64) := by
  unfold pmmAllocPages
  split
  case isTrue h0 => exact ⟨fun _ => .inl h0, fun _ => grantsExisting_refused s count⟩
  case isFalse h0 =>
    split
    case isFalse hfull =>
      exact ⟨fun _ => .inr (.inl (BitVec.not_le.mp hfull)), fun _ => grantsExisting_refused s count⟩
    case isTrue hfit =>
      constructor
      · intro hgrant
        have hne : s.nextPageAddr ≠ 0#64 := by
          -- a block at address zero looks like a refusal, but the counter moved
          intro hzero
          have hsame := congrArg Pmm.allocatedPages (hgrant.refused hzero)
          dsimp only at hsame
          bv_omega
        have hcount : (s.allocatedPages + count).toNat = s.allocatedPages.toNat + count.toNat :=
          hgrant.counted hne
        refine .inr (.inr ⟨hne, hgrant.inside hne, ?_⟩)
        rw [← hcount]
        exact (s.allocatedPages + count).isLt
      · rintro (hzero | hfull | ⟨hne, hin, hroom⟩)
        · exact absurd hzero h0
        · exact absurd hfit (BitVec.not_le.mpr hfull)
        · have hin' := hin
          rw [pmmEndAddr_toNat] at hin'
          have hnext : (s.nextPageAddr + count * pageSize).toNat =
              s.nextPageAddr.toNat + count.toNat * 4096 := by
            simp only [BitVec.toNat_add, BitVec.toNat_mul, pageSize_toNat]
            omega
          refine ⟨fun _ => hin, fun _ => ⟨hnext, ?_⟩, fun _ => ?_, fun h => absurd h hne⟩
          · rw [BitVec.le_def, hnext]
            omega
          · show (s.allocatedPages + count).toNat = _
            rw [BitVec.toNat_add, Nat.mod_eq_of_lt hroom]

/-- Right after `pmm_init`, `2^52` pages are granted, and the pointer has not
moved: the next page handed out is the first of the block. -/
theorem huge_request_is_granted :
    pmmAllocPages (pmmInit Pmm.bss) 0x10000000000000 =
        (0x200000#64, { pmmInit Pmm.bss with allocatedPages := 0x10000000000000 }) ∧
      (pmmAllocPage (pmmAllocPages (pmmInit Pmm.bss) 0x10000000000000).2).1 = 0x200000#64 ∧
      ¬ GrantsExisting (pmmInit Pmm.bss) 0x10000000000000
        (pmmAllocPages (pmmInit Pmm.bss) 0x10000000000000) := by
  refine ⟨rfl, rfl, fun hgrant => ?_⟩
  exact absurd (hgrant.inside (by decide)) (by decide)

/-! ## Frees of what is not in use -/

/-- The address of a page that was handed out and not given back. -/
def Pmm.Allocated (s : Pmm) (a : U64) : Prop := IsPage a ∧ ¬ s.Available a

/-- Frees that do no harm: of a page in use, or refused by the range check, or
ignored because the stack is full. -/
def Pmm.Harmless (s : Pmm) (a : U64) : Prop :=
  s.Allocated a ∨ a < pmmStartAddr ∨ pmmEndAddr ≤ a ∨ maxFreePages ≤ s.freePages.length

/-- An address that is not a page in use is left alone. -/
def Pmm.RejectsInvalid (s : Pmm) (a : U64) : Prop := ¬ s.Allocated a → pmmFreePage s a = s

theorem Pmm.rejectsInvalid_iff (s : Pmm) (a : U64) : s.RejectsInvalid a ↔ s.Harmless a := by
  unfold Pmm.RejectsInvalid Pmm.Harmless
  by_cases halloc : s.Allocated a
  · exact ⟨fun _ => .inl halloc, fun _ hna => absurd halloc hna⟩
  constructor
  · intro hsame
    by_contra hnot
    push Not at hnot
    obtain ⟨-, hlo, hhi, hroom⟩ := hnot
    -- the address is pushed, which the length of the stack shows
    have hpush : (pmmFreePage s a).freePages = a :: s.freePages := by
      have hin : ¬ (a < pmmStartAddr ∨ pmmEndAddr ≤ a) := by bv_omega
      rw [pmmFreePage, if_neg hin, if_pos hroom]
    rw [hsame halloc] at hpush
    have hlen := congrArg List.length hpush
    rw [List.length_cons] at hlen
    omega
  · rintro (h | h | h | h) _
    · exact absurd h halloc
    · rw [pmmFreePage, if_pos (.inl h)]
    · rw [pmmFreePage, if_pos (.inr h)]
    · unfold pmmFreePage
      split
      · rfl
      · rw [if_neg (by omega)]

/-- A free of any address. The page is not held any more if it was. -/
def Client.freeAny (c : Client) (physAddr : U64) : Client :=
  ⟨pmmFreePage c.pmm physAddr, c.held.erase physAddr⟩

/-- The client after the first `m` pages of the block at `a` were freed. -/
def Client.freeAnyFirst (c : Client) (a : U64) (m : Nat) : Client :=
  (List.range m).foldl (fun c i => c.freeAny (nthPage a i)) c

/-- Allocations as before, and frees with any arguments. -/
def looseStep (c : Client) : PmmOp → Option Client
  | .allocPage => clientStep c .allocPage
  | .allocPages count => clientStep c (.allocPages count)
  | .freePage physAddr => some (c.freeAny physAddr)
  | .freePages physAddr count => some (c.freeAnyFirst physAddr count.toNat)

/-- `C` holds of every single free that the operation makes. -/
def EachFree (C : Pmm → U64 → Prop) (c : Client) : PmmOp → Prop
  | .allocPage => True
  | .allocPages _ => True
  | .freePage physAddr => C c.pmm physAddr
  | .freePages physAddr count =>
    ∀ i < count.toNat, C (freeFirst c.pmm physAddr i) (nthPage physAddr i)

/-- No page is handed out that is still held. -/
def IssuesOnce (c : Client) : PmmOp → Prop
  | .allocPage => (pmmAllocPage c.pmm).1 ≠ 0#64 → (pmmAllocPage c.pmm).1 ∉ c.held
  | _ => True

theorem eachFree_congr {C D : Pmm → U64 → Prop} (h : ∀ s a, C s a ↔ D s a) (c : Client)
    (op : PmmOp) : EachFree C c op ↔ EachFree D c op := by
  cases op with
  | allocPage => rfl
  | allocPages count => rfl
  | freePage a => exact h _ _
  | freePages a count =>
    simp only [EachFree]
    exact forall₂_congr fun i _ => h _ _

theorem Client.freeAnyFirst_succ (c : Client) (a : U64) (m : Nat) :
    c.freeAnyFirst a (m + 1) = (c.freeAnyFirst a m).freeAny (nthPage a m) := by
  rw [freeAnyFirst, List.range_succ, List.foldl_append]
  rfl

theorem Client.freeAnyFirst_pmm (c : Client) (a : U64) (m : Nat) :
    (c.freeAnyFirst a m).pmm = freeFirst c.pmm a m := by
  induction m with
  | zero => rfl
  | succ m ih =>
    rw [freeAnyFirst_succ, freeFirst_succ, ← ih]
    rfl

/-- A harmless free keeps held pages out of the allocator's reach. -/
theorem Client.Owned.freeAny {c : Client} (h : c.Owned) {a : U64} (hfree : c.pmm.Harmless a) :
    (c.freeAny a).Owned := by
  by_cases halloc : c.pmm.Allocated a
  · obtain ⟨hc, hav⟩ := pmmFreePage_cases h.consistent halloc.1 halloc.2
    refine ⟨hc, fun b hb => ?_⟩
    obtain ⟨hne, hheld⟩ := Finset.mem_erase.mp hb
    obtain ⟨hpage, hna⟩ := h.held b hheld
    exact ⟨hpage, fun hba => (hav b hba).elim hne hna⟩
  · have hsame := (c.pmm.rejectsInvalid_iff a).mpr hfree halloc
    refine ⟨by rw [Client.freeAny, hsame]; exact h.consistent, fun b hb => ?_⟩
    rw [Client.freeAny, hsame]
    exact h.held b (Finset.mem_of_mem_erase hb)

theorem Client.Owned.freeAnyFirst {c : Client} (h : c.Owned) {a : U64} {m : Nat}
    (hfree : ∀ i < m, (freeFirst c.pmm a i).Harmless (nthPage a i)) :
    (c.freeAnyFirst a m).Owned := by
  induction m with
  | zero => exact h
  | succ m ih =>
    rw [freeAnyFirst_succ]
    refine (ih fun i hi => hfree i (by omega)).freeAny ?_
    rw [freeAnyFirst_pmm]
    exact hfree m (Nat.lt_succ_self m)

theorem Client.Owned.loose {c c' : Client} (h : c.Owned) {op : PmmOp}
    (hfree : EachFree Pmm.Harmless c op) (hs : looseStep c op = some c') : c'.Owned := by
  cases op with
  | allocPage =>
    rw [looseStep] at hs
    exact h.allocPage hs
  | allocPages count =>
    rw [looseStep] at hs
    exact h.allocPages hs
  | freePage a =>
    cases hs
    exact h.freeAny hfree
  | freePages a count =>
    cases hs
    exact h.freeAnyFirst hfree

theorem Client.Owned.issuesOnce {c : Client} (h : c.Owned) (op : PmmOp) : IssuesOnce c op := by
  cases op with
  | allocPage =>
    intro hne hheld
    have htake := pmmAllocPage_takes h.consistent rfl hne
    exact (h.held _ hheld).2 htake.available
  | _ => trivial

/-- **Invalid frees.** The range check is all there is, so an address that is not
a page in use is rejected exactly when it lies outside the pool or the stack is
full. A run of calls with arbitrary frees rejects all invalid ones and hands out
no held page exactly when each of its frees is harmless. -/
theorem invalid_frees_rejected_iff (s : Pmm) (a : U64) (bss : Pmm) (ops : List PmmOp) :
    (s.RejectsInvalid a ↔ s.Harmless a) ∧
    ((Runs.StepsMeet looseStep (Client.boot bss) (EachFree Pmm.RejectsInvalid) ops ∧
        Runs.StepsMeet looseStep (Client.boot bss) IssuesOnce ops) ↔
      Runs.StepsMeet looseStep (Client.boot bss) (EachFree Pmm.Harmless) ops) := by
  refine ⟨s.rejectsInvalid_iff a, ?_⟩
  have hsame := fun c op => eachFree_congr Pmm.rejectsInvalid_iff c op
  constructor
  · rintro ⟨hrej, -⟩ pre op t hpre hrun
    exact (hsame t op).mp (hrej pre op t hpre hrun)
  · intro hmeet
    refine ⟨fun pre op t hpre hrun => (hsame t op).mpr (hmeet pre op t hpre hrun), ?_⟩
    intro pre op t hpre hrun
    have howned := hmeet.invariant (Client.boot_owned bss)
      (fun t op t' hI hC hs => Client.Owned.loose hI hC hs)
    exact (howned pre t ((List.prefix_append pre [op]).trans hpre) hrun).issuesOnce op

instance (a : U64) : Decidable (IsPage a) := inferInstanceAs (Decidable (_ ∧ _))

instance (s : Pmm) (a : U64) : Decidable (s.Available a) := inferInstanceAs (Decidable (_ ∨ _))

instance (s : Pmm) (a : U64) : Decidable (s.Allocated a) := inferInstanceAs (Decidable (_ ∧ _))

/-- One page is taken, freed twice and then handed out twice. -/
theorem double_free_issues_twice :
    let c : Client := ⟨⟨[0x200000#64], 0x201000#64, 0x3fe00#64, 1#64, 2#64⟩, {0x200000#64}⟩
    Runs.run looseStep (Client.boot Pmm.bss)
        [.allocPage, .freePage 0x200000#64, .freePage 0x200000#64, .allocPage] = some c ∧
      (pmmAllocPage c.pmm).1 = 0x200000#64 ∧ 0x200000#64 ∈ c.held ∧
      ¬ IssuesOnce c .allocPage ∧
      ¬ Pmm.RejectsInvalid (pmmInit Pmm.bss) 0x200008#64 := by
  refine ⟨rfl, rfl, by decide, fun honce => honce (by decide) (by decide), fun hrej => ?_⟩
  have hsame := congrArg Pmm.freePages (hrej (by decide))
  exact absurd hsame (by decide)

end Myria.Mm
