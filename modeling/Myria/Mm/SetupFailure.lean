import Myria.Mm.PmmCapacity
import Myria.Mm.PmmMisuse
import Myria.Mm.TableWalk

/-! When `setup_user_address_space` fails. It gives its pages back if it could not
get all three, and keeps them if one of the three mappings is refused: by then
some may be mapped for user mode already. -/
namespace Myria.Mm

open ByteMem Trace

/-- User mode can reach frame `f` through the tables CR3 refers to. -/
def MmState.UserMapped (s : MmState) (f : U64) : Prop :=
  ∃ v tr, hwTranslate s.mem s.cr3Root v = some tr ∧ tr.user = true ∧ tr.frame = f

/-- The frames taken for code and stack, of those that were to be had, are free
again and out of the reach of user mode. -/
def GivesBack (s s' : MmState) : Prop :=
  ∀ f ∈ (allocPagesInTurn 3 s.pmm).1, f ≠ 0#64 → s'.pmm.Available f ∧ ¬ s'.UserMapped f

/-- The way down that `map_user_4k` takes below CR3. -/
def userPlan (s : MmState) (userVa physAddr flags : U64) (c : Mem × Pmm) : Option (Mem × Pmm) :=
  planMap isHuge s.getHhdmBase (vpn userVa) ((physAddr &&& pteAddrMask) ||| flags ||| pteUser) c
    s.cr3Root

/-- The three ways down to the page tables of code and stack, with the allocator
at `p` once the frames are taken: no large page bars one, the pages left are
enough for the missing tables, and no table is shown at the null pointer. -/
def setupPlan (s : MmState) (code stack1 stack0 : U64) (p : Pmm) : Option (Mem × Pmm) :=
  (userPlan s 0x400000 code userPageWrite (s.mem, p)).bind fun c =>
    (userPlan s 0x800000 stack1 userPageRwNoexec c).bind fun c =>
      userPlan s 0x801000 stack0 userPageRwNoexec c

/-- Three pages for code and stack, and the ways down to map them. -/
def SetupFits (s : MmState) : Prop :=
  ∃ code stack1 stack0 p, allocPagesInTurn 3 s.pmm = ([code, stack1, stack0], p) ∧
    ¬ (code = 0#64 ∨ stack1 = 0#64 ∨ stack0 = 0#64) ∧ setupPlan s code stack1 stack0 p ≠ none

/-! ## With all three pages -/

section

variable {s : MmState} {a b c : U64} {p₁ p₂ p₃ : Pmm}

theorem mapUser4k_planned {q : Traced MmState} {m : Mem} {p : Pmm}
    (hq : q.now = { s with mem := m, pmm := p }) (hc : p.Consistent) (va pa flags : U64) :
    (∃ q', mapUser4k va pa flags q = (false, q') ∧ userPlan s va pa flags (m, p) = none ∧
      Draws p q'.now.pmm) ∨
    (∃ q' m' p', mapUser4k va pa flags q = (true, q') ∧
      userPlan s va pa flags (m, p) = some (m', p') ∧ q'.now = { s with mem := m', pmm := p' } ∧
      Draws p p') := by
  have hmaps := mapUser4k_maps (r := q) (by rw [hq]; exact hc) va pa flags
  rw [hq] at hmaps
  change Maps _ (userPlan s va pa flags (m, p)) _ at hmaps
  generalize mapUser4k va pa flags q = out at *
  obtain ⟨ok, q'⟩ := out
  rcases hmaps.cases with ⟨s', heq, hplan, hd⟩ | ⟨m', p', heq, hplan, hd⟩
  · obtain ⟨rfl, rfl⟩ := Prod.mk.inj heq
    exact .inl ⟨q', rfl, hplan, hd⟩
  · obtain ⟨rfl, hq'⟩ := Prod.mk.inj heq
    exact .inr ⟨q', m', p', rfl, hplan, hq', hd⟩

/-- Once the frames are taken, success is the plan's, and no page comes back. -/
theorem setupUserAddressSpace_planned (hc : p₃.Consistent)
    (h₁ : pmmAllocPage s.pmm = (a, p₁)) (h₂ : pmmAllocPage p₁ = (b, p₂))
    (h₃ : pmmAllocPage p₂ = (c, p₃)) (hnull : ¬ (a = 0#64 ∨ b = 0#64 ∨ c = 0#64)) :
    ((setupUserAddressSpace (.start s)).1 = none ↔ setupPlan s a b c p₃ = none) ∧
      Draws p₃ (setupUserAddressSpace (.start s)).2.now.pmm := by
  have hva : (0x800000 : U64) + 0x1000 = 0x801000 := rfl
  have hstart : (Traced.start s).now = s := rfl
  simp only [setupUserAddressSpace, hstart, h₁, h₂, h₃, if_neg hnull, setupPlan, hva]
  -- the three mappings in turn, each from the state the one before left
  rcases mapUser4k_planned (q := (Traced.start s).put { s with pmm := p₃ }) rfl hc 0x400000 a
    userPageWrite with ⟨q, hmap, hplan, hd⟩ | ⟨q, m, p, hmap, hplan, hq, hd⟩
  · rw [hmap, hplan]
    exact ⟨by simp, hd⟩
  rcases mapUser4k_planned hq hd.consistent 0x800000 b userPageRwNoexec with
    ⟨q', hmap', hplan', hd'⟩ | ⟨q', m', p', hmap', hplan', hq', hd'⟩
  · rw [hmap, hplan]
    simp only [hmap', hplan', Option.bind_some, Option.bind_none, true_and]
    exact hd.trans hd'
  rcases mapUser4k_planned hq' hd'.consistent 0x801000 c userPageRwNoexec with
    ⟨q'', hmap'', hplan'', hd''⟩ | ⟨q'', m'', p'', hmap'', hplan'', hq'', hd''⟩
  · rw [hmap, hplan]
    simp only [hmap', hplan', hmap'', hplan'', Option.bind_some, true_and]
    exact hd.trans (hd'.trans hd'')
  · rw [hmap, hplan]
    simp only [hmap', hplan', hmap'', hplan'', Option.bind_some]
    rw [hq'']
    exact ⟨by simp, hd.trans (hd'.trans hd'')⟩

/-- Then they are all still in use. -/
theorem not_givesBack {s' : MmState} (hc : s.pmm.Consistent)
    (h₁ : pmmAllocPage s.pmm = (a, p₁)) (ha : a ≠ 0#64) (hd : Draws p₁ s'.pmm) :
    ¬ GivesBack s s' := by
  intro hback
  have htake := pmmAllocPage_takes hc h₁ ha
  have hmem : a ∈ (allocPagesInTurn 3 s.pmm).1 := by
    simp only [allocPagesInTurn, h₁]
    exact List.mem_cons_self
  exact htake.taken (hd.fewer a (hback a hmem ha).1)

end

/-! ## Without -/

/-- `if (pa) pmm_free_page(pa);` -/
def giveBack (p : Pmm) (f : U64) : Pmm := if f ≠ 0#64 then pmmFreePage p f else p

/-- With room for all of them the pages given back end up on the stack. -/
theorem giveBack_freePages {fs : List U64} {p : Pmm} (hpages : ∀ f ∈ fs, f ≠ 0#64 → IsPage f)
    (hroom : p.freePages.length + fs.length ≤ maxFreePages) :
    (fs.foldl giveBack p).freePages = (fs.filter (· ≠ 0#64)).reverse ++ p.freePages := by
  induction fs generalizing p with
  | nil => rfl
  | cons f fs ih =>
    obtain ⟨hf, hrest⟩ := List.forall_mem_cons.mp hpages
    rw [List.length_cons] at hroom
    rw [List.foldl_cons]
    by_cases hz : f = 0#64
    · have hskip : giveBack p f = p := if_neg (not_not.mpr hz)
      rw [hskip, ih hrest (by omega), List.filter_cons_of_neg (by simp [hz])]
    · have hpush : (giveBack p f).freePages = f :: p.freePages := by
        rw [giveBack, if_pos hz]
        exact (hf hz).pmmFreePage_freePages (by omega)
      rw [ih hrest (by rw [hpush, List.length_cons]; omega), hpush,
        List.filter_cons_of_pos (by simp [hz]), List.reverse_cons, List.append_assoc]
      rfl

/-- Once an allocation has failed, nothing is left. -/
theorem pmmAllocPage_of_zero {p p' : Pmm} (h : p.Consistent) (heq : pmmAllocPage p = (0#64, p')) :
    p'.freeCount = 0 := by
  rcases pmmAllocPage_counted h heq with ⟨hcount, -, rfl⟩ | ⟨-, hne, -⟩
  · exact hcount
  · exact absurd rfl hne

/-- The pages that were to be had are given back, and all of them fit on the
stack, which the failed allocation found empty. -/
theorem setupUserAddressSpace_short {s : MmState} (hc : s.pmm.Consistent) {a b c : U64}
    {p₁ p₂ p₃ : Pmm} (h₁ : pmmAllocPage s.pmm = (a, p₁)) (h₂ : pmmAllocPage p₁ = (b, p₂))
    (h₃ : pmmAllocPage p₂ = (c, p₃)) (hnull : a = 0#64 ∨ b = 0#64 ∨ c = 0#64) :
    ∃ p, (setupUserAddressSpace (.start s)).1 = none ∧
      (setupUserAddressSpace (.start s)).2.now = { s with pmm := p } ∧
      ∀ f ∈ [a, b, c], f ≠ 0#64 → p.Available f := by
  have hstart : (Traced.start s).now = s := rfl
  have hd₁ := pmmAllocPage_draws hc h₁
  have hd₂ := pmmAllocPage_draws hd₁.consistent h₂
  have hd₃ := pmmAllocPage_draws hd₂.consistent h₃
  have hnone : p₃.freeCount = 0 := by
    have hle₂ := hd₂.count
    have hle₃ := hd₃.count
    rcases hnull with rfl | rfl | rfl
    · have hzero := pmmAllocPage_of_zero hc h₁
      omega
    · have hzero := pmmAllocPage_of_zero hd₁.consistent h₂
      omega
    · exact pmmAllocPage_of_zero hd₂.consistent h₃
  have hempty : p₃.freePages = [] := (hd₃.consistent.exhausted_iff.mpr hnone).1
  have hpages : ∀ f ∈ [a, b, c], f ≠ 0#64 → IsPage f := by
    simp only [List.forall_mem_cons]
    exact ⟨fun ha => (pmmAllocPage_takes hc h₁ ha).isPage,
      fun hb => (pmmAllocPage_takes hd₁.consistent h₂ hb).isPage,
      fun hc' => (pmmAllocPage_takes hd₂.consistent h₃ hc').isPage, by simp⟩
  have hroom : p₃.freePages.length + [a, b, c].length ≤ maxFreePages := by
    rw [hempty]
    show 0 + 3 ≤ maxFreePages
    decide
  have hstack := giveBack_freePages hpages hroom
  refine ⟨[a, b, c].foldl giveBack p₃, ?_, ?_, fun f hf hne => .inl ?_⟩
  · simp only [setupUserAddressSpace, hstart, h₁, h₂, h₃, if_pos hnull]
  · simp only [setupUserAddressSpace, hstart, h₁, h₂, h₃, if_pos hnull]
    rfl
  · rw [hstack, hempty, List.append_nil, List.mem_reverse, List.mem_filter]
    exact ⟨hf, by simpa using hne⟩

/-! ## Exactly when -/

/-- Both cases: with fewer than three pages left it fails and memory is as it was, and with
three it fails exactly if the pages do not fit, and keeps the first. -/
theorem setupUserAddressSpace_cases (s : MmState) (hc : s.pmm.Consistent) :
    (s.pmm.freeCount < 3 ∧ ¬ SetupFits s ∧ (setupUserAddressSpace (.start s)).1 = none ∧
      ∃ p, (setupUserAddressSpace (.start s)).2.now = { s with pmm := p } ∧
        ∀ f ∈ (allocPagesInTurn 3 s.pmm).1, f ≠ 0#64 → p.Available f) ∨
    (3 ≤ s.pmm.freeCount ∧ ((setupUserAddressSpace (.start s)).1 = none ↔ ¬ SetupFits s) ∧
      ¬ GivesBack s (setupUserAddressSpace (.start s)).2.now) := by
  rcases h₁ : pmmAllocPage s.pmm with ⟨a, p₁⟩
  rcases h₂ : pmmAllocPage p₁ with ⟨b, p₂⟩
  rcases h₃ : pmmAllocPage p₂ with ⟨c, p₃⟩
  have hturn : allocPagesInTurn 3 s.pmm = ([a, b, c], p₃) := by
    simp only [allocPagesInTurn, h₁, h₂, h₃]
  have hfits : SetupFits s ↔
      ¬ (a = 0#64 ∨ b = 0#64 ∨ c = 0#64) ∧ setupPlan s a b c p₃ ≠ none := by
    rw [SetupFits, hturn]
    constructor
    · rintro ⟨code, stack1, stack0, q, heq, hne, hplan⟩
      cases heq
      exact ⟨hne, hplan⟩
    · rintro ⟨hne, hplan⟩
      exact ⟨a, b, c, p₃, rfl, hne, hplan⟩
  have hd₁ := pmmAllocPage_draws hc h₁
  have hd₂ := pmmAllocPage_draws hd₁.consistent h₂
  have hd₃ := pmmAllocPage_draws hd₂.consistent h₃
  rw [hfits, hturn]
  rcases pmmAllocPage_three hc h₁ h₂ h₃ with ⟨hfew, hnull⟩ | ⟨hcount, hnull, -, -⟩
  · obtain ⟨p, hnone, hnow, hav⟩ := setupUserAddressSpace_short hc h₁ h₂ h₃ hnull
    exact .inl ⟨hfew, fun hne => hne.1 hnull, hnone, p, hnow, hav⟩
  · obtain ⟨hiff, hd⟩ := setupUserAddressSpace_planned hd₃.consistent h₁ h₂ h₃ hnull
    refine .inr ⟨by omega, ?_,
      not_givesBack hc h₁ (fun ha => hnull (.inl ha)) ((hd₂.trans hd₃).trans hd)⟩
    rw [hiff, and_iff_right hnull, not_not]

/-- A call gives its frames back exactly if there were fewer than three, and none of them was
open to user mode before. One that fails for another reason never does. -/
theorem setupUserAddressSpace_givesBack_iff (s : MmState) (hc : s.pmm.Consistent) :
    GivesBack s (setupUserAddressSpace (.start s)).2.now ↔
      s.pmm.freeCount < 3 ∧ ∀ f ∈ (allocPagesInTurn 3 s.pmm).1, f ≠ 0#64 → ¬ s.UserMapped f := by
  rcases setupUserAddressSpace_cases s hc with ⟨hfew, -, -, p, hnow, hav⟩ | ⟨hcount, -, hkept⟩
  · -- memory is as it was, so only what was open before is open now
    rw [hnow, and_iff_right hfew]
    refine ⟨fun hback f hf hne => (hback f hf hne).2, fun hopen f hf hne => ?_⟩
    exact ⟨hav f hf hne, hopen f hf hne⟩
  · exact ⟨fun hback => absurd hback hkept, fun h => absurd h.1 (Nat.not_lt.mpr hcount)⟩

/-- **A failed `setup_user_address_space` gives its frames back exactly if it was
the frames that it could not get**, and none of them was open to user mode before.
With three frames to be had it must not fail at all: the three pages have to fit. -/
theorem failed_setup_gives_back_iff (s : MmState) (h : s.pmm.Reachable) :
    ((setupUserAddressSpace (.start s)).1 = none →
        GivesBack s (setupUserAddressSpace (.start s)).2.now) ↔
      ((s.pmm.freeCount < 3 ∧
          ∀ f ∈ (allocPagesInTurn 3 s.pmm).1, f ≠ 0#64 → ¬ s.UserMapped f) ∨ SetupFits s) := by
  have hfails : (setupUserAddressSpace (.start s)).1 = none ↔ ¬ SetupFits s := by
    rcases setupUserAddressSpace_cases s h.consistent with ⟨-, hunfit, hnone, -⟩ | ⟨-, hiff, -⟩
    · exact iff_of_true hnone hunfit
    · exact hiff
  by_cases hfit : SetupFits s
  · exact iff_of_true (fun hnone => absurd hfit (hfails.mp hnone)) (.inr hfit)
  · rw [forall_prop_of_true (hfails.mpr hfit), or_iff_left hfit]
    exact setupUserAddressSpace_givesBack_iff s h.consistent

/-- Empty tables and one page left in the pool. -/
def MmState.onePageLeft : MmState :=
  { blank with pmm := (pmmAllocPages (pmmInit Pmm.bss) 0x3fdff).2 }

theorem failed_setup_gives_back_one_page :
    MmState.onePageLeft.pmm.Reachable ∧
      (setupUserAddressSpace (.start .onePageLeft)).1 = none ∧
      GivesBack .onePageLeft (setupUserAddressSpace (.start .onePageLeft)).2.now := by
  have hreach : MmState.onePageLeft.pmm.Reachable :=
    (pmmInit_reachable Pmm.bss).allocPages (by decide)
  have hnone : (setupUserAddressSpace (.start .onePageLeft)).1 = none := by decide +kernel
  refine ⟨hreach, hnone, (failed_setup_gives_back_iff .onePageLeft hreach).mpr
    (.inl ⟨?_, ?_⟩) hnone⟩
  · decide
  · rintro f - - ⟨v, tr, htr, -⟩
    rw [hwTranslate_of_absent] at htr
    · cases htr
    · change ¬ HasFlag (entry MmState.blank.mem _ _) ptePresent
      rw [MmState.entry_blank]
      exact not_hasFlag_zero _

/-- Low memory of which the code page has a page table and the stack lies in one
2 MiB page. -/
def MmState.largeStackPage : MmState :=
  { blank with
    mem := setEntry (setEntry (setEntry (setEntry blank.mem 0x1000 0 0x2007) 0x2000 0 0x3007)
      0x3000 2 0x4007) 0x3000 4 0x800087 }

/-- The code page is mapped, then the stack is refused. All three frames stay in
use, and user mode can write to the first. -/
theorem failed_setup_keeps_frames :
    MmState.largeStackPage.pmm.Reachable ∧
      (allocPagesInTurn 3 MmState.largeStackPage.pmm).1 = [0x200000, 0x201000, 0x202000] ∧
      (setupUserAddressSpace (.start .largeStackPage)).1 = none ∧
      (∀ f ∈ [0x200000, 0x201000, 0x202000],
        ¬ (setupUserAddressSpace (.start .largeStackPage)).2.now.pmm.Available f) ∧
      (setupUserAddressSpace (.start .largeStackPage)).2.now.UserMapped 0x200000 ∧
      ¬ GivesBack .largeStackPage (setupUserAddressSpace (.start .largeStackPage)).2.now := by
  have hturn : (allocPagesInTurn 3 MmState.largeStackPage.pmm).1 =
      [0x200000, 0x201000, 0x202000] := by
    decide
  have hnone : (setupUserAddressSpace (.start .largeStackPage)).1 = none := by decide +kernel
  have hmapped : hwTranslate (setupUserAddressSpace (.start .largeStackPage)).2.now.mem
      (setupUserAddressSpace (.start .largeStackPage)).2.now.cr3Root (vpn 0x400000) =
        some ⟨0x200000, true, true, false⟩ := by decide +kernel
  have hpool : (setupUserAddressSpace (.start .largeStackPage)).2.now.pmm =
      ⟨[], 0x203000, 0x3fe00, 3, 0⟩ := by decide +kernel
  generalize setupUserAddressSpace (.start .largeStackPage) = out at *
  have hkept : ∀ f ∈ [0x200000, 0x201000, 0x202000], ¬ out.2.now.pmm.Available f := by
    rw [hpool]
    simp only [List.forall_mem_cons]
    exact ⟨by decide, by decide, by decide, fun _ h => nomatch h⟩
  refine ⟨pmmInit_reachable _, hturn, hnone, hkept, ⟨_, _, hmapped, rfl, rfl⟩, fun hback => ?_⟩
  have hfree := hback 0x200000
  rw [hturn] at hfree
  exact hkept 0x200000 List.mem_cons_self (hfree List.mem_cons_self (by decide)).1

end Myria.Mm
