import Myria.Mm.TableWalk
import Myria.Mm.UserProcess

/-! When `create_user_process` fails. It takes up to eight pages: the PML4, the
code page, two stack pages and four tables. It gives none back, so every way out
after the first page loses what was taken till then. -/
namespace Myria.Mm

open ByteMem

/-! ## The PML4 and the frames -/

/-- A page, or none, from `alloc_zeroed_page_phys`: frames in use stay as they are. -/
theorem allocZeroedPagePhys_page {s : MmState} (hc : s.pmm.Consistent) {f : U64} {p' : Pmm}
    (h : pmmAllocPage s.pmm = (f, p')) :
    ∃ m', allocZeroedPagePhys s = (f, { s with mem := m', pmm := p' }) ∧
      ∀ t j, IsFrame t → ¬ s.pmm.Available t → entry m' t j = entry s.mem t j := by
  by_cases hf : f = 0#64
  · subst hf
    refine ⟨s.mem, ?_, fun _ _ _ _ => rfl⟩
    simp only [allocZeroedPagePhys, h, if_true]
  · have htake := pmmAllocPage_takes hc h hf
    refine ⟨_, allocZeroedPagePhys_eq h hf, fun t j ht hav => ?_⟩
    have hne : t ≠ f := fun heq => hav (heq ▸ htake.available)
    exact entry_zeroed_ne s.mem htake.isFrame ht hne (Nat.le_refl _) j

theorem userAsCreate_page {s : MmState} (hc : s.pmm.Consistent)
    (htemplate : s.kernelPml4TemplatePhys ≠ 0#64) {a : U64} {p' : Pmm}
    (h : pmmAllocPage s.pmm = (a, p')) (ha : a ≠ 0#64) :
    ∃ m', userAsCreate s = (a, { s with mem := m', pmm := p' }) ∧
      ∀ j : BitVec 9, j.toNat < 256 → entry m' a j = 0#64 := by
  have hf : IsFrame a := (pmmAllocPage_takes hc h ha).isFrame
  obtain ⟨m', hcopy, hlow⟩ := copyKernelHalf_low
    { s with mem := zeroed s.mem a 4096, pmm := p' } hf (s.physToVirt s.kernelPml4TemplatePhys)
  refine ⟨m', ?_, fun j hj => ?_⟩
  · simp only [userAsCreate, if_neg htemplate, allocZeroedPagePhys_eq h ha, if_neg ha]
    exact congrArg (a, ·) hcopy
  · rw [hlow j hj, entry_zeroed _ hf hf, if_pos rfl]

section Pages

variable {s : MmState} (hc : s.pmm.Consistent) (htemplate : s.kernelPml4TemplatePhys ≠ 0#64)
  {a code stack1 stack0 : U64} {p₁ p₂ p₃ p₄ : Pmm} (h₁ : pmmAllocPage s.pmm = (a, p₁))
  (h₂ : pmmAllocPage p₁ = (code, p₂)) (h₃ : pmmAllocPage p₂ = (stack1, p₃))
  (h₄ : pmmAllocPage p₃ = (stack0, p₄)) (ha : a ≠ 0#64) (payload : List (BitVec 8))
include hc htemplate h₁ h₂ h₃ h₄ ha

/-- Without its frames the process fails, with them it has still to be mapped,
below a PML4 whose low half is empty. -/
theorem createUserProcess_pages :
    ∃ m, entry m a 0 = 0#64 ∧ createUserProcess s payload =
      if code = 0#64 ∨ stack1 = 0#64 ∨ stack0 = 0#64 then (0#64, { s with mem := m, pmm := p₄ })
      else mapUserPages { s with mem := m, pmm := p₄ } a code stack1 stack0 := by
  have htake := pmmAllocPage_takes hc h₁ ha
  have hd₂ := pmmAllocPage_draws htake.consistent h₂
  have hd₃ := pmmAllocPage_draws hd₂.consistent h₃
  obtain ⟨m₁, hcreate, hlow⟩ := userAsCreate_page hc htemplate h₁ ha
  obtain ⟨m₂, hcode, hkeep₂⟩ := allocZeroedPagePhys_page (s := { s with mem := m₁, pmm := p₁ })
    htake.consistent h₂
  obtain ⟨m₃, hstack1, hkeep₃⟩ := allocZeroedPagePhys_page (s := { s with mem := m₂, pmm := p₂ })
    hd₂.consistent h₃
  obtain ⟨m₄, hstack0, hkeep₄⟩ := allocZeroedPagePhys_page (s := { s with mem := m₃, pmm := p₃ })
    hd₃.consistent h₄
  have hempty : entry m₄ a 0 = 0#64 := by
    rw [hkeep₄ a 0 htake.isFrame fun hb => htake.taken (hd₂.fewer a (hd₃.fewer a hb)),
      hkeep₃ a 0 htake.isFrame fun hb => htake.taken (hd₂.fewer a hb),
      hkeep₂ a 0 htake.isFrame htake.taken]
    exact hlow 0 (by decide)
  simp only [createUserProcess, hcreate, if_neg ha, hcode, hstack1, hstack0]
  by_cases hnull : code = 0#64 ∨ stack1 = 0#64 ∨ stack0 = 0#64
  · exact ⟨m₄, hempty, by rw [if_pos hnull, if_pos hnull]⟩
  · -- the payload goes to the code page, which is not the PML4
    rw [copyPayload_eq]
    refine ⟨_, ?_, by rw [if_neg hnull, if_neg hnull]⟩
    have hpage := pmmAllocPage_takes htake.consistent h₂ fun h => hnull (.inl h)
    have hne : a ≠ code := fun heq => htake.taken (heq ▸ hpage.available)
    have hfill := changedOnlyIn_filled m₄ hpage.isFrame (Nat.min_le_right payload.length 4096)
      (payload.getD · 0)
    rw [hfill.entry_eq htake.isFrame hne]
    exact hempty

end Pages

/-! ## The three mappings -/

/-- The way down that `user_map_4k_in_pml4` takes. -/
def pml4Plan (base a va pa : U64) (writable executable : Bool) (c : Mem × Pmm) :
    Option (Mem × Pmm) :=
  planMap (fun _ => false) base (vpn va) ((pa &&& pteAddrMask) ||| userPteFlags writable executable)
    c a

def processPlan (base a code stack1 stack0 : U64) (c : Mem × Pmm) : Option (Mem × Pmm) :=
  (pml4Plan base a 0x10000#64 code false true c).bind fun c =>
    (pml4Plan base a 0x800000#64 stack1 true false c).bind fun c =>
      pml4Plan base a 0x801000#64 stack0 true false c

theorem userMap4kInPml4_planned {s : MmState} (hc : s.pmm.Consistent) {a : U64} (ha : IsFrame a)
    (va pa : U64) (w x : Bool) :
    (∃ s', userMap4kInPml4 s a va pa w x = (false, s') ∧
      pml4Plan s.getHhdmBase a va pa w x (s.mem, s.pmm) = none ∧ Draws s.pmm s'.pmm) ∨
    (∃ m' p', userMap4kInPml4 s a va pa w x = (true, { s with mem := m', pmm := p' }) ∧
      pml4Plan s.getHhdmBase a va pa w x (s.mem, s.pmm) = some (m', p') ∧ Draws s.pmm p') :=
  (userMap4kInPml4_maps hc ha va pa w x).cases

theorem mapUserPages_planned {s : MmState} (hc : s.pmm.Consistent) {a : U64} (ha : IsFrame a)
    (hne : a ≠ 0#64) (code stack1 stack0 : U64) :
    ((mapUserPages s a code stack1 stack0).1 = 0#64 ↔
        processPlan s.getHhdmBase a code stack1 stack0 (s.mem, s.pmm) = none) ∧
      Draws s.pmm (mapUserPages s a code stack1 stack0).2.pmm := by
  simp only [mapUserPages, processPlan]
  rcases userMap4kInPml4_planned hc ha 0x10000#64 code false true with
    ⟨s₁, hmap, hplan, hd⟩ | ⟨m, p, hmap, hplan, hd⟩
  · simp only [hmap, hplan, Option.bind_none, if_true, true_and]
    exact hd
  rcases userMap4kInPml4_planned (s := { s with mem := m, pmm := p }) hd.consistent ha 0x800000#64
    stack1 true false with ⟨s₂, hmap', hplan', hd'⟩ | ⟨m', p', hmap', hplan', hd'⟩
  · change pml4Plan s.getHhdmBase a _ _ _ _ _ = _ at hplan'
    simp only [hmap, hplan, hmap', hplan', Option.bind_some, Option.bind_none, Bool.true_eq_false,
      if_false, if_true, true_and]
    exact hd.trans hd'
  change pml4Plan s.getHhdmBase a _ _ _ _ _ = _ at hplan'
  rcases userMap4kInPml4_planned (s := { s with mem := m', pmm := p' }) hd'.consistent
    ha 0x801000#64
    stack0 true false with ⟨s₃, hmap'', hplan'', hd''⟩ | ⟨m'', p'', hmap'', hplan'', hd''⟩
  · change pml4Plan s.getHhdmBase a _ _ _ _ _ = _ at hplan''
    simp only [hmap, hplan, hmap', hplan', hmap'', hplan'', Option.bind_some, Bool.true_eq_false,
      if_false, if_true, true_and]
    exact hd.trans (hd'.trans hd'')
  · change pml4Plan s.getHhdmBase a _ _ _ _ _ = _ at hplan''
    simp only [hmap, hplan, hmap', hplan', hmap'', hplan'', Option.bind_some, Bool.true_eq_false,
      if_false, hne, reduceCtorEq, true_and]
    exact hd.trans (hd'.trans hd'')

/-! ## Below an empty PML4 slot -/

/-- Slot `i` of table `t` leads to `f`. -/
def Refers (m : Mem) (t : U64) (i : BitVec 9) (f : U64) : Prop :=
  HasFlag (entry m t i) ptePresent ∧ pteToPhys (entry m t i) = f

section Refers

variable {m : Mem} {t f t' f' : U64} {i i' : BitVec 9}

theorem Refers.openSlot (h : Refers m t i f) (ht : IsFrame t) (ht' : IsFrame t') (i' : BitVec 9) :
    Refers (openSlot m t' i') t i f := by
  rw [Refers, hasFlag_openSlot m ht' ht i' i (by decide), pteToPhys_openSlot m ht' ht]
  exact h

/-- A new table below another one, -/
theorem Refers.linked (h : Refers m t i f) (ht : IsFrame t) (ht' : IsFrame t') (hf' : IsFrame f')
    (hne : t ≠ t') (hne' : t ≠ f') (i' : BitVec 9) (v : U64) :
    Refers (linked m t' i' f' v) t i f := by
  rw [Refers, entry_linked m ht' hf' ht, if_neg fun h => hne h.1, if_neg hne']
  exact h

/-- or an entry in another table. -/
theorem Refers.setEntry (h : Refers m t i f) (ht : IsFrame t) (ht' : IsFrame t') (hne : t ≠ t')
    (i' : BitVec 9) (v : U64) : Refers (setEntry m t' i' v) t i f := by
  rw [Refers, entry_setEntry m ht' ht, if_neg fun h => hne h.1]
  exact h

theorem refers_linked (m : Mem) (ht : IsFrame t) (hf : IsFrame f) (i : BitVec 9) :
    Refers (linked m t i f (newTableEntry f)) t i f := by
  rw [Refers, entry_linked m ht hf ht, if_pos ⟨rfl, rfl⟩]
  refine ⟨?_, hf.pteToPhys_newTableEntry⟩
  rw [newTableEntry_eq]
  exact hasFlag_or.mpr (.inr (by decide))

theorem descend_of_refers {base : U64} (h : Refers m t i f) (hshown : f + base ≠ 0#64) (p : Pmm) :
    descend base (m, p) t i = some (f, openSlot m t i, p) := by
  rw [descend_of_present h.1, h.2, if_neg hshown]

end Refers

/-- What the allocator returned cannot serve as a table: it is no page, or the
window at `base` shows it at the null pointer. -/
def Unusable (base f : U64) : Prop := f = 0#64 ∨ f + base = 0#64

instance (base f : U64) : Decidable (Unusable base f) := inferInstanceAs (Decidable (_ ∨ _))

section Plan

variable {m : Mem} {p : Pmm} {base a va pa : U64} {w x : Bool} {t₃ t₂ : U64}

theorem descend_of_empty {t f : U64} {i : BitVec 9} {p' : Pmm} (h : entry m t i = 0#64)
    (halloc : pmmAllocPage p = (f, p')) :
    descend base (m, p) t i = if Unusable base f then none
      else some (f, linked m t i f (newTableEntry f), p') := by
  refine descend_of_absent ?_ halloc
  rw [h]
  exact not_hasFlag_zero _

/-- Down two levels that exist. -/
theorem pml4Plan_of_refers (ha : IsFrame a) (h₃ : Refers m a (slot4 (vpn va)) t₃)
    (hf₃ : IsFrame t₃) (hs₃ : t₃ + base ≠ 0#64) (h₂ : Refers m t₃ (slot3 (vpn va)) t₂)
    (hs₂ : t₂ + base ≠ 0#64) :
    pml4Plan base a va pa w x (m, p) =
      (descend base (openSlot (openSlot m a (slot4 (vpn va))) t₃ (slot3 (vpn va)), p) t₂
        (slot2 (vpn va))).bind fun z =>
        some (setEntry z.2.1 z.1 (slot1 (vpn va)) ((pa &&& pteAddrMask) ||| userPteFlags w x),
          z.2.2) := by
  simp only [pml4Plan, planMap, descend_of_refers h₃ hs₃, Option.bind_some, Bool.false_eq_true,
    if_false, descend_of_refers (h₂.openSlot hf₃ ha _) hs₂]

variable {f₃ f₂ f₁ : U64} {p₃ p₂ p₁ : Pmm}

/-- Below an empty slot all three tables are made. -/
theorem pml4Plan_of_empty (hc : p.Consistent) (ha : IsFrame a) (hav : ¬ p.Available a)
    (hempty : entry m a (slot4 (vpn va)) = 0#64) (h₃ : pmmAllocPage p = (f₃, p₃))
    (h₂ : pmmAllocPage p₃ = (f₂, p₂)) (h₁ : pmmAllocPage p₂ = (f₁, p₁)) :
    pml4Plan base a va pa w x (m, p) =
      if Unusable base f₃ ∨ Unusable base f₂ ∨ Unusable base f₁ then none
      else some (setEntry (linked (linked (linked m a (slot4 (vpn va)) f₃ (newTableEntry f₃))
        f₃ (slot3 (vpn va)) f₂ (newTableEntry f₂)) f₂ (slot2 (vpn va)) f₁ (newTableEntry f₁))
        f₁ (slot1 (vpn va)) ((pa &&& pteAddrMask) ||| userPteFlags w x), p₁) := by
  simp only [pml4Plan, planMap, Bool.false_eq_true, if_false, descend_of_empty hempty h₃]
  by_cases hu₃ : Unusable base f₃
  · rw [if_pos hu₃, if_pos (.inl hu₃)]
    rfl
  have htake₃ := pmmAllocPage_takes hc h₃ fun h => hu₃ (.inl h)
  have hf₃ : IsFrame f₃ := htake₃.isFrame
  have hne₃ : a ≠ f₃ := fun heq => hav (heq ▸ htake₃.available)
  rw [if_neg hu₃, Option.bind_some, descend_of_empty (entry_linked_fresh m ha hf₃ hne₃ _ _ _) h₂]
  by_cases hu₂ : Unusable base f₂
  · rw [if_pos hu₂, if_pos (.inr (.inl hu₂))]
    rfl
  have htake₂ := pmmAllocPage_takes htake₃.consistent h₂ fun h => hu₂ (.inl h)
  have hf₂ : IsFrame f₂ := htake₂.isFrame
  have hne₂ : f₃ ≠ f₂ := fun heq => htake₃.taken (heq ▸ htake₂.available)
  rw [if_neg hu₂, Option.bind_some, descend_of_empty (entry_linked_fresh _ hf₃ hf₂ hne₂ _ _ _) h₁]
  by_cases hu₁ : Unusable base f₁
  · rw [if_pos hu₁, if_pos (.inr (.inr hu₁))]
    rfl
  rw [if_neg hu₁, if_neg (by tauto)]
  rfl

end Plan

/-- Three tables just made one below the other: the slots that lead there, and the
other slots of the last but one. -/
theorem refers_three_tables {m : Mem} {a f₃ f₂ f₁ : U64} (ha : IsFrame a) (hf₃ : IsFrame f₃)
    (hf₂ : IsFrame f₂) (hf₁ : IsFrame f₁) (hroot : a ≠ f₃ ∧ a ≠ f₂ ∧ a ≠ f₁)
    (hd : f₃ ≠ f₂ ∧ f₃ ≠ f₁ ∧ f₂ ≠ f₁) (i₄ i₃ i₂ i₁ : BitVec 9) (e : U64) {m' : Mem}
    (hm' : m' = setEntry (linked (linked (linked m a i₄ f₃ (newTableEntry f₃))
      f₃ i₃ f₂ (newTableEntry f₂)) f₂ i₂ f₁ (newTableEntry f₁)) f₁ i₁ e) :
    Refers m' a i₄ f₃ ∧ Refers m' f₃ i₃ f₂ ∧ ∀ j, j ≠ i₂ → entry m' f₂ j = 0#64 := by
  obtain ⟨ha₃, ha₂, ha₁⟩ := hroot
  obtain ⟨h₃₂, h₃₁, h₂₁⟩ := hd
  subst hm'
  refine ⟨?_, ?_, fun j hj => ?_⟩
  · have h := (refers_linked m ha hf₃ i₄).linked ha hf₃ hf₂ ha₃ ha₂ i₃ (newTableEntry f₂)
    exact (h.linked ha hf₂ hf₁ ha₂ ha₁ i₂ _).setEntry ha hf₁ ha₁ i₁ e
  · have h := refers_linked (Myria.Mm.linked m a i₄ f₃ (newTableEntry f₃)) hf₃ hf₂ i₃
    exact (h.linked hf₃ hf₂ hf₁ h₃₂ h₃₁ i₂ _).setEntry hf₃ hf₁ h₃₁ i₁ e
  · rw [entry_setEntry _ hf₁ hf₂, if_neg fun h => h₂₁ h.1, entry_linked _ hf₂ hf₁ hf₂,
      if_neg fun h => hj h.2, if_neg h₂₁, entry_linked_fresh _ hf₃ hf₂ h₃₂]

section Process

variable {m : Mem} {p p₃ p₂ p₁ p₀ : Pmm} {base a code stack1 stack0 f₃ f₂ f₁ f₀ : U64}

/-- The stack is mapped below two tables that are there, `f₃` and `f₂`, and a page
table `f₀` that is made for it. -/
theorem stackPlan_eq_none_iff (hc : p.Consistent) (ha : IsFrame a) (hf₃ : IsFrame f₃)
    (hf₂ : IsFrame f₂) (hav : ¬ p.Available a ∧ ¬ p.Available f₃ ∧ ¬ p.Available f₂)
    (hne : a ≠ f₂ ∧ f₃ ≠ f₂) (hs₃ : f₃ + base ≠ 0#64) (hs₂ : f₂ + base ≠ 0#64)
    (h₃ : Refers m a 0 f₃) (h₂ : Refers m f₃ 0 f₂) (hempty : entry m f₂ 4 = 0#64)
    (h₀ : pmmAllocPage p = (f₀, p₀)) :
    ((pml4Plan base a 0x800000#64 stack1 true false (m, p)).bind fun c =>
        pml4Plan base a 0x801000#64 stack0 true false c) = none ↔ Unusable base f₀ := by
  have hm : entry (openSlot (openSlot m a 0) f₃ 0) f₂ 4 = 0#64 := by
    rw [entry_openSlot _ hf₃ hf₂, if_neg fun h => hne.2 h.1.symm, entry_openSlot _ ha hf₂,
      if_neg fun h => hne.1 h.1.symm, hempty]
  have r₃ := (h₃.openSlot ha ha 0).openSlot ha hf₃ 0
  have r₂ := (h₂.openSlot hf₃ ha 0).openSlot hf₃ hf₃ 0
  have hstack1 : pml4Plan base a 0x800000#64 stack1 true false (m, p) = _ :=
    pml4Plan_of_refers ha h₃ hf₃ hs₃ h₂ hs₂
  change _ = (descend base (openSlot (openSlot m a 0) f₃ 0, p) f₂ 4).bind _ at hstack1
  generalize openSlot (openSlot m a 0) f₃ 0 = m₁ at *
  rw [hstack1, descend_of_empty hm h₀]
  by_cases hu : Unusable base f₀
  · rw [if_pos hu]
    simp only [Option.bind_none, hu]
  have htake := pmmAllocPage_takes hc h₀ fun h => hu (.inl h)
  have hf₀ : IsFrame f₀ := htake.isFrame
  have hne₀ : a ≠ f₀ ∧ f₃ ≠ f₀ ∧ f₂ ≠ f₀ :=
    ⟨fun heq => hav.1 (heq ▸ htake.available), fun heq => hav.2.1 (heq ▸ htake.available),
      fun heq => hav.2.2 (heq ▸ htake.available)⟩
  rw [if_neg hu, Option.bind_some, Option.bind_some]
  -- the second stack page finds all its tables
  generalize hm₂ : setEntry (linked m₁ f₂ 4 f₀ (newTableEntry f₀)) f₀ (slot1 (vpn 0x800000#64))
    ((stack1 &&& pteAddrMask) ||| userPteFlags true false) = m₂
  have q₃ : Refers m₂ a 0 f₃ :=
    hm₂ ▸ (r₃.linked ha hf₂ hf₀ hne.1 hne₀.1 4 _).setEntry ha hf₀ hne₀.1 _ _
  have q₂ : Refers m₂ f₃ 0 f₂ :=
    hm₂ ▸ (r₂.linked hf₃ hf₂ hf₀ hne.2 hne₀.2.1 4 _).setEntry hf₃ hf₀ hne₀.2.1 _ _
  have q₁ : Refers m₂ f₂ 4 f₀ :=
    hm₂ ▸ (refers_linked m₁ hf₂ hf₀ 4).setEntry hf₂ hf₀ hne₀.2.2 _ _
  have hstack0 : pml4Plan base a 0x801000#64 stack0 true false (m₂, p₀) = _ :=
    pml4Plan_of_refers ha q₃ hf₃ hs₃ q₂ hs₂
  change _ = (descend base (openSlot (openSlot m₂ a 0) f₃ 0, p₀) f₂ 4).bind _ at hstack0
  have hlast := (q₁.openSlot hf₂ ha 0).openSlot hf₂ hf₃ 0
  rw [hstack0, descend_of_refers hlast fun h => hu (.inr h), Option.bind_some]
  simp only [reduceCtorEq, hu]

/-- **The three mappings take four tables.** The first makes one on each level, the
second a page table of its own, the third finds everything there. -/
theorem processPlan_eq_none_iff (hc : p.Consistent) (ha : IsFrame a) (hav : ¬ p.Available a)
    (hempty : entry m a 0 = 0#64) (h₃ : pmmAllocPage p = (f₃, p₃))
    (h₂ : pmmAllocPage p₃ = (f₂, p₂)) (h₁ : pmmAllocPage p₂ = (f₁, p₁))
    (h₀ : pmmAllocPage p₁ = (f₀, p₀)) :
    processPlan base a code stack1 stack0 (m, p) = none ↔
      Unusable base f₃ ∨ Unusable base f₂ ∨ Unusable base f₁ ∨ Unusable base f₀ := by
  have hcode : pml4Plan base a 0x10000#64 code false true (m, p) = _ :=
    pml4Plan_of_empty hc ha hav hempty h₃ h₂ h₁
  rw [processPlan, hcode]
  by_cases hu : Unusable base f₃ ∨ Unusable base f₂ ∨ Unusable base f₁
  · rw [if_pos hu, Option.bind_none]
    simp only [true_iff]
    tauto
  rw [if_neg hu, Option.bind_some]
  rw [not_or, not_or] at hu
  obtain ⟨hu₃, hu₂, hu₁⟩ := hu
  have htake₃ := pmmAllocPage_takes hc h₃ fun h => hu₃ (.inl h)
  have htake₂ := pmmAllocPage_takes htake₃.consistent h₂ fun h => hu₂ (.inl h)
  have htake₁ := pmmAllocPage_takes htake₂.consistent h₁ fun h => hu₁ (.inl h)
  -- each page is in use from its turn on, so they are all different
  have hav₃ : ¬ p₃.Available a := fun h => hav (htake₃.fewer a h)
  have hav₂ : ¬ p₂.Available a ∧ ¬ p₂.Available f₃ :=
    ⟨fun h => hav₃ (htake₂.fewer a h), fun h => htake₃.taken (htake₂.fewer f₃ h)⟩
  have hroot : a ≠ f₃ ∧ a ≠ f₂ ∧ a ≠ f₁ :=
    ⟨fun heq => hav (heq ▸ htake₃.available), fun heq => hav₃ (heq ▸ htake₂.available),
      fun heq => hav₂.1 (heq ▸ htake₁.available)⟩
  have hd : f₃ ≠ f₂ ∧ f₃ ≠ f₁ ∧ f₂ ≠ f₁ :=
    ⟨fun heq => htake₃.taken (heq ▸ htake₂.available), fun heq => hav₂.2 (heq ▸ htake₁.available),
      fun heq => htake₂.taken (heq ▸ htake₁.available)⟩
  generalize hm' : setEntry (linked (linked (linked m a _ f₃ _) f₃ _ f₂ _) f₂ _ f₁ _) f₁ _ _ = m'
  obtain ⟨r₃, r₂, hrest⟩ := refers_three_tables ha htake₃.isFrame htake₂.isFrame htake₁.isFrame
    hroot hd _ _ _ _ _ hm'.symm
  rw [stackPlan_eq_none_iff htake₁.consistent ha htake₃.isFrame htake₂.isFrame
    ⟨fun h => hav₂.1 (htake₁.fewer a h), fun h => hav₂.2 (htake₁.fewer f₃ h),
      fun h => htake₂.taken (htake₁.fewer f₂ h)⟩ ⟨hroot.2.1, hd.1⟩ (fun h => hu₃ (.inr h))
    (fun h => hu₂ (.inr h)) r₃ r₂ (hrest 4 (by decide)) h₀]
  simp only [hu₃, hu₂, hu₁, false_or]

end Process

/-! ## Exactly when -/

/-- Nothing is done without a template, nor without a page for the PML4. -/
theorem createUserProcess_untouched {s : MmState} (hc : s.pmm.Consistent)
    (h : s.kernelPml4TemplatePhys = 0#64 ∨ s.pmm.freeCount = 0) (payload : List (BitVec 8)) :
    createUserProcess s payload = (0#64, s) := by
  have hcreate : userAsCreate s = (0#64, s) := by
    by_cases htemplate : s.kernelPml4TemplatePhys = 0#64
    · rw [userAsCreate, if_pos htemplate]
    · have hex := hc.exhausted_iff.mpr (h.resolve_left htemplate)
      simp only [userAsCreate, if_neg htemplate, allocZeroedPagePhys, hex.allocPage, if_true]
  simp only [createUserProcess, hcreate, if_true]

section Pages

variable {s : MmState} (hc : s.pmm.Consistent) (htemplate : s.kernelPml4TemplatePhys ≠ 0#64)
include hc htemplate

/-- With a PML4 the process fails exactly if a frame is missing or a table cannot
be made, and no page comes back. -/
theorem createUserProcess_eq_zero_iff {a code stack1 stack0 f₃ f₂ f₁ f₀ : U64}
    {p₁ p₂ p₃ p₄ q₃ q₂ q₁ q₀ : Pmm} (h₁ : pmmAllocPage s.pmm = (a, p₁))
    (h₂ : pmmAllocPage p₁ = (code, p₂)) (h₃ : pmmAllocPage p₂ = (stack1, p₃))
    (h₄ : pmmAllocPage p₃ = (stack0, p₄)) (h₅ : pmmAllocPage p₄ = (f₃, q₃))
    (h₆ : pmmAllocPage q₃ = (f₂, q₂)) (h₇ : pmmAllocPage q₂ = (f₁, q₁))
    (h₈ : pmmAllocPage q₁ = (f₀, q₀)) (ha : a ≠ 0#64) (payload : List (BitVec 8)) :
    ((createUserProcess s payload).1 = 0#64 ↔
      (code = 0#64 ∨ stack1 = 0#64 ∨ stack0 = 0#64) ∨
        Unusable s.getHhdmBase f₃ ∨ Unusable s.getHhdmBase f₂ ∨ Unusable s.getHhdmBase f₁ ∨
          Unusable s.getHhdmBase f₀) ∧
      Draws p₁ (createUserProcess s payload).2.pmm := by
  have htake := pmmAllocPage_takes hc h₁ ha
  have hd₂ := pmmAllocPage_draws htake.consistent h₂
  have hd₃ := hd₂.trans (pmmAllocPage_draws hd₂.consistent h₃)
  have hd₄ := hd₃.trans (pmmAllocPage_draws hd₃.consistent h₄)
  obtain ⟨m, hempty, heq⟩ := createUserProcess_pages hc htemplate h₁ h₂ h₃ h₄ ha payload
  rw [heq]
  by_cases hnull : code = 0#64 ∨ stack1 = 0#64 ∨ stack0 = 0#64
  · rw [if_pos hnull]
    exact ⟨⟨fun _ => .inl hnull, fun _ => rfl⟩, hd₄⟩
  · rw [if_neg hnull, or_iff_right hnull]
    obtain ⟨hiff, hd⟩ := mapUserPages_planned (s := { s with mem := m, pmm := p₄ }) hd₄.consistent
      htake.isFrame ha code stack1 stack0
    rw [processPlan_eq_none_iff hd₄.consistent htake.isFrame
      (fun h => htake.taken (hd₄.fewer a h)) hempty h₅ h₆ h₇ h₈] at hiff
    exact ⟨hiff, hd₄.trans hd⟩

/-- Once it has its PML4, `create_user_process` ends with fewer free pages, and it
fails exactly if one of the eight pages is missing or a table is not shown. -/
theorem createUserProcess_taken (hfree : s.pmm.freeCount ≠ 0) (payload : List (BitVec 8)) :
    (createUserProcess s payload).2.pmm.Consistent ∧
      (createUserProcess s payload).2.pmm.freeCount < s.pmm.freeCount ∧
      ((createUserProcess s payload).1 = 0#64 ↔
        ¬ (8 ≤ s.pmm.freeCount ∧
          ∀ f ∈ (allocPagesInTurn 8 s.pmm).1.drop 4, s.physToVirt f ≠ 0#64)) := by
  have hroom := allocPagesInTurn_ne_zero_iff (n := 8) hc
  have hfirst := allocPagesInTurn_ne_zero_iff (n := 1) hc
  rcases h₁ : pmmAllocPage s.pmm with ⟨a, p₁⟩
  rcases h₂ : pmmAllocPage p₁ with ⟨code, p₂⟩
  rcases h₃ : pmmAllocPage p₂ with ⟨stack1, p₃⟩
  rcases h₄ : pmmAllocPage p₃ with ⟨stack0, p₄⟩
  rcases h₅ : pmmAllocPage p₄ with ⟨f₃, q₃⟩
  rcases h₆ : pmmAllocPage q₃ with ⟨f₂, q₂⟩
  rcases h₇ : pmmAllocPage q₂ with ⟨f₁, q₁⟩
  rcases h₈ : pmmAllocPage q₁ with ⟨f₀, q₀⟩
  simp only [allocPagesInTurn, h₁, h₂, h₃, h₄, h₅, h₆, h₇, h₈, List.forall_mem_cons,
    List.drop_succ_cons, List.drop_zero] at hroom hfirst ⊢
  have ha : a ≠ 0#64 := (hfirst.mpr (Nat.pos_of_ne_zero hfree)).1
  have hcount := pmmAllocPage_freeCount hc h₁ ha
  obtain ⟨hiff, hd⟩ := createUserProcess_eq_zero_iff hc htemplate h₁ h₂ h₃ h₄ h₅ h₆ h₇ h₈ ha payload
  have hle := hd.count
  refine ⟨hd.consistent, by omega, ?_⟩
  rw [hiff, ← hroom]
  constructor
  · rintro hbad ⟨⟨-, hcode, hstack1, hstack0, hn₃, hn₂, hn₁, hn₀, -⟩, hv₃, hv₂, hv₁, hv₀, -⟩
    rcases hbad with (hz | hz | hz) | (hz | hz) | (hz | hz) | (hz | hz) | hz | hz <;> contradiction
  · intro hnot
    by_contra hgood
    simp only [not_or, Unusable] at hgood
    obtain ⟨⟨hcode, hstack1, hstack0⟩, hg₃, hg₂, hg₁, hg₀⟩ := hgood
    exact hnot ⟨⟨ha, hcode, hstack1, hstack0, hg₃.1, hg₂.1, hg₁.1, hg₀.1, by simp⟩,
      hg₃.2, hg₂.2, hg₁.2, hg₀.2, by simp⟩

end Pages

/-- **A failed `create_user_process` loses no memory exactly if it took no page or
cannot fail.** It takes none without a template or without a free page; with eight
free pages, the last four of which the window does not show at the null pointer,
it succeeds. In between every page taken is lost. -/
theorem failed_create_loses_nothing_iff (s : MmState) (h : s.pmm.Reachable)
    (payload : List (BitVec 8)) :
    ((createUserProcess s payload).1 = 0#64 →
        (pmmGetStats (createUserProcess s payload).2.pmm).2.1 = (pmmGetStats s.pmm).2.1) ↔
      (s.kernelPml4TemplatePhys = 0#64 ∨ s.pmm.freeCount = 0 ∨
        (8 ≤ s.pmm.freeCount ∧
          ∀ f ∈ (allocPagesInTurn 8 s.pmm).1.drop 4, s.physToVirt f ≠ 0#64)) := by
  have hc := h.consistent
  by_cases hidle : s.kernelPml4TemplatePhys = 0#64 ∨ s.pmm.freeCount = 0
  · rw [createUserProcess_untouched hc hidle]
    rw [← or_assoc]
    exact ⟨fun _ => .inl hidle, fun _ _ => rfl⟩
  · rw [not_or] at hidle
    obtain ⟨hc', hlt, hiff⟩ := createUserProcess_taken hc hidle.1 hidle.2 payload
    have hne : (pmmGetStats (createUserProcess s payload).2.pmm).2.1 ≠ (pmmGetStats s.pmm).2.1 := by
      rw [Ne, ← BitVec.toNat_inj, hc'.stats_free, hc.stats_free]
      omega
    simp only [hiff, hne, hidle, imp_false, not_not, false_or]

/-- A template, and a pool of which `taken` pages are in use. -/
def MmState.withTemplate (taken : U64) : MmState :=
  { blank with
    kernelPml4TemplatePhys := 0x1000
    pmm := (pmmAllocPages (pmmInit Pmm.bss) taken).2 }

theorem failed_create_loses_nothing_empty_pool :
    (MmState.withTemplate 0x3fe00).pmm.Reachable ∧
      (createUserProcess (.withTemplate 0x3fe00) []).1 = 0#64 ∧
      (pmmGetStats (createUserProcess (.withTemplate 0x3fe00) []).2.pmm).2.1 =
        (pmmGetStats (MmState.withTemplate 0x3fe00).pmm).2.1 := by
  have hreach : (MmState.withTemplate 0x3fe00).pmm.Reachable :=
    (pmmInit_reachable Pmm.bss).allocPages (by decide)
  have hempty : (MmState.withTemplate 0x3fe00).pmm.freeCount = 0 := by decide
  have hzero : (createUserProcess (.withTemplate 0x3fe00) []).1 = 0#64 := by
    rw [createUserProcess_untouched hreach.consistent (.inr hempty)]
  exact ⟨hreach, hzero,
    (failed_create_loses_nothing_iff _ hreach []).mpr (.inr (.inl hempty)) hzero⟩

/-- The last page of the pool becomes a PML4 that nobody will ever free. -/
theorem failed_create_leaks_pml4 :
    (MmState.withTemplate 0x3fdff).pmm.Reachable ∧
      (createUserProcess (.withTemplate 0x3fdff) []).1 = 0#64 ∧
      (pmmGetStats (MmState.withTemplate 0x3fdff).pmm).2.1 = 1#64 ∧
      (pmmGetStats (createUserProcess (.withTemplate 0x3fdff) []).2.pmm).2.1 = 0#64 := by
  have hreach : (MmState.withTemplate 0x3fdff).pmm.Reachable :=
    (pmmInit_reachable Pmm.bss).allocPages (by decide)
  have hone : (MmState.withTemplate 0x3fdff).pmm.freeCount = 1 := by decide
  obtain ⟨hc, hlt, hiff⟩ := createUserProcess_taken hreach.consistent
    (show (MmState.withTemplate 0x3fdff).kernelPml4TemplatePhys ≠ 0#64 by decide)
    (by rw [hone]; decide) []
  rw [hone] at hlt hiff
  refine ⟨hreach, hiff.mpr fun hroom => absurd hroom.1 (by decide), by decide, ?_⟩
  rw [← BitVec.toNat_inj, hc.stats_free]
  exact Nat.lt_one_iff.mp hlt

end Myria.Mm
