import Myria.Mm.KernelHalf

/-! The kernel half under mappings at any address. `user_map_4k_in_pml4` takes
whatever address it is given, and `get_or_make_table_in_pml4` puts `PTE_USER` on
every entry it passes: only the address keeps a mapping away from the tables that
all address spaces share. -/
namespace Myria.Mm

open ByteMem RadixForest

variable {m₀ : Mem} {template : U64} {s s' : UserSpaces}

/-- The kernel half of every address space is what `init_kernel_pml4_template`
left in `m₀`: the upper slots of the PML4, the entries of all tables behind them,
and with them every translation and the rights it grants. -/
structure KernelHalfIntact (m₀ : Mem) (template : U64) (s : UserSpaces) : Prop where
  slots : ∀ a ∈ s.created, ∀ i : BitVec 9, 256 ≤ i.toNat →
    entry s.mm.mem a i = entry m₀ template i
  tables : ∀ a ∈ s.created, ∀ t, KernelTable s.mm.mem a t → ∀ j, entry s.mm.mem t j = entry m₀ t j
  translations : ∀ a ∈ s.created, ∀ v, ¬ LowHalf v →
    hwTranslate s.mm.mem a v = hwTranslate m₀ template v

theorem Isolated.kernelHalfIntact (h : Isolated m₀ template s) :
    KernelHalfIntact m₀ template s where
  slots := h.high
  tables := by
    rintro a ha t ⟨i, p, hi, hp, hw⟩
    rw [h.walk_high ha hi hp] at hw
    exact h.shared_entry t ⟨h.template_ne_zero ha, .inr ⟨i, p, hi, hp, hw⟩⟩
  translations := by
    intro a ha v hv
    rw [h.translate ha v, if_neg hv]

/-! ## Calls that stay out of the kernel half -/

/-- A mapping at a low-half address, or one that fails at the first level: its
PML4 slot is empty and there is no page for a table. -/
def StaysLow (s : UserSpaces) : UserAsOp → Prop
  | .create => True
  | .map a va _ _ _ => va.getLsbD 47 = false ∨
      (¬ HasFlag (entry s.mm.mem a (slot4 (vpn va))) ptePresent ∧ s.mm.pmm.Exhausted)

theorem Isolated.pml4 (h : Isolated m₀ template s) {a : U64} (ha : a ∈ s.created) :
    IsFrame a ∧ ¬ s.mm.pmm.Available a :=
  have hr : Reached (child (lowRef s.created) s.mm.mem) (· ∈ s.created) 3 a :=
    ⟨a, [], ha, Nat.zero_le 3, rfl⟩
  ⟨h.low.frame a hr, h.low.unavailable a hr⟩

/-- With no page for the first table, nothing happens. -/
theorem userMap4kInPml4_refused {mm : MmState} (hpmm : mm.pmm.Consistent) {a va : U64}
    (ha : IsFrame a) (hempty : ¬ HasFlag (entry mm.mem a (slot4 (vpn va))) ptePresent)
    (hex : mm.pmm.Exhausted) (pa : U64) (w x : Bool) :
    userMap4kInPml4 mm a va pa w x = (false, mm) := by
  rcases getOrMakeTableInPml4_cases hpmm ha (slot4 (vpn va)) with
    ⟨hpres, -⟩ | ⟨-, -, heq⟩ | ⟨-, f, p', heq, htake, -⟩
  · exact absurd hpres hempty
  · simp only [userMap4kInPml4, pml4Index_eq, heq, if_true]
  · have hnone : pmmAllocPage mm.pmm = (0#64, mm.pmm) := by
      simp [pmmAllocPage, hex.1, hex.2]
    rw [hnone] at heq
    exact absurd (congrArg Prod.fst heq).symm htake.isPage.ne_zero

theorem Isolated.step_staysLow (h : Isolated m₀ template s) {op : UserAsOp} (hlow : StaysLow s op)
    (hs : userAsStepAnyVa s op = some s') : Isolated m₀ template s' := by
  cases op with
  | create =>
    have hs' : userAsStep s .create = some s' := hs
    exact (h.step hs').1
  | map a va pa w x =>
    simp only [userAsStepAnyVa] at hs
    split at hs
    · rename_i ha
      rcases hlow with hva | ⟨hempty, hex⟩
      · have hs' : userAsStep s (.map a va pa w x) = some s' := by
          simp only [userAsStep, if_pos hva, userAsStepAnyVa, if_pos ha]
          exact hs
        exact (h.step hs').1
      · rw [userMap4kInPml4_refused h.pmm (h.pml4 ha).1 hempty hex] at hs
        cases Option.some.inj hs
        exact h
    · cases hs

/-! ## Calls that do not -/

/-- Slot `j` of the frame `a`, which is in use, is open to user mode. -/
structure OpenSlot (mm : MmState) (a : U64) (j : BitVec 9) : Prop where
  pmm : mm.pmm.Consistent
  frame : IsFrame a
  unavailable : ¬ mm.pmm.Available a
  user : HasFlag (entry mm.mem a j) pteUser

theorem hasFlag_setEntry {m : Mem} {a t : U64} {i j : BitVec 9} {e : U64} (ha : IsFrame a)
    (ht : IsFrame t) (he : HasFlag e pteUser)
    (h : ¬ (a = t ∧ j = i) → HasFlag (entry m a j) pteUser) :
    HasFlag (entry (setEntry m t i e) a j) pteUser := by
  rw [entry_setEntry m ht ha]
  split
  · exact he
  · rename_i hne
    exact h hne

/-- A level of the walk leaves an open slot open, or opens it. -/
theorem getOrMakeTableInPml4_open {mm : MmState} {a t : U64} {i j : BitVec 9}
    (hpmm : mm.pmm.Consistent) (ha : IsFrame a) (hav : ¬ mm.pmm.Available a) (ht : IsFrame t)
    (h : HasFlag (entry mm.mem a j) pteUser ∨
      (a = t ∧ j = i ∧ (HasFlag (entry mm.mem t i) ptePresent ∨ ¬ mm.pmm.Exhausted))) :
    OpenSlot (getOrMakeTableInPml4 mm t (i.setWidth 64) pteUser).2 a j ∧
      (getOrMakeTableInPml4 mm t (i.setWidth 64) pteUser).2.getHhdmBase = mm.getHhdmBase ∧
      ((getOrMakeTableInPml4 mm t (i.setWidth 64) pteUser).1 ≠ 0#64 →
        ∃ f, IsFrame f ∧
          (getOrMakeTableInPml4 mm t (i.setWidth 64) pteUser).1 = f + mm.getHhdmBase) := by
  rcases getOrMakeTableInPml4_cases hpmm ht i with
    ⟨hpres, heq⟩ | ⟨hempty, hex, heq⟩ | ⟨hempty, f, p', -, htake, heq⟩
  · rw [heq]
    refine ⟨⟨hpmm, ha, hav, ?_⟩, rfl, fun _ => ⟨_, pteToPhys_isFrame _, rfl⟩⟩
    refine hasFlag_setEntry ha ht (hasFlag_or.mpr (.inr (by decide))) fun hne => ?_
    exact h.resolve_right fun hat => hne ⟨hat.1, hat.2.1⟩
  · rw [heq]
    refine ⟨⟨hpmm, ha, hav, ?_⟩, rfl, fun hne => absurd rfl hne⟩
    exact h.resolve_right fun hat => hat.2.2.elim hempty (fun hnot => hnot hex)
  · rw [heq]
    have hne : a ≠ f := fun heq => hav (heq ▸ htake.available)
    refine ⟨⟨htake.consistent, ha, fun hb => hav (htake.fewer a hb), ?_⟩, rfl,
      fun _ => ⟨f, htake.isFrame, rfl⟩⟩
    refine hasFlag_setEntry ha ht (hasFlag_or.mpr (.inr (by decide))) fun hat => ?_
    rw [entry_zeroed _ htake.isFrame ha, if_neg hne]
    exact h.resolve_right fun hc => hat ⟨hc.1, hc.2.1⟩

/-- A mapping that gets past the PML4 opens the slot it went through to user mode,
whatever the tables below hold. -/
theorem userMap4kInPml4_open {mm : MmState} (hpmm : mm.pmm.Consistent) {a va : U64} (ha : IsFrame a)
    (hav : ¬ mm.pmm.Available a)
    (hgo : HasFlag (entry mm.mem a (slot4 (vpn va))) ptePresent ∨ ¬ mm.pmm.Exhausted)
    (pa : U64) (w x : Bool) :
    ∃ ok mm', userMap4kInPml4 mm a va pa w x = (ok, mm') ∧
      HasFlag (entry mm'.mem a (slot4 (vpn va))) pteUser := by
  simp only [userMap4kInPml4, pml4Index_eq, pdptIndex_eq, pdIndex_eq, ptIndex_eq,
    MmState.physToVirt]
  obtain ⟨O₁, hbase₁, hptr⟩ := getOrMakeTableInPml4_open hpmm ha hav ha (.inr ⟨rfl, rfl, hgo⟩)
  generalize getOrMakeTableInPml4 mm a _ pteUser = r at *
  obtain ⟨pdpt, mm₁⟩ := r
  by_cases hnull : pdpt = 0#64
  · exact ⟨false, mm₁, by simp only [if_pos hnull], O₁.user⟩
  obtain ⟨f₃, hf₃, rfl⟩ := hptr hnull
  simp only [if_neg hnull, hbase₁, MmState.load_window]
  -- from here on the walk may be anywhere in memory, but it writes entries with `PTE_USER` only
  have ht₃ : IsFrame (entry mm₁.mem a (slot4 (vpn va)) &&& pteAddrMask) := pteToPhys_isFrame _
  obtain ⟨O₂, hbase₂, -⟩ := getOrMakeTableInPml4_open (i := slot3 (vpn va)) O₁.pmm ha
    O₁.unavailable ht₃ (.inl O₁.user)
  generalize getOrMakeTableInPml4 mm₁ _ _ pteUser = r at *
  obtain ⟨pd, mm₂⟩ := r
  by_cases hnull : pd = 0#64
  · exact ⟨false, mm₂, by simp only [if_pos hnull], O₂.user⟩
  simp only [if_neg hnull]
  have ht₂ : IsFrame (entry mm₂.mem f₃ (slot3 (vpn va)) &&& pteAddrMask) := pteToPhys_isFrame _
  obtain ⟨O₃, hbase₃, hptr⟩ := getOrMakeTableInPml4_open (i := slot2 (vpn va)) O₂.pmm ha
    O₂.unavailable ht₂ (.inl O₂.user)
  generalize getOrMakeTableInPml4 mm₂ _ _ pteUser = r at *
  obtain ⟨pt, mm₃⟩ := r
  by_cases hnull : pt = 0#64
  · exact ⟨false, mm₃, by simp only [if_pos hnull], O₃.user⟩
  obtain ⟨f₁, hf₁, rfl⟩ := hptr hnull
  refine ⟨true, _, by simp only [if_neg hnull]; rfl, ?_⟩
  rw [hbase₂, hbase₁, MmState.store_window]
  refine hasFlag_setEntry ha hf₁ (hasFlag_or.mpr (.inr ?_)) fun _ => O₃.user
  cases w <;> cases x <;> decide

theorem not_intact_of_not_staysLow (h : Isolated m₀ template s)
    (huser : template ≠ 0#64 → ∀ i : BitVec 9, 256 ≤ i.toNat →
      ¬ HasFlag (entry m₀ template i) pteUser) {op : UserAsOp} (hhigh : ¬ StaysLow s op)
    (hs : userAsStepAnyVa s op = some s') : ¬ KernelHalfIntact m₀ template s' := by
  cases op with
  | create => exact absurd trivial hhigh
  | map a va pa w x =>
    simp only [StaysLow, not_or, not_and_or, not_not] at hhigh
    obtain ⟨hva, hgo⟩ := hhigh
    simp only [userAsStepAnyVa] at hs
    split at hs
    · rename_i ha
      have hi : 256 ≤ (slot4 (vpn va)).toNat := Nat.le_of_not_lt (lowHalf_vpn.not.mpr hva)
      obtain ⟨ok, mm', heq, hopen⟩ :=
        userMap4kInPml4_open h.pmm (h.pml4 ha).1 (h.pml4 ha).2 hgo pa w x
      simp only [heq] at hs
      cases Option.some.inj hs
      intro hintact
      rw [hintact.slots a ha _ hi] at hopen
      exact huser (h.template_ne_zero ha) _ hi hopen
    · cases hs

/-- **When user mappings leave the kernel half alone.** Suppose the page allocator
was only ever given back held pages and the bootloader's tables are outside what
it may hand out. Along a run of creations and mappings at any address after
`init_kernel_pml4_template`: if every mapping is at a low-half address or refused
for want of a page at the first level, the kernel half is intact throughout; and
when the bootloader's own upper slots are closed to user mode, as the comment on
the copying loop has it, the kernel half is intact throughout only then. -/
theorem user_maps_spare_kernel_half {boot : MmState} (hpmm : boot.pmm.Reachable)
    (hboot : ∀ t, BootTable boot t → ¬ boot.pmm.Available t) {ops : List UserAsOp}
    (hrun : Runs.run userAsStepAnyVa (.start boot) ops = some s) :
    (Runs.StepsMeet userAsStepAnyVa (.start boot) StaysLow ops →
      Runs.Always userAsStepAnyVa (.start boot)
        (KernelHalfIntact (initKernelPml4Template boot).mem
          (initKernelPml4Template boot).kernelPml4TemplatePhys) ops) ∧
    ((∀ i : BitVec 9, 256 ≤ i.toNat →
        ¬ HasFlag (entry boot.mem (boot.cr3 &&& pteAddrMask) i) pteUser) →
      Runs.Always userAsStepAnyVa (.start boot)
        (KernelHalfIntact (initKernelPml4Template boot).mem
          (initKernelPml4Template boot).kernelPml4TemplatePhys) ops →
      Runs.StepsMeet userAsStepAnyVa (.start boot) StaysLow ops) := by
  have hstart := UserSpaces.start_isolated hpmm.consistent hboot
  constructor
  · intro hmeet pre t hpre ht
    have hiso := hmeet.invariant hstart (fun _ _ _ h hlow hs => h.step_staysLow hlow hs)
    exact (hiso pre t hpre ht).kernelHalfIntact
  · intro huser
    have hroot := hboot (boot.cr3 &&& pteAddrMask) ⟨_, [], rfl, Nat.zero_le 3, rfl⟩
    have htemplate : (initKernelPml4Template boot).kernelPml4TemplatePhys ≠ 0#64 →
        ∀ i : BitVec 9, 256 ≤ i.toNat → ¬ HasFlag (entry (initKernelPml4Template boot).mem
          (initKernelPml4Template boot).kernelPml4TemplatePhys i) pteUser := by
      intro hne i hi
      rcases initKernelPml4Template_cases hpmm.consistent hroot with
        hinit | ⟨f, p', m', htake, hinit, hm'⟩
      · rw [hinit] at hne
        exact absurd rfl hne
      · rw [hinit]
        change ¬ HasFlag (entry m' f i) pteUser
        rw [hm' f i htake.isFrame, if_pos rfl, if_pos hi]
        exact huser i hi
    exact (Runs.always_iff_stepsMeet hstart (fun _ h => h.kernelHalfIntact)
      (fun _ _ _ h hlow hs => h.step_staysLow hlow hs)
      (fun _ _ _ h hhigh hs => not_intact_of_not_staysLow h htemplate hhigh hs) hrun).mp

theorem user_maps_spare_onePage :
    ∃ s, Runs.run userAsStepAnyVa (.start .onePage)
        [.create, .map 0x201000#64 0x10000#64 0x300000#64 false true] = some s ∧
      0x201000#64 ∈ s.created ∧
      KernelHalfIntact (initKernelPml4Template .onePage).mem
        (initKernelPml4Template .onePage).kernelPml4TemplatePhys s := by
  obtain ⟨mm, hnew, -⟩ := MmState.create_onePage
  have hcreate : userAsStepAnyVa (.start .onePage) .create = some _ := hnew
  have hstep := userAsStepAnyVa_map (s := ⟨mm, [0x201000#64], fun _ _ => none⟩) List.mem_cons_self
    0x10000#64 0x300000#64 false true
  have hrun := (Runs.run_cons_of_step hcreate _).trans (Runs.run_cons_of_step hstep [])
  have hpmm : MmState.onePage.pmm.Reachable := pmmInit_reachable _
  obtain ⟨hintact, -⟩ := user_maps_spare_kernel_half hpmm
    (fun t ht => MmState.onePage_unavailable ht) hrun
  refine ⟨_, hrun, List.mem_cons_self, hintact ?_ _ _ (List.prefix_refl _) hrun⟩
  intro pre op t hpre _
  have hop : op ∈ [UserAsOp.create, .map 0x201000#64 0x10000#64 0x300000#64 false true] :=
    hpre.subset (List.mem_append_right pre List.mem_cons_self)
  rcases List.mem_cons.mp hop with rfl | hop
  · trivial
  · rw [List.mem_singleton.mp hop]
    exact .inl (by decide)

/-- Memory `m` with the kernel page at the start of the higher half mapped over
with frame `0x300000`, through the PML4 at `0x201000`. -/
def mappedOver (m : Mem) : Mem :=
  setEntry (setEntry (setEntry (setEntry m 0x201000#64 256 0x2007#64) 0x2000#64 0 0x3007#64)
    0x3000#64 0 0x4007#64) 0x4000#64 0 0x300007#64

theorem entry_mappedOver (m : Mem) {t : U64} (ht : IsFrame t) (j : BitVec 9) :
    entry (mappedOver m) t j =
      if t = 0x4000#64 ∧ j = 0 then 0x300007#64 else if t = 0x3000#64 ∧ j = 0 then 0x4007#64
      else if t = 0x2000#64 ∧ j = 0 then 0x3007#64
      else if t = 0x201000#64 ∧ j = 256 then 0x2007#64 else entry m t j := by
  rw [mappedOver, entry_setEntry _ (by decide) ht, entry_setEntry _ (by decide) ht,
    entry_setEntry _ (by decide) ht, entry_setEntry _ (by decide) ht]

theorem kernelPageSlots : slot4 (vpn 0xffff800000000000#64) = 256 ∧
    slot3 (vpn 0xffff800000000000#64) = 0 ∧ slot2 (vpn 0xffff800000000000#64) = 0 ∧
    slot1 (vpn 0xffff800000000000#64) = 0 := by decide

/-- The entries on the way to the kernel's page decide its translation. -/
theorem hwTranslate_kernelPage {m : Mem} {root e₄ e₃ e₂ e₁ : U64} (h₄ : entry m root 256 = e₄)
    (h₃ : entry m (pteToPhys e₄) 0 = e₃) (h₂ : entry m (pteToPhys e₃) 0 = e₂)
    (h₁ : entry m (pteToPhys e₂) 0 = e₁)
    (hp : HasFlag e₄ ptePresent ∧ HasFlag e₃ ptePresent ∧ HasFlag e₂ ptePresent ∧
      HasFlag e₁ ptePresent)
    (hh : ¬ HasFlag e₄ pteHugePage ∧ ¬ HasFlag e₃ pteHugePage ∧ ¬ HasFlag e₂ pteHugePage) :
    hwTranslate m root (vpn 0xffff800000000000#64) =
      some (.through [e₄, e₃, e₂, e₁] (pteToPhys e₁)) := by
  obtain ⟨hs₄, hs₃, hs₂, hs₁⟩ := kernelPageSlots
  apply hwTranslate_of_entries _ _ _ _ hp hh
  · rw [hs₄, h₄]
  · rw [hs₃, h₃]
  · rw [hs₂, h₂]
  · rw [hs₁, h₁]

/-- A mapping at a kernel address: the PML4 slot and every table behind it, which
all address spaces share, are opened to user mode, and the kernel's page is
replaced. -/
theorem user_map_opens_kernel_half :
    ∃ s s', Runs.run userAsStepAnyVa (.start .onePage) [.create] = some s ∧
      userAsStepAnyVa s (.map 0x201000#64 0xffff800000000000#64 0x300000#64 true true) = some s' ∧
      hwTranslate s.mm.mem 0x201000#64 (vpn 0xffff800000000000#64) =
        some ⟨0x5000#64, false, true, false⟩ ∧
      hwTranslate s'.mm.mem 0x201000#64 (vpn 0xffff800000000000#64) =
        some ⟨0x300000#64, true, true, false⟩ ∧
      entry s.mm.mem 0x4000#64 0 = 0x5003#64 ∧ entry s'.mm.mem 0x4000#64 0 = 0x300007#64 := by
  obtain ⟨mm, hnew, -, -, hbase, hm⟩ := MmState.create_onePage
  have hcreate : userAsStepAnyVa (.start .onePage) .create = some _ := hnew
  obtain ⟨hs₄, hs₃, hs₂, hs₁⟩ := kernelPageSlots
  have hold : ∀ t j, IsFrame t → t ≠ 0x201000#64 → t ≠ 0x200000#64 →
      entry mm.mem t j = entry MmState.onePage.mem t j := by
    intro t j ht ha htemplate
    rw [hm t j ht, if_neg (not_or.mpr ⟨ha, htemplate⟩)]
  have e₄ : entry mm.mem 0x201000#64 256 = 0x2003#64 :=
    (hm _ _ (by decide)).trans (MmState.entry_onePage (by decide) _)
  have e₃ : entry mm.mem (pteToPhys 0x2003#64) 0 = 0x3003#64 :=
    (hold _ _ (by decide) (by decide) (by decide)).trans (MmState.entry_onePage (by decide) _)
  have e₂ : entry mm.mem (pteToPhys 0x3003#64) 0 = 0x4003#64 :=
    (hold _ _ (by decide) (by decide) (by decide)).trans (MmState.entry_onePage (by decide) _)
  have e₁ : entry mm.mem (pteToPhys 0x4003#64) 0 = 0x5003#64 :=
    (hold _ _ (by decide) (by decide) (by decide)).trans (MmState.entry_onePage (by decide) _)
  have hmap : (userMap4kInPml4 mm 0x201000#64 0xffff800000000000#64 0x300000#64 true true).2.mem =
      mappedOver mm.mem := by
    rw [← hs₄] at e₄
    rw [← hs₃] at e₃
    rw [← hs₂] at e₂
    rw [userMap4kInPml4_of_tables hbase (by decide) e₄ e₃ e₂ (by decide) (by decide) (by decide),
      hs₄, hs₃, hs₂, hs₁]
    rfl
  have hstep := userAsStepAnyVa_map (s := ⟨mm, [0x201000#64], fun _ _ => none⟩) List.mem_cons_self
    0xffff800000000000#64 0x300000#64 true true
  refine ⟨_, _, Runs.run_cons_of_step hcreate [], hstep, ?_, ?_, e₁, ?_⟩
  · exact hwTranslate_kernelPage e₄ e₃ e₂ e₁ (by decide) (by decide)
  · rw [hmap]
    have e₄' : entry (mappedOver mm.mem) 0x201000#64 256 = 0x2007#64 :=
      entry_mappedOver _ (by decide) _
    have e₃' : entry (mappedOver mm.mem) (pteToPhys 0x2007#64) 0 = 0x3007#64 :=
      entry_mappedOver _ (by decide) _
    have e₂' : entry (mappedOver mm.mem) (pteToPhys 0x3007#64) 0 = 0x4007#64 :=
      entry_mappedOver _ (by decide) _
    have e₁' : entry (mappedOver mm.mem) (pteToPhys 0x4007#64) 0 = 0x300007#64 :=
      entry_mappedOver _ (by decide) _
    exact hwTranslate_kernelPage e₄' e₃' e₂' e₁' (by decide) (by decide)
  · rw [hmap]
    exact entry_mappedOver _ (by decide) _

end Myria.Mm
