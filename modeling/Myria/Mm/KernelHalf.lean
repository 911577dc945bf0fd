import Myria.Mm.UserIsolation
import Myria.Mm.Vmm

/-! The kernel half in every address space. A PML4 made by `user_as_create` copies
the 256 upper slots of the template, which copied them from the kernel's PML4
once. What `vmm.c` changes below such a slot is seen through every copy; a slot
that was empty when the template was taken stays empty in the copies. -/
namespace Myria.Mm

open ByteMem RadixForest

/-! ## Kernel mappings and address spaces in any order -/

/-- No present entry on the way down path `p` from table `t` is a large page. -/
def NoLargePage (m : Mem) : U64 → List (BitVec 9) → Prop
  | _, [] => True
  | t, i :: p => HasFlag (entry m t i) ptePresent →
      ¬ HasFlag (entry m t i) pteHugePage ∧ NoLargePage m (pteToPhys (entry m t i)) p

instance NoLargePage.decidable (m : Mem) : ∀ t p, Decidable (NoLargePage m t p)
  | _, [] => isTrue trivial
  | t, i :: p =>
    have := NoLargePage.decidable m (pteToPhys (entry m t i)) p
    inferInstanceAs (Decidable (HasFlag (entry m t i) ptePresent →
      ¬ HasFlag (entry m t i) pteHugePage ∧ NoLargePage m (pteToPhys (entry m t i)) p))

inductive KernelHalfOp where
  | mapPage (vaddr paddr flags : U64)
  | unmapPage (vaddr : U64)
  | user (op : UserAsOp)

/-- A kernel-half address on whose way in the kernel's PML4 no large page lies,
which `vmm.c` would take for a table. -/
def KernelAddress (mm : MmState) (va : U64) : Prop :=
  va.getLsbD 47 = true ∧ NoLargePage mm.mem mm.kernelRoot (tablePath (vpn va))

instance (mm : MmState) (va : U64) : Decidable (KernelAddress mm va) :=
  inferInstanceAs (Decidable (_ ∧ _))

def kernelHalfStep (s : UserSpaces) : KernelHalfOp → Option UserSpaces
  | .mapPage va pa flags =>
    if KernelAddress s.mm va then some { s with mm := (vmmMapPage s.mm va pa flags).2 } else none
  | .unmapPage va =>
    if KernelAddress s.mm va then some { s with mm := vmmUnmapPage s.mm va } else none
  | .user op => userAsStep s op

/-! ## What holds between calls -/

/-- `t` is in use, and not as a table of the kernel's PML4 in frame `root`. -/
abbrev KernelOutside (root : U64) (mm : MmState) (t : U64) : Prop :=
  Outside tableRef (· = root) mm.pmm.Available mm.mem t

variable {root template : U64} {e₀ : BitVec 9 → U64} {s : UserSpaces}

/-- The address spaces are isolated from each other, the kernel's tables are a
tree apart from theirs, and where the upper slots `e₀` that the template took are
present the kernel's PML4 still has them. -/
structure Shares (root template : U64) (e₀ : BitVec 9 → U64) (s : UserSpaces) : Prop where
  isolated : Isolated s.mm.mem template s
  root_eq : s.mm.kernelRoot = root
  kernel : Tables tableRef (· = root) (fun _ => True) s.mm.pmm.Available s.mm.mem
  apart : ∀ t, Reached (child tableRef s.mm.mem) (· = root) 3 t → s.Outside t
  template_apart : template ≠ 0#64 → KernelOutside root s.mm template
  taken : template ≠ 0#64 → ∀ i : BitVec 9, 256 ≤ i.toNat → entry s.mm.mem template i = e₀ i
  kept : ∀ i : BitVec 9, 256 ≤ i.toNat → HasFlag (e₀ i) ptePresent → entry s.mm.mem root i = e₀ i

/-- Isolation from the start on is isolation from now on. -/
theorem Isolated.rebase {m₀ : Mem} (h : Isolated m₀ template s) :
    Isolated s.mm.mem template s := by
  have hwalk : ∀ {t}, SharedFrame s.mm.mem template t → SharedFrame m₀ template t := by
    rintro t ⟨hne, rfl | ⟨i, p, hi, hp, hw⟩⟩
    · exact ⟨hne, .inl rfl⟩
    · refine ⟨hne, .inr ⟨i, p, hi, hp, ?_⟩⟩
      rw [← hw]
      symm
      refine walk_cons_congr ?_ (fun q n hq hwq j => ?_) p hp
      · rw [child, h.shared_entry template ⟨hne, .inl rfl⟩ i]
        rfl
      · rw [child, h.shared_entry n ⟨hne, .inr ⟨i, q, hi, Nat.le_of_lt hq, hwq⟩⟩ j]
        rfl
  refine { h with shared := fun t ht => ?_, high := fun a ha i hi => ?_ }
  · have O := h.shared_outside (hwalk ht)
    exact ⟨O.frame, O.unavailable, O.unreached, fun _ => rfl⟩
  · rw [h.high a ha i hi, h.shared_entry template ⟨h.template_ne_zero ha, .inl rfl⟩ i]

namespace Shares

/-- The tables behind the template are the kernel's. -/
theorem reached_of_shared {m : Mem}
    (htaken : template ≠ 0#64 → ∀ i : BitVec 9, 256 ≤ i.toNat → entry m template i = e₀ i)
    (hkept : ∀ i : BitVec 9, 256 ≤ i.toNat → HasFlag (e₀ i) ptePresent → entry m root i = e₀ i)
    {t : U64} (ht : SharedFrame m template t) :
    t = template ∨ Reached (child tableRef m) (· = root) 3 t := by
  obtain ⟨hne, rfl | ⟨i, p, hi, hp, hw⟩⟩ := ht
  · exact .inl rfl
  · refine .inr ⟨root, i :: p, rfl, Nat.succ_le_succ hp, ?_⟩
    rw [← hw]
    refine walk_cons_congr ?_ (fun q n hq hwq j => rfl) p hp
    by_cases hp₀ : HasFlag (e₀ i) ptePresent
    · rw [child, child, hkept i hi hp₀, htaken hne i hi]
      rfl
    · -- an entry that is not present refers to no table
      rw [walk, child, htaken hne i hi, tableRef, if_neg (fun h => hp₀ h.1)] at hw
      cases hw

/-- A call of `user_as.c` writes no table of the kernel. -/
theorem user_step (h : Shares root template e₀ s) {op : UserAsOp} {s' : UserSpaces}
    (hs : userAsStep s op = some s') : Shares root template e₀ s' := by
  obtain ⟨hiso, S⟩ := h.isolated.step hs
  have hkeep : ∀ t j, Reached (child tableRef s.mm.mem) (· = root) 3 t →
      entry s'.mm.mem t j = entry s.mm.mem t j := fun t j ht => (S.kept t (h.apart t ht)).2 j
  have htaken : ∀ t, Reached (child tableRef s.mm.mem) (· = root) 3 t →
      ¬ s'.mm.pmm.Available t := fun t ht => (S.kept t (h.apart t ht)).1.unavailable
  obtain ⟨hkernel, hreach, -⟩ := h.kernel.of_entry_eq hkeep htaken
  have htemplate : template ≠ 0#64 → s.Outside template := fun hne =>
    h.isolated.shared_outside ⟨hne, .inl rfl⟩
  exact
    { isolated := hiso.rebase
      root_eq := by rw [MmState.kernelRoot, S.pml4]; exact h.root_eq
      kernel := hkernel
      apart := fun t ht => (S.kept t (h.apart t ((hreach t).mp ht))).1
      template_apart := fun hne =>
        ⟨(h.template_apart hne).frame, (S.kept template (htemplate hne)).1.unavailable,
          fun hr => (h.template_apart hne).unreached ((hreach template).mp hr)⟩
      taken := fun hne i hi =>
        ((S.kept template (htemplate hne)).2 i).trans (h.taken hne i hi)
      kept := fun i hi hp =>
        ((S.kept root (h.apart root ⟨root, [], rfl, Nat.zero_le 3, rfl⟩)).2 i).trans
          (h.kept i hi hp) }

/-- The low-half tables are outside the kernel's. -/
theorem low_outside (h : Shares root template e₀ s) {t : U64}
    (ht : Reached (child (lowRef s.created) s.mm.mem) (· ∈ s.created) 3 t) :
    KernelOutside root s.mm t :=
  ⟨h.isolated.low.frame t ht, h.isolated.low.unavailable t ht,
    fun hr => (h.apart t hr).unreached ht⟩

/-- An edit of the kernel's tables that leaves other frames in use and the
present slots of the kernel's PML4 alone. -/
theorem kernel_edit (h : Shares root template e₀ s) {mm' : MmState}
    (hroot : mm'.kernelRoot = s.mm.kernelRoot)
    (htemplate : mm'.kernelPml4TemplatePhys = s.mm.kernelPml4TemplatePhys)
    (hpmm : mm'.pmm.Consistent)
    (hkernel : Tables tableRef (· = root) (fun _ => True) mm'.pmm.Available mm'.mem)
    (hout : ∀ t, KernelOutside root s.mm t →
      KernelOutside root mm' t ∧ ∀ j, entry mm'.mem t j = entry s.mm.mem t j)
    (hslots : ∀ i, HasFlag (entry s.mm.mem root i) ptePresent →
      entry mm'.mem root i = entry s.mm.mem root i) :
    Shares root template e₀ { s with mm := mm' } := by
  obtain ⟨hlowTables, hreach, hleaf⟩ := h.isolated.low.of_entry_eq
    (fun t j ht => (hout t (h.low_outside ht)).2 j)
    (fun t ht => (hout t (h.low_outside ht)).1.unavailable)
  have hapart : ∀ t, Reached (child tableRef mm'.mem) (· = root) 3 t →
      UserSpaces.Outside { s with mm := mm' } t := fun t ht =>
    ⟨hkernel.frame t ht, hkernel.unavailable t ht,
      fun hr => (hout t (h.low_outside ((hreach t).mp hr))).1.unreached ht⟩
  have htaken : template ≠ 0#64 → ∀ i : BitVec 9, 256 ≤ i.toNat →
      entry mm'.mem template i = e₀ i := fun hne i hi =>
    ((hout template (h.template_apart hne)).2 i).trans (h.taken hne i hi)
  have hkept : ∀ i : BitVec 9, 256 ≤ i.toNat → HasFlag (e₀ i) ptePresent →
      entry mm'.mem root i = e₀ i := by
    intro i hi hp
    have hi₀ := h.kept i hi hp
    rw [hslots i (hi₀.symm ▸ hp), hi₀]
  refine
    { isolated :=
        { pmm := hpmm, template_eq := htemplate.trans h.isolated.template_eq
          nothing_created := h.isolated.nothing_created
          low := hlowTables, shared := ?_, high := ?_
          unmapped := h.isolated.unmapped, mapped := ?_ }
      root_eq := hroot.trans h.root_eq, kernel := hkernel, apart := hapart
      template_apart := fun hne => (hout template (h.template_apart hne)).1
      taken := htaken, kept := hkept }
  · intro t ht
    rcases reached_of_shared htaken hkept ht with rfl | hr
    · have O := (hout t (h.template_apart ht.1)).1
      refine ⟨O.frame, O.unavailable, fun hr => ?_, fun _ => rfl⟩
      exact (h.isolated.shared_outside ⟨ht.1, .inl rfl⟩).unreached ((hreach t).mp hr)
    · exact ⟨(hapart t hr).frame, (hapart t hr).unavailable, (hapart t hr).unreached, fun _ => rfl⟩
  · intro a ha i hi
    have hne := h.isolated.template_ne_zero ha
    have hroot : Reached (child (lowRef s.created) s.mm.mem) (· ∈ s.created) 3 a :=
      ⟨a, [], ha, Nat.zero_le 3, rfl⟩
    rw [(hout a (h.low_outside hroot)).2 i, h.isolated.high a ha i hi, htaken hne i hi,
      h.taken hne i hi]
  · intro a ha v hv
    rw [← h.isolated.mapped a ha v hv]
    exact congrArg (·.bind decodePte) (hleaf a (tablePath v) (slot1 v) ha (Nat.le_refl 3))

end Shares

/-! ## The calls of `vmm.c` -/

theorem NoLargePage.walk_eq {m : Mem} {p : List (BitVec 9)} :
    ∀ {t : U64}, NoLargePage m t p →
      walk (child followPresent m) t p = walk (child tableRef m) t p := by
  induction p with
  | nil => intro t _; rfl
  | cons i p ih =>
    intro t h
    simp only [walk, child, presentRef, tableRef]
    by_cases hp : HasFlag (entry m t i) ptePresent
    · obtain ⟨hhuge, hrest⟩ := h hp
      rw [if_pos hp, if_pos ⟨hp, hhuge⟩]
      exact ih hrest
    · rw [if_neg hp, if_neg (fun hc => hp hc.1)]
      rfl

theorem tableRef_table {f flags : U64} (hf : IsFrame f) (hflags : flags &&& pteAddrMask = 0#64)
    (hp : HasFlag flags ptePresent) (hhuge : ¬ HasFlag flags pteHugePage) (t : U64) (i : BitVec 9) :
    tableRef t i (f ||| flags) = some f := by
  have hnot : ¬ HasFlag (f ||| flags) pteHugePage := by
    rw [hasFlag_or, not_or]
    exact ⟨hf.not_hasFlag (by decide), hhuge⟩
  rw [tableRef, if_pos ⟨hasFlag_or.mpr (.inr hp), hnot⟩, hf.pteToPhys_or hflags]

namespace Shares

/-- One level of `vmm_map_page` at the kernel table `t`, with the path `i :: q`
still to go. -/
theorem getCreateTable (h : Shares root template e₀ s) {p q : List (BitVec 9)} {t : U64}
    {i : BitVec 9} (hw : walk (child tableRef s.mm.mem) root p = some t) (hp : p.length ≤ 2)
    (hlarge : NoLargePage s.mm.mem t (i :: q)) :
    Mm.getCreateTable s.mm (t + kernelVmaBase) (i.setWidth 64) = (none, s.mm) ∨
    ∃ f mm', Mm.getCreateTable s.mm (t + kernelVmaBase) (i.setWidth 64) =
        (some (f + kernelVmaBase), mm') ∧
      Shares root template e₀ { s with mm := mm' } ∧
      walk (child tableRef mm'.mem) root (p ++ [i]) = some f ∧ NoLargePage mm'.mem f q := by
  have ht : IsFrame t := h.kernel.isFrame rfl (by omega) hw
  rcases getCreateTable_cases h.isolated.pmm ht i with
    ⟨hpres, heq⟩ | ⟨-, -, heq⟩ | ⟨hpres, f, p', -, htake, heq⟩
  · obtain ⟨hhuge, hrest⟩ := hlarge hpres
    refine .inr ⟨_, s.mm, heq, h, ?_, hrest⟩
    rw [walk_concat, hw]
    exact if_pos ⟨hpres, hhuge⟩
  · exact .inl heq
  have hf : IsFrame f := htake.isFrame
  have L : Linkable tableRef (· = root) (fun _ => True) s.mm.pmm.Available p'.Available s.mm.mem
      root p t i f (f ||| ptePresent ||| pteWritable) :=
    { root := rfl, depth := hp, walks := hw, empty := if_neg fun hc => hpres hc.1, frame := hf
      available := htake.available, taken := htake.taken, fewer := htake.fewer
      refers := by
        rw [BitVec.or_assoc]
        exact tableRef_table hf (by decide) (by decide) (by decide) t i
      ok := trivial, zero := tableRef_zero }
  have hlen : (p ++ [i]).length ≤ 3 := length_concat_le i hp
  refine .inr ⟨f, _, heq, ?_, ?_, ?_⟩
  · refine h.kernel_edit ?_ ?_ htake.consistent (h.kernel.link L) ?_ ?_
    · rfl
    · rfl
    · exact fun t' O => h.kernel.link_outside L O
    · -- the slot written was empty, so no present slot of the PML4 is lost
      intro j hj
      have hroot : Reached (child tableRef s.mm.mem) (· = root) 3 root :=
        ⟨root, [], rfl, Nat.zero_le 3, rfl⟩
      have hne : root ≠ f := fun heq => h.kernel.not_reached htake.available (heq ▸ hroot)
      rw [entry_linked s.mm.mem ht hf (h.kernel.frame root hroot), if_neg, if_neg hne]
      rintro ⟨rfl, rfl⟩
      exact hpres hj
  · exact (h.kernel.walk_linked L rfl hlen).trans (if_pos ⟨rfl, rfl⟩)
  · cases q with
    | nil => trivial
    | cons j q =>
      intro hj
      rw [entry_linked_fresh s.mm.mem ht hf (h.kernel.parent_ne L)] at hj
      exact absurd hj (not_hasFlag_zero _)

/-- Writing an entry of one of the kernel's page tables. -/
theorem setLeaf (h : Shares root template e₀ s) {v : BitVec 36} {t : U64}
    (hw : walk (child tableRef s.mm.mem) root (tablePath v) = some t) (e : U64) :
    Shares root template e₀
      { s with mm := { s.mm with mem := setEntry s.mm.mem t (slot1 v) e } } := by
  have hlen : (tablePath v).length = 3 := rfl
  obtain ⟨htables, hwalk, -⟩ := h.kernel.setLeaf (i := slot1 v) rfl hlen hw e
  refine h.kernel_edit ?_ ?_ h.isolated.pmm htables ?_ ?_
  · rfl
  · rfl
  · exact fun t' O => h.kernel.setEntry_outside rfl (Nat.le_of_eq hlen) hw hwalk O
  · intro i _
    have hroot : IsFrame root := h.kernel.isFrame (p := []) rfl (Nat.zero_le 3) rfl
    have hne : root ≠ t := h.kernel.forest.ne_of_length_ne (p := []) rfl rfl (Nat.zero_le 3)
      (Nat.le_of_eq hlen) rfl hw (by rw [hlen]; decide)
    rw [entry_setEntry _ (h.kernel.isFrame rfl (Nat.le_of_eq hlen) hw) hroot,
      if_neg (fun hc => hne hc.1)]

theorem vmmMapPage (h : Shares root template e₀ s) {va : U64} (hva : KernelAddress s.mm va)
    (pa flags : U64) :
    Shares root template e₀ { s with mm := (vmmMapPage s.mm va pa flags).2 } := by
  have hlarge := hva.2
  rw [h.root_eq] at hlarge
  simp only [Mm.vmmMapPage, pml4Index_eq, pdptIndex_eq, pdIndex_eq, ptIndex_eq, vpn_pageAlignDown]
  rw [s.mm.pml4_window, h.root_eq]
  rcases h.getCreateTable (p := []) rfl (Nat.zero_le 2) hlarge with
    heq | ⟨pdpt, mm₁, heq, h₁, hw₁, hlarge⟩
  · simp only [heq]
    exact h
  simp only [heq]
  rcases h₁.getCreateTable hw₁ (Nat.le_succ 1) hlarge with
    heq | ⟨pd, mm₂, heq, h₂, hw₂, hlarge⟩
  · simp only [heq]
    exact h₁
  simp only [heq]
  rcases h₂.getCreateTable hw₂ (Nat.le_refl 2) hlarge with
    heq | ⟨pt, mm₃, heq, h₃, hw₃, -⟩
  · simp only [heq]
    exact h₂
  simp only [heq, MmState.store_window]
  exact h₃.setLeaf (v := vpn va) hw₃ _

theorem vmmUnmapPage (h : Shares root template e₀ s) {va : U64} (hva : KernelAddress s.mm va) :
    Shares root template e₀ { s with mm := vmmUnmapPage s.mm va } := by
  simp only [Mm.vmmUnmapPage, findPageTable_eq, vpn_pageAlignDown, ptIndex_eq]
  rw [hva.2.walk_eq, h.root_eq]
  cases hw : walk (child tableRef s.mm.mem) root (tablePath (vpn va)) with
  | none => exact h
  | some t =>
    simp only [Option.map_some, MmState.store_window]
    exact h.setLeaf hw 0

theorem step (h : Shares root template e₀ s) {op : KernelHalfOp} {s' : UserSpaces}
    (hs : kernelHalfStep s op = some s') : Shares root template e₀ s' := by
  cases op with
  | mapPage va pa flags =>
    simp only [kernelHalfStep] at hs
    split at hs
    · rename_i hva
      cases Option.some.inj hs
      exact h.vmmMapPage hva pa flags
    · cases hs
  | unmapPage va =>
    simp only [kernelHalfStep] at hs
    split at hs
    · rename_i hva
      cases Option.some.inj hs
      exact h.vmmUnmapPage hva
    · cases hs
  | user op => exact h.user_step hs

end Shares

/-! ## From the bootloader's tables on -/

theorem bootTable_tables {boot : MmState}
    (hforest : Forest (child tableRef boot.mem) (· = boot.cr3 &&& pteAddrMask) 3)
    (hboot : ∀ t, BootTable boot t → ¬ boot.pmm.Available t) :
    Tables tableRef (· = boot.cr3 &&& pteAddrMask) (fun _ => True) boot.pmm.Available boot.mem where
  forest := hforest
  frame := by
    rintro t ⟨r, p, rfl, -, hw⟩
    cases p with
    | nil =>
      cases Option.some.inj hw
      exact pteToPhys_isFrame boot.cr3
    | cons i p => exact isFrame_of_walk_cons hw
  unavailable := hboot
  inner := fun _ _ _ _ _ _ _ _ => trivial

theorem UserSpaces.start_shares {boot : MmState} (hpmm : boot.pmm.Consistent)
    (hroot : boot.kernelRoot = boot.cr3 &&& pteAddrMask)
    (hboot : ∀ t, BootTable boot t → ¬ boot.pmm.Available t)
    (hforest : Forest (child tableRef boot.mem) (· = boot.cr3 &&& pteAddrMask) 3) :
    Shares (boot.cr3 &&& pteAddrMask) (initKernelPml4Template boot).kernelPml4TemplatePhys
      (entry boot.mem (boot.cr3 &&& pteAddrMask)) (UserSpaces.start boot) := by
  have hiso := UserSpaces.start_isolated hpmm hboot
  have T := bootTable_tables hforest hboot
  have hr : Reached (child tableRef boot.mem) (· = boot.cr3 &&& pteAddrMask) 3
      (boot.cr3 &&& pteAddrMask) := ⟨_, [], rfl, Nat.zero_le 3, rfl⟩
  have hnone : ∀ {m t}, ¬ Reached (child (lowRef []) m) (· ∈ ([] : List U64)) 3 t := by
    rintro m t ⟨r, p, hmem, -⟩
    cases hmem
  simp only [UserSpaces.start] at *
  rcases initKernelPml4Template_cases hpmm (hboot _ hr) with hinit | ⟨f, p', m', htake, hinit, hm'⟩
  · -- no template, and then no address space either
    rw [hinit] at hiso ⊢
    exact
      { isolated := hiso, root_eq := hroot, kernel := T
        apart := fun t ht => ⟨T.frame t ht, T.unavailable t ht, hnone⟩
        template_apart := fun hne => absurd rfl hne
        taken := fun hne => absurd rfl hne
        kept := fun _ _ _ => rfl }
  · have hne : ∀ {t}, Reached (child tableRef boot.mem) (· = boot.cr3 &&& pteAddrMask) 3 t →
        t ≠ f := fun ht heq => T.not_reached htake.available (heq ▸ ht)
    have hkeep : ∀ t j, Reached (child tableRef boot.mem) (· = boot.cr3 &&& pteAddrMask) 3 t →
        entry m' t j = entry boot.mem t j := fun t j ht => by
      rw [hm' t j (T.frame t ht), if_neg (hne ht)]
    obtain ⟨hkernel, hreach, -⟩ := T.of_entry_eq hkeep
      (fun t ht hb => T.unavailable t ht (htake.fewer t hb))
    rw [hinit] at hiso ⊢
    exact
      { isolated := hiso, root_eq := hroot, kernel := hkernel
        apart := fun t ht => ⟨hkernel.frame t ht, hkernel.unavailable t ht, hnone⟩
        template_apart := fun _ => ⟨htake.isFrame, htake.taken,
          fun ht => hne ((hreach f).mp ht) rfl⟩
        taken := fun _ i hi => by
          change entry m' f i = _
          rw [hm' f i htake.isFrame, if_pos rfl, if_pos hi]
        kept := fun i _ _ => hkeep _ i hr }

/-- Translation starts from the slot in the PML4 and looks at nothing else there. -/
theorem hwTranslate_of_slot_eq {m : Mem} {r r' : U64} {v : BitVec 36}
    (h : entry m r' (slot4 v) = entry m r (slot4 v)) : hwTranslate m r' v = hwTranslate m r v :=
  hwTranslate_congr h fun _ _ _ _ _ => rfl

/-- **Which kernel mappings an address space has.** Suppose the page allocator
was only ever given back held pages, `current_pml4` is at the PML4 of CR3, and
the bootloader's tables are a tree outside what the allocator may hand out. After
`init_kernel_pml4_template`, interleave in any way `vmm_map_page` and
`vmm_unmap_page` on kernel-half addresses that meet no large page,
`user_as_create` and low-half `user_map_4k_in_pml4`. Through every created PML4 a
high-half page is translated as through the kernel's own if its PML4 slot was
present when the template was taken, and not at all otherwise. -/
theorem kernel_half_follows_template {boot : MmState} (hpmm : boot.pmm.Reachable)
    (hroot : boot.kernelRoot = boot.cr3 &&& pteAddrMask)
    (hboot : ∀ t, BootTable boot t → ¬ boot.pmm.Available t)
    (hforest : Forest (child tableRef boot.mem) (· = boot.cr3 &&& pteAddrMask) 3)
    {ops : List KernelHalfOp} (hrun : Runs.run kernelHalfStep (.start boot) ops = some s) :
    ∀ a ∈ s.created, ∀ v, ¬ LowHalf v →
      hwTranslate s.mm.mem a v =
        if HasFlag (entry boot.mem (boot.cr3 &&& pteAddrMask) (slot4 v)) ptePresent then
          hwTranslate s.mm.mem s.mm.kernelRoot v
        else none := by
  have h := Runs.run_invariant
    (P := fun _ s => Shares (boot.cr3 &&& pteAddrMask)
      (initKernelPml4Template boot).kernelPml4TemplatePhys
      (entry boot.mem (boot.cr3 &&& pteAddrMask)) s)
    (UserSpaces.start_shares hpmm.consistent hroot hboot hforest)
    (fun _ _ _ _ _ h hs => h.step hs) ops s hrun
  intro a ha v hv
  have hi : 256 ≤ (slot4 v).toNat := Nat.le_of_not_lt hv
  have hslot : entry s.mm.mem a (slot4 v) = entry boot.mem (boot.cr3 &&& pteAddrMask) (slot4 v) :=
    (h.isolated.high a ha _ hi).trans (h.taken (h.isolated.template_ne_zero ha) _ hi)
  split
  · rename_i hp
    apply hwTranslate_of_slot_eq
    rw [hslot, h.root_eq, h.kept _ hi hp]
  · rename_i hp
    rw [← hslot] at hp
    exact hwTranslate_of_absent hp

/-! ## One kernel page -/

/-- The kernel's image as one page, at the start of the higher half. -/
def MmState.onePage : MmState :=
  .booted (setEntry (setEntry (setEntry (setEntry blank.mem 0x1000#64 256 0x2003#64)
    0x2000#64 0 0x3003#64) 0x3000#64 0 0x4003#64) 0x4000#64 0 0x5003#64)

theorem MmState.entry_onePage {t : U64} (ht : IsFrame t) (i : BitVec 9) :
    entry onePage.mem t i =
      if t = 0x4000#64 ∧ i = 0 then 0x5003#64 else if t = 0x3000#64 ∧ i = 0 then 0x4003#64
      else if t = 0x2000#64 ∧ i = 0 then 0x3003#64
      else if t = 0x1000#64 ∧ i = 256 then 0x2003#64 else 0#64 := by
  simp only [onePage]
  rw [entry_setEntry _ (by decide) ht, entry_setEntry _ (by decide) ht,
    entry_setEntry _ (by decide) ht, entry_setEntry _ (by decide) ht, entry_blank]

/-- The only path through its tables. -/
theorem MmState.walk_onePage {p : List (BitVec 9)} {n : U64} (hp : p.length ≤ 3)
    (hw : walk (child tableRef onePage.mem) 0x1000#64 p = some n) :
    (p = [] ∧ n = 0x1000#64) ∨ (p = [256] ∧ n = 0x2000#64) ∨ (p = [256, 0] ∧ n = 0x3000#64) ∨
      (p = [256, 0, 0] ∧ n = 0x4000#64) := by
  have hchild : ∀ {t i n}, IsFrame t → child tableRef onePage.mem t i = some n →
      (t = 0x4000#64 ∧ i = 0) ∨ (t = 0x3000#64 ∧ i = 0 ∧ n = 0x4000#64) ∨
        (t = 0x2000#64 ∧ i = 0 ∧ n = 0x3000#64) ∨ (t = 0x1000#64 ∧ i = 256 ∧ n = 0x2000#64) := by
    intro t i n ht hc
    rw [child, entry_onePage ht] at hc
    split_ifs at hc with h₁ h₂ h₃ h₄
    · exact .inl h₁
    · exact .inr (.inl ⟨h₂.1, h₂.2, (Option.some.inj hc).symm⟩)
    · exact .inr (.inr (.inl ⟨h₃.1, h₃.2, (Option.some.inj hc).symm⟩))
    · exact .inr (.inr (.inr ⟨h₄.1, h₄.2, (Option.some.inj hc).symm⟩))
    · rw [tableRef_zero] at hc
      cases hc
  induction p using List.reverseRecOn generalizing n with
  | nil => exact .inl ⟨rfl, (Option.some.inj hw).symm⟩
  | append_singleton q i ih =>
    have hq : q.length ≤ 2 := by
      rw [List.length_append, List.length_singleton] at hp
      omega
    rw [walk_concat] at hw
    obtain ⟨t, hwq, hc⟩ := Option.bind_eq_some_iff.mp hw
    rcases ih (by omega) hwq with ⟨rfl, rfl⟩ | ⟨rfl, rfl⟩ | ⟨rfl, rfl⟩ | ⟨rfl, rfl⟩
    · rcases hchild (by decide) hc with ⟨h, -⟩ | ⟨h, -⟩ | ⟨h, -⟩ | ⟨-, rfl, rfl⟩
      · exact absurd h (by decide)
      · exact absurd h (by decide)
      · exact absurd h (by decide)
      · exact .inr (.inl ⟨rfl, rfl⟩)
    · rcases hchild (by decide) hc with ⟨h, -⟩ | ⟨h, -⟩ | ⟨-, rfl, rfl⟩ | ⟨h, -⟩
      · exact absurd h (by decide)
      · exact absurd h (by decide)
      · exact .inr (.inr (.inl ⟨rfl, rfl⟩))
      · exact absurd h (by decide)
    · rcases hchild (by decide) hc with ⟨h, -⟩ | ⟨-, rfl, rfl⟩ | ⟨h, -⟩ | ⟨h, -⟩
      · exact absurd h (by decide)
      · exact .inr (.inr (.inr ⟨rfl, rfl⟩))
      · exact absurd h (by decide)
      · exact absurd h (by decide)
    · exact absurd hq (by decide)

theorem MmState.onePage_forest :
    Forest (child tableRef onePage.mem) (· = onePage.cr3 &&& pteAddrMask) 3 := by
  intro r r' p p' n hr hr' hp hp' hw hw'
  subst hr hr'
  refine ⟨rfl, ?_⟩
  rcases walk_onePage hp hw with ⟨rfl, rfl⟩ | ⟨rfl, rfl⟩ | ⟨rfl, rfl⟩ | ⟨rfl, rfl⟩ <;>
    rcases walk_onePage hp' hw' with ⟨rfl, h⟩ | ⟨rfl, h⟩ | ⟨rfl, h⟩ | ⟨rfl, h⟩ <;>
    first
    | rfl
    | exact absurd h (by decide)

theorem MmState.onePage_unavailable {t : U64} (ht : BootTable onePage t) :
    ¬ onePage.pmm.Available t := by
  obtain ⟨r, p, rfl, hp, hw⟩ := ht
  rw [Pmm.Available]
  rcases walk_onePage hp hw with ⟨-, rfl⟩ | ⟨-, rfl⟩ | ⟨-, rfl⟩ | ⟨-, rfl⟩ <;> decide

/-- The first address space over that memory. -/
theorem MmState.create_onePage :
    ∃ mm, kernelHalfStep (.start onePage) (.user .create) =
        some ⟨mm, [0x201000#64], fun _ _ => none⟩ ∧
      mm.pmm = (pmmAllocPage (pmmAllocPage blank.pmm).2).2 ∧
      mm.kernelRoot = 0x1000#64 ∧ mm.getHhdmBase = 0xffff800000000000#64 ∧
      ∀ t j, IsFrame t → entry mm.mem t j =
        if t = 0x201000#64 ∨ t = 0x200000#64 then
          (if 256 ≤ j.toNat then entry onePage.mem 0x1000#64 j else 0#64)
        else entry onePage.mem t j := by
  obtain ⟨m', hnew, hm'⟩ := userAsCreate_booted onePage.mem
  have hstep := userAsStep_create (s := .start onePage) hnew (by decide)
  refine ⟨_, hstep, rfl, ?_, rfl, hm'⟩
  change blank.kernelRoot = _
  decide

/-! ## What is seen of later kernel mappings -/

theorem kernelHalfStep_mapPage {va : U64} (hva : KernelAddress s.mm va) (pa flags : U64) :
    kernelHalfStep s (.mapPage va pa flags) =
      some { s with mm := (vmmMapPage s.mm va pa flags).2 } := if_pos hva

/-- A page mapped below the slot the kernel's image is in is there in the address
space too. -/
theorem kernel_half_follows_onePage :
    ∃ s, Runs.run kernelHalfStep (.start .onePage)
        [.user .create, .mapPage 0xffff800000001000#64 0x300000#64 0x3#64] = some s ∧
      0x201000#64 ∈ s.created ∧
      ∀ v, slot4 v = 256 → hwTranslate s.mm.mem 0x201000#64 v =
        hwTranslate s.mm.mem s.mm.kernelRoot v := by
  obtain ⟨mm, hcreate, -, hkernel, -, hm⟩ := MmState.create_onePage
  have hentry : ∀ t j, IsFrame t → t ≠ 0x201000#64 → t ≠ 0x200000#64 →
      entry mm.mem t j = entry MmState.onePage.mem t j := by
    intro t j ht ha htemplate
    rw [hm t j ht, if_neg (not_or.mpr ⟨ha, htemplate⟩)]
  have e₄ : entry mm.mem 0x1000#64 256 = 0x2003#64 :=
    (hentry _ _ (by decide) (by decide) (by decide)).trans (MmState.entry_onePage (by decide) _)
  have e₃ : entry mm.mem (pteToPhys 0x2003#64) 0 = 0x3003#64 :=
    (hentry _ _ (by decide) (by decide) (by decide)).trans (MmState.entry_onePage (by decide) _)
  have e₂ : entry mm.mem (pteToPhys 0x3003#64) 0 = 0x4003#64 :=
    (hentry _ _ (by decide) (by decide) (by decide)).trans (MmState.entry_onePage (by decide) _)
  have hpath : tablePath (vpn 0xffff800000001000#64) = [256, 0, 0] := by decide
  have hlarge : NoLargePage mm.mem mm.kernelRoot (tablePath (vpn 0xffff800000001000#64)) := by
    rw [hkernel, hpath]
    simp only [NoLargePage, e₄, e₃, e₂]
    decide
  have hstep := kernelHalfStep_mapPage (s := ⟨mm, [0x201000#64], fun _ _ => none⟩)
    ⟨by decide, hlarge⟩ 0x300000#64 0x3#64
  have hrun := (Runs.run_cons_of_step hcreate _).trans (Runs.run_cons_of_step hstep [])
  refine ⟨_, hrun, List.mem_cons_self, fun v hv => ?_⟩
  have hpmm : MmState.onePage.pmm.Reachable := pmmInit_reachable _
  have hhigh : ¬ LowHalf v := by
    rw [LowHalf, hv]
    decide
  have h := kernel_half_follows_template hpmm (by decide)
    (fun t ht => MmState.onePage_unavailable ht) MmState.onePage_forest hrun 0x201000#64
    List.mem_cons_self v hhigh
  rw [hv] at h
  exact h.trans (if_pos (by rw [MmState.entry_onePage (by decide)]; decide))

/-- Memory `m` after the first mapping below PML4 slot 511, of frame `0x300000`,
with its tables in the pages from `0x202000` on. -/
def topMapped (m : Mem) : Mem :=
  setEntry (linked (linked (linked m 0x1000#64 511 0x202000#64 0x202003#64)
    0x202000#64 0 0x203000#64 0x203003#64) 0x203000#64 0 0x204000#64 0x204003#64)
    0x204000#64 0 0x300003#64

theorem entry_topMapped (m : Mem) {t : U64} (ht : IsFrame t) (j : BitVec 9) :
    entry (topMapped m) t j =
      if t = 0x204000#64 ∧ j = 0 then 0x300003#64
      else if t = 0x203000#64 ∧ j = 0 then 0x204003#64 else if t = 0x204000#64 then 0#64
      else if t = 0x202000#64 ∧ j = 0 then 0x203003#64 else if t = 0x203000#64 then 0#64
      else if t = 0x1000#64 ∧ j = 511 then 0x202003#64 else if t = 0x202000#64 then 0#64
      else entry m t j := by
  rw [topMapped, entry_setEntry _ (by decide) ht, entry_linked _ (by decide) (by decide) ht,
    entry_linked _ (by decide) (by decide) ht, entry_linked _ (by decide) (by decide) ht]

theorem topSlots : slot4 (vpn 0xffffff8000000000#64) = 511 ∧ slot3 (vpn 0xffffff8000000000#64) = 0 ∧
    slot2 (vpn 0xffffff8000000000#64) = 0 ∧ slot1 (vpn 0xffffff8000000000#64) = 0 := by decide

theorem hwTranslate_topMapped (m : Mem) :
    hwTranslate (topMapped m) 0x1000#64 (vpn 0xffffff8000000000#64) =
      some ⟨0x300000#64, false, true, false⟩ := by
  obtain ⟨hs₄, hs₃, hs₂, hs₁⟩ := topSlots
  have hp : HasFlag 0x202003#64 ptePresent ∧ HasFlag 0x203003#64 ptePresent ∧
      HasFlag 0x204003#64 ptePresent ∧ HasFlag 0x300003#64 ptePresent := by decide
  have htr := hwTranslate_linked (m := m) (a := 0x1000#64) (v := vpn 0xffffff8000000000#64)
    (by decide) rfl rfl rfl (by decide) (by decide) hp (by decide)
  rw [hs₄, hs₃, hs₂, hs₁] at htr
  exact htr

/-- A page mapped below a slot that was empty is not. -/
theorem kernel_map_missing_in_space :
    ∃ s, Runs.run kernelHalfStep (.start .onePage)
        [.user .create, .mapPage 0xffffff8000000000#64 0x300000#64 0x3#64] = some s ∧
      0x201000#64 ∈ s.created ∧
      hwTranslate s.mm.mem s.mm.kernelRoot (vpn 0xffffff8000000000#64) =
        some ⟨0x300000#64, false, true, false⟩ ∧
      hwTranslate s.mm.mem 0x201000#64 (vpn 0xffffff8000000000#64) = none := by
  obtain ⟨mm, hcreate, hpmm, hkernel, -, hm⟩ := MmState.create_onePage
  obtain ⟨hs₄, hs₃, hs₂, hs₁⟩ := topSlots
  have hroot : entry mm.mem 0x1000#64 511 = 0#64 := by
    rw [hm _ _ (by decide), if_neg (by decide), MmState.entry_onePage (by decide)]
    decide
  have hspace : entry mm.mem 0x201000#64 511 = 0#64 := by
    rw [hm _ _ (by decide), if_pos (by decide), MmState.entry_onePage (by decide)]
    decide
  obtain ⟨p₃, p₂, p₁, h₃, h₂, h₁⟩ : ∃ p₃ p₂ p₁,
      pmmAllocPage (pmmAllocPage (pmmAllocPage MmState.blank.pmm).2).2 = (0x202000#64, p₃) ∧
      pmmAllocPage p₃ = (0x203000#64, p₂) ∧ pmmAllocPage p₂ = (0x204000#64, p₁) :=
    ⟨_, _, _, rfl, rfl, rfl⟩
  rw [← hpmm] at h₃
  have hempty :
      ¬ HasFlag (entry mm.mem mm.kernelRoot (slot4 (vpn 0xffffff8000000000#64))) ptePresent := by
    rw [hkernel, hs₄, hroot]
    exact not_hasFlag_zero _
  have hmap := vmmMapPage_fresh (by rw [hkernel]; decide) hempty h₃ h₂ h₁ (by rw [hkernel]; decide)
    (by decide) (by decide) 0x300000#64 0x3#64
  have hstep := kernelHalfStep_mapPage (s := ⟨mm, [0x201000#64], fun _ _ => none⟩)
    ⟨by decide, fun hp => absurd hp hempty⟩ 0x300000#64 0x3#64
  rw [hmap, hkernel, hs₄, hs₃, hs₂, hs₁] at hstep
  refine ⟨_, (Runs.run_cons_of_step hcreate _).trans (Runs.run_cons_of_step hstep []),
    List.mem_cons_self, ?_, ?_⟩
  · change hwTranslate (topMapped mm.mem) mm.kernelRoot _ = _
    rw [hkernel]
    exact hwTranslate_topMapped mm.mem
  · change hwTranslate (topMapped mm.mem) _ _ = _
    have e₄ : entry (topMapped mm.mem) 0x201000#64 511 = 0#64 :=
      (entry_topMapped mm.mem (by decide) _).trans hspace
    apply hwTranslate_of_absent
    rw [hs₄, e₄]
    exact not_hasFlag_zero _

end Myria.Mm
