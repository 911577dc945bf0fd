import Myria.Lib.Runs
import Myria.Mm.PmmAccounting
import Myria.Mm.State

/-! The page-table editor of `vmm.c`. Its tables are the tree that hangs off
`current_pml4`; its purpose is a partial map from virtual page numbers to
frames, which the edits of the tree in memory are shown to implement. The TLB
is not modelled: `invlpg` has no effect here. -/
namespace Myria.Mm

open ByteMem RadixForest

/-- `vmm_init`: follow CR3 to the PML4. -/
def vmmInit (s : MmState) : MmState :=
  { s with currentPml4 := (s.cr3 &&& pteAddrMask) + kernelVmaBase }

def allocPageTable (s : MmState) : U64 × MmState :=
  let (phys, pmm) := pmmAllocPage s.pmm
  let s := { s with pmm }
  if phys = 0#64 then (0#64, s)
  else
    let table := phys + kernelVmaBase
    (phys, (List.range 512).foldl
      (fun s i => s.store kernelVmaBase table (BitVec.ofNat 64 i) 0) s)

/-- The block `vmm_map_page` has once per level: get the table behind
`table[idx]`, or create it. `none` is the early `return false`. -/
def getCreateTable (s : MmState) (table idx : U64) : Option U64 × MmState :=
  if ¬ HasFlag (s.load kernelVmaBase table idx) ptePresent then
    let (phys, s) := allocPageTable s
    if phys = 0#64 then (none, s)
    else
      let s := s.store kernelVmaBase table idx (phys ||| ptePresent ||| pteWritable)
      (some (pteToPhys (s.load kernelVmaBase table idx) + kernelVmaBase), s)
  else (some (pteToPhys (s.load kernelVmaBase table idx) + kernelVmaBase), s)

def vmmMapPage (s : MmState) (vaddr paddr flags : U64) : Bool × MmState :=
  let vaddr := pageAlignDown vaddr
  let paddr := pageAlignDown paddr
  match getCreateTable s s.currentPml4 (pml4Index vaddr) with
  | (none, s) => (false, s)
  | (some pdpt, s) =>
    match getCreateTable s pdpt (pdptIndex vaddr) with
    | (none, s) => (false, s)
    | (some pd, s) =>
      match getCreateTable s pd (pdIndex vaddr) with
      | (none, s) => (false, s)
      | (some pt, s) =>
        (true, s.store kernelVmaBase pt (ptIndex vaddr) (paddr ||| flags ||| ptePresent))

/-- The table behind `table[idx]`, unless the entry is not present. -/
def followEntry (s : MmState) (table idx : U64) : Option U64 :=
  if HasFlag (s.load kernelVmaBase table idx) ptePresent then
    some (pteToPhys (s.load kernelVmaBase table idx) + kernelVmaBase)
  else none

/-- The walk that `vmm_unmap_page` and `vmm_get_physical` share; `none` is the
early `return` at any of the three levels. -/
def findPageTable (s : MmState) (vaddr : U64) : Option U64 := do
  let pdpt ← followEntry s s.currentPml4 (pml4Index vaddr)
  let pd ← followEntry s pdpt (pdptIndex vaddr)
  followEntry s pd (pdIndex vaddr)

def vmmUnmapPage (s : MmState) (vaddr : U64) : MmState :=
  let vaddr := pageAlignDown vaddr
  match findPageTable s vaddr with
  | none => s
  | some pt => s.store kernelVmaBase pt (ptIndex vaddr) 0

def vmmGetPhysical (s : MmState) (vaddr : U64) : U64 :=
  let vaddr := pageAlignDown vaddr
  match findPageTable s vaddr with
  | none => 0
  | some pt =>
    if HasFlag (s.load kernelVmaBase pt (ptIndex vaddr)) ptePresent then
      pteToPhys (s.load kernelVmaBase pt (ptIndex vaddr))
    else 0

/-! ## The tree and the map it stands for -/

/-- The frame `current_pml4` points to. -/
def MmState.kernelRoot (s : MmState) : U64 := s.currentPml4 - kernelVmaBase

/-- `vmm_init` points `current_pml4` at a frame, whatever CR3 holds. -/
theorem vmmInit_kernelRoot (s : MmState) :
    (vmmInit s).kernelRoot = pteToPhys s.cr3 ∧ IsFrame (vmmInit s).kernelRoot := by
  have hroot : (vmmInit s).kernelRoot = pteToPhys s.cr3 := by
    simp only [MmState.kernelRoot, vmmInit, pteToPhys]
    bv_omega
  rw [hroot]
  exact ⟨rfl, pteToPhys_isFrame s.cr3⟩

/-- The tables below `current_pml4` form a tree of frames that the page
allocator will not hand out, none of their entries is a large page, and the
allocator is consistent. -/
structure MmState.WellFormed (s : MmState) : Prop where
  tables : Tables followPresent (· = s.kernelRoot) (fun e => ¬ HasFlag e pteHugePage)
    s.pmm.Available s.mem
  pmm : s.pmm.Consistent

/-- The partial map from page numbers to frames. -/
def MmState.pageMap (s : MmState) (v : BitVec 36) : Option U64 :=
  (leaf followPresent s.mem s.kernelRoot (tablePath v) (slot1 v)).bind presentRef

/-! ## Creating a table -/

theorem allocPageTable_eq {s : MmState} {f : U64} {p' : Pmm} (h : pmmAllocPage s.pmm = (f, p'))
    (hf : f ≠ 0#64) :
    allocPageTable s = (f, { s with mem := zeroed s.mem f 4096, pmm := p' }) := by
  simp only [allocPageTable, h, if_neg hf, MmState.clearTable_eq]

/-- An empty slot gets a fresh table. -/
theorem getCreateTable_link {s : MmState} {t f : U64} {i : BitVec 9} {p' : Pmm} (ht : IsFrame t)
    (hempty : ¬ HasFlag (entry s.mem t i) ptePresent) (halloc : pmmAllocPage s.pmm = (f, p'))
    (hf : IsFrame f) (hne : f ≠ 0#64) :
    getCreateTable s (t + kernelVmaBase) (i.setWidth 64) =
      (some (f + kernelVmaBase),
        { s with mem := linked s.mem t i f (f ||| ptePresent ||| pteWritable), pmm := p' }) := by
  simp only [getCreateTable, MmState.load_window, if_pos hempty, allocPageTable_eq halloc hne,
    if_neg hne, MmState.store_window]
  rw [← linked, entry_linked s.mem ht hf ht, if_pos ⟨rfl, rfl⟩, BitVec.or_assoc,
    hf.pteToPhys_or (by decide)]

/-- What one level of `vmm_map_page` can do at slot `i` of table `t`: follow a
present entry, fail on an exhausted allocator, or link a fresh table. -/
theorem getCreateTable_cases {s : MmState} (h : s.pmm.Consistent) {t : U64} (ht : IsFrame t)
    (i : BitVec 9) :
    (HasFlag (entry s.mem t i) ptePresent ∧
      getCreateTable s (t + kernelVmaBase) (i.setWidth 64) =
        (some (pteToPhys (entry s.mem t i) + kernelVmaBase), s)) ∨
    (¬ HasFlag (entry s.mem t i) ptePresent ∧ s.pmm.Exhausted ∧
      getCreateTable s (t + kernelVmaBase) (i.setWidth 64) = (none, s)) ∨
    (¬ HasFlag (entry s.mem t i) ptePresent ∧ ∃ f p', pmmAllocPage s.pmm = (f, p') ∧
      TakesPage s.pmm f p' ∧
      getCreateTable s (t + kernelVmaBase) (i.setWidth 64) =
        (some (f + kernelVmaBase),
          { s with mem := linked s.mem t i f (f ||| ptePresent ||| pteWritable), pmm := p' })) := by
  by_cases hpres : HasFlag (entry s.mem t i) ptePresent
  · refine .inl ⟨hpres, ?_⟩
    simp only [getCreateTable, MmState.load_window]
    exact if_neg (not_not.mpr hpres)
  rcases pmmAllocPage_cases h with ⟨heq, hex⟩ | ⟨f, p', heq, htake⟩
  · refine .inr (.inl ⟨hpres, hex, ?_⟩)
    simp only [getCreateTable, MmState.load_window, if_pos hpres, allocPageTable, heq, if_true]
  · exact .inr (.inr ⟨hpres, f, p', heq, htake,
      getCreateTable_link ht hpres heq htake.isFrame htake.isPage.ne_zero⟩)

theorem MmState.pml4_window (s : MmState) : s.currentPml4 = s.kernelRoot + kernelVmaBase := by
  simp only [kernelRoot]
  bv_omega

/-- `s'` differs from `s` by tables created on the way, if at all: it maps the
same pages. -/
structure MmState.GrowsTo (s s' : MmState) : Prop where
  root : s'.kernelRoot = s.kernelRoot
  wellFormed : s'.WellFormed
  pageMap : s'.pageMap = s.pageMap

theorem MmState.GrowsTo.trans {s s' s'' : MmState} (h : s.GrowsTo s') (h' : s'.GrowsTo s'') :
    s.GrowsTo s'' :=
  ⟨h'.root.trans h.root, h'.wellFormed, h'.pageMap.trans h.pageMap⟩

/-! ## Counting the tables created -/

/-- There is a table at the end of path `p`. -/
def MmState.HasTable (s : MmState) (p : List (BitVec 9)) : Prop :=
  (walk (child followPresent s.mem) s.kernelRoot p).isSome

instance (s : MmState) (p : List (BitVec 9)) : Decidable (s.HasTable p) :=
  inferInstanceAs (Decidable (_ = true))

/-- The paths of `P` that end before a table. -/
def MmState.missing (s : MmState) (P : Finset (List (BitVec 9))) : Finset (List (BitVec 9)) :=
  P.filter (¬ s.HasTable ·)

/-- The paths to the three tables below the PML4 that page `v` goes through. -/
def tablePrefixes (v : BitVec 36) : Finset (List (BitVec 9)) :=
  {[slot4 v]} ∪ {[slot4 v, slot3 v]} ∪ {tablePath v}

/-- `s'` has the tables of `s` and those at `P`; each one that `s` did not have
took a page. -/
structure MmState.Gains (s s' : MmState) (P : Finset (List (BitVec 9))) : Prop where
  depth : ∀ p ∈ P, p.length ≤ 3
  hasTable : ∀ p, p.length ≤ 3 → (s'.HasTable p ↔ s.HasTable p ∨ p ∈ P)
  free : s.pmm.freeCount = s'.pmm.freeCount + (s.missing P).card

namespace MmState

variable {s s' s'' : MmState} {P Q : Finset (List (BitVec 9))}

theorem missing_mono (s : MmState) (h : P ⊆ Q) : (s.missing P).card ≤ (s.missing Q).card :=
  Finset.card_le_card (Finset.filter_subset_filter _ h)

/-- What is missing for `P` and `Q` together is missing for `P`, or for `Q` once
`P` is there. -/
theorem Gains.card_missing_union (h : s.Gains s' P) (hQ : ∀ p ∈ Q, p.length ≤ 3) :
    (s.missing (P ∪ Q)).card = (s.missing P).card + (s'.missing Q).card := by
  have hunion : s.missing (P ∪ Q) = s.missing P ∪ s'.missing Q := by
    ext p
    by_cases hp : p ∈ P
    · have hthere : s'.HasTable p := (h.hasTable p (h.depth p hp)).mpr (.inr hp)
      simp [missing, hp, hthere]
    · by_cases hq : p ∈ Q
      · simp [missing, hp, hq, h.hasTable p (hQ p hq)]
      · simp [missing, hp, hq]
  have hdisj : Disjoint (s.missing P) (s'.missing Q) := by
    rw [Finset.disjoint_left]
    intro p hp hp'
    obtain ⟨hmem, -⟩ := Finset.mem_filter.mp hp
    exact (Finset.mem_filter.mp hp').2 ((h.hasTable p (h.depth p hmem)).mpr (.inr hmem))
  rw [hunion, Finset.card_union_of_disjoint hdisj]

theorem Gains.refl (s : MmState) : s.Gains s ∅ where
  depth := by simp
  hasTable := by simp
  free := by simp [missing]

theorem Gains.trans (h : s.Gains s' P) (h' : s'.Gains s'' Q) : s.Gains s'' (P ∪ Q) where
  depth := by
    intro p hp
    exact (Finset.mem_union.mp hp).elim (h.depth p) (h'.depth p)
  hasTable := by
    intro p hp
    rw [h'.hasTable p hp, h.hasTable p hp, Finset.mem_union, or_assoc]
  free := by
    rw [h.card_missing_union h'.depth, h.free, h'.free]
    omega

/-- Pages too few for `Q` after `P` were too few for both. -/
theorem Gains.short (h : s.Gains s' P) (hQ : ∀ p ∈ Q, p.length ≤ 3)
    (hshort : s'.pmm.freeCount < (s'.missing Q).card) :
    s.pmm.freeCount < (s.missing (P ∪ Q)).card := by
  rw [h.card_missing_union hQ, h.free]
  omega

theorem Gains.suffices (h : s.Gains s' P) : (s.missing P).card ≤ s.pmm.freeCount := by
  rw [h.free]
  exact Nat.le_add_left _ _

end MmState

section Level

variable {s : MmState} {p : List (BitVec 9)} {t : U64} {i : BitVec 9}

theorem walk_slot (hw : walk (child followPresent s.mem) s.kernelRoot p = some t) :
    walk (child followPresent s.mem) s.kernelRoot (p ++ [i]) = presentRef (entry s.mem t i) := by
  rw [walk_concat, hw]
  rfl

/-- An absent entry is a missing table. -/
theorem MmState.missing_slot (hw : walk (child followPresent s.mem) s.kernelRoot p = some t)
    (habsent : ¬ HasFlag (entry s.mem t i) ptePresent) :
    s.missing {p ++ [i]} = {p ++ [i]} := by
  have hno : ¬ s.HasTable (p ++ [i]) := by
    rw [MmState.HasTable, walk_slot hw, presentRef, if_neg habsent]
    simp
  exact Finset.filter_true_of_mem fun q hq => Finset.mem_singleton.mp hq ▸ hno

theorem length_le_of_mem_slot (hp : p.length ≤ 2) :
    ∀ q ∈ ({p ++ [i]} : Finset (List (BitVec 9))), q.length ≤ 3 := by
  intro q hq
  rw [Finset.mem_singleton.mp hq]
  exact length_concat_le i hp

/-- A fresh table linked under an absent entry. -/
theorem MmState.WellFormed.link (h : s.WellFormed)
    (hw : walk (child followPresent s.mem) s.kernelRoot p = some t) (hp : p.length ≤ 2)
    (habsent : ¬ HasFlag (entry s.mem t i) ptePresent) {f : U64} {p' : Pmm}
    (halloc : pmmAllocPage s.pmm = (f, p')) (htake : TakesPage s.pmm f p') {s' : MmState}
    (hs' : s' = { s with
      mem := linked s.mem t i f (f ||| ptePresent ||| pteWritable), pmm := p' }) :
    s.GrowsTo s' ∧ s.Gains s' {p ++ [i]} ∧
      walk (child followPresent s'.mem) s'.kernelRoot (p ++ [i]) = some f := by
  subst hs'
  have hf : IsFrame f := htake.isFrame
  have hdepth := length_le_of_mem_slot (i := i) hp
  have hrefers : presentRef (f ||| ptePresent ||| pteWritable) = some f := by
    rw [BitVec.or_assoc]
    exact presentRef_or hf (by decide) (by decide)
  have L : Linkable followPresent (· = s.kernelRoot) (fun e => ¬ HasFlag e pteHugePage)
      s.pmm.Available p'.Available s.mem s.kernelRoot p t i f
      (f ||| ptePresent ||| pteWritable) :=
    { root := rfl, depth := hp, walks := hw, empty := if_neg habsent, frame := hf
      available := htake.available, taken := htake.taken, fewer := htake.fewer
      refers := hrefers
      ok := by
        rw [BitVec.or_assoc, hasFlag_or, not_or]
        exact ⟨hf.not_hasFlag (by decide), by decide⟩
      zero := fun _ _ => presentRef_zero }
  have hwalk : ∀ q : List (BitVec 9), q.length ≤ 3 →
      walk (child followPresent (linked s.mem t i f (f ||| ptePresent ||| pteWritable)))
        s.kernelRoot q =
      if q = p ++ [i] then some f else walk (child followPresent s.mem) s.kernelRoot q := by
    intro q hq
    rw [h.tables.walk_linked L rfl hq]
    simp
  refine ⟨⟨rfl, ⟨h.tables.link L, htake.consistent⟩, ?_⟩, ⟨hdepth, fun q hq => ?_, ?_⟩, ?_⟩
  · funext v
    exact h.tables.bind_leaf_linked L presentRef_zero rfl rfl _
  · rw [MmState.HasTable, MmState.HasTable, Finset.mem_singleton]
    change (walk _ s.kernelRoot q).isSome ↔ _
    rw [hwalk q hq]
    by_cases hqi : q = p ++ [i]
    · simp [hqi]
    · simp [hqi]
  · rw [MmState.missing_slot hw habsent, Finset.card_singleton]
    exact pmmAllocPage_freeCount h.pmm halloc htake.isPage.ne_zero
  · exact (hwalk _ (hdepth _ (Finset.mem_singleton_self _))).trans (if_pos rfl)

/-- One level of `vmm_map_page`, at the table the path `p` leads to. -/
theorem getCreateTable_spec (h : s.WellFormed)
    (hw : walk (child followPresent s.mem) s.kernelRoot p = some t) (hp : p.length ≤ 2)
    (i : BitVec 9) :
    (getCreateTable s (t + kernelVmaBase) (i.setWidth 64) = (none, s) ∧ s.pmm.Exhausted ∧
      s.pmm.freeCount < (s.missing {p ++ [i]}).card) ∨
    ∃ f s', getCreateTable s (t + kernelVmaBase) (i.setWidth 64) =
        (some (f + kernelVmaBase), s') ∧ s.GrowsTo s' ∧ s.Gains s' {p ++ [i]} ∧
      walk (child followPresent s'.mem) s'.kernelRoot (p ++ [i]) = some f := by
  have ht : IsFrame t := h.tables.isFrame rfl (by omega) hw
  rcases getCreateTable_cases h.pmm ht i with
    ⟨hpres, heq⟩ | ⟨hpres, hex, heq⟩ | ⟨hpres, f, p', halloc, htake, heq⟩
  · -- the entry is there: nothing happens
    have hthere : walk (child followPresent s.mem) s.kernelRoot (p ++ [i]) =
        some (pteToPhys (entry s.mem t i)) := (walk_slot hw).trans (if_pos hpres)
    have hhas : s.HasTable (p ++ [i]) := by
      rw [MmState.HasTable, hthere]
      rfl
    refine .inr ⟨_, s, heq, ⟨rfl, h, rfl⟩, ⟨length_le_of_mem_slot hp, fun q _ => ?_, ?_⟩, hthere⟩
    · exact ⟨.inl, fun hq => hq.elim id fun hq => Finset.mem_singleton.mp hq ▸ hhas⟩
    · rw [MmState.missing, Finset.filter_singleton, if_neg (not_not.mpr hhas)]
      rfl
  · refine .inl ⟨heq, hex, ?_⟩
    rw [MmState.missing_slot hw hpres, (h.pmm.exhausted_iff).mp hex, Finset.card_singleton]
    exact Nat.zero_lt_one
  · exact .inr ⟨f, _, heq, h.link hw hp hpres halloc htake rfl⟩

end Level

/-! ## Writing a page-table entry -/

/-- Writing the entry of page `v` in its page table sets the map at `v`. -/
theorem MmState.WellFormed.setLeaf {s : MmState} (h : s.WellFormed) {v : BitVec 36} {t : U64}
    (hw : walk (child followPresent s.mem) s.kernelRoot (tablePath v) = some t) (w : U64) :
    ({ s with mem := setEntry s.mem t (slot1 v) w } : MmState).WellFormed ∧
      ({ s with mem := setEntry s.mem t (slot1 v) w } : MmState).pageMap =
        Function.update s.pageMap v (presentRef w) ∧
      s.Gains { s with mem := setEntry s.mem t (slot1 v) w } ∅ := by
  obtain ⟨htables, hwalk, hleaf⟩ := h.tables.setLeaf (i := slot1 v) rfl rfl hw w
  refine ⟨⟨htables, h.pmm⟩, ?_, ⟨by simp, fun p hp => ?_, by simp [MmState.missing]⟩⟩
  on_goal 2 =>
    change (walk _ s.kernelRoot p).isSome ↔ _
    rw [hwalk _ p rfl hp]
    simp [MmState.HasTable]
  funext v'
  change (leaf followPresent _ s.kernelRoot (tablePath v') (slot1 v')).bind presentRef = _
  rw [hleaf _ _ _ rfl rfl]
  by_cases hv : v' = v
  · subst hv
    rw [if_pos ⟨rfl, rfl, rfl⟩, Function.update_self]
    rfl
  · rw [if_neg (fun hc => hv (tablePath_slot1_inj hc.2.1 hc.2.2)), Function.update_of_ne hv]
    rfl

/-! ## The functions of `vmm.c` -/

theorem pageAlignDown_isFrame {pa : U64} (hpa : pa.toNat < 2 ^ 52) :
    IsFrame (pageAlignDown pa) := by
  rw [isFrame_iff, pageAlignDown_toNat]
  omega

theorem presentRef_pte {pa flags : U64} (hpa : pa.toNat < 2 ^ 52)
    (hflags : flags &&& pteAddrMask = 0#64) :
    presentRef (pageAlignDown pa ||| flags ||| ptePresent) = some (pageAlignDown pa) := by
  have hmask : (flags ||| ptePresent) &&& pteAddrMask = 0#64 := by
    rw [BitVec.and_or_distrib_right, hflags]
    decide
  rw [BitVec.or_assoc]
  exact presentRef_or (pageAlignDown_isFrame hpa) hmask (hasFlag_or.mpr (.inr (by decide)))

/-- What `vmm_map_page` does: with a page for each table that is missing on the
way it sets the entry, and else it leaves some of the tables, which map nothing. -/
theorem vmmMapPage_cases {s : MmState} (h : s.WellFormed) (va pa flags : U64) :
    (∃ s', vmmMapPage s va pa flags = (true, s') ∧ s'.WellFormed ∧
      s'.pageMap = Function.update s.pageMap (vpn va)
        (presentRef (pageAlignDown pa ||| flags ||| ptePresent)) ∧
      s.Gains s' (tablePrefixes (vpn va))) ∨
    (∃ s', vmmMapPage s va pa flags = (false, s') ∧ s.GrowsTo s' ∧ s'.pmm.Exhausted ∧
      s.pmm.freeCount < (s.missing (tablePrefixes (vpn va))).card) := by
  simp only [vmmMapPage, pml4Index_eq, pdptIndex_eq, pdIndex_eq, ptIndex_eq, vpn_pageAlignDown]
  rw [s.pml4_window]
  rcases getCreateTable_spec h (p := []) rfl (by decide) (slot4 (vpn va)) with
    ⟨heq, hex, hshort⟩ | ⟨pdpt, s₁, heq, hg₁, hn₁, hw₁⟩
  · simp only [heq]
    refine .inr ⟨s, rfl, ⟨rfl, h, rfl⟩, hex, hshort.trans_le (s.missing_mono ?_)⟩
    exact Finset.subset_union_left.trans Finset.subset_union_left
  simp only [heq]
  rcases getCreateTable_spec hg₁.wellFormed hw₁ (Nat.le_succ 1) (slot3 (vpn va)) with
    ⟨heq, hex, hshort⟩ | ⟨pd, s₂, heq, hg₂, hn₂, hw₂⟩
  · simp only [heq]
    refine .inr ⟨s₁, rfl, hg₁, hex, (hn₁.short (by simp) hshort).trans_le (s.missing_mono ?_)⟩
    exact Finset.subset_union_left
  simp only [heq]
  rcases getCreateTable_spec hg₂.wellFormed hw₂ (Nat.le_refl 2) (slot2 (vpn va)) with
    ⟨heq, hex, hshort⟩ | ⟨pt, s₃, heq, hg₃, hn₃, hw₃⟩
  · simp only [heq]
    exact .inr ⟨s₂, rfl, hg₁.trans hg₂, hex, (hn₁.trans hn₂).short (by simp [tablePath]) hshort⟩
  simp only [heq]
  obtain ⟨hwf, hmap, hleaf⟩ := hg₃.wellFormed.setLeaf (v := vpn va) hw₃
    (pageAlignDown pa ||| flags ||| ptePresent)
  refine .inl ⟨_, rfl, ?_⟩
  rw [MmState.store_window]
  refine ⟨hwf, hmap.trans ?_, ?_⟩
  · rw [hg₃.pageMap, hg₂.pageMap, hg₁.pageMap]
  · have hall := ((hn₁.trans hn₂).trans hn₃).trans hleaf
    rwa [Finset.union_empty] at hall

/-- The same on the map alone, for arguments that fit in an entry. -/
theorem vmmMapPage_spec {s : MmState} (h : s.WellFormed) (va : U64) {pa flags : U64}
    (hpa : pa.toNat < 2 ^ 52) (hflags : flags &&& pteAddrMask = 0#64) :
    (∃ s', vmmMapPage s va pa flags = (true, s') ∧ s'.WellFormed ∧
      s'.pageMap = Function.update s.pageMap (vpn va) (some (pageAlignDown pa))) ∨
    (∃ s', vmmMapPage s va pa flags = (false, s') ∧ s'.WellFormed ∧
      s'.pageMap = s.pageMap ∧ s'.pmm.Exhausted) := by
  rcases vmmMapPage_cases h va pa flags with
    ⟨s', heq, hwf, hmap, -⟩ | ⟨s', heq, hg, hex, -⟩
  · rw [presentRef_pte hpa hflags] at hmap
    exact .inl ⟨s', heq, hwf, hmap⟩
  · exact .inr ⟨s', heq, hg.wellFormed, hg.pageMap, hex⟩

/-- A call that gets past all three levels. -/
theorem vmmMapPage_of_levels {s s₃ s₂ s₁ : MmState} {va pa flags t₃ t₂ t₁ : U64}
    (h₃ : getCreateTable s (s.kernelRoot + kernelVmaBase) ((slot4 (vpn va)).setWidth 64) =
      (some (t₃ + kernelVmaBase), s₃))
    (h₂ : getCreateTable s₃ (t₃ + kernelVmaBase) ((slot3 (vpn va)).setWidth 64) =
      (some (t₂ + kernelVmaBase), s₂))
    (h₁ : getCreateTable s₂ (t₂ + kernelVmaBase) ((slot2 (vpn va)).setWidth 64) =
      (some (t₁ + kernelVmaBase), s₁)) :
    vmmMapPage s va pa flags = (true, { s₁ with
      mem := setEntry s₁.mem t₁ (slot1 (vpn va)) (pageAlignDown pa ||| flags ||| ptePresent)
        }) := by
  rw [← s.pml4_window] at h₃
  simp only [vmmMapPage, pml4Index_eq, pdptIndex_eq, pdIndex_eq, ptIndex_eq, vpn_pageAlignDown,
    h₃, h₂, h₁, MmState.store_window]

/-- A mapping below an empty PML4 slot, when three pages are left for tables. -/
theorem vmmMapPage_fresh {s : MmState} {va f₃ f₂ f₁ : U64} {p₃ p₂ p₁ : Pmm}
    (hroot : IsFrame s.kernelRoot)
    (hempty : ¬ HasFlag (entry s.mem s.kernelRoot (slot4 (vpn va))) ptePresent)
    (h₃ : pmmAllocPage s.pmm = (f₃, p₃)) (h₂ : pmmAllocPage p₃ = (f₂, p₂))
    (h₁ : pmmAllocPage p₂ = (f₁, p₁)) (hf₃ : IsFrame f₃ ∧ f₃ ≠ 0#64 ∧ s.kernelRoot ≠ f₃)
    (hf₂ : IsFrame f₂ ∧ f₂ ≠ 0#64 ∧ f₃ ≠ f₂) (hf₁ : IsFrame f₁ ∧ f₁ ≠ 0#64 ∧ f₂ ≠ f₁)
    (pa flags : U64) :
    vmmMapPage s va pa flags = (true, { s with
      mem := setEntry (linked (linked (linked s.mem
        s.kernelRoot (slot4 (vpn va)) f₃ (f₃ ||| ptePresent ||| pteWritable))
        f₃ (slot3 (vpn va)) f₂ (f₂ ||| ptePresent ||| pteWritable))
        f₂ (slot2 (vpn va)) f₁ (f₁ ||| ptePresent ||| pteWritable))
        f₁ (slot1 (vpn va)) (pageAlignDown pa ||| flags ||| ptePresent)
      pmm := p₁ }) := by
  obtain ⟨hf₃, hne₃, hd₃⟩ := hf₃
  obtain ⟨hf₂, hne₂, hd₂⟩ := hf₂
  have hzero : ∀ {m : Mem} {t f v : U64} {i j : BitVec 9}, IsFrame t → IsFrame f → t ≠ f →
      ¬ HasFlag (entry (linked m t i f v) f j) ptePresent := by
    intro m t f v i j ht hf hne
    rw [entry_linked_fresh m ht hf hne]
    exact not_hasFlag_zero _
  exact vmmMapPage_of_levels (getCreateTable_link hroot hempty h₃ hf₃ hne₃)
    (getCreateTable_link hf₃ (hzero hroot hf₃ hd₃) h₂ hf₂ hne₂)
    (getCreateTable_link hf₂ (hzero hf₃ hf₂ hd₂) h₁ hf₁.1 hf₁.2.1)

theorem followEntry_eq (s : MmState) (t : U64) (i : BitVec 9) :
    followEntry s (t + kernelVmaBase) (i.setWidth 64) =
      (child followPresent s.mem t i).map (· + kernelVmaBase) := by
  simp only [followEntry, MmState.load_window, child, presentRef]
  split <;> rfl

/-- The C walk is the walk of the tree, in any memory. -/
theorem findPageTable_eq (s : MmState) (va : U64) :
    findPageTable s va =
      (walk (child followPresent s.mem) s.kernelRoot (tablePath (vpn va))).map
        (· + kernelVmaBase) := by
  simp only [findPageTable, tablePath, walk, pml4Index_eq, pdptIndex_eq, pdIndex_eq]
  rw [s.pml4_window, followEntry_eq]
  cases child followPresent s.mem s.kernelRoot (slot4 (vpn va)) with
  | none => rfl
  | some pdpt =>
    simp only [Option.map_some, Option.bind_eq_bind, Option.bind_some, followEntry_eq]
    cases child followPresent s.mem pdpt (slot3 (vpn va)) with
    | none => rfl
    | some pd =>
      simp only [Option.map_some, Option.bind_some, followEntry_eq]
      cases child followPresent s.mem pd (slot2 (vpn va)) <;> rfl

theorem vmmGetPhysical_eq (s : MmState) (va : U64) :
    vmmGetPhysical s va = (s.pageMap (vpn va)).getD 0 := by
  simp only [vmmGetPhysical, findPageTable_eq, vpn_pageAlignDown, MmState.pageMap, leaf, ptIndex_eq]
  cases walk (child followPresent s.mem) s.kernelRoot (tablePath (vpn va)) with
  | none => rfl
  | some t =>
    simp only [Option.map_some, Option.bind_some, MmState.load_window, presentRef]
    split <;> rfl

/-- Without a page table `vmm_unmap_page` does nothing, -/
theorem vmmUnmapPage_of_none {s : MmState} {va : U64}
    (hw : walk (child followPresent s.mem) s.kernelRoot (tablePath (vpn va)) = none) :
    vmmUnmapPage s va = s := by
  simp only [vmmUnmapPage, findPageTable_eq, vpn_pageAlignDown, hw, Option.map_none]

/-- with one it clears the entry. -/
theorem vmmUnmapPage_of_some {s : MmState} {va t : U64}
    (hw : walk (child followPresent s.mem) s.kernelRoot (tablePath (vpn va)) = some t) :
    vmmUnmapPage s va = { s with mem := setEntry s.mem t (slot1 (vpn va)) 0 } := by
  simp only [vmmUnmapPage, findPageTable_eq, vpn_pageAlignDown, ptIndex_eq, hw, Option.map_some,
    MmState.store_window]

theorem vmmUnmapPage_spec {s : MmState} (h : s.WellFormed) (va : U64) :
    (vmmUnmapPage s va).WellFormed ∧
      (vmmUnmapPage s va).pageMap = Function.update s.pageMap (vpn va) none := by
  cases hw : walk (child followPresent s.mem) s.kernelRoot (tablePath (vpn va)) with
  | none =>
    have hnone : s.pageMap (vpn va) = none := by
      rw [MmState.pageMap, leaf, hw, Option.map_none, Option.bind_none]
    rw [vmmUnmapPage_of_none hw, ← hnone]
    exact ⟨h, (Function.update_eq_self (vpn va) s.pageMap).symm⟩
  | some t =>
    rw [vmmUnmapPage_of_some hw, ← presentRef_zero]
    obtain ⟨hwf, hmap, -⟩ := h.setLeaf hw 0
    exact ⟨hwf, hmap⟩

/-! ## Whole runs -/

inductive VmmOp where
  | mapPage (vaddr paddr flags : U64)
  | unmapPage (vaddr : U64)

/-- One call. The guards are the caller's side: a physical address that fits
in an entry, and flags that leave the address bits alone. -/
def vmmStep (s : MmState) : VmmOp → Option MmState
  | .mapPage vaddr paddr flags =>
    if paddr.toNat < 2 ^ 52 ∧ flags &&& pteAddrMask = 0#64 then
      some (vmmMapPage s vaddr paddr flags).2
    else none
  | .unmapPage vaddr => some (vmmUnmapPage s vaddr)

theorem MmState.WellFormed.step {s t : MmState} (h : s.WellFormed) {op : VmmOp}
    (hs : vmmStep s op = some t) : t.WellFormed := by
  cases op with
  | mapPage va pa flags =>
    simp only [vmmStep] at hs
    split at hs
    · rename_i hguard
      cases Option.some.inj hs
      rcases vmmMapPage_spec h va hguard.1 hguard.2 with ⟨s', heq, hwf, -⟩ | ⟨s', heq, hwf, -⟩ <;>
      · rw [heq]
        exact hwf
    · cases hs
  | unmapPage va =>
    cases Option.some.inj hs
    exact (vmmUnmapPage_spec h va).1

/-- **The page tables implement a partial map.** Start from any well-formed
memory and make any admissible calls. The memory stays well-formed, a
successful `vmm_map_page` sets exactly its page, a failed one (only on an
exhausted allocator, at whichever level) sets none, `vmm_unmap_page` clears
exactly its page, and `vmm_get_physical` reads the map. -/
theorem vmm_refines_pageMap {s t : MmState} {ops : List VmmOp} (h : s.WellFormed)
    (hrun : Runs.run vmmStep s ops = some t) :
    t.WellFormed ∧
    (∀ va pa flags : U64, pa.toNat < 2 ^ 52 → flags &&& pteAddrMask = 0#64 →
      let (ok, t') := vmmMapPage t va pa flags
      if ok then t'.pageMap = Function.update t.pageMap (vpn va) (some (pageAlignDown pa))
      else t'.pageMap = t.pageMap ∧ t'.pmm.Exhausted) ∧
    (∀ va, (vmmUnmapPage t va).pageMap = Function.update t.pageMap (vpn va) none) ∧
    ∀ va, vmmGetPhysical t va = (t.pageMap (vpn va)).getD 0 := by
  have hwf : t.WellFormed :=
    Runs.run_invariant (P := fun _ t => t.WellFormed) h (fun _ _ _ _ _ ht hs => ht.step hs)
      ops t hrun
  refine ⟨hwf, fun va pa flags hpa hflags => ?_, fun va => (vmmUnmapPage_spec hwf va).2,
    vmmGetPhysical_eq t⟩
  rcases vmmMapPage_spec hwf va hpa hflags with ⟨t', heq, -, hmap⟩ | ⟨t', heq, -, hmap, hex⟩
  · simpa only [heq, if_true] using hmap
  · simpa only [heq, Bool.false_eq_true, if_false] using ⟨hmap, hex⟩

theorem MmState.blank_child (t : U64) (i : BitVec 9) :
    child followPresent blank.mem t i = none := by
  rw [child, entry_blank]
  exact presentRef_zero

theorem MmState.blank_wellFormed : blank.WellFormed := by
  have hroot : ∀ {t}, Reached (child followPresent blank.mem) (· = blank.kernelRoot) 3 t →
      t = blank.kernelRoot := by
    rintro t ⟨r, p, rfl, -, hw⟩
    exact (walk_empty (blank_child _) hw).2
  refine ⟨⟨?_, ?_, ?_, ?_⟩, pmmInit_consistent _⟩
  · rintro r r' p p' t rfl rfl - - hw hw'
    exact ⟨rfl, (walk_empty (blank_child _) hw).1.trans (walk_empty (blank_child _) hw').1.symm⟩
  · intro t ht
    rw [hroot ht, IsFrame]
    decide
  · intro t ht
    rw [hroot ht]
    rintro (hmem | hrange)
    · simp [blank, pmmInit, initMemoryPool] at hmem
    · exact absurd hrange.1 (by decide)
  · rintro r p t i - - - hsome
    rw [blank_child] at hsome
    cases hsome

theorem vmm_refines_pageMap_blank :
    ∃ t, Runs.run vmmStep .blank
        [.mapPage 0x400000 0x300000 0x3, .unmapPage 0x500000, .mapPage 0x400fff 0x301000 0x1] =
          some t ∧
      t.WellFormed ∧ ∀ va, vmmGetPhysical t va = (t.pageMap (vpn va)).getD 0 := by
  have hrun : Runs.run vmmStep .blank
      [.mapPage 0x400000 0x300000 0x3, .unmapPage 0x500000, .mapPage 0x400fff 0x301000 0x1] =
        some _ := rfl
  obtain ⟨hwf, -, -, hget⟩ := vmm_refines_pageMap MmState.blank_wellFormed hrun
  exact ⟨_, hrun, hwf, hget⟩

end Myria.Mm
