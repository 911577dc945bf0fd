import Myria.Mm.FrameEffect
import Myria.Mm.Translate
import Myria.Mm.Vmm

/-! What `vmm_map_page` and `vmm_unmap_page` write to, in memory that may hold
large pages. Their walk never looks at `PAGE_HUGE`: it takes the address in a
large-page entry for that of a table and goes on in the data of the page. -/
namespace Myria.Mm

open ByteMem RadixForest

/-! ## Large pages on the way -/

/-- On the way to page `v` stands the large page of `2^n` pages with entry `e`. -/
inductive MeetsLarge (m : Mem) (root : U64) (v : BitVec 36) : U64 → Nat → Prop
  | pdpt {t : U64} (hw : walk (child tableRef m) root [slot4 v] = some t)
      (hp : HasFlag (entry m t (slot3 v)) ptePresent)
      (hl : HasFlag (entry m t (slot3 v)) pteHugePage) :
      MeetsLarge m root v (entry m t (slot3 v)) 18
  | pd {t : U64} (hw : walk (child tableRef m) root [slot4 v, slot3 v] = some t)
      (hp : HasFlag (entry m t (slot2 v)) ptePresent)
      (hl : HasFlag (entry m t (slot2 v)) pteHugePage) :
      MeetsLarge m root v (entry m t (slot2 v)) 9

/-- Address `a` lies in the large page of `2^n` pages with entry `e`. -/
def InLargePage (e : U64) (n : Nat) (a : U64) : Prop :=
  a.toNat / 2 ^ (12 + n) = (pteToPhys e).toNat / 2 ^ (12 + n)

/-- A call for page `v` that takes the memory from `s` to `s'` changes tables and
pages it has taken, and no large page that it meets. -/
structure WritesOnlyTables (root : U64) (v : BitVec 36) (s s' : MmState) : Prop where
  confined : ChangedOnlyIn (fun b => s.IsTable root b ∨ Taken s.pmm s'.pmm b) s.mem s'.mem
  spared : ∀ e n, MeetsLarge s.mem root v e n → ∀ a, InLargePage e n a → s'.mem a = s.mem a

/-! ## The walk of `vmm.c` and where it may write -/

/-- How far the walk of `vmm.c` gets on its way to the page table of `v`. -/
abbrev MmState.blindWalk (s : MmState) (v : BitVec 36) : U64 × List (BitVec 9) :=
  walkEnd (child followPresent s.mem) s.kernelRoot (tablePath v)

/-- Frame `t` is a table, and in no large page on the way to `v`. -/
def MmState.MayWrite (s : MmState) (v : BitVec 36) (t : U64) : Prop :=
  s.IsTable s.kernelRoot t ∧ ∀ e n, MeetsLarge s.mem s.kernelRoot v e n → ¬ InLargePage e n t

/-- Storing `w` as the entry of the page of `va` does no harm: the walk ends in a
table that may be written, or the word is there already; or the walk misses
tables, and there are none to be had, or the first one missing belongs in a
page that the call is about to take itself. -/
def MmState.MapStays (s : MmState) (va w : U64) : Prop :=
  match s.blindWalk (vpn va) with
  | (t, []) => entry s.mem t (slot1 (vpn va)) = w ∨ s.MayWrite (vpn va) t
  | (t, i :: p) =>
    s.pmm.Exhausted ∨ s.MayWrite (vpn va) t ∨
      (t ≠ 0#64 ∧ t ∈ (allocPagesInTurn (i :: p).length s.pmm).1 ∧
        ∀ e n, ¬ MeetsLarge s.mem s.kernelRoot (vpn va) e n)

/-- So does clearing it. -/
def MmState.UnmapStays (s : MmState) (va : U64) : Prop :=
  match s.blindWalk (vpn va) with
  | (t, []) => entry s.mem t (slot1 (vpn va)) = 0#64 ∨ s.MayWrite (vpn va) t
  | (_, _ :: _) => True

theorem inLargePage_pageAlignDown (e : U64) (n : Nat) (a : U64) :
    InLargePage e n (pageAlignDown a) ↔ InLargePage e n a := by
  have hdiv : (pageAlignDown a).toNat / 2 ^ (12 + n) = a.toNat / 2 ^ (12 + n) := by
    rw [pageAlignDown_toNat, Nat.pow_add, ← Nat.div_div_eq_div_mul, ← Nat.div_div_eq_div_mul]
    congr 1
    omega
  rw [InLargePage, InLargePage, hdiv]

/-- A table is followed by the walk of `vmm.c` too. -/
theorem child_followPresent {m : Mem} {t u : U64} {i : BitVec 9}
    (h : child tableRef m t i = some u) : child followPresent m t i = some u := by
  rw [child, tableRef] at h
  split at h
  · rename_i hp
    exact (if_pos hp.1).trans h
  · cases h

theorem walk_tableRef_singleton {m : Mem} {root t : U64} {i : BitVec 9}
    (h : walk (child tableRef m) root [i] = some t) : child followPresent m root i = some t := by
  rw [← List.nil_append [i], walk_concat] at h
  exact child_followPresent h

/-- Past a large page the walk goes on inside it. -/
theorem MeetsLarge.blindWalk {s : MmState} {v : BitVec 36} {e : U64} {n : Nat}
    (h : MeetsLarge s.mem s.kernelRoot v e n) :
    (n = 18 ∧ s.blindWalk v = walkEnd (child followPresent s.mem) (pteToPhys e) [slot2 v]) ∨
      (n = 9 ∧ s.blindWalk v = (pteToPhys e, [])) := by
  cases h with
  | @pdpt t hw hp hl =>
    have hnext : child followPresent s.mem t (slot3 v) =
        some (pteToPhys (entry s.mem t (slot3 v))) :=
      if_pos hp
    refine .inl ⟨rfl, ?_⟩
    rw [MmState.blindWalk, tablePath, walkEnd_cons_of_some (walk_tableRef_singleton hw),
      walkEnd_cons_of_some hnext]
  | @pd t hw hp hl =>
    have hnext : child followPresent s.mem t (slot2 v) =
        some (pteToPhys (entry s.mem t (slot2 v))) :=
      if_pos hp
    rw [show [slot4 v, slot3 v] = [slot4 v] ++ [slot3 v] from rfl, walk_concat] at hw
    obtain ⟨u, hu, hw⟩ := Option.bind_eq_some_iff.mp hw
    refine .inr ⟨rfl, ?_⟩
    rw [MmState.blindWalk, tablePath, walkEnd_cons_of_some (walk_tableRef_singleton hu),
      walkEnd_cons_of_some (child_followPresent hw), walkEnd_cons_of_some hnext]
    rfl

/-- A walk that breaks off past a large page does so inside it, at the page directory. -/
theorem MeetsLarge.breaks_off {s : MmState} {v : BitVec 36} {e : U64} {n : Nat}
    (h : MeetsLarge s.mem s.kernelRoot v e n) {t : U64} {i : BitVec 9} {p : List (BitVec 9)}
    (hend : s.blindWalk v = (t, i :: p)) : p = [] ∧ InLargePage e n t := by
  rcases h.blindWalk with ⟨-, hin⟩ | ⟨-, hin⟩
  · rw [hend] at hin
    cases hc : child followPresent s.mem (pteToPhys e) (slot2 v) with
    | none =>
      rw [walkEnd_cons_of_none hc] at hin
      cases hin
      exact ⟨rfl, rfl⟩
    | some u =>
      rw [walkEnd_cons_of_some hc] at hin
      cases hin
  · rw [hend] at hin
    cases hin

/-- The last table of the walk is a frame. -/
theorem MmState.LaidOut.blindWalk_isFrame {s : MmState} (h : s.LaidOut s.kernelRoot)
    {v : BitVec 36} {t : U64} {p : List (BitVec 9)} (hend : s.blindWalk v = (t, p)) :
    IsFrame t := by
  obtain ⟨q, -, hw⟩ := walk_of_walkEnd hend
  rcases List.eq_nil_or_concat q with rfl | ⟨q', i, rfl⟩
  · cases hw
    exact h.tables.isFrame rfl (Nat.zero_le _) (p := []) rfl
  · rw [List.concat_eq_append, walk_concat] at hw
    obtain ⟨u, -, hu⟩ := Option.bind_eq_some_iff.mp hw
    simp only [child, presentRef] at hu
    split at hu
    · cases hu
      exact pteToPhys_isFrame _
    · cases hu

/-! ## One store -/

/-- A store of `w` at slot `j` of frame `t` does no harm exactly if it may be made
or stores what is there. -/
theorem setEntry_writesOnlyTables_iff {s : MmState} {v : BitVec 36} {t : U64} (ht : IsFrame t)
    (j : BitVec 9) (w : U64) :
    WritesOnlyTables s.kernelRoot v s { s with mem := setEntry s.mem t j w } ↔
      entry s.mem t j = w ∨ s.MayWrite v t := by
  constructor
  · intro h
    by_cases hsame : entry s.mem t j = w
    · exact .inl hsame
    refine .inr ⟨?_, fun e n hlarge hin => ?_⟩
    · have hne : entry (setEntry s.mem t j w) t j ≠ entry s.mem t j := by
        rw [entry_setEntry s.mem ht ht, if_pos ⟨rfl, rfl⟩]
        exact Ne.symm hsame
      exact (h.confined.of_entry_ne ht hne).resolve_right (not_taken_self _ _)
    · -- inside the large page nothing changes, so the word is there already
      have hkeep : entry (setEntry s.mem t j w) t j = entry s.mem t j := by
        refine entry_congr (fun k hk => h.spared e n hlarge _ ?_) j
        rw [← inLargePage_pageAlignDown, ht.pageAlignDown_add hk]
        exact hin
      rw [entry_setEntry s.mem ht ht, if_pos ⟨rfl, rfl⟩] at hkeep
      exact hsame hkeep.symm
  · rintro (rfl | ⟨htable, hout⟩)
    · rw [setEntry_entry]
      exact ⟨ChangedOnlyIn.refl _ _, fun _ _ _ _ _ => rfl⟩
    · have hchanged := changedOnlyIn_setEntry s.mem ht j w
      refine ⟨hchanged.mono fun b hb => .inl (hb ▸ htable), fun e n hlarge a ha => ?_⟩
      by_contra hne
      have hat := hchanged a hne
      exact hout e n hlarge (hat ▸ (inLargePage_pageAlignDown e n a).mpr ha)

/-! ## Creating the missing tables -/

/-- The levels of `vmm_map_page` in turn, from the table at `table` on. -/
def createTables : List (BitVec 9) → MmState → U64 → Option U64 × MmState
  | [], s, table => (some table, s)
  | i :: p, s, table =>
    match getCreateTable s table (i.setWidth 64) with
    | (none, s) => (none, s)
    | (some next, s) => createTables p s next

theorem vmmMapPage_eq (s : MmState) (va pa flags : U64) :
    vmmMapPage s va pa flags =
      match createTables (tablePath (vpn va)) s (s.kernelRoot + kernelVmaBase) with
      | (none, s) => (false, s)
      | (some pt, s) => (true, s.store kernelVmaBase pt ((slot1 (vpn va)).setWidth 64)
          (pageAlignDown pa ||| flags ||| ptePresent)) := by
  simp only [vmmMapPage, createTables, tablePath, pml4Index_eq, pdptIndex_eq, pdIndex_eq,
    ptIndex_eq, vpn_pageAlignDown, s.pml4_window]
  rcases getCreateTable s (s.kernelRoot + kernelVmaBase) _ with ⟨_ | pdpt, s₁⟩
  · rfl
  dsimp only
  rcases getCreateTable s₁ pdpt _ with ⟨_ | pd, s₂⟩
  · rfl
  dsimp only
  rcases getCreateTable s₂ pd _ with ⟨_ | pt, s₃⟩
  · rfl
  · rfl

/-- Tables that are there are passed. -/
theorem createTables_walkEnd (s : MmState) (p : List (BitVec 9)) (t : U64) :
    createTables p s (t + kernelVmaBase) =
      createTables (walkEnd (child followPresent s.mem) t p).2 s
        ((walkEnd (child followPresent s.mem) t p).1 + kernelVmaBase) := by
  induction p generalizing t with
  | nil => rfl
  | cons i p ih =>
    cases hc : child followPresent s.mem t i with
    | none => rw [walkEnd_cons_of_none hc]
    | some u =>
      have hstep : getCreateTable s (t + kernelVmaBase) (i.setWidth 64) =
          (some (u + kernelVmaBase), s) := by
        simp only [child, presentRef] at hc
        split at hc
        · rename_i hp
          cases hc
          simp only [getCreateTable, MmState.load_window]
          exact if_neg (not_not.mpr hp)
        · cases hc
      rw [walkEnd_cons_of_some hc, ← ih, createTables, hstep]

/-- The call goes on where the walk ends. -/
theorem vmmMapPage_blindWalk (s : MmState) (va pa flags : U64) :
    vmmMapPage s va pa flags =
      match createTables (s.blindWalk (vpn va)).2 s ((s.blindWalk (vpn va)).1 + kernelVmaBase) with
      | (none, s) => (false, s)
      | (some pt, s) => (true, s.store kernelVmaBase pt ((slot1 (vpn va)).setWidth 64)
          (pageAlignDown pa ||| flags ||| ptePresent)) := by
  rw [vmmMapPage_eq, createTables_walkEnd]

/-- Between `s` and `s'` pages were taken for tables, and the taken ones refer
to each other only. -/
structure Spreads (s s' : MmState) : Prop where
  fewer : ∀ b, s'.pmm.Available b → s.pmm.Available b
  consistent : s'.pmm.Consistent
  closed : ∀ b j u, IsFrame b → Taken s.pmm s'.pmm b →
    child followPresent s'.mem b j = some u → Taken s.pmm s'.pmm u

theorem Spreads.refl {s : MmState} (h : s.pmm.Consistent) : Spreads s s :=
  ⟨fun _ hb => hb, h, fun b _ _ _ hb => absurd hb (not_taken_self _ b)⟩

/-- The state after a fresh table `f` was entered in slot `i` of `t`. -/
abbrev MmState.linkTable (s : MmState) (t : U64) (i : BitVec 9) (f : U64) (p' : Pmm) : MmState :=
  { s with mem := linked s.mem t i f (f ||| ptePresent ||| pteWritable), pmm := p' }

theorem Spreads.link {s₀ s : MmState} (h : Spreads s₀ s) {t f : U64} {i : BitVec 9} {p' : Pmm}
    (ht : IsFrame t) (halloc : pmmAllocPage s.pmm = (f, p')) (htake : TakesPage s.pmm f p') :
    Spreads s₀ (s.linkTable t i f p') := by
  have hf : IsFrame f := htake.isFrame
  have hnew : Taken s₀.pmm p' f := ⟨h.fewer f htake.available, htake.taken⟩
  refine ⟨fun b hb => h.fewer b (htake.fewer b hb), htake.consistent, fun b j u hb htaken hc => ?_⟩
  change Taken s₀.pmm p' u
  change presentRef (entry (linked s.mem t i f _) b j) = some u at hc
  rw [entry_linked s.mem ht hf hb] at hc
  split at hc
  · rw [BitVec.or_assoc, presentRef_or hf (by decide) (by decide)] at hc
    cases hc
    exact hnew
  · split at hc
    · rw [presentRef_zero] at hc
      cases hc
    · rename_i hbf
      -- `b` was taken before
      have hold : Taken s₀.pmm s.pmm b :=
        ⟨htaken.1, fun hav => hbf (pmmAllocPage_taken h.consistent halloc hb ⟨hav, htaken.2⟩)⟩
      exact (h.closed b j u hb hold hc).mono htake.fewer

/-- From a taken page on, everything happens in taken pages. -/
theorem createTables_spreads (p : List (BitVec 9)) {s₀ s : MmState} (h : Spreads s₀ s) {t : U64}
    (ht : IsFrame t) (hin : Taken s₀.pmm s.pmm t) :
    let out := createTables p s (t + kernelVmaBase)
    Spreads s₀ out.2 ∧ (∀ b, out.2.pmm.Available b → s.pmm.Available b) ∧
      ChangedOnlyIn (Taken s₀.pmm out.2.pmm) s.mem out.2.mem ∧
      ∀ pt, out.1 = some pt → ∃ u, pt = u + kernelVmaBase ∧ IsFrame u ∧
        Taken s₀.pmm out.2.pmm u := by
  induction p generalizing s t with
  | nil =>
    refine ⟨h, fun _ hb => hb, ChangedOnlyIn.refl _ _, fun pt hpt => ⟨t, ?_, ht, hin⟩⟩
    exact (Option.some.inj hpt).symm
  | cons i p ih =>
    rcases getCreateTable_cases h.consistent ht i with
      ⟨hpres, heq⟩ | ⟨-, -, heq⟩ | ⟨-, f, p', halloc, htake, heq⟩
    · simp only [createTables, heq]
      exact ih h (pteToPhys_isFrame _) (h.closed t i _ ht hin (if_pos hpres))
    · simp only [createTables, heq]
      exact ⟨h, fun _ hb => hb, ChangedOnlyIn.refl _ _, fun pt hpt => by cases hpt⟩
    · have hnew : Taken s₀.pmm p' f := ⟨h.fewer f htake.available, htake.taken⟩
      obtain ⟨hspread, hfewer, hchanged, hout⟩ :=
        ih (h.link (i := i) ht halloc htake) htake.isFrame hnew
      simp only [createTables, heq]
      refine ⟨hspread, fun b hb => htake.fewer b (hfewer b hb), ?_, hout⟩
      refine ChangedOnlyIn.trans ?_ hchanged
      refine (changedOnlyIn_linked s.mem ht htake.isFrame i _).mono ?_
      rintro b (rfl | rfl)
      · exact (hin.mono htake.fewer).mono hfewer
      · exact hnew.mono hfewer

/-- Each level takes at most the next page. -/
theorem createTables_taken (p : List (BitVec 9)) {s : MmState} (h : s.pmm.Consistent) {t : U64}
    (ht : IsFrame t) {b : U64} (hb : IsFrame b)
    (htaken : Taken s.pmm (createTables p s (t + kernelVmaBase)).2.pmm b) :
    b ∈ (allocPagesInTurn p.length s.pmm).1 := by
  induction p generalizing s t with
  | nil => exact absurd htaken (not_taken_self _ b)
  | cons i p ih =>
    rcases getCreateTable_cases h ht i with
      ⟨-, heq⟩ | ⟨-, -, heq⟩ | ⟨-, f, p', halloc, htake, heq⟩
    · simp only [createTables, heq] at htaken
      exact mem_allocPagesInTurn_succ (ih h (pteToPhys_isFrame _) htaken)
    · simp only [createTables, heq] at htaken
      exact absurd htaken (not_taken_self _ b)
    · simp only [createTables, heq] at htaken
      simp only [List.length_cons, allocPagesInTurn, halloc, List.mem_cons]
      by_cases hbf : b = f
      · exact .inl hbf
      · refine .inr (ih (s := s.linkTable t i f p') htake.consistent htake.isFrame ⟨?_, htaken.2⟩)
        by_contra hna
        exact hbf (pmmAllocPage_taken h halloc hb ⟨htaken.1, hna⟩)

/-- From an empty table on, each level takes the next page if there is one. -/
theorem taken_of_mem_allocPagesInTurn (p : List (BitVec 9)) {s : MmState} (h : s.pmm.Consistent)
    {t : U64} (ht : IsFrame t) (hna : ¬ s.pmm.Available t) (hempty : ∀ j, entry s.mem t j = 0#64)
    {b : U64} (hb : b ∈ (allocPagesInTurn p.length s.pmm).1) (hb0 : b ≠ 0#64) :
    Taken s.pmm (createTables p s (t + kernelVmaBase)).2.pmm b := by
  induction p generalizing s t with
  | nil => cases hb
  | cons i p ih =>
    rcases getCreateTable_cases h ht i with
      ⟨hpres, -⟩ | ⟨-, hex, -⟩ | ⟨-, f, p', halloc, htake, heq⟩
    · rw [hempty] at hpres
      exact absurd hpres (not_hasFlag_zero _)
    · rcases pmmAllocPage_cases h with ⟨hnone, -⟩ | ⟨f, p', halloc, htake⟩
      · exact absurd (eq_zero_of_mem_allocPagesInTurn hnone hb) hb0
      · have hone := pmmAllocPage_freeCount h halloc htake.isPage.ne_zero
        rw [h.exhausted_iff] at hex
        omega
    · have hne : t ≠ f := fun heq => hna (heq ▸ htake.available)
      have hfresh : ∀ j, entry (s.linkTable t i f p').mem f j = 0#64 :=
        fun j => entry_linked_fresh s.mem ht htake.isFrame hne i j _
      have hself : Taken s.pmm p' f := htake.taken_self
      obtain ⟨-, hfewer, -, -⟩ :=
        createTables_spreads p ((Spreads.refl h).link (i := i) ht halloc htake)
        htake.isFrame hself
      simp only [createTables, heq]
      simp only [List.length_cons, allocPagesInTurn, halloc, List.mem_cons] at hb
      rcases hb with rfl | hb
      · exact hself.mono hfewer
      · obtain ⟨hav, hgone⟩ :=
          ih (s := s.linkTable t i f p') htake.consistent htake.isFrame htake.taken hfresh hb
        exact ⟨htake.fewer b hav, hgone⟩

/-! ## The result of a call -/

section

variable {s : MmState} {va t : U64}

/-- The walk reaches a page table, or what it takes for one. -/
theorem vmmMapPage_of_walkEnd (hend : s.blindWalk (vpn va) = (t, [])) (pa flags : U64) :
    vmmMapPage s va pa flags = (true, { s with
      mem := setEntry s.mem t (slot1 (vpn va)) (pageAlignDown pa ||| flags ||| ptePresent) }) := by
  rw [vmmMapPage_blindWalk, hend, createTables]
  exact congrArg (Prod.mk true) (MmState.store_window s _ t _ _)

/-- What there is to say about a call whose walk breaks off at slot `i` of table
`t`, with the slots `p` left, and that finds a page to go on with. -/
structure GoesOn (s : MmState) (t : U64) (i : BitVec 9) (p : List (BitVec 9)) (s' : MmState) :
    Prop where
  changed : ChangedOnlyIn (fun b => b = t ∨ Taken s.pmm s'.pmm b) s.mem s'.mem
  present : p = [] ∨ ¬ Taken s.pmm s'.pmm t → HasFlag (entry s'.mem t i) ptePresent
  next : Taken s.pmm s'.pmm t ↔ t ≠ 0#64 ∧ t ∈ (allocPagesInTurn (p.length + 1) s.pmm).1

section Link

variable {i : BitVec 9} {p : List (BitVec 9)} {f : U64} {p' : Pmm} (ht : IsFrame t)
  (htake : TakesPage s.pmm f p')
include ht htake

theorem linkTable_present : HasFlag (entry (s.linkTable t i f p').mem t i) ptePresent := by
  rw [entry_linked s.mem ht htake.isFrame ht, if_pos ⟨rfl, rfl⟩, BitVec.or_assoc]
  exact hasFlag_or.mpr (.inr (by decide))

/-- The table where the walk broke off becomes a taken page when it is itself among
the next ones. -/
theorem taken_linkTable_iff (h : s.pmm.Consistent) (halloc : pmmAllocPage s.pmm = (f, p'))
    (hfirst : getCreateTable s (t + kernelVmaBase) (i.setWidth 64) =
      (some (f + kernelVmaBase), s.linkTable t i f p')) :
    Taken s.pmm (createTables p (s.linkTable t i f p') (f + kernelVmaBase)).2.pmm t ↔
      t ≠ 0#64 ∧ t ∈ (allocPagesInTurn (p.length + 1) s.pmm).1 := by
  have hf : IsFrame f := htake.isFrame
  constructor
  · intro htaken
    have hmem := createTables_taken (i :: p) h ht (b := t) ht
    simp only [createTables, hfirst] at hmem
    refine ⟨?_, hmem htaken⟩
    rintro rfl
    exact absurd htaken.1 h.not_available_zero
  · rintro ⟨ht0, hmem⟩
    simp only [allocPagesInTurn, halloc, List.mem_cons] at hmem
    by_cases htf : t = f
    · obtain ⟨-, hfewer, -, -⟩ := createTables_spreads p
        ((Spreads.refl h).link (i := i) ht halloc htake) hf htake.taken_self
      exact htf ▸ htake.taken_self.mono hfewer
    · have hgot := taken_of_mem_allocPagesInTurn p (s := s.linkTable t i f p') htake.consistent hf
        htake.taken (fun j => entry_linked_fresh s.mem ht hf htf i j _) (hmem.resolve_left htf) ht0
      exact ⟨htake.fewer t hgot.1, hgot.2⟩

/-- After the first link everything happens in taken pages. -/
theorem GoesOn.of_link {s' : MmState} (hfewer : ∀ b, s'.pmm.Available b → p'.Available b)
    (hafter : ChangedOnlyIn (Taken s.pmm s'.pmm) (s.linkTable t i f p').mem s'.mem)
    (hlast : p = [] → HasFlag (entry s'.mem t i) ptePresent)
    (hnext : Taken s.pmm s'.pmm t ↔ t ≠ 0#64 ∧ t ∈ (allocPagesInTurn (p.length + 1) s.pmm).1) :
    GoesOn s t i p s' where
  changed := by
    have hlink := changedOnlyIn_linked s.mem ht htake.isFrame i (f ||| ptePresent ||| pteWritable)
    refine (hlink.mono ?_).trans (hafter.mono fun b => .inr)
    rintro b (rfl | rfl)
    · exact .inl rfl
    · exact .inr (htake.taken_self.mono hfewer)
  present := by
    rintro (hp | hkept)
    · exact hlast hp
    · rw [hafter.entry_eq ht hkept]
      exact linkTable_present ht htake
  next := hnext

end Link

theorem vmmMapPage_goesOn (h : s.pmm.Consistent) (ht : IsFrame t) {i : BitVec 9}
    {p : List (BitVec 9)} (hend : s.blindWalk (vpn va) = (t, i :: p)) (pa flags : U64) :
    (s.pmm.Exhausted ∧ vmmMapPage s va pa flags = (false, s)) ∨
      (¬ s.pmm.Exhausted ∧ GoesOn s t i p (vmmMapPage s va pa flags).2) := by
  have habsent : child followPresent s.mem t i = none := child_of_walkEnd hend
  rw [vmmMapPage_blindWalk, hend]
  rcases getCreateTable_cases h ht i with
    ⟨hpres, -⟩ | ⟨-, hex, heq⟩ | ⟨-, f, p', halloc, htake, heq⟩
  · rw [show child followPresent s.mem t i = some _ from if_pos hpres] at habsent
    cases habsent
  · exact .inl ⟨hex, by simp only [createTables, heq]⟩
  have hlive : ¬ s.pmm.Exhausted := by
    rw [h.exhausted_iff, pmmAllocPage_freeCount h halloc htake.isPage.ne_zero]
    omega
  have hlinked : HasFlag (entry (s.linkTable t i f p').mem t i) ptePresent :=
    linkTable_present ht htake
  obtain ⟨-, hfewer, hchanged, hout⟩ := createTables_spreads p
    ((Spreads.refl h).link (i := i) ht halloc htake) htake.isFrame htake.taken_self
  have hnext := taken_linkTable_iff (p := p) ht htake h halloc heq
  refine .inr ⟨hlive, ?_⟩
  simp only [createTables, heq]
  generalize hrest : createTables p (s.linkTable t i f p') (f + kernelVmaBase) = out at *
  obtain ⟨pt, s₂⟩ := out
  cases pt with
  | none =>
    refine .of_link ht htake hfewer hchanged (fun hp => ?_) hnext
    subst hp
    cases hrest
  | some pt =>
    obtain ⟨u, rfl, hu, hin⟩ := hout pt rfl
    have hstore := changedOnlyIn_setEntry s₂.mem hu (slot1 (vpn va))
      (pageAlignDown pa ||| flags ||| ptePresent)
    change GoesOn s t i p (s₂.store kernelVmaBase (u + kernelVmaBase) _ _)
    rw [MmState.store_window]
    refine .of_link ht htake hfewer (hchanged.trans (hstore.mono fun b hb => hb ▸ hin)) ?_ hnext
    -- without further levels the page table is the fresh one
    rintro rfl
    rw [entry_setEntry _ hu ht]
    split
    · exact hasFlag_or.mpr (.inr (by decide))
    · rw [createTables] at hrest
      rw [← (Prod.mk.inj hrest).2]
      exact hlinked

end

/-! ## When nothing else is written -/

theorem WritesOnlyTables.refl (root : U64) (v : BitVec 36) (s : MmState) :
    WritesOnlyTables root v s s :=
  ⟨ChangedOnlyIn.refl _ _, fun _ _ _ _ _ => rfl⟩

/-- A call that goes on from a table that is missing an entry. -/
theorem GoesOn.writesOnlyTables_iff {s s' : MmState} {v : BitVec 36} {t : U64} {i : BitVec 9}
    {p : List (BitVec 9)} (hgo : GoesOn s t i p s') (ht : IsFrame t)
    (hend : s.blindWalk v = (t, i :: p)) :
    WritesOnlyTables s.kernelRoot v s s' ↔
      s.MayWrite v t ∨ (t ≠ 0#64 ∧ t ∈ (allocPagesInTurn (i :: p).length s.pmm).1 ∧
        ∀ e n, ¬ MeetsLarge s.mem s.kernelRoot v e n) := by
  have hchange : HasFlag (entry s'.mem t i) ptePresent → entry s'.mem t i ≠ entry s.mem t i := by
    intro hpres heq
    have hnone : presentRef (entry s.mem t i) = none := child_of_walkEnd hend
    rw [heq] at hpres
    rw [presentRef, if_pos hpres] at hnone
    cases hnone
  constructor
  · intro hw
    by_cases hlarge : ∃ e n, MeetsLarge s.mem s.kernelRoot v e n
    · -- the missing entry lies in the large page, and it is filled
      obtain ⟨e, n, hlarge⟩ := hlarge
      obtain ⟨hp, hin⟩ := hlarge.breaks_off hend
      refine absurd (entry_congr (fun k hk => hw.spared e n hlarge _ ?_) i)
        (hchange (hgo.present (.inl hp)))
      rw [← inLargePage_pageAlignDown, ht.pageAlignDown_add hk]
      exact hin
    push Not at hlarge
    by_cases htaken : Taken s.pmm s'.pmm t
    · obtain ⟨ht0, hmem⟩ := hgo.next.mp htaken
      exact .inr ⟨ht0, hmem, hlarge⟩
    · have htable := hw.confined.of_entry_ne ht (hchange (hgo.present (.inr htaken)))
      exact .inl ⟨htable.resolve_right htaken, fun e n hl => absurd hl (hlarge e n)⟩
  · rintro (hmay | ⟨ht0, hmem, hlarge⟩)
    · refine ⟨hgo.changed.mono ?_, fun e n hl => absurd (hl.breaks_off hend).2 (hmay.2 e n hl)⟩
      rintro b (rfl | hb)
      · exact .inl hmay.1
      · exact .inr hb
    · refine ⟨hgo.changed.mono ?_, fun e n hl => absurd hl (hlarge e n)⟩
      rintro b (rfl | hb)
      · exact .inr (hgo.next.mpr ⟨ht0, hmem⟩)
      · exact .inr hb

/-- **When the mapping functions write to page tables only.** A walk that meets no
`PAGE_HUGE` entry ends in a table, which is always fine. Past one it is in data,
and all is well only by luck. -/
theorem vmm_writes_only_tables_iff {s : MmState} (h : s.LaidOut s.kernelRoot) (va pa flags : U64) :
    (WritesOnlyTables s.kernelRoot (vpn va) s (vmmMapPage s va pa flags).2 ↔
      s.MapStays va (pageAlignDown pa ||| flags ||| ptePresent)) ∧
    (WritesOnlyTables s.kernelRoot (vpn va) s (vmmUnmapPage s va) ↔ s.UnmapStays va) := by
  unfold MmState.MapStays MmState.UnmapStays
  rcases hend : s.blindWalk (vpn va) with ⟨t, _ | ⟨i, p⟩⟩
  · -- there is a page table, or what is taken for one
    have ht := h.blindWalk_isFrame hend
    obtain ⟨q, hq, hw⟩ := walk_of_walkEnd hend
    rw [List.append_nil] at hq
    rw [← hq] at hw
    rw [vmmMapPage_of_walkEnd hend, vmmUnmapPage_of_some hw]
    exact ⟨setEntry_writesOnlyTables_iff ht _ _, setEntry_writesOnlyTables_iff ht _ _⟩
  · have ht := h.blindWalk_isFrame hend
    rw [vmmUnmapPage_of_none (walk_eq_none_of_walkEnd hend)]
    refine ⟨?_, iff_of_true (.refl _ _ s) trivial⟩
    rcases vmmMapPage_goesOn h.pmm ht hend pa flags with ⟨hex, heq⟩ | ⟨hlive, hgo⟩
    · rw [heq]
      exact iff_of_true (.refl _ _ s) (.inl hex)
    · rw [hgo.writesOnlyTables_iff ht hend]
      exact (or_iff_right hlive).symm

/-! ## Without large pages, and with one -/

/-- Without large pages the walk of `vmm.c` sees the same tables. -/
theorem MmState.WellFormed.walk_tableRef {s : MmState} (h : s.WellFormed) :
    ∀ p : List (BitVec 9), p.length ≤ 3 →
      walk (child tableRef s.mem) s.kernelRoot p =
        walk (child followPresent s.mem) s.kernelRoot p := by
  apply walk_congr
  intro p t hp hw j
  by_cases hpres : HasFlag (entry s.mem t j) ptePresent
  · have hchild : child followPresent s.mem t j = some (pteToPhys (entry s.mem t j)) := if_pos hpres
    have hplain := h.tables.inner _ p t j rfl (by omega) hw (by rw [hchild]; rfl)
    rw [hchild]
    exact if_pos ⟨hpres, hplain⟩
  · exact (if_neg (fun hc => hpres hc.1)).trans (if_neg hpres).symm

theorem MmState.WellFormed.laidOut {s : MmState} (h : s.WellFormed) : s.LaidOut s.kernelRoot := by
  have hreach : ∀ t, s.IsTable s.kernelRoot t →
      Reached (child followPresent s.mem) (· = s.kernelRoot) 3 t := by
    rintro t ⟨r, p, rfl, hp, hw⟩
    exact ⟨_, p, rfl, hp, (h.walk_tableRef p hp).symm.trans hw⟩
  refine ⟨⟨h.tables.forest.congr ?_, fun t ht => h.tables.frame t (hreach t ht),
    fun t ht => h.tables.unavailable t (hreach t ht), fun _ _ _ _ _ _ _ _ => trivial⟩, h.pmm⟩
  rintro r p rfl hp
  exact h.walk_tableRef p hp

/-- Without large pages both calls write to tables only. -/
theorem MmState.WellFormed.stays {s : MmState} (h : s.WellFormed) (va w : U64) :
    s.MapStays va w ∧ s.UnmapStays va := by
  have hnone : ∀ e n, ¬ MeetsLarge s.mem s.kernelRoot (vpn va) e n := by
    rintro e n (⟨hw, hp, hl⟩ | ⟨hw, hp, hl⟩)
    · rw [h.walk_tableRef _ (by simp)] at hw
      exact h.tables.inner _ _ _ (slot3 (vpn va)) rfl (by simp) hw
        (by rw [show child followPresent s.mem _ _ = some _ from if_pos hp]; rfl) hl
    · rw [h.walk_tableRef _ (by simp)] at hw
      exact h.tables.inner _ _ _ (slot2 (vpn va)) rfl (by simp) hw
        (by rw [show child followPresent s.mem _ _ = some _ from if_pos hp]; rfl) hl
  have hmay : ∀ t p, s.blindWalk (vpn va) = (t, p) → s.MayWrite (vpn va) t := by
    intro t p hend
    obtain ⟨q, hq, hw⟩ := walk_of_walkEnd hend
    have hlen : q.length ≤ 3 := by
      have := congrArg List.length hq
      simp only [tablePath, List.length_append, List.length_cons, List.length_nil] at this
      omega
    exact ⟨⟨_, q, rfl, hlen, (h.walk_tableRef q hlen).trans hw⟩, fun e n hl =>
      absurd hl (hnone e n)⟩
  unfold MapStays UnmapStays
  rcases hend : s.blindWalk (vpn va) with ⟨t, _ | ⟨i, p⟩⟩
  · exact ⟨.inr (hmay t _ hend), .inr (hmay t _ hend)⟩
  · exact ⟨.inr (.inl (hmay t _ hend)), trivial⟩

theorem vmm_writes_only_tables_blank :
    MmState.blank.LaidOut MmState.blank.kernelRoot ∧
      WritesOnlyTables MmState.blank.kernelRoot (vpn 0x400000) .blank
        (vmmMapPage .blank 0x400000 0x300000 0x3).2 := by
  have h := MmState.blank_wellFormed
  exact ⟨h.laidOut, (vmm_writes_only_tables_iff h.laidOut 0x400000 0x300000 0x3).1.mpr
    (h.stays _ _).1⟩

/-- Two tables below the PML4 at `0x1000`, with a 2 MiB page behind slot 1 of the
page directory. -/
def twoMibMem : Mem :=
  setEntry (linked (linked MmState.blank.mem 0x1000#64 256 0x2000#64 0x2003#64)
    0x2000#64 0 0x3000#64 0x3003#64) 0x3000#64 1 0x40000083#64

/-- Linking `f`, the first of the frames set aside for tables, under an empty slot. -/
theorem linkable_reserved {root t f v : U64} {Avail : U64 → Prop} {l : List U64} {m : Mem}
    {p : List (BitVec 9)} {i : BitVec 9} (hp : p.length ≤ 2)
    (hw : walk (child tableRef m) root p = some t) (hempty : entry m t i = 0#64) (hf : IsFrame f)
    (hl : ¬ Avail f ∧ f ∉ l) (hrefers : tableRef t i v = some f) :
    Linkable tableRef (· = root) (fun _ => True) (fun b => Avail b ∨ b ∈ f :: l)
      (fun b => Avail b ∨ b ∈ l) m root p t i f v where
  root := rfl
  depth := hp
  walks := hw
  empty := by rw [child, hempty, tableRef_zero]
  frame := hf
  available := .inr List.mem_cons_self
  taken := fun h => h.elim hl.1 hl.2
  fewer := fun _ h => h.imp_right (List.mem_cons_of_mem f)
  refers := hrefers
  ok := trivial
  zero := tableRef_zero

theorem twoMibMem_spec :
    (MmState.booted twoMibMem).LaidOut 0x1000#64 ∧
      walk (child tableRef twoMibMem) 0x1000#64 [256, 0] = some 0x3000#64 ∧
      entry twoMibMem 0x3000#64 1 = 0x40000083#64 ∧ entry twoMibMem 0x40000000#64 0 = 0#64 := by
  have hpool : ∀ b : U64, b < pmmStartAddr → ¬ MmState.blank.pmm.Available b := by
    rintro b hb (hmem | ⟨hle, -⟩)
    · cases hmem
    · exact absurd hb (BitVec.not_lt.mpr hle)
  -- the two frames below the pool are set aside
  have T₀ : Tables tableRef (· = 0x1000#64) (fun _ => True)
      (fun b => MmState.blank.pmm.Available b ∨ b ∈ [0x2000#64, 0x3000#64]) MmState.blank.mem := by
    have hblank := MmState.blank_wellFormed.laidOut.tables
    have hempty : ∀ j, child tableRef MmState.blank.mem 0x1000#64 j = none := by
      intro j
      rw [child, MmState.entry_blank, tableRef_zero]
    refine ⟨hblank.forest, hblank.frame, ?_, hblank.inner⟩
    rintro t ⟨r, p, rfl, hp, hw⟩
    obtain ⟨-, rfl⟩ := walk_empty hempty hw
    rintro (hav | h)
    · exact hpool _ (by decide) hav
    · exact absurd h (by decide)
  have hdepth : ([] : List (BitVec 9)).length ≤ 2 := Nat.zero_le 2
  have L₁ := linkable_reserved (l := [0x3000#64]) (i := 256) (v := 0x2003#64) hdepth rfl
    (MmState.entry_blank 0x1000#64 256)
    (by decide) ⟨hpool 0x2000#64 (by decide), by decide⟩ (by decide)
  have T₁ := T₀.link L₁
  have hw₁ := (T₀.walk_linked L₁ (r := 0x1000#64) (p := [256]) rfl (by decide)).trans
    (if_pos ⟨rfl, rfl⟩)
  have hdepth₁ : ([256] : List (BitVec 9)).length ≤ 2 := Nat.le_succ 1
  have L₂ := linkable_reserved (l := []) (i := 0) (v := 0x3003#64) hdepth₁ hw₁
    (entry_linked_fresh _ (by decide) (by decide) (by decide) _ _ _) (by decide)
    ⟨hpool 0x3000#64 (by decide), List.not_mem_nil⟩ (by decide)
  have T₂ := T₁.link L₂
  have hw₂ := (T₁.walk_linked L₂ (r := 0x1000#64) (p := [256, 0]) rfl (by decide)).trans
    (if_pos ⟨rfl, rfl⟩)
  -- an entry for a large page refers to no table
  obtain ⟨T₃, hwalk, -⟩ := T₂.retag (i := 1) (v := 0x40000083#64) rfl (by decide) hw₂ (by
    rw [entry_linked_fresh _ (by decide) (by decide) (by decide), tableRef_zero]
    decide) trivial
  refine ⟨⟨⟨T₃.forest, T₃.frame, fun t ht hav => T₃.unavailable t ht (.inl hav), T₃.inner⟩,
    pmmInit_consistent _⟩, (hwalk _ _ rfl (by decide)).trans hw₂, ?_, ?_⟩
  · rw [twoMibMem, entry_setEntry _ (by decide) (by decide), if_pos ⟨rfl, rfl⟩]
  · rw [twoMibMem, entry_setEntry _ (by decide) (by decide), if_neg (by decide),
      entry_linked _ (by decide) (by decide) (by decide), if_neg (by decide), if_neg (by decide),
      entry_linked _ (by decide) (by decide) (by decide), if_neg (by decide), if_neg (by decide),
      MmState.entry_blank]

/-- A mapping for an address in the 2 MiB page goes into the data of that page. -/
theorem vmm_map_page_overwrites_large_page :
    let s := MmState.booted twoMibMem
    let s' := (vmmMapPage s 0xffff800000200000 0x500000 0x3).2
    s.LaidOut s.kernelRoot ∧ s.pmm.Reachable ∧
      MeetsLarge s.mem s.kernelRoot (vpn 0xffff800000200000) 0x40000083 9 ∧
      entry s.mem 0x40000000 0 = 0 ∧ entry s'.mem 0x40000000 0 = 0x500003 ∧
      ¬ WritesOnlyTables s.kernelRoot (vpn 0xffff800000200000) s s' := by
  intro s s'
  have hroot : s.kernelRoot = 0x1000#64 := by decide
  obtain ⟨hlaid, hw, hlarge, hdata⟩ := twoMibMem_spec
  have hmeets : MeetsLarge s.mem s.kernelRoot (vpn 0xffff800000200000) 0x40000083#64 9 := by
    have hslot : slot2 (vpn 0xffff800000200000) = 1 := rfl
    have h := MeetsLarge.pd (v := vpn 0xffff800000200000) hw
      (by rw [hslot, hlarge]; decide) (by rw [hslot, hlarge]; decide)
    rw [hslot, hlarge] at h
    rw [hroot]
    exact h
  have hend : s.blindWalk (vpn 0xffff800000200000) = (0x40000000#64, []) :=
    (hmeets.blindWalk.resolve_left fun h => absurd h.1 (by decide)).2
  have hmap : s' = { s with mem := setEntry s.mem 0x40000000#64 0 0x500003#64 } := by
    simp only [s', vmmMapPage_of_walkEnd hend]
    rfl
  refine ⟨by rw [hroot]; exact hlaid, pmmInit_reachable _, hmeets, hdata, ?_, ?_⟩
  · rw [hmap]
    exact (entry_setEntry _ (by decide) (by decide) _ _ _).trans (if_pos ⟨rfl, rfl⟩)
  · rw [hmap, setEntry_writesOnlyTables_iff (by decide)]
    rintro (heq | hmay)
    · rw [show entry s.mem 0x40000000#64 0 = 0#64 from hdata] at heq
      exact absurd heq (by decide)
    · exact hmay.2 _ _ hmeets rfl

end Myria.Mm
