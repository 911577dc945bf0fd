import Myria.Mm.PmmAccounting
import Myria.Mm.UserMapping

/-! Write or execute, not both, on the in-place mapping path: the three calls of
`user_mapping.c` are meant to give user mode a code page that is writable while
the code is copied and executable afterwards. The rights of a page are those of
all entries on its way combined. Levels are counted upwards, from 0 for the page
tables to 3 for the PML4. -/
namespace Myria.Mm

open ByteMem Trace Traced

/-! ## The rights of a page -/

/-- The slot that page `v` selects in its table on level `n`. -/
def slotAt (n : Nat) (v : BitVec 36) : BitVec 9 := v.extractLsb' (9 * n) 9

/-- An entry of a PD or a PDPT for a large page. On the other two levels bit 7 has no
such meaning. -/
def IsLarge (n : Nat) (e : U64) : Prop := (n = 1 ∨ n = 2) ∧ HasFlag e pteHugePage

instance (n : Nat) (e : U64) : Decidable (IsLarge n e) := inferInstanceAs (Decidable (_ ∧ _))

theorem isLarge_one (e : U64) : IsLarge 1 e ↔ HasFlag e pteHugePage := by simp [IsLarge]

theorem isLarge_two (e : U64) : IsLarge 2 e ↔ HasFlag e pteHugePage := by simp [IsLarge]

theorem not_isLarge_three (e : U64) : ¬ IsLarge 3 e := by simp [IsLarge]

/-- The entries on the way to page `v` from table `t` on level `n`, unless one of
them is not present. -/
def walkEntries (m : Mem) (v : BitVec 36) : Nat → U64 → Option (List U64)
  | 0, t =>
    let e := entry m t (slotAt 0 v)
    if HasFlag e ptePresent then some [e] else none
  | n + 1, t =>
    let e := entry m t (slotAt (n + 1) v)
    if ¬ HasFlag e ptePresent then none
    else if IsLarge (n + 1) e then some [e]
    else (walkEntries m v n (pteToPhys e)).map (e :: ·)

/-- No page that user mode can access is both writable and executable. Access
and the right to write take every level, a single one denies execution. -/
def WriteXorExecute (m : Mem) (root : U64) : Prop :=
  ∀ v es, walkEntries m v 3 root = some es → (∀ e ∈ es, HasFlag e pteUser) →
    ¬ ((∀ e ∈ es, HasFlag e pteWritable) ∧ ¬ ∃ e ∈ es, HasFlag e pteNoExecute)

/-- The frame of the PML4 that CR3 refers to. -/
abbrev MmState.cr3Root (s : MmState) : U64 := pteToPhys s.cr3

def MmState.Wx (s : MmState) : Prop := WriteXorExecute s.mem s.cr3Root

/-- These are the rights of the processor's translation, whenever there is one. -/
theorem walkEntries_of_hwTranslate {m : Mem} {root : U64} {v : BitVec 36} {tr : Translation}
    (h : hwTranslate m root v = some tr) :
    ∃ es, walkEntries m v 3 root = some es ∧ tr = .through es tr.frame := by
  have hs4 : slotAt 3 v = slot4 v := rfl
  have hs3 : slotAt 2 v = slot3 v := rfl
  have hs2 : slotAt 1 v = slot2 v := rfl
  have hs1 : slotAt 0 v = slot1 v := rfl
  simp only [hwTranslate] at h
  simp only [walkEntries, hs4, hs3, hs2, hs1]
  -- the two definitions branch on the same entries, but for bit 7 in the PML4
  split at h
  · cases h
  rename_i h4
  rw [if_neg (by tauto), if_neg (not_isLarge_three _)]
  split at h
  · cases h
  rename_i h3
  rw [if_neg h3]
  split at h
  · rename_i hl
    cases h
    rw [if_pos ((isLarge_two _).mpr hl)]
    exact ⟨_, rfl, rfl⟩
  rename_i hl3
  rw [if_neg (hl3 ∘ (isLarge_two _).mp)]
  split at h
  · cases h
  rename_i h2
  rw [if_neg h2]
  split at h
  · rename_i hl
    cases h
    rw [if_pos ((isLarge_one _).mpr hl)]
    exact ⟨_, rfl, rfl⟩
  rename_i hl2
  rw [if_neg (hl2 ∘ (isLarge_one _).mp)]
  split at h
  · cases h
  rename_i h1
  cases h
  rw [if_pos (not_not.mp h1)]
  exact ⟨_, rfl, rfl⟩

theorem WriteXorExecute.translation {m : Mem} {root : U64} (h : WriteXorExecute m root)
    {v : BitVec 36} {tr : Translation} (ht : hwTranslate m root v = some tr) :
    ¬ (tr.user = true ∧ tr.writable = true ∧ tr.noExecute = false) := by
  obtain ⟨es, hes, heq⟩ := walkEntries_of_hwTranslate ht
  rw [heq]
  simp only [Translation.through, List.all_eq_true, List.any_eq_false, decide_eq_true_eq]
  rintro ⟨hu, hw, hx⟩
  exact h v es hes hu ⟨hw, by simpa using hx⟩

/-- An entry that takes no right away. -/
structure Grants (e : U64) : Prop where
  present : HasFlag e ptePresent
  user : HasFlag e pteUser
  writable : HasFlag e pteWritable
  executable : ¬ HasFlag e pteNoExecute

/-- Page `v` is user, writable and executable as far as the levels from `n` down
are concerned. -/
def Exposed (m : Mem) (v : BitVec 36) : Nat → U64 → Prop
  | 0, t => Grants (entry m t (slotAt 0 v))
  | n + 1, t =>
    let e := entry m t (slotAt (n + 1) v)
    Grants e ∧ (IsLarge (n + 1) e ∨ Exposed m v n (pteToPhys e))

theorem Grants.iff_of_present {e : U64} (hp : HasFlag e ptePresent) :
    Grants e ↔ HasFlag e pteUser ∧ HasFlag e pteWritable ∧ ¬ HasFlag e pteNoExecute :=
  ⟨fun h => ⟨h.user, h.writable, h.executable⟩, fun ⟨hu, hw, hx⟩ => ⟨hp, hu, hw, hx⟩⟩

theorem exposed_iff (m : Mem) (v : BitVec 36) (n : Nat) (t : U64) :
    Exposed m v n t ↔ ∃ es, walkEntries m v n t = some es ∧
      ∀ e ∈ es, HasFlag e pteUser ∧ HasFlag e pteWritable ∧ ¬ HasFlag e pteNoExecute := by
  have habsent : ∀ {e}, ¬ HasFlag e ptePresent → ¬ Grants e := fun hp h => hp h.present
  induction n generalizing t with
  | zero =>
    simp only [Exposed, walkEntries]
    by_cases hp : HasFlag (entry m t (slotAt 0 v)) ptePresent
    · simp [if_pos hp, Grants.iff_of_present hp]
    · simp [if_neg hp, habsent hp]
  | succ n ih =>
    simp only [Exposed, walkEntries, ih]
    generalize entry m t (slotAt (n + 1) v) = e
    by_cases hp : HasFlag e ptePresent
    swap
    · simp [if_pos hp, habsent hp]
    rw [if_neg (not_not.mpr hp), Grants.iff_of_present hp]
    by_cases hl : IsLarge (n + 1) e
    · simp [hl]
    · -- the rest of the way adds its entries to the list
      rw [if_neg hl]
      cases walkEntries m v n (pteToPhys e) with
      | none => simp [hl]
      | some es => simp [hl]

theorem writeXorExecute_iff (m : Mem) (root : U64) :
    WriteXorExecute m root ↔ ∀ v, ¬ Exposed m v 3 root := by
  simp only [WriteXorExecute, exposed_iff, not_exists, not_and]
  constructor
  · intro h v es hes hall
    exact h v es hes (fun e he => (hall e he).1) (fun e he => (hall e he).2.1)
      (fun e he => (hall e he).2.2)
  · intro h v es hes hu hw hx
    exact h v es hes fun e he => ⟨hu e he, hw e he, hx e he⟩

/-! ## The tables on each level -/

/-- An entry on level `n` that refers to a table on the level below. -/
def RefersDown (n : Nat) (e : U64) : Prop := HasFlag e ptePresent ∧ ¬ IsLarge n e

theorem not_refersDown_zero (n : Nat) : ¬ RefersDown n 0#64 := fun h => not_hasFlag_zero _ h.1

/-- `t` is a table on level `n` below the PML4 at `root`. -/
inductive TableAt (m : Mem) (root : U64) : Nat → U64 → Prop
  | root : TableAt m root 3 root
  | down {n : Nat} {t : U64} (i : BitVec 9) (ht : TableAt m root (n + 1) t)
      (hd : RefersDown (n + 1) (entry m t i)) : TableAt m root n (pteToPhys (entry m t i))

theorem TableAt.isFrame {m : Mem} {root : U64} (hroot : IsFrame root) {n : Nat} {t : U64}
    (h : TableAt m root n t) : IsFrame t := by
  cases h with
  | root => exact hroot
  | down i ht hd => exact pteToPhys_isFrame _

/-- While the entries of the tables stay as they are, so do the rights. -/
theorem exposed_congr {m m' : Mem} {root : U64}
    (hkeep : ∀ n t i, TableAt m root n t → entry m' t i = entry m t i) (v : BitVec 36) {n : Nat}
    {t : U64} (ht : TableAt m root n t) : Exposed m' v n t ↔ Exposed m v n t := by
  induction n generalizing t with
  | zero => rw [Exposed, Exposed, hkeep 0 t _ ht]
  | succ n ih =>
    simp only [Exposed, hkeep (n + 1) t _ ht]
    refine and_congr_right fun hg => ?_
    by_cases hl : IsLarge (n + 1) (entry m t (slotAt (n + 1) v))
    · simp only [hl, true_or]
    · rw [ih (ht.down _ ⟨hg.present, hl⟩)]

theorem writeXorExecute_congr {m m' : Mem} {root : U64}
    (hkeep : ∀ n t i, TableAt m root n t → entry m' t i = entry m t i) :
    WriteXorExecute m' root ↔ WriteXorExecute m root := by
  simp only [writeXorExecute_iff, exposed_congr hkeep _ TableAt.root]

/-- Nothing is exposed through an empty table. -/
theorem not_exposed_empty {m : Mem} {f : U64} (hempty : ∀ j, entry m f j = 0#64) (v : BitVec 36)
    (n : Nat) : ¬ Exposed m v n f := by
  have hzero : ¬ Grants 0#64 := fun h => not_hasFlag_zero _ h.present
  cases n with
  | zero =>
    rw [Exposed, hempty]
    exact hzero
  | succ n =>
    rw [Exposed, hempty]
    exact fun h => hzero h.1

/-! ## Opening a slot to user mode -/

section Open

variable (m : Mem) {t t' : U64} (ht : IsFrame t) (ht' : IsFrame t') (i j : BitVec 9)
include ht ht'

theorem entry_openSlot : entry (openSlot m t i) t' j =
    if t' = t ∧ j = i then entry m t' j ||| pteUser else entry m t' j := by
  rw [openSlot, entry_setEntry m ht ht']
  split
  · rename_i h
    rw [h.1, h.2]
  · rfl

/-- No other flag changes, -/
theorem hasFlag_openSlot {flag : U64} (hflag : ¬ HasFlag pteUser flag) :
    HasFlag (entry (openSlot m t i) t' j) flag ↔ HasFlag (entry m t' j) flag := by
  rw [entry_openSlot m ht ht']
  split
  · rw [hasFlag_or]
    exact or_iff_left hflag
  · rfl

/-- nor where the entry leads. -/
theorem pteToPhys_openSlot :
    pteToPhys (entry (openSlot m t i) t' j) = pteToPhys (entry m t' j) := by
  rw [entry_openSlot m ht ht']
  split
  · exact pteToPhys_or_user _
  · rfl

theorem isLarge_openSlot (n : Nat) :
    IsLarge n (entry (openSlot m t i) t' j) ↔ IsLarge n (entry m t' j) := by
  rw [IsLarge, IsLarge, hasFlag_openSlot m ht ht' i j (by decide)]

theorem refersDown_openSlot (n : Nat) :
    RefersDown n (entry (openSlot m t i) t' j) ↔ RefersDown n (entry m t' j) := by
  rw [RefersDown, RefersDown, hasFlag_openSlot m ht ht' i j (by decide), isLarge_openSlot m ht ht']

end Open

theorem tableAt_openSlot {m : Mem} {root t : U64} (hroot : IsFrame root) (ht : IsFrame t)
    (i : BitVec 9) {n : Nat} {t' : U64} (h : TableAt (openSlot m t i) root n t') :
    TableAt m root n t' := by
  induction h with
  | root => exact .root
  | down j _ hd ih =>
    have hframe := ih.isFrame hroot
    rw [pteToPhys_openSlot m ht hframe]
    exact ih.down j ((refersDown_openSlot m ht hframe i j _).mp hd)

/-! ## When the code page is refused -/

/-- Slot `i` of table `t` takes no right away, if it is a user entry or one of `g`. -/
structure GrantsBut (m : Mem) (g : List (U64 × BitVec 9)) (t : U64) (i : BitVec 9) : Prop where
  present : HasFlag (entry m t i) ptePresent
  user : HasFlag (entry m t i) pteUser ∨ (t, i) ∈ g
  writable : HasFlag (entry m t i) pteWritable
  executable : ¬ HasFlag (entry m t i) pteNoExecute

/-- Nothing but missing U bits in the entries `g` keeps user mode from writing and
executing page `v`, as far as the levels from `n` down are concerned. -/
def ExposedBut (m : Mem) (g : List (U64 × BitVec 9)) (v : BitVec 36) : Nat → U64 → Prop
  | 0, t => GrantsBut m g t (slotAt 0 v)
  | n + 1, t =>
    let e := entry m t (slotAt (n + 1) v)
    GrantsBut m g t (slotAt (n + 1) v) ∧ (IsLarge (n + 1) e ∨ ExposedBut m g v n (pteToPhys e))

/-- No page lacks only the U bits of the entries `g` to be user, writable and
executable. -/
def CanOpen (m : Mem) (root : U64) (g : List (U64 × BitVec 9)) : Prop :=
  ∀ v, ¬ ExposedBut m g v 3 root

/-- From table `t` on level `n`, the way to the page table of `v` ends at a large
page, or at an absent entry with fewer than the `n` free pages it takes to go on;
and the entries passed, `g` and those from here on, can be given to user mode. -/
def StopsShort (m : Mem) (root : U64) (free : Nat) (v : BitVec 36) :
    Nat → U64 → List (U64 × BitVec 9) → Prop
  | 0, _, _ => False
  | n + 1, t, g =>
    let e := entry m t (slotAt (n + 1) v)
    if IsLarge (n + 1) e then CanOpen m root g
    else if HasFlag e ptePresent then
      StopsShort m root free v n (pteToPhys e) (g ++ [(t, slotAt (n + 1) v)])
    else free < n + 1 ∧ CanOpen m root g

/-- Without three free pages for code and stack, or where the way to the code page
stops short, `setup_user_address_space` gives up before it maps the code page. -/
def CodePageRefused (s : MmState) : Prop :=
  s.pmm.freeCount < 3 ∨
    StopsShort s.mem s.cr3Root (s.pmm.freeCount - 3) (vpn 0x400000) 3 s.cr3Root []

section Stops

variable {m : Mem} {root : U64} {free : Nat} {v : BitVec 36} {g g' : List (U64 × BitVec 9)}

theorem grantsBut_nil (t : U64) (i : BitVec 9) : GrantsBut m [] t i ↔ Grants (entry m t i) := by
  constructor
  · intro h
    exact ⟨h.present, h.user.resolve_right List.not_mem_nil, h.writable, h.executable⟩
  · intro h
    exact ⟨h.present, .inl h.user, h.writable, h.executable⟩

theorem exposedBut_nil (n : Nat) (t : U64) : ExposedBut m [] v n t ↔ Exposed m v n t := by
  induction n generalizing t with
  | zero => exact grantsBut_nil t _
  | succ n ih => simp only [ExposedBut, Exposed, grantsBut_nil, ih]

theorem canOpen_nil : CanOpen m root [] ↔ WriteXorExecute m root := by
  simp only [CanOpen, writeXorExecute_iff, exposedBut_nil]

theorem GrantsBut.mono (hsub : g ⊆ g') {t : U64} {i : BitVec 9} (h : GrantsBut m g t i) :
    GrantsBut m g' t i :=
  ⟨h.present, h.user.imp_right fun hmem => hsub hmem, h.writable, h.executable⟩

theorem ExposedBut.mono (hsub : g ⊆ g') {n : Nat} {t : U64} (h : ExposedBut m g v n t) :
    ExposedBut m g' v n t := by
  induction n generalizing t with
  | zero => exact GrantsBut.mono hsub h
  | succ n ih =>
    obtain ⟨hgrants, hl | hx⟩ := h
    · exact ⟨hgrants.mono hsub, .inl hl⟩
    · exact ⟨hgrants.mono hsub, .inr (ih hx)⟩

theorem CanOpen.anti (hsub : g ⊆ g') (h : CanOpen m root g') : CanOpen m root g :=
  fun v hx => h v (hx.mono hsub)

theorem grantsBut_openSlot {t t' : U64} (ht : IsFrame t) (ht' : IsFrame t') (i j : BitVec 9) :
    GrantsBut (openSlot m t i) g t' j ↔ GrantsBut m ((t, i) :: g) t' j := by
  have hflag : ∀ {flag : U64}, ¬ HasFlag pteUser flag →
      (HasFlag (entry (openSlot m t i) t' j) flag ↔ HasFlag (entry m t' j) flag) :=
    hasFlag_openSlot m ht ht' i j
  have huser : HasFlag (entry (openSlot m t i) t' j) pteUser ↔
      HasFlag (entry m t' j) pteUser ∨ (t', j) = (t, i) := by
    rw [entry_openSlot m ht ht', Prod.mk.injEq]
    split
    · rename_i hat
      exact iff_of_true (hasFlag_or.mpr (.inr (by decide))) (.inr hat)
    · rename_i hat
      exact (or_iff_left hat).symm
  constructor
  · intro h
    refine ⟨(hflag (by decide)).mp h.present, ?_, (hflag (by decide)).mp h.writable,
      mt (hflag (by decide)).mpr h.executable⟩
    rw [List.mem_cons, ← or_assoc, ← huser]
    exact h.user
  · intro h
    refine ⟨(hflag (by decide)).mpr h.present, ?_, (hflag (by decide)).mpr h.writable,
      mt (hflag (by decide)).mp h.executable⟩
    rw [huser, or_assoc, ← List.mem_cons]
    exact h.user

theorem exposedBut_openSlot {t : U64} (ht : IsFrame t) (i : BitVec 9) (n : Nat) {t' : U64}
    (ht' : IsFrame t') :
    ExposedBut (openSlot m t i) g v n t' ↔ ExposedBut m ((t, i) :: g) v n t' := by
  induction n generalizing t' with
  | zero => exact grantsBut_openSlot ht ht' i _
  | succ n ih =>
    simp only [ExposedBut, grantsBut_openSlot ht ht', isLarge_openSlot m ht ht',
      pteToPhys_openSlot m ht ht', ih (pteToPhys_isFrame _)]

theorem stopsShort_openSlot (hroot : IsFrame root) {t : U64} (ht : IsFrame t) (i : BitVec 9)
    (n : Nat) {t' : U64} (ht' : IsFrame t') (g : List (U64 × BitVec 9)) :
    StopsShort (openSlot m t i) root free v n t' g ↔
      StopsShort m root free v n t' ((t, i) :: g) := by
  induction n generalizing t' g with
  | zero => rfl
  | succ n ih =>
    simp only [StopsShort, CanOpen, isLarge_openSlot m ht ht', pteToPhys_openSlot m ht ht',
      hasFlag_openSlot m ht ht' i _ (show ¬ HasFlag pteUser ptePresent by decide),
      exposedBut_openSlot ht i 3 hroot, ih (pteToPhys_isFrame _), List.cons_append]

/-- The entries passed so far are among those passed in the end. -/
theorem StopsShort.canOpen {n : Nat} {t : U64} (h : StopsShort m root free v n t g) :
    CanOpen m root g := by
  induction n generalizing t g with
  | zero => exact h.elim
  | succ n ih =>
    simp only [StopsShort] at h
    split at h
    · exact h
    · split at h
      · exact (ih h).anti (List.subset_append_left _ _)
      · exact h.2

/-- An empty table still lacks all tables below it. -/
theorem stopsShort_empty {f : U64} (hempty : ∀ j, entry m f j = 0#64) (n : Nat) :
    StopsShort m root free v n f [] ↔ free < n ∧ WriteXorExecute m root := by
  cases n with
  | zero => simp [StopsShort]
  | succ n =>
    have hlarge : ¬ IsLarge (n + 1) 0#64 := fun h => not_hasFlag_zero _ h.2
    simp only [StopsShort, hempty, if_neg hlarge, if_neg (not_hasFlag_zero _), canOpen_nil]

end Stops

/-! ## The state the calls are made in -/

/-- The tables CR3 refers to are in order: they are not up for allocation, none
serves on two levels, the entries that refer to a table are writable and
executable, and neither a table nor a page to be allocated is at the null pointer. -/
structure InPlaceReady (s : MmState) : Prop where
  pmm : s.pmm.Consistent
  unavailable : ∀ n t, TableAt s.mem s.cr3Root n t → ¬ s.pmm.Available t
  levels : ∀ n n' t, TableAt s.mem s.cr3Root n t → TableAt s.mem s.cr3Root n' t → n = n'
  inner : ∀ n t i, TableAt s.mem s.cr3Root (n + 1) t → RefersDown (n + 1) (entry s.mem t i) →
    HasFlag (entry s.mem t i) pteWritable ∧ ¬ HasFlag (entry s.mem t i) pteNoExecute
  tableWindow : ∀ n t, TableAt s.mem s.cr3Root n t → s.physToVirt t ≠ 0#64
  pageWindow : ∀ a, s.pmm.Available a → s.physToVirt a ≠ 0#64

theorem MmState.cr3Root_isFrame (s : MmState) : IsFrame s.cr3Root := pteToPhys_isFrame _

section Ready

variable {s : MmState} (h : InPlaceReady s) {n : Nat} {t : U64}
  (ht : TableAt s.mem s.cr3Root n t)
include h

/-- Pages may be allocated for other purposes. -/
theorem InPlaceReady.allocate {p' : Pmm} (hc : p'.Consistent)
    (hfewer : ∀ b, p'.Available b → s.pmm.Available b) : InPlaceReady { s with pmm := p' } :=
  { pmm := hc
    unavailable := fun n t ht hav => h.unavailable n t ht (hfewer t hav)
    levels := h.levels
    inner := h.inner
    tableWindow := h.tableWindow
    pageWindow := fun a ha => h.pageWindow a (hfewer a ha) }

include ht

theorem InPlaceReady.opened (i : BitVec 9) :
    InPlaceReady { s with mem := openSlot s.mem t i } := by
  have hroot := s.cr3Root_isFrame
  have hframe := ht.isFrame hroot
  have hback : ∀ {n t'}, TableAt (openSlot s.mem t i) s.cr3Root n t' →
      TableAt s.mem s.cr3Root n t' := tableAt_openSlot hroot hframe i
  refine ⟨h.pmm, fun n t' ht' => h.unavailable n t' (hback ht'),
    fun n n' t' ht' ht'' => h.levels n n' t' (hback ht') (hback ht''), ?_,
    fun n t' ht' => h.tableWindow n t' (hback ht'), h.pageWindow⟩
  intro n t' j ht' hd
  have hframe' := (hback ht').isFrame hroot
  have hd' := (refersDown_openSlot s.mem hframe hframe' i j _).mp hd
  obtain ⟨hw, hx⟩ := h.inner n t' j (hback ht') hd'
  exact ⟨(hasFlag_openSlot s.mem hframe hframe' i j (by decide)).mpr hw,
    mt (hasFlag_openSlot s.mem hframe hframe' i j (by decide)).mp hx⟩

end Ready

/-! ## Linking a fresh table -/

theorem IsFrame.grants {f : U64} (hf : IsFrame f) : Grants (f ||| userPageWrite) where
  present := hasFlag_or.mpr (.inr (by decide))
  user := hasFlag_or.mpr (.inr (by decide))
  writable := hasFlag_or.mpr (.inr (by decide))
  executable := by
    rw [hasFlag_or, not_or]
    exact ⟨hf.not_hasFlag (by decide), by decide⟩

theorem IsFrame.not_isLarge_newTableEntry {f : U64} (hf : IsFrame f) (n : Nat) :
    ¬ IsLarge n (newTableEntry f) := by
  rintro ⟨-, hl⟩
  rw [newTableEntry_eq, hasFlag_or] at hl
  exact hl.elim (hf.not_hasFlag (by decide)) (by decide)

section Link

variable {s : MmState} (h : InPlaceReady s) {n : Nat} {t f : U64} {i : BitVec 9}
  (ht : TableAt s.mem s.cr3Root (n + 1) t) (hf : IsFrame f) (havail : s.pmm.Available f)
include h ht hf havail

/-- What the tables hold after the link. -/
theorem InPlaceReady.entry_link {n' : Nat} {t' : U64} (ht' : TableAt s.mem s.cr3Root n' t')
    (j : BitVec 9) : entry (linked s.mem t i f (newTableEntry f)) t' j =
      if t' = t ∧ j = i then newTableEntry f else entry s.mem t' j := by
  have hroot := s.cr3Root_isFrame
  have hne : t' ≠ f := by
    rintro rfl
    exact h.unavailable n' t' ht' havail
  rw [entry_linked s.mem (ht.isFrame hroot) hf (ht'.isFrame hroot), if_neg hne]

theorem InPlaceReady.entry_fresh (j : BitVec 9) :
    entry (linked s.mem t i f (newTableEntry f)) f j = 0#64 := by
  apply entry_linked_fresh s.mem (ht.isFrame s.cr3Root_isFrame) hf
  rintro rfl
  exact h.unavailable (n + 1) t ht havail

/-- The fresh table is the only new one. -/
theorem InPlaceReady.tableAt_linked {n' : Nat} {t' : U64}
    (ht' : TableAt (linked s.mem t i f (newTableEntry f)) s.cr3Root n' t') :
    (n' = n ∧ t' = f) ∨ TableAt s.mem s.cr3Root n' t' := by
  induction ht' with
  | root => exact .inr .root
  | down j _ hd ih =>
    rename_i k a _
    rcases ih with ⟨-, rfl⟩ | ha
    · rw [h.entry_fresh ht hf havail] at hd
      exact absurd hd (not_refersDown_zero _)
    · rw [h.entry_link ht hf havail ha] at hd ⊢
      split at hd
      · rename_i hat
        rw [if_pos hat, hf.pteToPhys_newTableEntry]
        exact .inl ⟨Nat.succ.inj (h.levels _ _ _ (hat.1 ▸ ha) ht), rfl⟩
      · rename_i hat
        rw [if_neg hat]
        exact .inr (ha.down j hd)

theorem InPlaceReady.link {p' : Pmm} (htake : TakesPage s.pmm f p') :
    InPlaceReady { s with mem := linked s.mem t i f (newTableEntry f), pmm := p' } := by
  have hold : ∀ {k}, ¬ TableAt s.mem s.cr3Root k f := fun hk => h.unavailable _ f hk havail
  refine ⟨htake.consistent, ?_, ?_, ?_, ?_, fun a ha => h.pageWindow a (htake.fewer a ha)⟩
  · intro k a ha
    rcases h.tableAt_linked ht hf havail ha with ⟨-, rfl⟩ | ha
    · exact htake.taken
    · exact fun hav => h.unavailable k a ha (htake.fewer a hav)
  · intro k k' a ha ha'
    rcases h.tableAt_linked ht hf havail ha with ⟨rfl, rfl⟩ | hm
    · rcases h.tableAt_linked ht hf havail ha' with ⟨rfl, -⟩ | hm'
      · rfl
      · exact absurd hm' hold
    · rcases h.tableAt_linked ht hf havail ha' with ⟨-, rfl⟩ | hm'
      · exact absurd hm hold
      · exact h.levels k k' a hm hm'
  · intro k a j ha hd
    dsimp only at hd ⊢
    rcases h.tableAt_linked ht hf havail ha with ⟨-, rfl⟩ | ha
    · rw [h.entry_fresh ht hf havail] at hd
      exact absurd hd (not_refersDown_zero _)
    · rw [h.entry_link ht hf havail ha] at hd ⊢
      split at hd
      · rename_i hat
        rw [if_pos hat, newTableEntry_eq]
        exact ⟨hf.grants.writable, hf.grants.executable⟩
      · rename_i hat
        rw [if_neg hat]
        exact h.inner k a j ha hd
  · intro k a ha
    rcases h.tableAt_linked ht hf havail ha with ⟨-, rfl⟩ | ha
    · exact h.pageWindow a havail
    · exact h.tableWindow k a ha

/-- The new table is empty, so no page gains rights. -/
theorem InPlaceReady.exposed_linked (habsent : ¬ HasFlag (entry s.mem t i) ptePresent)
    (v : BitVec 36)
    {k : Nat} {a : U64} (ha : TableAt s.mem s.cr3Root k a) :
    Exposed (linked s.mem t i f (newTableEntry f)) v k a ↔ Exposed s.mem v k a := by
  induction k generalizing a with
  | zero =>
    have hat : ¬ (a = t ∧ slotAt 0 v = i) := by
      rintro ⟨rfl, -⟩
      exact absurd (h.levels _ _ _ ha ht) (by omega)
    rw [Exposed, Exposed, h.entry_link ht hf havail ha, if_neg hat]
  | succ k ih =>
    simp only [Exposed]
    rw [h.entry_link ht hf havail ha]
    by_cases hat : a = t ∧ slotAt (k + 1) v = i
    · rw [if_pos hat, hf.pteToPhys_newTableEntry, hat.1, hat.2]
      constructor
      · rintro ⟨-, hl | hx⟩
        · exact absurd hl (hf.not_isLarge_newTableEntry _)
        · exact absurd hx (not_exposed_empty (h.entry_fresh ht hf havail) v k)
      · exact fun hx => absurd hx.1.present habsent
    · rw [if_neg hat]
      refine and_congr_right fun hg => ?_
      by_cases hl : IsLarge (k + 1) (entry s.mem a (slotAt (k + 1) v))
      · simp only [hl, true_or]
      · rw [ih (ha.down _ ⟨hg.present, hl⟩)]

theorem InPlaceReady.writeXorExecute_linked (habsent : ¬ HasFlag (entry s.mem t i) ptePresent) :
    WriteXorExecute (linked s.mem t i f (newTableEntry f)) s.cr3Root ↔
      WriteXorExecute s.mem s.cr3Root := by
  simp only [writeXorExecute_iff, h.exposed_linked ht hf havail habsent _ TableAt.root]

end Link

/-- Clearing a page up for allocation touches no table. -/
theorem InPlaceReady.wx_clearing {s x : MmState} (h : InPlaceReady s) {p' : Pmm} {f : U64}
    (hf : IsFrame f) (havail : s.pmm.Available f) (hx : Clearing { s with pmm := p' } f x)
    (hs : s.Wx) : x.Wx := by
  obtain ⟨k, hk, rfl⟩ := hx
  refine (writeXorExecute_congr fun n t i ht => ?_).mpr hs
  have hne : t ≠ f := by
    rintro rfl
    exact h.unavailable n t ht havail
  exact entry_zeroed_ne s.mem hf (ht.isFrame s.cr3Root_isFrame) hne hk i

/-! ## The way down to the code page -/

/-- Table `t` on level `n` is reached on the way to page `v`, through entries that
take no right away. -/
inductive OpenPath (m : Mem) (root : U64) (v : BitVec 36) : Nat → U64 → Prop
  | root : OpenPath m root v 3 root
  | down {n : Nat} {t : U64} (h : OpenPath m root v (n + 1) t)
      (hg : Grants (entry m t (slotAt (n + 1) v)))
      (hl : ¬ IsLarge (n + 1) (entry m t (slotAt (n + 1) v))) :
      OpenPath m root v n (pteToPhys (entry m t (slotAt (n + 1) v)))

section Path

variable {m m' : Mem} {root t : U64} {v : BitVec 36} {n : Nat}

theorem OpenPath.tableAt (h : OpenPath m root v n t) : TableAt m root n t := by
  induction h with
  | root => exact .root
  | down _ hg hl ih => exact ih.down _ ⟨hg.present, hl⟩

/-- Only the tables above matter. -/
theorem OpenPath.congr (h : OpenPath m root v n t)
    (hkeep : ∀ k a i, n < k → TableAt m root k a → entry m' a i = entry m a i) :
    OpenPath m' root v n t := by
  induction h with
  | root => exact .root
  | @down k a h hg hl ih =>
    have heq := hkeep (k + 1) a (slotAt (k + 1) v) (Nat.lt_succ_self k) h.tableAt
    have hup := ih fun k a i hk => hkeep k a i (by omega)
    rw [← heq] at hg hl ⊢
    exact hup.down hg hl

/-- What is exposed from here on is exposed altogether. -/
theorem OpenPath.exposed (h : OpenPath m root v n t) (hx : Exposed m v n t) :
    Exposed m v 3 root := by
  induction h with
  | root => exact hx
  | down _ hg _ ih => exact ih ⟨hg, .inr hx⟩

end Path

/-- Arrival at table `t` on level `n` of the way to page `v`. -/
structure Arrives (v : BitVec 36) (s : MmState) (n : Nat) (t : U64) : Prop where
  ready : InPlaceReady s
  path : OpenPath s.mem s.cr3Root v n t

section Arrival

variable {v : BitVec 36} {s : MmState} {n : Nat} {t : U64}

theorem Arrives.isFrame (h : Arrives v s n t) : IsFrame t :=
  h.path.tableAt.isFrame s.cr3Root_isFrame

/-- Tables on higher levels are other tables. -/
theorem Arrives.ne_above (h : Arrives v s n t) {k : Nat} {a : U64} (hk : n < k)
    (ha : TableAt s.mem s.cr3Root k a) : a ≠ t := by
  rintro rfl
  exact absurd (h.ready.levels _ _ _ ha h.path.tableAt) (by omega)

/-- Going on through an entry that is there. -/
theorem Arrives.opened (h : Arrives v s (n + 1) t)
    (hd : RefersDown (n + 1) (entry s.mem t (slotAt (n + 1) v))) :
    Arrives v { s with mem := openSlot s.mem t (slotAt (n + 1) v) } n
      (pteToPhys (entry s.mem t (slotAt (n + 1) v))) := by
  have ht := h.isFrame
  refine ⟨h.ready.opened h.path.tableAt _, ?_⟩
  obtain ⟨hw, hx⟩ := h.ready.inner n t _ h.path.tableAt hd
  have hgrants : Grants (entry (openSlot s.mem t (slotAt (n + 1) v)) t (slotAt (n + 1) v)) :=
    { present := (hasFlag_openSlot _ ht ht _ _ (by decide)).mpr hd.1
      user := by
        rw [entry_openSlot _ ht ht, if_pos ⟨rfl, rfl⟩]
        exact hasFlag_or.mpr (.inr (by decide))
      writable := (hasFlag_openSlot _ ht ht _ _ (by decide)).mpr hw
      executable := mt (hasFlag_openSlot _ ht ht _ _ (by decide)).mp hx }
  have hup : OpenPath (openSlot s.mem t (slotAt (n + 1) v)) s.cr3Root v (n + 1) t := by
    apply h.path.congr
    intro k a j hk ha
    rw [entry_openSlot _ ht (ha.isFrame s.cr3Root_isFrame),
      if_neg (fun hat => h.ne_above hk ha hat.1)]
  have hnext := hup.down hgrants (mt (isLarge_openSlot _ ht ht _ _ _).mp hd.2)
  rw [pteToPhys_openSlot _ ht ht] at hnext
  exact hnext

/-- Going on through a table just made. -/
theorem Arrives.link (h : Arrives v s (n + 1) t) {f : U64} {p' : Pmm}
    (htake : TakesPage s.pmm f p') :
    Arrives v { s with
      mem := linked s.mem t (slotAt (n + 1) v) f (newTableEntry f), pmm := p' } n f := by
  have hf : IsFrame f := htake.isFrame
  have ht := h.path.tableAt
  have hself : entry (linked s.mem t (slotAt (n + 1) v) f (newTableEntry f)) t
      (slotAt (n + 1) v) = newTableEntry f := by
    rw [h.ready.entry_link ht hf htake.available ht, if_pos ⟨rfl, rfl⟩]
  refine ⟨h.ready.link ht hf htake.available htake, ?_⟩
  have hup : OpenPath (linked s.mem t (slotAt (n + 1) v) f (newTableEntry f)) s.cr3Root v
      (n + 1) t := by
    apply h.path.congr
    intro k a j hk ha
    rw [h.ready.entry_link ht hf htake.available ha, if_neg (fun hat => h.ne_above hk ha hat.1)]
  have hnext := hup.down (by rw [hself, newTableEntry_eq]; exact hf.grants)
    (by rw [hself]; exact hf.not_isLarge_newTableEntry _)
  rw [hself, hf.pteToPhys_newTableEntry] at hnext
  exact hnext

end Arrival

/-! ## What a call decides -/

/-- A call made after `r` fails and exposes nothing if `C` holds; if not, there is
an exposed page on record. -/
structure Decides (C : Prop) (r : Traced MmState) (out : Bool × Traced MmState) : Prop where
  refused : C → Throughout MmState.Wx r → out.1 = false ∧ Throughout MmState.Wx out.2
  exposed : ¬ C → ¬ Throughout MmState.Wx out.2

/-- From table `t` on level `n` the way to page `v` stops short. -/
abbrev MmState.Stops (s : MmState) (v : BitVec 36) (n : Nat) (t : U64) : Prop :=
  StopsShort s.mem s.cr3Root s.pmm.freeCount v n t []

section Level

variable {v : BitVec 36} {r : Traced MmState} {n : Nat} {t : U64}

/-- Behind an entry that refers to a table, the way stops short where it does with
the entry opened. -/
theorem MmState.stops_opened {s : MmState} (ht : IsFrame t)
    (hd : RefersDown (n + 1) (entry s.mem t (slotAt (n + 1) v))) :
    s.Stops v (n + 1) t ↔
      ({ s with mem := openSlot s.mem t (slotAt (n + 1) v) } : MmState).Stops v n
        (pteToPhys (entry s.mem t (slotAt (n + 1) v))) := by
  simp only [MmState.Stops, StopsShort, if_neg hd.2, if_pos hd.1]
  exact (stopsShort_openSlot s.cr3Root_isFrame ht _ n (pteToPhys_isFrame _) []).symm

theorem MmState.stops_absent {s : MmState}
    (hlarge : ¬ IsLarge (n + 1) (entry s.mem t (slotAt (n + 1) v)))
    (habsent : ¬ HasFlag (entry s.mem t (slotAt (n + 1) v)) ptePresent) :
    s.Stops v (n + 1) t ↔ s.pmm.freeCount < n + 1 ∧ s.Wx := by
  simp only [MmState.Stops, StopsShort, if_neg hlarge, if_neg habsent, canOpen_nil]
  rfl

/-- A table made on the way takes one of the pages it needs. -/
theorem Arrives.stops_linked {s : MmState} (h : Arrives v s (n + 1) t)
    (hlarge : ¬ IsLarge (n + 1) (entry s.mem t (slotAt (n + 1) v)))
    (habsent : ¬ HasFlag (entry s.mem t (slotAt (n + 1) v)) ptePresent) {f : U64} {p' : Pmm}
    (halloc : pmmAllocPage s.pmm = (f, p')) (htake : TakesPage s.pmm f p') :
    s.Stops v (n + 1) t ↔ ({ s with
      mem := linked s.mem t (slotAt (n + 1) v) f (newTableEntry f), pmm := p' } :
        MmState).Stops v n f := by
  have hcount := pmmAllocPage_freeCount h.ready.pmm halloc htake.isPage.ne_zero
  rw [MmState.stops_absent hlarge habsent, hcount, Nat.succ_lt_succ_iff, MmState.Stops,
    stopsShort_empty (h.ready.entry_fresh h.path.tableAt htake.isFrame htake.available),
    h.ready.writeXorExecute_linked h.path.tableAt htake.isFrame htake.available habsent]
  rfl

/-- Giving up without a store. -/
theorem Decides.give_up {r' : Traced MmState} (hr : ∀ x, x ∈ r'.states ↔ x ∈ r.states) :
    Decides r.now.Wx r (false, r') := by
  constructor
  · exact fun _ hall => ⟨rfl, fun x hx => hall x ((hr x).mp hx)⟩
  · exact fun hC hall => hC (hall r.now ((hr r.now).mpr List.mem_cons_self))

/-- One level decides by what the next one decides. -/
theorem Arrives.level (h : Arrives v r.now (n + 1) t)
    (hlarge : ¬ IsLarge (n + 1) (entry r.now.mem t (slotAt (n + 1) v)))
    {next : Traced MmState → U64 → Bool × Traced MmState}
    (hnext : ∀ q a, Arrives v q.now n a →
      Decides (q.now.Stops v n a) q (next q (q.now.physToVirt a))) :
    Decides (r.now.Stops v (n + 1) t) r
      (withTable r (r.now.physToVirt t) ((slotAt (n + 1) v).setWidth 64) next) := by
  rcases getOrMakeTable_cases h.ready.pmm h.isFrame (slotAt (n + 1) v) with
    ⟨hpres, heq⟩ | ⟨habsent, hex, heq⟩ | ⟨habsent, f, p', q, halloc, htake, hq, heq⟩
  · -- the entry is opened, and the way goes on behind it
    have hd : RefersDown (n + 1) (entry r.now.mem t (slotAt (n + 1) v)) := ⟨hpres, hlarge⟩
    have hnull := h.ready.tableWindow _ _ (h.path.tableAt.down _ hd)
    have hgo := hnext (r.put { r.now with mem := openSlot r.now.mem t (slotAt (n + 1) v) }) _
      (h.opened hd)
    simp only [withTable, heq, if_neg hnull]
    rw [MmState.stops_opened h.isFrame hd]
    refine ⟨fun hC hall => hgo.refused hC (hall.put ?_), hgo.exposed⟩
    exact canOpen_nil.mp hC.canOpen
  · -- no page is free, so the way stops short here
    have hfree := h.ready.pmm.exhausted_iff.mp hex
    simp only [withTable, heq, if_true]
    rw [MmState.stops_absent hlarge habsent, and_iff_right (by omega)]
    refine Decides.give_up fun x => ?_
    rw [mem_put]
    exact or_iff_right_of_imp fun hx => hx ▸ List.mem_cons_self
  · -- a table is made, and the way goes on in it
    have hnull := h.ready.pageWindow f htake.available
    have hwx := h.ready.writeXorExecute_linked h.path.tableAt htake.isFrame htake.available habsent
    have hgo := hnext (q.put { r.now with
      mem := linked r.now.mem t (slotAt (n + 1) v) f (newTableEntry f), pmm := p' }) _
      (h.link htake)
    simp only [withTable, heq, if_neg hnull]
    rw [h.stops_linked hlarge habsent halloc htake]
    refine ⟨fun hC hall => hgo.refused hC (Throughout.put ?_ (hwx.mpr hall.now)), hgo.exposed⟩
    intro x hx
    rcases hq x hx with hx | hx
    · exact hall x hx
    · exact h.ready.wx_clearing htake.isFrame htake.available hx hall.now

/-- A large page ends the way with nothing done. -/
theorem Decides.large (hlarge : IsLarge (n + 1) (entry r.now.mem t (slotAt (n + 1) v))) :
    Decides (r.now.Stops v (n + 1) t) r (false, r) := by
  simp only [MmState.Stops, StopsShort, if_pos hlarge, canOpen_nil]
  exact Decides.give_up fun _ => Iff.rfl

end Level

/-! ## Mapping the code page -/

section CodePage

variable {va pa : U64} {r : Traced MmState} {t : U64}

/-- At the page table nothing stops the mapping, which exposes the page. -/
theorem Arrives.mapInPt_decides (h : Arrives (vpn va) r.now 0 t) :
    Decides (r.now.Stops (vpn va) 0 t) r (mapInPt va pa userPageWrite r (r.now.physToVirt t)) := by
  have ht := h.isFrame
  have hslot : ptIndex va = (slotAt 0 (vpn va)).setWidth 64 := ptIndex_eq va
  have hpte : (pa &&& pteAddrMask) ||| userPageWrite ||| pteUser =
      pteToPhys pa ||| userPageWrite := by
    rw [BitVec.or_assoc, pteToPhys]
    rfl
  refine ⟨fun hC => hC.elim, fun _ hall => ?_⟩
  have hnow := (writeXorExecute_iff _ _).mp hall.now (vpn va)
  simp only [mapInPt, now_put, MmState.physToVirt, hslot, hpte, MmState.store_window] at hnow
  apply hnow
  have hup : OpenPath (setEntry r.now.mem t (slotAt 0 (vpn va)) (pteToPhys pa ||| userPageWrite))
      r.now.cr3Root (vpn va) 0 t := by
    apply h.path.congr
    intro k a j hk ha
    rw [entry_setEntry _ ht (ha.isFrame r.now.cr3Root_isFrame),
      if_neg (fun hat => h.ne_above hk ha hat.1)]
  apply hup.exposed
  rw [Exposed, entry_setEntry _ ht ht, if_pos ⟨rfl, rfl⟩]
  exact (pteToPhys_isFrame pa).grants

theorem Arrives.mapInPd_decides (h : Arrives (vpn va) r.now 1 t) :
    Decides (r.now.Stops (vpn va) 1 t) r (mapInPd va pa userPageWrite r (r.now.physToVirt t)) := by
  have hslot : pdIndex va = (slotAt 1 (vpn va)).setWidth 64 := pdIndex_eq va
  have hload := r.now.load_window r.now.getHhdmBase t (slotAt 1 (vpn va))
  rw [mapInPd, hslot, MmState.physToVirt, hload]
  split
  · rename_i hl
    exact Decides.large ((isLarge_one _).mpr hl)
  · rename_i hl
    exact h.level (hl ∘ (isLarge_one _).mp) fun q a ha => ha.mapInPt_decides

theorem Arrives.mapInPdpt_decides (h : Arrives (vpn va) r.now 2 t) :
    Decides (r.now.Stops (vpn va) 2 t) r
      (mapInPdpt va pa userPageWrite r (r.now.physToVirt t)) := by
  have hslot : pdptIndex va = (slotAt 2 (vpn va)).setWidth 64 := pdptIndex_eq va
  have hload := r.now.load_window r.now.getHhdmBase t (slotAt 2 (vpn va))
  rw [mapInPdpt, hslot, MmState.physToVirt, hload]
  split
  · rename_i hl
    exact Decides.large ((isLarge_two _).mpr hl)
  · rename_i hl
    exact h.level (hl ∘ (isLarge_two _).mp) fun q a ha => ha.mapInPd_decides

/-- `map_user_4k` with `USER_PAGE_WRITE` exposes the page unless the way to it
stops short. -/
theorem mapUser4k_decides (h : InPlaceReady r.now) (va pa : U64) :
    Decides (r.now.Stops (vpn va) 3 r.now.cr3Root) r (mapUser4k va pa userPageWrite r) := by
  have hslot : pml4Index va = (slotAt 3 (vpn va)).setWidth 64 := pml4Index_eq va
  have harr : Arrives (vpn va) r.now 3 r.now.cr3Root := ⟨h, .root⟩
  rw [mapUser4k, hslot]
  exact harr.level (not_isLarge_three _) fun q a ha => ha.mapInPdpt_decides

end CodePage

/-! ## The whole sequence -/

/-- One of the page allocations of `setup_user_address_space`. -/
theorem pmmAllocPage_counted {p p' : Pmm} {a : U64} (h : p.Consistent)
    (heq : pmmAllocPage p = (a, p')) :
    (p.freeCount = 0 ∧ a = 0#64 ∧ p' = p) ∨
      (p.freeCount = p'.freeCount + 1 ∧ a ≠ 0#64 ∧ p'.Consistent ∧
        ∀ b, p'.Available b → p.Available b) := by
  rcases pmmAllocPage_cases h with ⟨heq', hex⟩ | ⟨f, q, heq', htake⟩
  · cases heq.symm.trans heq'
    exact .inl ⟨h.exhausted_iff.mp hex, rfl, rfl⟩
  · cases heq.symm.trans heq'
    exact .inr ⟨pmmAllocPage_freeCount h heq' htake.isPage.ne_zero, htake.isPage.ne_zero,
      htake.consistent, htake.fewer⟩

/-- Three pages are to be had, or one of the three calls answers with the null
address. -/
theorem pmmAllocPage_three {p p₁ p₂ p₃ : Pmm} {a b c : U64} (h : p.Consistent)
    (h₁ : pmmAllocPage p = (a, p₁)) (h₂ : pmmAllocPage p₁ = (b, p₂))
    (h₃ : pmmAllocPage p₂ = (c, p₃)) :
    (p.freeCount < 3 ∧ (a = 0#64 ∨ b = 0#64 ∨ c = 0#64)) ∨
      (p.freeCount = p₃.freeCount + 3 ∧ ¬ (a = 0#64 ∨ b = 0#64 ∨ c = 0#64) ∧ p₃.Consistent ∧
        ∀ x, p₃.Available x → p.Available x) := by
  rcases pmmAllocPage_counted h h₁ with ⟨hn, ha, -⟩ | ⟨hn₁, ha, hc₁, hf₁⟩
  · exact .inl ⟨by omega, .inl ha⟩
  rcases pmmAllocPage_counted hc₁ h₂ with ⟨hn, hb, -⟩ | ⟨hn₂, hb, hc₂, hf₂⟩
  · exact .inl ⟨by omega, .inr (.inl hb)⟩
  rcases pmmAllocPage_counted hc₂ h₃ with ⟨hn, hc, -⟩ | ⟨hn₃, hc, hc₃, hf₃⟩
  · exact .inl ⟨by omega, .inr (.inr hc)⟩
  exact .inr ⟨by omega, by tauto, hc₃, fun x hx => hf₁ x (hf₂ x (hf₃ x hx))⟩

/-- `setup_user_address_space` gives up with nothing exposed, or has an exposed page
on record. -/
theorem setupUserAddressSpace_decides {s : MmState} (h : InPlaceReady s) (hs : s.Wx) :
    (CodePageRefused s → (setupUserAddressSpace (.start s)).1 = none ∧
      Throughout MmState.Wx (setupUserAddressSpace (.start s)).2) ∧
    (¬ CodePageRefused s → ¬ Throughout MmState.Wx (setupUserAddressSpace (.start s)).2) := by
  have hstart : Throughout MmState.Wx (.start s) := by
    intro x hx
    cases List.mem_singleton.mp hx
    exact hs
  obtain ⟨⟨a, p₁⟩, h₁⟩ : ∃ x, pmmAllocPage s.pmm = x := ⟨_, rfl⟩
  obtain ⟨⟨b, p₂⟩, h₂⟩ : ∃ x, pmmAllocPage p₁ = x := ⟨_, rfl⟩
  obtain ⟨⟨c, p₃⟩, h₃⟩ : ∃ x, pmmAllocPage p₂ = x := ⟨_, rfl⟩
  rcases pmmAllocPage_three h.pmm h₁ h₂ h₃ with ⟨hfew, hnull⟩ | ⟨hcount, hnull, hc, hfewer⟩
  · have hnow : (Traced.start s).now = s := rfl
    simp only [setupUserAddressSpace, hnow, h₁, h₂, h₃]
    rw [if_pos hnull]
    exact ⟨fun _ => ⟨rfl, hstart.put hs⟩, fun hC => absurd (.inl hfew) hC⟩
  have hready := h.allocate hc hfewer
  have hall := hstart.put (s := { s with pmm := p₃ }) hs
  obtain ⟨hfail, hext⟩ := setupUserAddressSpace_of_pages (r := .start s) h₁ h₂ h₃ hnull
  have hmap := mapUser4k_decides (r := (Traced.start s).put { s with pmm := p₃ }) hready 0x400000 a
  have hrefused : CodePageRefused s ↔
      ({ s with pmm := p₃ } : MmState).Stops (vpn 0x400000) 3 s.cr3Root := by
    rw [CodePageRefused, or_iff_right (by omega), hcount, Nat.add_sub_cancel]
  rw [hrefused]
  refine ⟨fun hC => ?_, fun hC hthrough => hmap.exposed hC (hthrough.of_extends hext)⟩
  obtain ⟨hfalse, hthrough⟩ := hmap.refused hC hall
  rw [hfail hfalse]
  exact ⟨rfl, hthrough⟩

/-- **Write or execute on the in-place path.** Through all three calls no user page
is ever writable and executable exactly when the code page is refused: where it is
mapped it is mapped with `USER_PAGE_WRITE`, which does not deny execution. -/
theorem in_place_wx_iff (s : MmState) (h : InPlaceReady s) (hs : s.Wx) (kernelCode : U64 → BitVec 8)
    (codeSize : U64) :
    (∀ x ∈ (inPlaceSequence s kernelCode codeSize).states, x.Wx) ↔ CodePageRefused s := by
  obtain ⟨hrefused, hexposed⟩ := setupUserAddressSpace_decides h hs
  constructor
  · intro hall
    by_contra hC
    exact hexposed hC (Throughout.of_extends hall (inPlaceSequence_extends s kernelCode codeSize))
  · intro hC
    obtain ⟨hnone, hthrough⟩ := hrefused hC
    rw [inPlaceSequence, show setupUserAddressSpace (.start s) =
      (none, (setupUserAddressSpace (.start s)).2) from Prod.ext hnone rfl]
    exact hthrough

/-! ## Tables below the pool -/

theorem Pmm.Consistent.available_bounds {p : Pmm} (hp : p.Consistent) {a : U64}
    (ha : p.Available a) : 0x200000 ≤ a.toNat ∧ a.toNat < 0x40000000 := by
  have hlo := BitVec.le_def.mp hp.start_le
  have hhi := BitVec.le_def.mp hp.le_end
  rw [pmmStartAddr_toNat] at hlo
  rw [pmmEndAddr_toNat] at hhi
  rcases ha with ha | ⟨hle, hlt⟩
  · obtain ⟨-, hle, hlt⟩ := hp.stacked a ha
    rw [BitVec.le_def, pmmStartAddr_toNat] at hle
    rw [BitVec.lt_def] at hlt
    omega
  · rw [BitVec.le_def] at hle
    rw [BitVec.lt_def, pmmEndAddr_toNat] at hlt
    omega

/-- Tables in the first 2 MiB are in order under a fresh pool, if they are tables on
one level each and have writable and executable entries. -/
theorem InPlaceReady.booted {m : Mem} {tables : List (Nat × U64)}
    (htables : ∀ n t, TableAt m (MmState.booted m).cr3Root n t → (n, t) ∈ tables)
    (hlow : ∀ x ∈ tables, x.2.toNat < 0x200000)
    (hlevels : ∀ x ∈ tables, ∀ y ∈ tables, x.2 = y.2 → x.1 = y.1)
    (hinner : ∀ x ∈ tables, ∀ i, HasFlag (entry m x.2 i) ptePresent →
      ¬ IsLarge x.1 (entry m x.2 i) →
      x.1 ≠ 0 → HasFlag (entry m x.2 i) pteWritable ∧ ¬ HasFlag (entry m x.2 i) pteNoExecute) :
    InPlaceReady (.booted m) := by
  have hp : (MmState.booted m).pmm.Consistent := pmmInit_consistent _
  -- the window at `0xffff800000000000` shows none of these addresses at the null pointer
  have hwindow : ∀ a : U64, a.toNat < 0x40000000 → (MmState.booted m).physToVirt a ≠ 0#64 := by
    intro a ha hnull
    have hbase : a + 0xffff800000000000#64 = 0#64 := hnull
    bv_omega
  refine ⟨hp, ?_, ?_, ?_, ?_, fun a ha => hwindow a (hp.available_bounds ha).2⟩
  · intro n t ht hav
    have hlt : t.toNat < 0x200000 := hlow _ (htables n t ht)
    have hge := (hp.available_bounds hav).1
    omega
  · intro n n' t ht ht'
    exact hlevels _ (htables n t ht) _ (htables n' t ht') rfl
  · intro n t i ht hd
    exact hinner _ (htables _ t ht) i hd.1 hd.2 (Nat.succ_ne_zero n)
  · intro n t ht
    have hlt : t.toNat < 0x200000 := hlow _ (htables n t ht)
    exact hwindow t (by omega)

/-- With all memory cleared the PML4 at `0x1000` is the only table, -/
theorem InPlaceReady.blank : InPlaceReady .blank := by
  have htables : ∀ n t, TableAt MmState.blank.mem MmState.blank.cr3Root n t →
      (n, t) ∈ [(3, 0x1000#64)] := by
    intro n t ht
    cases ht with
    | root => exact List.mem_singleton.mpr (Prod.ext rfl (by decide))
    | down i ht hd =>
      rw [MmState.entry_blank] at hd
      exact absurd hd (not_refersDown_zero _)
  refine InPlaceReady.booted htables (by decide) ?_ ?_
  · rintro x hx y hy -
    rw [List.mem_singleton.mp hx, List.mem_singleton.mp hy]
  · intro x _ i hpres
    have hzero : entry (fun _ => 0) x.2 i = 0#64 := MmState.entry_blank _ i
    rw [hzero] at hpres
    exact absurd hpres (not_hasFlag_zero _)

/-- and no page is mapped at all. -/
theorem MmState.wx_blank : MmState.blank.Wx := by
  rw [MmState.Wx, writeXorExecute_iff]
  exact fun v => not_exposed_empty (fun j => entry_blank _ j) v 3

/-- Tables of the kernel for the first GiB, with a page of code for user mode at
2 MiB, read-only, and a large page of the kernel at 4 MiB. -/
def sealedMem : Mem :=
  setEntry (setEntry (setEntry (setEntry (setEntry MmState.blank.mem 0x1000#64 0 0x2003#64)
    0x2000#64 0 0x3003#64) 0x3000#64 1 0x4007#64) 0x3000#64 2 0x400083#64) 0x4000#64 0 0x600005#64

theorem entry_sealedMem {t : U64} (ht : IsFrame t) (i : BitVec 9) : entry sealedMem t i =
    if t = 0x4000#64 ∧ i = 0 then 0x600005#64 else if t = 0x3000#64 ∧ i = 2 then 0x400083#64
    else if t = 0x3000#64 ∧ i = 1 then 0x4007#64 else if t = 0x2000#64 ∧ i = 0 then 0x3003#64
    else if t = 0x1000#64 ∧ i = 0 then 0x2003#64 else 0#64 := by
  rw [sealedMem, entry_setEntry _ (by decide) ht, entry_setEntry _ (by decide) ht,
    entry_setEntry _ (by decide) ht, entry_setEntry _ (by decide) ht,
    entry_setEntry _ (by decide) ht, MmState.entry_blank]

theorem sealedMem_pml4 (i : BitVec 9) :
    entry sealedMem 0x1000#64 i = if i = 0 then 0x2003#64 else 0#64 := by
  simp [entry_sealedMem (show IsFrame 0x1000#64 by decide)]

theorem sealedMem_pdpt (i : BitVec 9) :
    entry sealedMem 0x2000#64 i = if i = 0 then 0x3003#64 else 0#64 := by
  simp [entry_sealedMem (show IsFrame 0x2000#64 by decide)]

theorem sealedMem_pd (i : BitVec 9) : entry sealedMem 0x3000#64 i =
    if i = 2 then 0x400083#64 else if i = 1 then 0x4007#64 else 0#64 := by
  simp [entry_sealedMem (show IsFrame 0x3000#64 by decide)]

theorem sealedMem_pt (i : BitVec 9) :
    entry sealedMem 0x4000#64 i = if i = 0 then 0x600005#64 else 0#64 := by
  simp [entry_sealedMem (show IsFrame 0x4000#64 by decide)]

theorem sealedMem_tables {n : Nat} {t : U64}
    (h : TableAt sealedMem (MmState.booted sealedMem).cr3Root n t) :
    (n, t) ∈ [(3, 0x1000#64), (2, 0x2000#64), (1, 0x3000#64), (0, 0x4000#64)] := by
  induction h with
  | root => exact List.mem_cons.mpr (.inl (Prod.ext rfl (by decide)))
  | @down n t i _ hd ih =>
    simp only [List.mem_cons, Prod.mk.injEq, List.not_mem_nil, or_false] at ih
    rcases ih with ⟨hn, rfl⟩ | ⟨hn, rfl⟩ | ⟨hn, rfl⟩ | ⟨hn, -⟩
    · cases hn
      rw [sealedMem_pml4] at hd ⊢
      split at hd
      · rename_i hi
        rw [if_pos hi]
        decide
      · exact absurd hd (not_refersDown_zero _)
    · cases hn
      rw [sealedMem_pdpt] at hd ⊢
      split at hd
      · rename_i hi
        rw [if_pos hi]
        decide
      · exact absurd hd (not_refersDown_zero _)
    · cases hn
      rw [sealedMem_pd] at hd ⊢
      split at hd
      · exact absurd (show IsLarge 1 0x400083#64 by decide) hd.2
      rename_i hi₂
      split at hd
      · rename_i hi
        rw [if_neg hi₂, if_pos hi]
        decide
      · exact absurd hd (not_refersDown_zero _)
    · cases hn

theorem sealedMem_ready : InPlaceReady (.booted sealedMem) := by
  refine InPlaceReady.booted (fun n t => sealedMem_tables) (by decide) (by decide) ?_
  intro x hx i hpres hl hn
  simp only [List.mem_cons, List.not_mem_nil, or_false] at hx
  rcases hx with rfl | rfl | rfl | rfl
  · rw [sealedMem_pml4] at hpres ⊢
    split at hpres
    · rename_i hi
      rw [if_pos hi]
      decide
    · exact absurd hpres (not_hasFlag_zero _)
  · rw [sealedMem_pdpt] at hpres ⊢
    split at hpres
    · rename_i hi
      rw [if_pos hi]
      decide
    · exact absurd hpres (not_hasFlag_zero _)
  · rw [sealedMem_pd] at hpres hl ⊢
    split at hpres
    · rename_i hi
      rw [if_pos hi] at hl
      exact absurd (by decide) hl
    rename_i hi₂
    split at hpres
    · rename_i hi
      rw [if_neg hi₂, if_pos hi]
      decide
    · exact absurd hpres (not_hasFlag_zero _)
  · exact absurd rfl hn

/-- A slot of which only one entry is present. -/
theorem GrantsBut.slot_eq {m : Mem} {g : List (U64 × BitVec 9)} {t e : U64} {i j : BitVec 9}
    (h : GrantsBut m g t i) (hentry : entry m t i = if i = j then e else 0#64) : i = j := by
  by_contra hne
  have hpres := h.present
  rw [hentry, if_neg hne] at hpres
  exact not_hasFlag_zero _ hpres

/-- User mode gets at the code page at most, while the large page is left alone. -/
theorem sealedMem_canOpen {g : List (U64 × BitVec 9)} (hg : (0x3000#64, 2) ∉ g) :
    CanOpen sealedMem 0x1000#64 g := by
  rintro v ⟨h₃, hl | hx⟩
  · exact not_isLarge_three _ hl
  have hi₃ := h₃.slot_eq (sealedMem_pml4 _)
  rw [sealedMem_pml4, if_pos hi₃, show pteToPhys 0x2003#64 = 0x2000#64 by decide] at hx
  obtain ⟨h₂, hx⟩ := hx
  have hi₂ := h₂.slot_eq (sealedMem_pdpt _)
  rw [sealedMem_pdpt, if_pos hi₂, show pteToPhys 0x3003#64 = 0x3000#64 by decide] at hx
  obtain hl | hx := hx
  · exact absurd hl (by decide)
  obtain ⟨h₁, hx⟩ := hx
  obtain ⟨hpres₁, huser₁, -, -⟩ := h₁
  rw [sealedMem_pd] at hpres₁ hx
  by_cases hi : slotAt 1 v = 2
  · -- the large page of the kernel
    rw [sealedMem_pd, if_pos hi, hi] at huser₁
    exact huser₁.elim (by decide) hg
  rw [if_neg hi] at hpres₁ hx
  by_cases hi₁ : slotAt 1 v = 1
  · rw [if_pos hi₁, show pteToPhys 0x4007#64 = 0x4000#64 by decide] at hx
    obtain hl | hx := hx
    · exact absurd hl (by decide)
    have hi₀ := GrantsBut.slot_eq hx (sealedMem_pt _)
    have hwritable := hx.writable
    rw [sealedMem_pt, if_pos hi₀] at hwritable
    exact absurd hwritable (by decide)
  · rw [if_neg hi₁] at hpres₁
    exact not_hasFlag_zero _ hpres₁

theorem sealedMem_refused : CodePageRefused (.booted sealedMem) := by
  have hroot : (MmState.booted sealedMem).cr3Root = 0x1000#64 := by decide
  have hpdpt : pteToPhys 0x2003#64 = 0x2000#64 := by decide
  have hpd : pteToPhys 0x3003#64 = 0x3000#64 := by decide
  have h₃ : slotAt 3 (vpn 0x400000) = 0 := by decide
  have h₂ : slotAt 2 (vpn 0x400000) = 0 := by decide
  have h₁ : slotAt 1 (vpn 0x400000) = 2 := by decide
  refine .inr ?_
  rw [hroot]
  simp only [StopsShort, h₃, h₂, h₁, sealedMem_pml4, sealedMem_pdpt, sealedMem_pd, hpdpt,
    hpd, if_true]
  rw [if_neg (by decide), if_pos (by decide), if_neg (by decide), if_pos (by decide),
    if_pos (by decide)]
  exact sealedMem_canOpen (by decide)

/-- The large page is in the way of the code page. What is above it is given to user
mode, and with it the page of code at 2 MiB. -/
theorem in_place_wx_sealed :
    CodePageRefused (.booted sealedMem) ∧
      ∀ x ∈ (inPlaceSequence (.booted sealedMem) (fun _ => 0x90) 1).states, x.Wx := by
  have hs : (MmState.booted sealedMem).Wx := by
    have hroot : (MmState.booted sealedMem).cr3Root = 0x1000#64 := by decide
    rw [MmState.Wx, hroot]
    exact canOpen_nil.mp (sealedMem_canOpen List.not_mem_nil)
  exact ⟨sealedMem_refused, (in_place_wx_iff _ sealedMem_ready hs _ 1).mpr sealedMem_refused⟩

/-- Cleared memory after the code page has been mapped: the page in the first frame
of a fresh pool, its tables in the fourth to sixth. -/
def codeMapped : Mem :=
  setEntry (linked (linked (linked MmState.blank.mem
    (pteToPhys MmState.blank.cr3) (slot4 (vpn 0x400000)) 0x203000#64 (newTableEntry 0x203000#64))
    0x203000#64 (slot3 (vpn 0x400000)) 0x204000#64 (newTableEntry 0x204000#64))
    0x204000#64 (slot2 (vpn 0x400000)) 0x205000#64 (newTableEntry 0x205000#64))
    0x205000#64 (slot1 (vpn 0x400000)) ((0x200000#64 &&& pteAddrMask) ||| userPageWrite ||| pteUser)

theorem hwTranslate_codeMapped :
    hwTranslate codeMapped (pteToPhys MmState.blank.cr3) (vpn 0x400000) =
      some ⟨0x200000#64, true, true, false⟩ := by
  have hroot : pteToPhys MmState.blank.cr3 = 0x1000#64 := by decide
  rw [codeMapped, hwTranslate_linked (pteToPhys_isFrame _) (by decide) (by decide) (by decide)
    (by rw [hroot]; decide) (by decide) (by decide) (by decide)]
  decide

/-- The state that `setup_user_address_space` leaves behind after its first mapping. -/
theorem mem_states_codeMapped (kernelCode : U64 → BitVec 8) (codeSize : U64) :
    ∃ p, { MmState.blank with mem := codeMapped, pmm := p } ∈
      (inPlaceSequence .blank kernelCode codeSize).states := by
  obtain ⟨p₁, p₂, p₃, h₁, h₂, h₃⟩ : ∃ p₁ p₂ p₃,
      pmmAllocPage MmState.blank.pmm = (0x200000#64, p₁) ∧ pmmAllocPage p₁ = (0x201000#64, p₂) ∧
      pmmAllocPage p₂ = (0x202000#64, p₃) := ⟨_, _, _, rfl, rfl, rfl⟩
  obtain ⟨p₄, p₅, p₆, h₄, h₅, h₆⟩ : ∃ p₄ p₅ p₆,
      pmmAllocPage p₃ = (0x203000#64, p₄) ∧ pmmAllocPage p₄ = (0x204000#64, p₅) ∧
      pmmAllocPage p₅ = (0x205000#64, p₆) := by
    cases h₁
    cases h₂
    cases h₃
    exact ⟨_, _, _, rfl, rfl, rfl⟩
  have hext := (setupUserAddressSpace_of_pages (r := .start .blank) h₁ h₂ h₃ (by decide)).2.trans
    (inPlaceSequence_extends .blank kernelCode codeSize)
  have hroot : pteToPhys MmState.blank.cr3 = 0x1000#64 := by decide
  have hvirt : ∀ f, ({ MmState.blank with pmm := p₃ } : MmState).physToVirt f =
      f + 0xffff800000000000#64 := fun _ => rfl
  obtain ⟨q, hmap⟩ := mapUser4k_fresh
    (r := (Traced.start .blank).put { MmState.blank with pmm := p₃ })
    (MmState.entry_blank _ (slot4 (vpn 0x400000))) h₄ h₅ h₆ (by decide) (by decide) (by decide)
    (by rw [now_put, hroot]; decide)
    (by simp only [now_put, hvirt]; decide) 0x200000#64 userPageWrite
  refine ⟨p₆, hext.subset ?_⟩
  have hlast : { MmState.blank with mem := codeMapped, pmm := p₆ } ∈
      (q.put { MmState.blank with mem := codeMapped, pmm := p₆ }).states := List.mem_cons_self
  exact (congrArg (fun out => _ ∈ (Prod.snd out).states) hmap).mpr hlast

/-- With a fresh pool the code page is there for user mode to write and to execute. -/
theorem code_page_writable_and_executable :
    InPlaceReady .blank ∧ MmState.blank.Wx ∧
      ∃ x ∈ (inPlaceSequence .blank (fun _ => 0x90) 1).states, ¬ x.Wx ∧
        hwTranslate x.mem x.cr3Root (vpn 0x400000) = some ⟨0x200000#64, true, true, false⟩ := by
  obtain ⟨p, hmem⟩ := mem_states_codeMapped (fun _ => 0x90) 1
  refine ⟨.blank, MmState.wx_blank, _, hmem, ?_, hwTranslate_codeMapped⟩
  exact fun hwx => WriteXorExecute.translation hwx hwTranslate_codeMapped ⟨rfl, rfl, rfl⟩

end Myria.Mm
