import Myria.Lib.Runs
import Myria.Mm.PmmOwnership
import Myria.Mm.UserAs

/-! Isolation of the address spaces of `user_as.c`, over any interleaving of
creations and low-half mappings. The low halves form one forest whose roots are
the created PML4s; the kernel half is a set of frames that no step writes. -/
namespace Myria.Mm

open ByteMem RadixForest

/-! ## Runs -/

/-- The arguments of a successful `user_map_4k_in_pml4`. -/
structure UserMapping where
  pa : U64
  writable : Bool
  executable : Bool
deriving DecidableEq, Repr

/-- What the page tables are meant to grant for it. -/
def UserMapping.translation (μ : UserMapping) : Translation where
  frame := μ.pa &&& pteAddrMask
  user := true
  writable := μ.writable
  noExecute := !μ.executable

/-- The kernel's state together with what its callers know: the PML4s created
so far and the last successful mapping of each page in each of them. -/
structure UserSpaces where
  mm : MmState
  created : List U64
  last : U64 → BitVec 36 → Option UserMapping

inductive UserAsOp where
  | create
  | map (pml4Phys va pa : U64) (writable executable : Bool)

/-- One call; mappings go to created PML4s. -/
def userAsStepAnyVa (s : UserSpaces) : UserAsOp → Option UserSpaces
  | .create =>
    let (a, mm) := userAsCreate s.mm
    some { s with mm, created := if a = 0#64 then s.created else a :: s.created }
  | .map a va pa w x =>
    if a ∈ s.created then
      let (ok, mm) := userMap4kInPml4 s.mm a va pa w x
      some { s with
        mm
        last := if ok then
            Function.update s.last a (Function.update (s.last a) (vpn va) (some ⟨pa, w, x⟩))
          else s.last }
    else none

/-- The same with mappings at low-half addresses only. -/
def userAsStep (s : UserSpaces) : UserAsOp → Option UserSpaces
  | .create => userAsStepAnyVa s .create
  | .map a va pa w x =>
    if va.getLsbD 47 = false then userAsStepAnyVa s (.map a va pa w x) else none

/-- The state after `init_kernel_pml4_template`, with no address space yet. -/
def UserSpaces.start (boot : MmState) : UserSpaces where
  mm := initKernelPml4Template boot
  created := []
  last := fun _ _ => none

/-! ## The two halves -/

def LowHalf (v : BitVec 36) : Prop := (slot4 v).toNat < 256

instance (v : BitVec 36) : Decidable (LowHalf v) := inferInstanceAs (Decidable (_ < _))

theorem lowHalf_vpn {va : U64} : LowHalf (vpn va) ↔ va.getLsbD 47 = false := by
  rw [LowHalf, slot4, vpn, BitField.extractLsb'_toNat_eq, BitField.extractLsb'_toNat_eq,
    BitVec.getLsbD, Nat.testBit_eq_decide_div_mod_eq]
  simp only [decide_eq_false_iff_not]
  omega

/-- Every present entry counts, except in the shared slots of created PML4s. -/
def lowRef (created : List U64) (t : U64) (i : BitVec 9) (e : U64) : Option U64 :=
  if t ∈ created ∧ 256 ≤ i.toNat then none else presentRef e

theorem lowRef_zero (created : List U64) (t : U64) (i : BitVec 9) :
    lowRef created t i 0#64 = none := by
  rw [lowRef, presentRef_zero, ite_self]

/-- A table frame behind slots 256..511 of the PML4 in frame `r`. -/
def KernelTable (m : Mem) (r t : U64) : Prop :=
  ∃ i p, 256 ≤ i.toNat ∧ p.length ≤ 2 ∧ walk (child tableRef m) r (i :: p) = some t

/-- The frames shared by all address spaces: the template and what it refers
to. There are none when the template could not be allocated. -/
def SharedFrame (m : Mem) (template t : U64) : Prop :=
  template ≠ 0#64 ∧ (t = template ∨ KernelTable m template t)

variable {m₀ : Mem} {template : U64} {s : UserSpaces}

/-- What holds between calls, relative to the memory `m₀` left by
`init_kernel_pml4_template`. -/
structure Isolated (m₀ : Mem) (template : U64) (s : UserSpaces) : Prop where
  pmm : s.mm.pmm.Consistent
  template_eq : s.mm.kernelPml4TemplatePhys = template
  nothing_created : template = 0#64 → s.created = []
  low : Tables (lowRef s.created) (· ∈ s.created) UserEntry s.mm.pmm.Available s.mm.mem
  shared : ∀ t, SharedFrame m₀ template t → IsFrame t ∧ ¬ s.mm.pmm.Available t ∧
    ¬ Reached (child (lowRef s.created) s.mm.mem) (· ∈ s.created) 3 t ∧
    ∀ j, entry s.mm.mem t j = entry m₀ t j
  high : ∀ a ∈ s.created, ∀ i : BitVec 9, 256 ≤ i.toNat →
    entry s.mm.mem a i = entry m₀ template i
  unmapped : ∀ a v, a ∉ s.created → s.last a v = none
  mapped : ∀ a ∈ s.created, ∀ v, LowHalf v →
    (leaf (lowRef s.created) s.mm.mem a (tablePath v) (slot1 v)).bind decodePte =
      (s.last a v).map UserMapping.translation

/-- A slot of the low half: not one of the shared slots of a PML4. -/
structure LowSlot (s : UserSpaces) (a : U64) (p : List (BitVec 9)) (t : U64) (i : BitVec 9) :
    Prop where
  created : a ∈ s.created
  walks : walk (child (lowRef s.created) s.mm.mem) a p = some t
  depth : p.length ≤ 3
  low : p = [] → i.toNat < 256

/-- A created PML4 is reached by the empty path only. -/
theorem LowSlot.not_shared {a t : U64} {p : List (BitVec 9)} {i : BitVec 9}
    (L : LowSlot s a p t i) (h : Isolated m₀ template s) (ht : t ∈ s.created) : i.toNat < 256 := by
  obtain ⟨-, hp⟩ := h.low.forest a t p [] t L.created ht L.depth (by simp) L.walks rfl
  exact L.low hp

theorem LowSlot.lowRef_eq {a t : U64} {p : List (BitVec 9)} {i : BitVec 9}
    (L : LowSlot s a p t i) (h : Isolated m₀ template s) (e : U64) :
    lowRef s.created t i e = presentRef e := by
  refine if_neg ?_
  rintro ⟨ht, hi⟩
  have := L.not_shared h ht
  omega

/-- A frame in use that is not a table of anyone's low half. -/
abbrev UserSpaces.Outside (s : UserSpaces) (t : U64) : Prop :=
  Mm.Outside (lowRef s.created) (· ∈ s.created) s.mm.pmm.Available s.mm.mem t

/-- The frames shared with the template are outside, -/
theorem Isolated.shared_outside (h : Isolated m₀ template s) {t : U64}
    (ht : SharedFrame m₀ template t) : s.Outside t := by
  obtain ⟨hframe, hav, hnr, -⟩ := h.shared t ht
  exact ⟨hframe, hav, hnr⟩

/-- and as they were at the start. -/
theorem Isolated.shared_entry (h : Isolated m₀ template s) (t : U64)
    (ht : SharedFrame m₀ template t) (j : BitVec 9) : entry s.mm.mem t j = entry m₀ t j :=
  (h.shared t ht).2.2.2 j

/-- On the way from `s` to `s'` nothing was written but low-half tables and pages
that were available. -/
structure Spares (s s' : UserSpaces) : Prop where
  kept : ∀ t, s.Outside t → s'.Outside t ∧ ∀ j, entry s'.mm.mem t j = entry s.mm.mem t j
  pml4 : s'.mm.currentPml4 = s.mm.currentPml4

theorem Spares.refl (s : UserSpaces) : Spares s s := ⟨fun _ O => ⟨O, fun _ => rfl⟩, rfl⟩

theorem Spares.trans {s s' s'' : UserSpaces} (h : Spares s s') (h' : Spares s' s'') :
    Spares s s'' := by
  refine ⟨fun t O => ?_, h'.pml4.trans h.pml4⟩
  obtain ⟨O', hj⟩ := h.kept t O
  obtain ⟨O'', hj'⟩ := h'.kept t O'
  exact ⟨O'', fun j => (hj' j).trans (hj j)⟩

theorem Spares.shared {s' : UserSpaces} (S : Spares s s') (h : Isolated m₀ template s) (t : U64)
    (ht : SharedFrame m₀ template t) : IsFrame t ∧ ¬ s'.mm.pmm.Available t ∧
      ¬ Reached (child (lowRef s'.created) s'.mm.mem) (· ∈ s'.created) 3 t ∧
      ∀ j, entry s'.mm.mem t j = entry m₀ t j := by
  obtain ⟨O, hj⟩ := S.kept t (h.shared_outside ht)
  exact ⟨O.frame, O.unavailable, O.unreached, fun j => (hj j).trans (h.shared_entry t ht j)⟩

/-- An edit of a low-half slot, possibly together with available frames, keeps
the spaces isolated when the low tables and mappings are accounted for. -/
theorem Isolated.edit (h : Isolated m₀ template s) {a t : U64} {p : List (BitVec 9)} {i : BitVec 9}
    (L : LowSlot s a p t i) {mm' : MmState} {last' : U64 → BitVec 36 → Option UserMapping}
    (hkeep : ∀ t' j, IsFrame t' → ¬ s.mm.pmm.Available t' → ¬ (t' = t ∧ j = i) →
      entry mm'.mem t' j = entry s.mm.mem t' j)
    (hlow : Tables (lowRef s.created) (· ∈ s.created) UserEntry mm'.pmm.Available mm'.mem)
    (hspares : Spares s ⟨mm', s.created, last'⟩) (hpmm : mm'.pmm.Consistent)
    (htemplate : mm'.kernelPml4TemplatePhys = s.mm.kernelPml4TemplatePhys)
    (hunmapped : ∀ a v, a ∉ s.created → last' a v = none)
    (hmapped : ∀ a ∈ s.created, ∀ v, LowHalf v →
      (leaf (lowRef s.created) mm'.mem a (tablePath v) (slot1 v)).bind decodePte =
        (last' a v).map UserMapping.translation) :
    Isolated m₀ template ⟨mm', s.created, last'⟩ where
  pmm := hpmm
  template_eq := htemplate.trans h.template_eq
  nothing_created := h.nothing_created
  low := hlow
  shared := hspares.shared h
  high := by
    intro b hb j hj
    have hroot : Reached (child (lowRef s.created) s.mm.mem) (· ∈ s.created) 3 b :=
      ⟨b, [], hb, by simp, rfl⟩
    rw [hkeep b j (h.low.frame b hroot) (h.low.unavailable b hroot), h.high b hb j hj]
    rintro ⟨rfl, rfl⟩
    have := L.not_shared h hb
    omega
  unmapped := hunmapped
  mapped := hmapped

/-! ## Getting or making a table -/

theorem userEntry_new {f : U64} (hf : IsFrame f) :
    UserEntry (f ||| ptePresent ||| pteWritable ||| pteUser) := by
  have hset : ∀ flag, HasFlag (ptePresent ||| pteWritable ||| pteUser) flag →
      HasFlag (f ||| ptePresent ||| pteWritable ||| pteUser) flag := by
    intro flag hflag
    rw [BitVec.or_assoc, BitVec.or_assoc, ← BitVec.or_assoc ptePresent]
    exact hasFlag_or.mpr (.inr hflag)
  have hclear : ∀ flag, flag &&& pteAddrMask = 0#64 →
      ¬ HasFlag (ptePresent ||| pteWritable ||| pteUser) flag →
      ¬ HasFlag (f ||| ptePresent ||| pteWritable ||| pteUser) flag := by
    intro flag hmask hflag
    rw [BitVec.or_assoc, BitVec.or_assoc, ← BitVec.or_assoc ptePresent, hasFlag_or, not_or]
    exact ⟨hf.not_hasFlag hmask, hflag⟩
  exact ⟨hset _ (by decide), hset _ (by decide), hset _ (by decide),
    hclear _ (by decide) (by decide), hclear _ (by decide) (by decide)⟩

theorem UserEntry.or_user {e : U64} (h : UserEntry e) : UserEntry (e ||| pteUser) where
  present := hasFlag_or.mpr (.inl h.present)
  writable := hasFlag_or.mpr (.inl h.writable)
  user := hasFlag_or.mpr (.inl h.user)
  notHuge := by
    rw [hasFlag_or, not_or]
    exact ⟨h.notHuge, by decide⟩
  notNoExecute := by
    rw [hasFlag_or, not_or]
    exact ⟨h.notNoExecute, by decide⟩

theorem presentRef_or_user (e : U64) : presentRef (e ||| pteUser) = presentRef e := by
  have hflag : HasFlag (e ||| pteUser) ptePresent ↔ HasFlag e ptePresent := by
    rw [hasFlag_or]
    exact or_iff_left (by decide)
  simp only [presentRef, hflag, pteToPhys_or_user]

theorem decodePte_zero : decodePte 0#64 = none := if_neg (not_hasFlag_zero _)

/-- What one level of the walk leaves behind, at slot `i` of the table `t`: the
spaces still isolated, and a pointer that is null or points to the table in
that slot. -/
structure LevelDone (m₀ : Mem) (template : U64) (s : UserSpaces) (a : U64) (p : List (BitVec 9))
    (t : U64) (i : BitVec 9) (r : U64 × MmState) : Prop where
  isolated : Isolated m₀ template { s with mm := r.2 }
  base : r.2.getHhdmBase = s.mm.getHhdmBase
  walks : r.1 ≠ 0#64 → ∃ f, r.1 = f + s.mm.getHhdmBase ∧
    walk (child (lowRef s.created) r.2.mem) a p = some t ∧
    walk (child (lowRef s.created) r.2.mem) a (p ++ [i]) = some f

section Level

variable {a t : U64} {p : List (BitVec 9)} {i : BitVec 9}

/-- The entry is present: it gets `PTE_USER` again and refers to the same table. -/
theorem LowSlot.levelDone_present (L : LowSlot s a p t i) (h : Isolated m₀ template s)
    (hp : p.length ≤ 2) (hpres : HasFlag (entry s.mm.mem t i) ptePresent) :
    LevelDone m₀ template s a p t i
      (pteToPhys (entry s.mm.mem t i) + s.mm.getHhdmBase,
        { s.mm with mem := setEntry s.mm.mem t i (entry s.mm.mem t i ||| pteUser) }) ∧
      Spares s { s with mm :=
        { s.mm with mem := setEntry s.mm.mem t i (entry s.mm.mem t i ||| pteUser) } } := by
  have ht : IsFrame t := h.low.isFrame L.created L.depth L.walks
  have hchild : child (lowRef s.created) s.mm.mem t i = some (pteToPhys (entry s.mm.mem t i)) := by
    rw [child, L.lowRef_eq h]
    exact if_pos hpres
  have hok : UserEntry (entry s.mm.mem t i) :=
    h.low.inner a p t i L.created hp L.walks (by rw [hchild]; rfl)
  have hsame : lowRef s.created t i (entry s.mm.mem t i ||| pteUser) =
      lowRef s.created t i (entry s.mm.mem t i) := by
    rw [L.lowRef_eq h, L.lowRef_eq h, presentRef_or_user]
  obtain ⟨htables, hwalk, hleaf⟩ := h.low.retag L.created hp L.walks hsame hok.or_user
  have S : Spares s { s with mm :=
      { s.mm with mem := setEntry s.mm.mem t i (entry s.mm.mem t i ||| pteUser) } } :=
    ⟨fun t' O => h.low.setEntry_outside L.created L.depth L.walks hwalk O, rfl⟩
  refine ⟨⟨h.edit L ?_ htables S h.pmm rfl h.unmapped ?_, rfl, fun _ => ⟨_, rfl, ?_⟩⟩, S⟩
  · intro t' j ht' _ hne
    rw [entry_setEntry _ ht ht', if_neg hne]
  · intro b hb v hv
    rw [hleaf b (tablePath v) (slot1 v) hb rfl]
    exact h.mapped b hb v hv
  · have hlen : (p ++ [i]).length ≤ 3 := length_concat_le i hp
    rw [hwalk a p L.created L.depth, hwalk a _ L.created hlen, walk_concat, L.walks]
    exact ⟨rfl, hchild⟩

/-- The entry is empty: a fresh table is linked under it. -/
theorem LowSlot.levelDone_linked (L : LowSlot s a p t i) (h : Isolated m₀ template s)
    (hp : p.length ≤ 2) (hempty : ¬ HasFlag (entry s.mm.mem t i) ptePresent) {f : U64} {p' : Pmm}
    (htake : TakesPage s.mm.pmm f p') :
    LevelDone m₀ template s a p t i
      (f + s.mm.getHhdmBase,
        { s.mm with
          mem := linked s.mm.mem t i f (f ||| ptePresent ||| pteWritable ||| pteUser)
          pmm := p' }) ∧
      Spares s { s with mm :=
        { s.mm with
          mem := linked s.mm.mem t i f (f ||| ptePresent ||| pteWritable ||| pteUser)
          pmm := p' } } := by
  have ht : IsFrame t := h.low.isFrame L.created L.depth L.walks
  have hf : IsFrame f := htake.isFrame
  have hLink : Linkable (lowRef s.created) (· ∈ s.created) UserEntry s.mm.pmm.Available
      p'.Available s.mm.mem a p t i f (f ||| ptePresent ||| pteWritable ||| pteUser) :=
    { root := L.created, depth := hp, walks := L.walks
      empty := by
        rw [child, L.lowRef_eq h]
        exact if_neg hempty
      frame := hf, available := htake.available, taken := htake.taken, fewer := htake.fewer
      refers := by
        rw [L.lowRef_eq h, BitVec.or_assoc, BitVec.or_assoc]
        exact presentRef_or hf (by decide) (by decide)
      ok := userEntry_new hf
      zero := fun t j => lowRef_zero s.created t j }
  have hlen : (p ++ [i]).length ≤ 3 := length_concat_le i hp
  have S : Spares s { s with mm :=
      { s.mm with
        mem := linked s.mm.mem t i f (f ||| ptePresent ||| pteWritable ||| pteUser)
        pmm := p' } } := ⟨fun t' O => h.low.link_outside hLink O, rfl⟩
  refine ⟨⟨h.edit L ?_ (h.low.link hLink) S htake.consistent rfl h.unmapped ?_, rfl,
    fun _ => ⟨f, rfl, ?_, (h.low.walk_linked hLink L.created hlen).trans (if_pos ⟨rfl, rfl⟩)⟩⟩, S⟩
  · intro t' j ht' hav hne
    rw [entry_linked _ ht hf ht', if_neg hne, if_neg]
    rintro rfl
    exact hav htake.available
  · intro b hb v hv
    exact (h.low.bind_leaf_linked hLink decodePte_zero hb rfl _).trans (h.mapped b hb v hv)
  · rw [h.low.walk_linked hLink L.created L.depth, L.walks]
    refine if_neg ?_
    rintro ⟨-, hnil⟩
    simpa using congrArg List.length hnil

/-- One level of the walk, at a low-half slot above the page tables. -/
theorem getOrMakeTableInPml4_spec (h : Isolated m₀ template s) (L : LowSlot s a p t i)
    (hp : p.length ≤ 2) :
    LevelDone m₀ template s a p t i (getOrMakeTableInPml4 s.mm t (i.setWidth 64) pteUser) ∧
      Spares s { s with mm := (getOrMakeTableInPml4 s.mm t (i.setWidth 64) pteUser).2 } := by
  have ht : IsFrame t := h.low.isFrame L.created L.depth L.walks
  rcases getOrMakeTableInPml4_cases h.pmm ht i with
    ⟨hpres, heq⟩ | ⟨-, -, heq⟩ | ⟨hempty, f, p', -, htake, heq⟩
  · rw [heq]
    exact L.levelDone_present h hp hpres
  · rw [heq]
    exact ⟨⟨h, rfl, fun hne => absurd rfl hne⟩, Spares.refl s⟩
  · rw [heq]
    exact L.levelDone_linked h hp hempty htake

end Level

/-! ## Mapping a page -/

theorem entry_and_mask_of_walk {m : Mem} {created : List U64} {a t f : U64} {p : List (BitVec 9)}
    {i : BitVec 9} (hw : walk (child (lowRef created) m) a p = some t)
    (hw' : walk (child (lowRef created) m) a (p ++ [i]) = some f) :
    entry m t i &&& pteAddrMask = f := by
  rw [walk_concat, hw, Option.bind_some, child, lowRef] at hw'
  split at hw'
  · cases hw'
  · rw [presentRef] at hw'
    split at hw'
    · exact Option.some.inj hw'
    · cases hw'

/-- The entry written for a mapping grants exactly that mapping. -/
theorem decodePte_userPte (pa : U64) (w x : Bool) :
    decodePte ((pa &&& pteAddrMask) ||| userPteFlags w x) =
      some (UserMapping.translation ⟨pa, w, x⟩) := by
  have hf : IsFrame (pa &&& pteAddrMask) := pteToPhys_isFrame pa
  have hflag : ∀ flag, flag &&& pteAddrMask = 0#64 →
      (HasFlag ((pa &&& pteAddrMask) ||| userPteFlags w x) flag ↔
        HasFlag (userPteFlags w x) flag) := by
    intro flag hmask
    rw [hasFlag_or]
    exact or_iff_right (hf.not_hasFlag hmask)
  have hmask : userPteFlags w x &&& pteAddrMask = 0#64 := by cases w <;> cases x <;> decide
  have hphys : pteToPhys ((pa &&& pteAddrMask) ||| userPteFlags w x) = pa &&& pteAddrMask :=
    hf.pteToPhys_or hmask
  rw [decodePte, hphys]
  simp only [hflag ptePresent (by decide), Translation.through, List.all_cons, List.all_nil,
    List.any_cons, List.any_nil, hflag pteUser (by decide), hflag pteWritable (by decide),
    hflag pteNoExecute (by decide)]
  cases w <;> cases x <;> rfl

/-- Writing the entry of a low-half page in its page table. -/
theorem Isolated.setLeaf (h : Isolated m₀ template s) {a t : U64} {v : BitVec 36}
    (ha : a ∈ s.created)
    (hw : walk (child (lowRef s.created) s.mm.mem) a (tablePath v) = some t)
    (pa : U64) (w x : Bool) :
    Isolated m₀ template
      ⟨{ s.mm with
          mem := setEntry s.mm.mem t (slot1 v) ((pa &&& pteAddrMask) ||| userPteFlags w x) },
        s.created,
        Function.update s.last a (Function.update (s.last a) v (some ⟨pa, w, x⟩))⟩ ∧
      Spares s { s with mm := { s.mm with
        mem := setEntry s.mm.mem t (slot1 v) ((pa &&& pteAddrMask) ||| userPteFlags w x) } } := by
  have L : LowSlot s a (tablePath v) t (slot1 v) :=
    ⟨ha, hw, Nat.le_refl 3, fun hnil => absurd hnil (List.cons_ne_nil _ _)⟩
  have ht : IsFrame t := h.low.isFrame ha L.depth hw
  obtain ⟨htables, hwalk, hleaf⟩ := h.low.setLeaf (i := slot1 v) ha rfl hw
    ((pa &&& pteAddrMask) ||| userPteFlags w x)
  have hkept := fun t' (O : s.Outside t') => h.low.setEntry_outside ha L.depth hw hwalk O
  refine ⟨h.edit L ?_ htables ⟨hkept, rfl⟩ h.pmm rfl ?_ ?_, ⟨hkept, rfl⟩⟩
  · intro t' j ht' _ hne
    rw [entry_setEntry _ ht ht', if_neg hne]
  · intro b v' hb
    have hba : b ≠ a := fun heq => hb (heq ▸ ha)
    rw [Function.update_of_ne hba]
    exact h.unmapped b v' hb
  · intro b hb v' hv'
    rw [hleaf b (tablePath v') (slot1 v') hb rfl]
    by_cases hba : b = a
    · subst hba
      rw [Function.update_self]
      by_cases hvv : v' = v
      · subst hvv
        rw [if_pos ⟨rfl, rfl, rfl⟩, Function.update_self]
        exact decodePte_userPte pa w x
      · rw [if_neg (fun hc => hvv (tablePath_slot1_inj hc.2.1 hc.2.2)), Function.update_of_ne hvv]
        exact h.mapped b hb v' hv'
    · rw [if_neg (fun hc => hba hc.1), Function.update_of_ne hba]
      exact h.mapped b hb v' hv'

/-- `user_map_4k_in_pml4` on a created PML4 and a low-half address: the mapping
is recorded when it reports success, and nothing else changes. -/
theorem userMap4kInPml4_spec (h : Isolated m₀ template s) {a : U64} (ha : a ∈ s.created) {va : U64}
    (hva : va.getLsbD 47 = false) (pa : U64) (w x : Bool) :
    ∃ ok mm', userMap4kInPml4 s.mm a va pa w x = (ok, mm') ∧
      Isolated m₀ template ⟨mm', s.created,
        if ok then Function.update s.last a (Function.update (s.last a) (vpn va) (some ⟨pa, w, x⟩))
        else s.last⟩ ∧
      Spares s { s with mm := mm' } := by
  simp only [userMap4kInPml4, pml4Index_eq, pdptIndex_eq, pdIndex_eq, ptIndex_eq,
    MmState.physToVirt]
  -- the PML4 slot of a low-half address is not one of the shared ones
  have L₄ : LowSlot s a [] a (slot4 (vpn va)) :=
    ⟨ha, rfl, Nat.zero_le 3, fun _ => lowHalf_vpn.mpr hva⟩
  obtain ⟨⟨h₁, hbase₁, hwalk⟩, S₁⟩ := getOrMakeTableInPml4_spec h L₄ (Nat.zero_le 2)
  generalize getOrMakeTableInPml4 s.mm a _ pteUser = r at *
  obtain ⟨pdpt, mm₁⟩ := r
  by_cases hnull : pdpt = 0#64
  · exact ⟨false, mm₁, by simp only [if_pos hnull], h₁, S₁⟩
  obtain ⟨f₃, rfl, hroot, hw₃⟩ := hwalk hnull
  simp only [if_neg hnull, hbase₁, MmState.load_window, entry_and_mask_of_walk hroot hw₃]
  have L₃ : LowSlot { s with mm := mm₁ } a [slot4 (vpn va)] f₃ (slot3 (vpn va)) :=
    ⟨ha, hw₃, Nat.succ_le_succ (Nat.zero_le 2), fun hnil => absurd hnil (List.cons_ne_nil _ _)⟩
  obtain ⟨⟨h₂, hbase₂, hwalk⟩, S₂⟩ := getOrMakeTableInPml4_spec h₁ L₃ (Nat.le_succ 1)
  generalize getOrMakeTableInPml4 mm₁ f₃ _ pteUser = r at *
  obtain ⟨pd, mm₂⟩ := r
  by_cases hnull : pd = 0#64
  · exact ⟨false, mm₂, by simp only [if_pos hnull], h₂, S₁.trans S₂⟩
  obtain ⟨f₂, rfl, hw₃, hw₂⟩ := hwalk hnull
  simp only [if_neg hnull, entry_and_mask_of_walk hw₃ hw₂]
  have L₂ : LowSlot { s with mm := mm₂ } a [slot4 (vpn va), slot3 (vpn va)] f₂ (slot2 (vpn va)) :=
    ⟨ha, hw₂, Nat.le_succ 2, fun hnil => absurd hnil (List.cons_ne_nil _ _)⟩
  obtain ⟨⟨h₃, -, hwalk⟩, S₃⟩ := getOrMakeTableInPml4_spec h₂ L₂ (Nat.le_refl 2)
  generalize getOrMakeTableInPml4 mm₂ f₂ _ pteUser = r at *
  obtain ⟨pt, mm₃⟩ := r
  by_cases hnull : pt = 0#64
  · exact ⟨false, mm₃, by simp only [if_pos hnull], h₃, (S₁.trans S₂).trans S₃⟩
  obtain ⟨f₁, rfl, -, hw₁⟩ := hwalk hnull
  obtain ⟨h₄, S₄⟩ := h₃.setLeaf (v := vpn va) ha hw₁ pa w x
  refine ⟨true, _, by simp only [if_neg hnull]; rfl, ?_⟩
  simp only [if_true, hbase₂, hbase₁, MmState.store_window]
  exact ⟨h₄, ((S₁.trans S₂).trans S₃).trans S₄⟩

/-! ## Creating an address space -/

/-- Clearing the low half of the free frame `f` and entering it among the PML4s
disturbs no table in use. -/
theorem Isolated.fresh (h : Isolated m₀ template s) {f : U64} {m' : Mem}
    (hav : s.mm.pmm.Available f) (hclear : ∀ j : BitVec 9, j.toNat < 256 → entry m' f j = 0#64)
    (hkeep : ∀ t j, Reached (child (lowRef s.created) s.mm.mem) (· ∈ s.created) 3 t →
      entry m' t j = entry s.mm.mem t j) :
    Fresh (child (lowRef s.created) s.mm.mem) (child (lowRef (f :: s.created)) m')
      (· ∈ s.created) 3 f where
  fresh := h.low.not_reached hav
  agree := by
    intro t j ht
    have hne : t ≠ f := fun heq => h.low.not_reached hav (heq ▸ ht)
    rw [child, child, hkeep t j ht, lowRef, lowRef]
    simp only [List.mem_cons, hne, false_or]
  leaf := by
    intro j
    rw [child, lowRef]
    split
    · rfl
    · rename_i hlow
      have hj : ¬ 256 ≤ j.toNat := fun hj => hlow ⟨List.mem_cons_self, hj⟩
      rw [hclear j (Nat.lt_of_not_le hj), presentRef_zero]

section Create

variable (h : Isolated m₀ template s) {f : U64} {p' : Pmm} {m' : Mem}
  (htake : TakesPage s.mm.pmm f p')
  (hm' : ∀ t j, IsFrame t → entry m' t j =
    if t = f then (if 256 ≤ j.toNat then entry s.mm.mem template j else 0#64)
    else entry s.mm.mem t j)
include h htake hm'

theorem Isolated.create_kept (t : U64) (j : BitVec 9)
    (ht : Reached (child (lowRef s.created) s.mm.mem) (· ∈ s.created) 3 t) :
    entry m' t j = entry s.mm.mem t j := by
  have hne : t ≠ f := fun heq => h.low.not_reached htake.available (heq ▸ ht)
  rw [hm' t j (h.low.frame t ht), if_neg hne]

theorem Isolated.create_fresh :
    Fresh (child (lowRef s.created) s.mm.mem) (child (lowRef (f :: s.created)) m')
      (· ∈ s.created) 3 f := by
  apply h.fresh htake.available _ (h.create_kept htake hm')
  intro j hj
  rw [hm' f j htake.isFrame, if_pos rfl, if_neg (Nat.not_le_of_lt hj)]

theorem Isolated.create_spares :
    Spares s ⟨{ s.mm with mem := m', pmm := p' }, f :: s.created, s.last⟩ := by
  refine ⟨fun t O => ?_, rfl⟩
  have htf : t ≠ f := fun heq => O.unavailable (heq ▸ htake.available)
  refine ⟨⟨O.frame, fun hb => O.unavailable (htake.fewer t hb), ?_⟩, fun j => ?_⟩
  · simp only [List.mem_cons]
    exact fun hr => (reached_addRoot (h.create_fresh htake hm') hr).elim htf O.unreached
  · exact (hm' t j O.frame).trans (if_neg htf)

/-- A fresh PML4 with the template's kernel half and an empty low half. -/
theorem Isolated.create (htemplate : template ≠ 0#64) :
    Isolated m₀ template ⟨{ s.mm with mem := m', pmm := p' }, f :: s.created, s.last⟩ := by
  have hf : IsFrame f := htake.isFrame
  have hkeep := h.create_kept htake hm'
  have N := h.create_fresh htake hm'
  have hroot : ∀ {a}, a ∈ s.created → Reached (child (lowRef s.created) s.mm.mem)
      (· ∈ s.created) 3 a := fun ha => ⟨_, [], ha, Nat.zero_le 3, rfl⟩
  refine
    { pmm := htake.consistent
      template_eq := h.template_eq
      nothing_created := fun h0 => absurd h0 htemplate
      low := ?_
      shared := (h.create_spares htake hm').shared h
      high := ?_, unmapped := ?_, mapped := ?_ }
  · simp only [List.mem_cons]
    exact h.low.addRoot N hkeep hf htake.taken htake.fewer
  · intro a ha i hi
    rcases List.mem_cons.mp ha with rfl | ha
    · rw [hm' a i hf, if_pos rfl, if_pos hi]
      exact h.shared_entry template ⟨htemplate, .inl rfl⟩ i
    · rw [hkeep a i (hroot ha)]
      exact h.high a ha i hi
  · intro a v ha
    exact h.unmapped a v (fun hmem => ha (List.mem_cons_of_mem f hmem))
  · intro a ha v hv
    rcases List.mem_cons.mp ha with rfl | ha
    · -- the new PML4 was available, so it is none of the old ones
      have hnone : leaf (lowRef (a :: s.created)) m' a (tablePath v) (slot1 v) = none := by
        rw [leaf, tablePath, walk, N.leaf, Option.bind_none, Option.map_none]
      have hfree : a ∉ s.created := fun hmem =>
        h.low.not_reached htake.available (hroot hmem)
      rw [hnone, h.unmapped a v hfree, Option.bind_none, Option.map_none]
    · rw [leaf_addRoot N hkeep ha rfl]
      exact h.mapped a ha v hv

end Create

/-- What `user_as_create` can do: nothing, without a template or a page, or take a
page, copy the kernel half in and clear the rest of it. -/
theorem Isolated.userAsCreate_cases (h : Isolated m₀ template s) :
    (userAsCreate s.mm = (0#64, s.mm) ∧ (template = 0#64 ∨ s.mm.pmm.Exhausted)) ∨
    ∃ f p' m', template ≠ 0#64 ∧ pmmAllocPage s.mm.pmm = (f, p') ∧ TakesPage s.mm.pmm f p' ∧
      userAsCreate s.mm = (f, { s.mm with mem := m', pmm := p' }) ∧
      ∀ t j, IsFrame t → entry m' t j =
        if t = f then (if 256 ≤ j.toNat then entry s.mm.mem template j else 0#64)
        else entry s.mm.mem t j := by
  obtain rfl := h.template_eq
  unfold userAsCreate
  by_cases htemplate : s.mm.kernelPml4TemplatePhys = 0#64
  · exact .inl ⟨if_pos htemplate, .inl htemplate⟩
  rw [if_neg htemplate]
  rcases pmmAllocPage_cases h.pmm with ⟨heq, hex⟩ | ⟨f, p', heq, htake⟩
  · refine .inl ⟨?_, .inr hex⟩
    simp only [allocZeroedPagePhys, heq, if_true]
  have hne0 : f ≠ 0#64 := htake.isPage.ne_zero
  obtain ⟨hframe, hav, -, -⟩ := h.shared _ ⟨htemplate, .inl rfl⟩
  have hne : s.mm.kernelPml4TemplatePhys ≠ f := fun heq => hav (heq ▸ htake.available)
  obtain ⟨m', hcopy, hm'⟩ :=
    copyKernelHalf_zeroed { s.mm with pmm := p' } htake.isFrame hframe hne
  refine .inr ⟨f, p', m', htemplate, heq, htake, ?_, hm'⟩
  simp only [allocZeroedPagePhys_eq heq hne0, if_neg hne0]
  exact congrArg (Prod.mk f) hcopy

theorem userAsCreate_spec (h : Isolated m₀ template s) :
    ∃ a mm', userAsCreate s.mm = (a, mm') ∧
      Isolated m₀ template ⟨mm', if a = 0#64 then s.created else a :: s.created, s.last⟩ ∧
      Spares s ⟨mm', if a = 0#64 then s.created else a :: s.created, s.last⟩ := by
  rcases h.userAsCreate_cases with ⟨heq, -⟩ | ⟨f, p', m', htemplate, -, htake, heq, hm'⟩
  · exact ⟨0#64, s.mm, heq, h, Spares.refl s⟩
  · refine ⟨f, _, heq, ?_⟩
    rw [if_neg htake.isPage.ne_zero]
    exact ⟨h.create htake hm' htemplate, h.create_spares htake hm'⟩

theorem userAsStep_create {a : U64} {mm : MmState} (h : userAsCreate s.mm = (a, mm))
    (ha : a ≠ 0#64) : userAsStep s .create = some ⟨mm, a :: s.created, s.last⟩ := by
  simp only [userAsStep, userAsStepAnyVa, h, if_neg ha]

theorem userAsStepAnyVa_map {a : U64} (ha : a ∈ s.created) (va pa : U64) (w x : Bool) :
    userAsStepAnyVa s (.map a va pa w x) = some ⟨(userMap4kInPml4 s.mm a va pa w x).2, s.created,
      if (userMap4kInPml4 s.mm a va pa w x).1 then
        Function.update s.last a (Function.update (s.last a) (vpn va) (some ⟨pa, w, x⟩))
      else s.last⟩ := by
  simp only [userAsStepAnyVa, if_pos ha]

theorem userAsStep_map {a va : U64} (ha : a ∈ s.created) (hva : va.getLsbD 47 = false) (pa : U64)
    (w x : Bool) :
    userAsStep s (.map a va pa w x) = some ⟨(userMap4kInPml4 s.mm a va pa w x).2, s.created,
      if (userMap4kInPml4 s.mm a va pa w x).1 then
        Function.update s.last a (Function.update (s.last a) (vpn va) (some ⟨pa, w, x⟩))
      else s.last⟩ :=
  (if_pos hva).trans (userAsStepAnyVa_map ha va pa w x)

theorem userAsStep_mapped {a va pa : U64} {w x : Bool} {mm : MmState} (ha : a ∈ s.created)
    (hva : va.getLsbD 47 = false) (h : userMap4kInPml4 s.mm a va pa w x = (true, mm)) :
    userAsStep s (.map a va pa w x) = some ⟨mm, s.created,
      Function.update s.last a (Function.update (s.last a) (vpn va) (some ⟨pa, w, x⟩))⟩ := by
  rw [userAsStep_map ha hva, h]
  rfl

theorem Isolated.step (h : Isolated m₀ template s) {op : UserAsOp} {s' : UserSpaces}
    (hs : userAsStep s op = some s') : Isolated m₀ template s' ∧ Spares s s' := by
  cases op with
  | create =>
    obtain ⟨a, mm', heq, h', S⟩ := userAsCreate_spec h
    simp only [userAsStep, userAsStepAnyVa, heq] at hs
    cases Option.some.inj hs
    exact ⟨h', S⟩
  | map a va pa w x =>
    simp only [userAsStep, userAsStepAnyVa] at hs
    split at hs
    swap
    · cases hs
    rename_i hva
    split at hs
    · rename_i ha
      obtain ⟨ok, mm', heq, h', S⟩ := userMap4kInPml4_spec h ha hva pa w x
      simp only [heq] at hs
      cases Option.some.inj hs
      exact ⟨h', S.kept, S.pml4⟩
    · cases hs

/-! ## After `init_kernel_pml4_template` -/

/-- A frame of the bootloader's page tables. -/
def BootTable (boot : MmState) (t : U64) : Prop :=
  Reached (child tableRef boot.mem) (· = boot.cr3 &&& pteAddrMask) 3 t

theorem isFrame_of_walk_cons {m : Mem} {t : U64} {p : List (BitVec 9)} :
    ∀ {r : U64} {i : BitVec 9}, walk (child tableRef m) r (i :: p) = some t → IsFrame t := by
  induction p with
  | nil =>
    intro r i hw
    rw [walk, child, tableRef] at hw
    split at hw
    · cases Option.some.inj hw
      exact pteToPhys_isFrame _
    · cases hw
  | cons j p ih =>
    intro r i hw
    obtain ⟨n, -, hw⟩ := Option.bind_eq_some_iff.mp hw
    exact ih hw

/-- With no address space there are no low-half tables. -/
theorem tables_nil (m : Mem) (Avail : U64 → Prop) :
    Tables (lowRef []) (· ∈ []) UserEntry Avail m where
  forest := fun _ _ _ _ _ hr => absurd hr List.not_mem_nil
  frame := fun _ ⟨_, _, hr, _⟩ => absurd hr List.not_mem_nil
  unavailable := fun _ ⟨_, _, hr, _⟩ => absurd hr List.not_mem_nil
  inner := fun _ _ _ _ hr => absurd hr List.not_mem_nil

/-- What `init_kernel_pml4_template` does: nothing on an exhausted allocator, or
take a page, copy the kernel half in and clear the rest of it. -/
theorem initKernelPml4Template_cases {boot : MmState} (hpmm : boot.pmm.Consistent)
    (hroot : ¬ boot.pmm.Available (boot.cr3 &&& pteAddrMask)) :
    initKernelPml4Template boot = { boot with kernelPml4TemplatePhys := 0#64 } ∨
    ∃ f p' m', TakesPage boot.pmm f p' ∧
      initKernelPml4Template boot =
        { boot with mem := m', pmm := p', kernelPml4TemplatePhys := f } ∧
      ∀ t j, IsFrame t → entry m' t j =
        if t = f then (if 256 ≤ j.toNat then entry boot.mem (boot.cr3 &&& pteAddrMask) j else 0#64)
        else entry boot.mem t j := by
  rcases allocZeroedPagePhys_spec hpmm with ⟨heq, -⟩ | ⟨f, p', heq, htake⟩
  · left
    simp only [initKernelPml4Template, heq, if_true]
  · have hne : boot.cr3 &&& pteAddrMask ≠ f := fun h => hroot (h ▸ htake.available)
    obtain ⟨m', hcopy, hm'⟩ := copyKernelHalf_zeroed
      { boot with pmm := p', kernelPml4TemplatePhys := f } htake.isFrame
      (pteToPhys_isFrame boot.cr3) hne
    refine .inr ⟨f, p', m', htake, ?_, hm'⟩
    simp only [initKernelPml4Template, heq, if_neg htake.isPage.ne_zero]
    exact hcopy

/-- The template is outside what the allocator still hands out, and so are the
tables behind it, which are the bootloader's. -/
theorem initKernelPml4Template_spec {boot : MmState} (hpmm : boot.pmm.Consistent)
    (hboot : ∀ t, BootTable boot t → ¬ boot.pmm.Available t) :
    (initKernelPml4Template boot).pmm.Consistent ∧
      ∀ t, SharedFrame (initKernelPml4Template boot).mem
        (initKernelPml4Template boot).kernelPml4TemplatePhys t →
        IsFrame t ∧ ¬ (initKernelPml4Template boot).pmm.Available t ∧
          (boot.pmm.Available t ∨ BootTable boot t) := by
  have hroot := hboot (boot.cr3 &&& pteAddrMask) ⟨_, [], rfl, Nat.zero_le 3, rfl⟩
  rcases initKernelPml4Template_cases hpmm hroot with hinit | ⟨f, p', m', htake, hinit, hm'⟩
  · rw [hinit]
    exact ⟨hpmm, fun t ht => absurd rfl ht.1⟩
  rw [hinit]
  refine ⟨htake.consistent, ?_⟩
  rintro t ⟨-, rfl | ⟨i, p, hi, hp, hw⟩⟩
  · exact ⟨htake.isFrame, htake.taken, .inl htake.available⟩
  have hsame : ∀ q, q.length ≤ 2 →
      walk (child tableRef m') f (i :: q) =
        walk (child tableRef boot.mem) (boot.cr3 &&& pteAddrMask) (i :: q) := by
    refine walk_cons_congr ?_ fun q n hq hwq j => ?_
    · rw [child, hm' f i htake.isFrame, if_pos rfl, if_pos hi]
      rfl
    · have hn : n ≠ f := by
        rintro rfl
        exact hboot n ⟨_, i :: q, rfl, by simp; omega, hwq⟩ htake.available
      rw [child, hm' n j (isFrame_of_walk_cons hwq), if_neg hn]
      rfl
  rw [hsame p hp] at hw
  have ht : BootTable boot t := ⟨_, i :: p, rfl, by simp; omega, hw⟩
  exact ⟨isFrame_of_walk_cons hw, fun hb => hboot t ht (htake.fewer t hb), .inr ht⟩

/-- No address space yet. -/
def UserSpaces.empty (s : MmState) : UserSpaces := ⟨s, [], fun _ _ => none⟩

theorem UserSpaces.empty_isolated {s : MmState} (hpmm : s.pmm.Consistent)
    (hshared : ∀ t, SharedFrame s.mem s.kernelPml4TemplatePhys t →
      IsFrame t ∧ ¬ s.pmm.Available t) :
    Isolated s.mem s.kernelPml4TemplatePhys (.empty s) where
  pmm := hpmm
  template_eq := rfl
  nothing_created := fun _ => rfl
  low := tables_nil _ _
  shared := fun t ht => ⟨(hshared t ht).1, (hshared t ht).2,
    fun ⟨_, _, hr, _⟩ => absurd hr List.not_mem_nil, fun _ => rfl⟩
  high := fun _ ha => absurd ha List.not_mem_nil
  unmapped := fun _ _ _ => rfl
  mapped := fun _ ha => absurd ha List.not_mem_nil

theorem UserSpaces.start_isolated {boot : MmState} (hpmm : boot.pmm.Consistent)
    (hboot : ∀ t, BootTable boot t → ¬ boot.pmm.Available t) :
    Isolated (initKernelPml4Template boot).mem (initKernelPml4Template boot).kernelPml4TemplatePhys
      (UserSpaces.start boot) := by
  obtain ⟨hpmm', hshared⟩ := initKernelPml4Template_spec hpmm hboot
  refine UserSpaces.empty_isolated hpmm' fun t ht => ?_
  obtain ⟨hframe, hav, -⟩ := hshared t ht
  exact ⟨hframe, hav⟩

/-! ## What the processor sees -/

theorem Isolated.template_ne_zero (h : Isolated m₀ template s) {a : U64} (ha : a ∈ s.created) :
    template ≠ 0#64 := by
  intro h0
  rw [h.nothing_created h0] at ha
  cases ha

/-- The kernel half of a created PML4 is walked as the template was at the
start. -/
theorem Isolated.walk_high (h : Isolated m₀ template s) {a : U64} (ha : a ∈ s.created)
    {i : BitVec 9} (hi : 256 ≤ i.toNat) {p : List (BitVec 9)} (hp : p.length ≤ 2) :
    walk (child tableRef s.mm.mem) a (i :: p) = walk (child tableRef m₀) template (i :: p) := by
  refine walk_cons_congr ?_ (fun q t hq hw j => ?_) p hp
  · rw [child, h.high a ha i hi]
    rfl
  · have hshared : SharedFrame m₀ template t :=
      ⟨h.template_ne_zero ha, .inr ⟨i, q, hi, Nat.le_of_lt hq, hw⟩⟩
    rw [child, h.shared_entry t hshared j]
    rfl

/-- The table that path `p` leads to from the PML4 in frame `a`, through any
present entries, when the path starts in the low half. -/
def lowWalk (m : Mem) (a : U64) : List (BitVec 9) → Option U64
  | [] => some a
  | i :: p => if i.toNat < 256 then walk (child followPresent m) a (i :: p) else none

theorem Isolated.lowWalk_eq (h : Isolated m₀ template s) {a : U64} (ha : a ∈ s.created) :
    ∀ p, p.length ≤ 3 → lowWalk s.mm.mem a p = walk (child (lowRef s.created) s.mm.mem) a p := by
  rintro (_ | ⟨i, p⟩) hp
  · rfl
  have hp' : p.length ≤ 2 := Nat.le_of_succ_le_succ hp
  rw [lowWalk]
  split
  · rename_i hi
    refine walk_cons_congr ?_ (fun q t hq hw j => ?_) p hp'
    · exact (if_neg fun hc => by omega).symm
    · -- an inner table is not a PML4, so none of its slots is shared
      have ht : t ∉ s.created := by
        intro ht
        obtain ⟨-, hnil⟩ := h.low.forest a t (i :: q) [] t ha ht (by simp; omega)
          (Nat.zero_le 3) hw rfl
        cases hnil
      exact (if_neg fun hc => ht hc.1).symm
  · rename_i hi
    rw [walk, child, lowRef, if_pos ⟨ha, by omega⟩]
    rfl

theorem Isolated.userEntry (h : Isolated m₀ template s) {a t : U64} (ha : a ∈ s.created)
    {p : List (BitVec 9)} (hp : p.length ≤ 2) (hw : lowWalk s.mm.mem a p = some t) {i : BitVec 9}
    (hi : p = [] → i.toNat < 256) (hpres : HasFlag (entry s.mm.mem t i) ptePresent) :
    UserEntry (entry s.mm.mem t i) := by
  rw [h.lowWalk_eq ha p (by omega)] at hw
  have L : LowSlot s a p t i := ⟨ha, hw, by omega, hi⟩
  refine h.low.inner a p t i ha hp hw ?_
  rw [child, L.lowRef_eq h, presentRef, if_pos hpres]
  rfl

/-- Translation through a created PML4: the last mapping in the low half, the
template's translation in the high half. -/
theorem Isolated.translate (h : Isolated m₀ template s) {a : U64} (ha : a ∈ s.created)
    (v : BitVec 36) :
    hwTranslate s.mm.mem a v =
      if LowHalf v then (s.last a v).map UserMapping.translation
      else hwTranslate m₀ template v := by
  split
  · rename_i hv
    have hprefix : ∀ p i, p ++ [i] <+: tablePath v → p.length ≤ 2 ∧ (p = [] → i = slot4 v) := by
      intro p i hpre
      refine ⟨Nat.le_of_lt_succ (length_lt_of_isPrefix_concat hpre), ?_⟩
      rintro rfl
      exact List.cons_prefix_cons.mp hpre |>.1
    have hlow : ∀ p, p <+: tablePath v →
        walk (child followPresent s.mm.mem) a p = lowWalk s.mm.mem a p := by
      rintro (_ | ⟨i, p⟩) hpre
      · rfl
      · rw [lowWalk, if_pos]
        rw [(List.cons_prefix_cons.mp hpre).1]
        exact hv
    rw [hwTranslate_of_userEntry, leaf, hlow _ (List.prefix_refl _),
      h.lowWalk_eq ha (tablePath v) (Nat.le_refl 3)]
    · exact h.mapped a ha v hv
    · intro p t i hpre hw hpres
      obtain ⟨hlen, hnil⟩ := hprefix p i hpre
      rw [hlow p ((List.prefix_append p [i]).trans hpre)] at hw
      exact h.userEntry ha hlen hw (fun hp => hnil hp ▸ hv) hpres
  · rename_i hv
    have hi : 256 ≤ (slot4 v).toNat := Nat.le_of_not_lt hv
    -- past the PML4 the walk stays in the shared tables
    refine hwTranslate_congr (h.high a ha _ hi) fun p t hp hw => ?_
    exact h.shared_entry t ⟨h.template_ne_zero ha, .inr ⟨_, p, hi, hp, hw⟩⟩

/-- **Address spaces are isolated.** Suppose the page allocator was only ever
given back held pages and the bootloader's tables are outside what it may hand
out. After `init_kernel_pml4_template` and any interleaving of creations and
low-half mappings: the kernel half of every created PML4 is the template's and
the tables behind it are untouched; the low-half entries above the page tables
hand every right down, and different address spaces share no low-half table; the
processor translates a low-half page to the last successful mapping of that page
in that space, or not at all; and a mapping that fails changes no translation. -/
theorem user_spaces_isolated {boot : MmState} (hpmm : boot.pmm.Reachable)
    (hboot : ∀ t, BootTable boot t → ¬ boot.pmm.Available t) {ops : List UserAsOp}
    (hrun : Runs.run userAsStep (UserSpaces.start boot) ops = some s) :
    (∀ a ∈ s.created,
      (∀ i : BitVec 9, 256 ≤ i.toNat →
        entry s.mm.mem a i = entry s.mm.mem s.mm.kernelPml4TemplatePhys i) ∧
      ∀ t, KernelTable s.mm.mem a t →
        ∀ j, entry s.mm.mem t j = entry (initKernelPml4Template boot).mem t j) ∧
    (∀ a ∈ s.created, ∀ p t (i : BitVec 9), p.length ≤ 2 → lowWalk s.mm.mem a p = some t →
      (p = [] → i.toNat < 256) → HasFlag (entry s.mm.mem t i) ptePresent →
      UserEntry (entry s.mm.mem t i)) ∧
    (∀ a ∈ s.created, ∀ b ∈ s.created, ∀ p q t, p.length ≤ 3 → q.length ≤ 3 →
      lowWalk s.mm.mem a p = some t → lowWalk s.mm.mem b q = some t → a = b) ∧
    (∀ a ∈ s.created, ∀ v, LowHalf v →
      hwTranslate s.mm.mem a v = (s.last a v).map UserMapping.translation) ∧
    ∀ a ∈ s.created, ∀ va pa w x, va.getLsbD 47 = false →
      (userMap4kInPml4 s.mm a va pa w x).1 = false → ∀ b ∈ s.created, ∀ v,
        hwTranslate (userMap4kInPml4 s.mm a va pa w x).2.mem b v = hwTranslate s.mm.mem b v := by
  have h := Runs.run_invariant
    (P := fun _ s => Isolated (initKernelPml4Template boot).mem
      (initKernelPml4Template boot).kernelPml4TemplatePhys s)
    (UserSpaces.start_isolated hpmm.consistent hboot)
    (fun _ _ _ _ _ h hs => (h.step hs).1) ops s hrun
  refine ⟨fun a ha => ⟨fun i hi => ?_, ?_⟩, ?_, ?_, ?_, ?_⟩
  · have hkept := h.shared_entry _ ⟨h.template_ne_zero ha, .inl rfl⟩ i
    rw [h.template_eq, hkept]
    exact h.high a ha i hi
  · rintro t ⟨i, p, hi, hp, hw⟩
    rw [h.walk_high ha hi hp] at hw
    exact h.shared_entry t ⟨h.template_ne_zero ha, .inr ⟨i, p, hi, hp, hw⟩⟩
  · intro a ha p t i hp hw hi hpres
    exact h.userEntry ha hp hw hi hpres
  · intro a ha b hb p q t hp hq hw hw'
    rw [h.lowWalk_eq ha p hp] at hw
    rw [h.lowWalk_eq hb q hq] at hw'
    exact (h.low.forest a b p q t ha hb hp hq hw hw').1
  · intro a ha v hv
    rw [h.translate ha v, if_pos hv]
  · intro a ha va pa w x hva hfail b hb v
    obtain ⟨ok, mm', heq, h', -⟩ := userMap4kInPml4_spec h ha hva pa w x
    rw [heq] at hfail ⊢
    cases hfail
    rw [h.translate hb v]
    exact h'.translate hb v

/-- In cleared memory no table but the PML4 itself exists, below the pool. -/
theorem bootTable_blank {t : U64} (h : BootTable .blank t) : ¬ MmState.blank.pmm.Available t := by
  obtain ⟨r, p, rfl, -, hw⟩ := h
  have hroot : t = 0x1000#64 := by
    refine (walk_empty (fun j => ?_) hw).2
    rw [child, MmState.entry_blank, tableRef_zero]
  rw [hroot, Pmm.Available]
  decide

/-- With a fresh pool the template is the first page. -/
theorem initKernelPml4Template_booted (m : Mem) :
    ∃ m', initKernelPml4Template (.booted m) = { MmState.booted m' with
        pmm := (pmmAllocPage MmState.blank.pmm).2, kernelPml4TemplatePhys := 0x200000#64 } ∧
      ∀ t j, IsFrame t → entry m' t j =
        if t = 0x200000#64 then (if 256 ≤ j.toNat then entry m 0x1000#64 j else 0#64)
        else entry m t j := by
  have hf : IsFrame 0x200000#64 := by decide
  have hroot : IsFrame 0x1000#64 := by decide
  obtain ⟨m', hcopy, hm'⟩ := copyKernelHalf_zeroed { MmState.booted m with
    pmm := (pmmAllocPage MmState.blank.pmm).2, kernelPml4TemplatePhys := 0x200000#64 }
    hf hroot (by decide)
  refine ⟨m', ?_, hm'⟩
  simp only [initKernelPml4Template,
    allocZeroedPagePhys_eq (s := .booted m) (f := 0x200000#64) rfl (by decide)]
  exact hcopy

/-- And the first address space is the second page, with a copy of the copy. -/
theorem userAsCreate_booted (m : Mem) :
    ∃ m', userAsCreate (UserSpaces.start (.booted m)).mm = (0x201000#64, { MmState.booted m' with
        pmm := (pmmAllocPage (pmmAllocPage MmState.blank.pmm).2).2
        kernelPml4TemplatePhys := 0x200000#64 }) ∧
      ∀ t j, IsFrame t → entry m' t j =
        if t = 0x201000#64 ∨ t = 0x200000#64 then
          (if 256 ≤ j.toNat then entry m 0x1000#64 j else 0#64)
        else entry m t j := by
  have hf : IsFrame 0x201000#64 := by decide
  have htemplate : IsFrame 0x200000#64 := by decide
  obtain ⟨m', hinit, hm'⟩ := initKernelPml4Template_booted m
  rw [UserSpaces.start, hinit, userAsCreate, if_neg (show ¬ 0x200000#64 = 0#64 by decide)]
  obtain ⟨m'', hcopy, hm''⟩ := copyKernelHalf_zeroed { MmState.booted m' with
    pmm := (pmmAllocPage (pmmAllocPage MmState.blank.pmm).2).2
    kernelPml4TemplatePhys := 0x200000#64 } hf htemplate (by decide)
  refine ⟨m'', ?_, fun t j ht => ?_⟩
  · simp only [allocZeroedPagePhys_eq
      (s := { MmState.booted m' with
        pmm := (pmmAllocPage MmState.blank.pmm).2, kernelPml4TemplatePhys := 0x200000#64 })
      (f := 0x201000#64) rfl (by decide)]
    exact congrArg (Prod.mk _) hcopy
  · have hcopied := hm'' t j ht
    simp only [hm' _ j htemplate, hm' t j ht, if_true] at hcopied
    rw [hcopied]
    by_cases ha : t = 0x201000#64
    · simp only [ha, true_or, if_true]
      split <;> rfl
    · simp only [ha, if_false, false_or]

/-- Two address spaces that were created one after the other. -/
theorem two_created : ∃ mm, Runs.run userAsStep (.start .blank) [.create, .create] =
      some ⟨mm, [0x202000#64, 0x201000#64], fun _ _ => none⟩ ∧
    mm.getHhdmBase = 0xffff800000000000#64 ∧ mm.pmm = ⟨[], 0x203000, 0x3fe00, 3, 0⟩ ∧
    ∀ a j, a = 0x201000#64 ∨ a = 0x202000#64 → j.toNat < 256 → entry mm.mem a j = 0#64 := by
  have hpmm : MmState.blank.pmm.Reachable := pmmInit_reachable _
  obtain ⟨m₁, hnew, hm₁⟩ := userAsCreate_booted MmState.blank.mem
  have hfirst := userAsStep_create (s := .start .blank) hnew (by decide)
  have h₁ := ((UserSpaces.start_isolated hpmm.consistent fun _ => bootTable_blank).step hfirst).1
  rcases h₁.userAsCreate_cases with ⟨-, h | h⟩ | ⟨f, p', m₂, -, halloc, -, hnew₂, hm₂⟩
  · exact absurd (h₁.template_eq.trans h) (show ¬ 0x200000#64 = 0#64 by decide)
  · exact absurd h.2 (show ¬ 0x202000#64 = pmmEndAddr by decide)
  have halloc' : pmmAllocPage (pmmAllocPage (pmmAllocPage MmState.blank.pmm).2).2 =
      (0x202000#64, ⟨[], 0x203000, 0x3fe00, 3, 0⟩) := by decide
  cases halloc.symm.trans halloc'
  have hsecond := userAsStep_create hnew₂ (by decide)
  refine ⟨_, (Runs.run_cons_of_step hfirst _).trans (Runs.run_cons_of_step hsecond []),
    rfl, rfl, ?_⟩
  rintro a j (rfl | rfl) hj
  · rw [hm₂ _ j (by decide), if_neg (by decide)]
    change entry m₁ _ j = _
    rw [hm₁ _ j (by decide), if_pos (.inl rfl), if_neg (Nat.not_le.mpr hj)]
  · rw [hm₂ _ j (by decide), if_pos rfl, if_neg (Nat.not_le.mpr hj)]

/-- A mapping in an address space without tables leaves the PML4 of another alone. -/
theorem userMap4kInPml4_first {mm : MmState} {p₃ p₂ p₁ : Pmm}
    (hbase : mm.getHhdmBase = 0xffff800000000000#64)
    (hempty : ∀ a j, a = 0x201000#64 ∨ a = 0x202000#64 → j.toNat < 256 → entry mm.mem a j = 0#64)
    (h₃ : pmmAllocPage mm.pmm = (0x203000#64, p₃)) (h₂ : pmmAllocPage p₃ = (0x204000#64, p₂))
    (h₁ : pmmAllocPage p₂ = (0x205000#64, p₁)) :
    ∃ m₁, userMap4kInPml4 mm 0x201000#64 0x10000#64 0x300000#64 false true =
        (true, { mm with mem := m₁, pmm := p₁ }) ∧
      entry m₁ 0x202000#64 (slot4 (vpn 0x10000#64)) = 0#64 := by
  have hmiss : ¬ HasFlag (entry mm.mem 0x201000#64 (slot4 (vpn 0x10000#64))) ptePresent := by
    rw [hempty _ _ (.inl rfl) (by decide)]
    exact not_hasFlag_zero _
  refine ⟨_, userMap4kInPml4_fresh hbase (by decide) hmiss h₃ h₂ h₁ (by decide) (by decide)
    (by decide) (by decide) _ _ _, ?_⟩
  rw [entry_setEntry _ (by decide) (by decide), if_neg (by decide),
    entry_linked _ (by decide) (by decide) (by decide), if_neg (by decide), if_neg (by decide),
    entry_linked _ (by decide) (by decide) (by decide), if_neg (by decide), if_neg (by decide),
    entry_linked _ (by decide) (by decide) (by decide), if_neg (by decide), if_neg (by decide)]
  exact hempty _ _ (.inr rfl) (by decide)

/-- The same page mapped in both, to two frames and with different rights. -/
theorem two_mapped : ∃ mm, Runs.run userAsStep (.start .blank)
      [.create, .create, .map 0x201000#64 0x10000#64 0x300000#64 false true,
        .map 0x202000#64 0x10000#64 0x301000#64 true false] =
    some ⟨mm, [0x202000#64, 0x201000#64],
      Function.update (Function.update (fun _ _ => none) 0x201000#64
        (Function.update (fun _ => none) (vpn 0x10000#64) (some ⟨0x300000#64, false, true⟩)))
        0x202000#64 (Function.update (fun _ => none) (vpn 0x10000#64)
          (some ⟨0x301000#64, true, false⟩))⟩ := by
  obtain ⟨mm, hcreated, hbase, hpool, hempty⟩ := two_created
  have hlow : (0x10000#64).getLsbD 47 = false := by decide
  -- each mapping takes three pages for its tables
  obtain ⟨p₃, p₂, p₁, q₃, q₂, q₁, h₃, h₂, h₁, g₃, g₂, g₁⟩ : ∃ p₃ p₂ p₁ q₃ q₂ q₁,
      pmmAllocPage mm.pmm = (0x203000#64, p₃) ∧ pmmAllocPage p₃ = (0x204000#64, p₂) ∧
      pmmAllocPage p₂ = (0x205000#64, p₁) ∧ pmmAllocPage p₁ = (0x206000#64, q₃) ∧
      pmmAllocPage q₃ = (0x207000#64, q₂) ∧ pmmAllocPage q₂ = (0x208000#64, q₁) := by
    rw [hpool]
    exact ⟨_, _, _, _, _, _, rfl, rfl, rfl, rfl, rfl, rfl⟩
  obtain ⟨m₁, hfirst, hkept⟩ := userMap4kInPml4_first hbase hempty h₃ h₂ h₁
  obtain ⟨mm', hsecond⟩ : ∃ mm', userMap4kInPml4 { mm with mem := m₁, pmm := p₁ } 0x202000#64
      0x10000#64 0x301000#64 true false = (true, mm') :=
    ⟨_, userMap4kInPml4_fresh (s := { mm with mem := m₁, pmm := p₁ }) hbase (by decide)
      (show ¬ HasFlag (entry m₁ _ _) _ by rw [hkept]; exact not_hasFlag_zero _) g₃ g₂ g₁
      (by decide) (by decide) (by decide) (by decide) _ _ _⟩
  have hmap := userAsStep_mapped (s := ⟨mm, [0x202000#64, 0x201000#64], fun _ _ => none⟩)
    (List.mem_cons_of_mem _ List.mem_cons_self) hlow hfirst
  have hmap' := userAsStep_mapped
    (s := ⟨{ mm with mem := m₁, pmm := p₁ }, [0x202000#64, 0x201000#64],
      Function.update (fun _ _ => none) 0x201000#64
        (Function.update (fun _ => none) (vpn 0x10000#64) (some ⟨0x300000#64, false, true⟩))⟩)
    List.mem_cons_self hlow hsecond
  have hrun := Runs.run_append userAsStep (.start .blank) [.create, .create]
    [.map 0x201000#64 0x10000#64 0x300000#64 false true,
      .map 0x202000#64 0x10000#64 0x301000#64 true false]
  rw [hcreated, Option.bind_some, Runs.run_cons_of_step hmap, Runs.run_cons_of_step hmap',
    Runs.run_nil] at hrun
  exact ⟨mm', hrun⟩

theorem two_spaces_isolated :
    ∃ s, Runs.run userAsStep (.start .blank)
        [.create, .create, .map 0x201000#64 0x10000#64 0x300000#64 false true,
          .map 0x202000#64 0x10000#64 0x301000#64 true false] = some s ∧
      hwTranslate s.mm.mem 0x201000#64 (vpn 0x10000#64) =
        some { frame := 0x300000, user := true, writable := false, noExecute := false } ∧
      hwTranslate s.mm.mem 0x202000#64 (vpn 0x10000#64) =
        some { frame := 0x301000, user := true, writable := true, noExecute := true } ∧
      ∀ p q t, p.length ≤ 3 → q.length ≤ 3 →
        lowWalk s.mm.mem 0x201000#64 p = some t → lowWalk s.mm.mem 0x202000#64 q ≠ some t := by
  have hpmm : MmState.blank.pmm.Reachable := pmmInit_reachable _
  obtain ⟨mm, hrun⟩ := two_mapped
  obtain ⟨-, -, hapart, htranslate, -⟩ := user_spaces_isolated hpmm (fun _ => bootTable_blank) hrun
  have hmem : 0x201000#64 ∈ [0x202000#64, 0x201000#64] := by decide
  have hmem' : 0x202000#64 ∈ [0x202000#64, 0x201000#64] := by decide
  have hpage : LowHalf (vpn 0x10000#64) := by decide
  refine ⟨_, hrun, (htranslate _ hmem _ hpage).trans ?_, (htranslate _ hmem' _ hpage).trans ?_,
    fun p q t hp hq hw hw' => absurd (hapart _ hmem _ hmem' p q t hp hq hw hw') (by decide)⟩
  · rfl
  · rfl

end Myria.Mm
