import Myria.Mm.Paging

/-! `enable_bss_write_permissions` of `paging.c`: a walk for every page of a range
that sets `PTE_WRITABLE` in the leaf it ends at, in the very tables that the next
walks read. Tables may be shared and may refer to themselves; what saves the loop
is that no walk looks at the writable bit. -/
namespace Myria.Mm

open ByteMem

/-- `*ptr = v`, for a pointer into the direct map. -/
def MmState.assign (s : MmState) (ptr v : U64) : MmState :=
  { s with mem := write64 s.mem (ptr - s.getHhdmBase) v }

/-- One case of the switch in `make_page_writable_minimal`. -/
def setWritable (s : MmState) (ptr : U64) : Bool × MmState :=
  if HasFlag (s.deref ptr) pteWritable then (true, s)
  else (true, s.assign ptr (s.deref ptr ||| pteWritable))

/-- `make_page_writable_minimal`. Its `walk_t` is not initialised, and nothing of
it is read that the walk has not written. -/
def makePageWritableMinimal (s : MmState) (va : U64) : Bool × MmState :=
  match walkVaToLeaf s va .unset with
  | (false, _) => (false, s)
  | (true, w) =>
    match w.leaf with
    | .leaf4K => setWritable s w.pte
    | .leaf2M => setWritable s w.pde
    | .leaf1G => setWritable s w.pdpte
    | .leafNone => (false, s)

/-- The values of `va` in the loop of `enable_bss_write_permissions`. -/
def loopPages (start stop : U64) : List U64 :=
  let first := start &&& ~~~0xFFF
  let last := (stop + 0xFFF) &&& ~~~0xFFF
  if first < last then
    (List.range ((last - first) / 0x1000).toNat).map fun i => first + BitVec.ofNat 64 i * 0x1000
  else []

/-- The loop of `enable_bss_write_permissions`; after a failed walk the code
halts, which is `none`. -/
def makeWritable (s : MmState) : List U64 → Option MmState
  | [] => some s
  | va :: vas =>
    match makePageWritableMinimal s va with
    | (true, s) => makeWritable s vas
    | (false, _) => none

/-- `enable_bss_write_permissions`, for the range from `__data_start` to
`__bss_end`. -/
def enableBssWritePermissions (s : MmState) (start stop : U64) : Option MmState :=
  makeWritable s (loopPages start stop)

/-- The pages of the range: from `start` rounded down to `stop` rounded up. -/
def InPageRange (start stop va : U64) : Prop :=
  va.toNat % 4096 = 0 ∧ start.toNat / 4096 * 4096 ≤ va.toNat ∧
    va.toNat < (stop.toNat + 0xFFF) / 4096 * 4096

/-- The pages from `first` up to `last`, page by page. -/
theorem mem_pagesBetween {first last va : U64} (hal : first.toNat % 4096 = 0)
    (hal' : last.toNat % 4096 = 0) (hlt : first < last) :
    va ∈ (List.range ((last - first) / 0x1000).toNat).map
        (fun i => first + BitVec.ofNat 64 i * 0x1000) ↔
      va.toNat % 4096 = 0 ∧ first.toNat ≤ va.toNat ∧ va.toNat < last.toNat := by
  have hcount : ((last - first) / 0x1000).toNat = (last.toNat - first.toNat) / 4096 := by
    rw [BitVec.toNat_udiv, BitVec.toNat_sub_of_le (BitVec.le_of_lt hlt)]
    rfl
  have hvalue : ∀ i, i < (last.toNat - first.toNat) / 4096 →
      (first + BitVec.ofNat 64 i * 0x1000).toNat = first.toNat + i * 4096 := by
    intro i hi
    have hbound := last.isLt
    have hfour : (0x1000 : U64).toNat = 4096 := rfl
    simp only [BitVec.toNat_add, BitVec.toNat_mul, BitVec.toNat_ofNat, hfour]
    omega
  rw [hcount, List.mem_map]
  rw [BitVec.lt_def] at hlt
  constructor
  · rintro ⟨i, hi, rfl⟩
    have hi' := List.mem_range.mp hi
    rw [hvalue i hi']
    omega
  · rintro ⟨hpage, hlo, hhi⟩
    refine ⟨(va.toNat - first.toNat) / 4096, List.mem_range.mpr (by omega), ?_⟩
    apply BitVec.eq_of_toNat_eq
    rw [hvalue _ (by omega)]
    omega

theorem mem_loopPages {start stop va : U64} (hstop : stop.toNat + 0xFFF < 2 ^ 64) :
    va ∈ loopPages start stop ↔ InPageRange start stop va := by
  have hfirst : (start &&& ~~~0xFFF).toNat = start.toNat / 4096 * 4096 := pageAlignDown_toNat start
  have hlast : ((stop + 0xFFF) &&& ~~~0xFFF).toNat = (stop.toNat + 0xFFF) / 4096 * 4096 := by
    have hsum : (stop + 0xFFF).toNat = stop.toNat + 0xFFF := by
      rw [BitVec.toNat_add]
      exact Nat.mod_eq_of_lt hstop
    rw [← hsum]
    exact pageAlignDown_toNat (stop + 0xFFF)
  rw [loopPages, InPageRange, ← hfirst, ← hlast]
  have hal : (start &&& ~~~0xFFF).toNat % 4096 = 0 := by omega
  have hal' : ((stop + 0xFFF) &&& ~~~0xFFF).toNat % 4096 = 0 := by omega
  clear hfirst hlast
  generalize start &&& ~~~0xFFF = first at *
  generalize (stop + 0xFFF) &&& ~~~0xFFF = last at *
  split
  · rename_i hlt
    exact mem_pagesBetween hal hal' hlt
  · rename_i hlt
    rw [BitVec.lt_def] at hlt
    constructor
    · intro hmem
      cases hmem
    · rintro ⟨-, hlo, hhi⟩
      omega

/-! ## The writable bit -/

theorem or_writable_of_hasFlag {e : U64} (h : HasFlag e pteWritable) : e ||| pteWritable = e := by
  have hbit : pteWritable = BitVec.twoPow 64 1 := by decide
  rw [HasFlag, hbit, BitVec.and_twoPow] at h
  rw [hbit]
  ext i hi
  rw [BitVec.getElem_or, BitVec.getElem_twoPow]
  by_cases hone : i = 1
  · subst hone
    split at h
    · rename_i hset
      simpa [BitVec.getLsbD_eq_getElem] using hset
    · exact absurd rfl h
  · simp [hone]

/-- A set of aligned words at which `m'` may have gained `PTE_WRITABLE` over `m`;
every other word is as in `m`. -/
def RelaxedAt (A : U64 → Prop) (m m' : Mem) : Prop :=
  ∀ a : U64, a.toNat % 8 = 0 →
    read64 m' a = read64 m a ∨ (A a ∧ read64 m' a = read64 m a ||| pteWritable)

section

variable {A : U64 → Prop} {m m' : Mem}

theorem RelaxedAt.refl (A : U64 → Prop) (m : Mem) : RelaxedAt A m m := fun _ _ => .inl rfl

theorem RelaxedAt.trans {m'' : Mem} (h : RelaxedAt A m m') (h' : RelaxedAt A m' m'') :
    RelaxedAt A m m'' := by
  intro a ha
  rcases h' a ha with heq | ⟨hA, heq⟩ <;> rw [heq]
  · exact h a ha
  · rcases h a ha with hin | ⟨-, hin⟩ <;> rw [hin]
    · exact .inr ⟨hA, rfl⟩
    · exact .inr ⟨hA, by rw [BitVec.or_assoc, BitVec.or_self]⟩

/-- A word with a set `PTE_WRITABLE` keeps it. -/
theorem RelaxedAt.writable (h : RelaxedAt A m m') {a : U64} (ha : a.toNat % 8 = 0)
    (hw : HasFlag (read64 m a) pteWritable) : HasFlag (read64 m' a) pteWritable := by
  rcases h a ha with heq | ⟨-, heq⟩ <;> rw [heq]
  · exact hw
  · exact hasFlag_or.mpr (.inl hw)

/-- And no other bit of it changes. -/
theorem RelaxedAt.hasFlag_word (h : RelaxedAt A m m') {a : U64} (ha : a.toNat % 8 = 0) {flag : U64}
    (hflag : ¬ HasFlag pteWritable flag) :
    HasFlag (read64 m' a) flag ↔ HasFlag (read64 m a) flag := by
  rcases h a ha with heq | ⟨-, heq⟩ <;> rw [heq]
  rw [hasFlag_or]
  exact or_iff_left hflag

theorem IsFrame.tableSlot_aligned {t : U64} (h : IsFrame t) (i : BitVec 9) :
    (tableSlot t (i.setWidth 64)).toNat % 8 = 0 := by
  obtain ⟨hal, -⟩ := (isFrame_iff t).mp h
  rw [tableSlot_toNat h]
  omega

theorem RelaxedAt.hasFlag (h : RelaxedAt A m m') {t : U64} (ht : IsFrame t) (i : BitVec 9)
    {flag : U64} (hflag : ¬ HasFlag pteWritable flag) :
    HasFlag (entry m' t i) flag ↔ HasFlag (entry m t i) flag :=
  h.hasFlag_word (ht.tableSlot_aligned i) hflag

theorem RelaxedAt.pteToPhys (h : RelaxedAt A m m') {t : U64} (ht : IsFrame t) (i : BitVec 9) :
    Myria.Mm.pteToPhys (entry m' t i) = Myria.Mm.pteToPhys (entry m t i) := by
  rcases h _ (ht.tableSlot_aligned i) with heq | ⟨-, heq⟩ <;> rw [entry, heq]
  · rfl
  · exact pteToPhys_or_flags _ (by decide)

end

/-- `|= PTE_WRITABLE` at one word. -/
def grantWrite (m : Mem) (a : U64) : Mem := write64 m a (read64 m a ||| pteWritable)

theorem relaxedAt_grantWrite (m : Mem) {a : U64} (ha : a.toNat % 8 = 0) :
    RelaxedAt (· = a) m (grantWrite m a) := by
  intro b hb
  by_cases heq : b = a
  · subst heq
    exact .inr ⟨rfl, read64_write64_self m b _⟩
  · refine .inl (read64_write64_apart m _ ?_)
    have hne : b.toNat ≠ a.toNat := fun h => heq (BitVec.eq_of_toNat_eq h)
    constructor <;> rw [BitVec.toNat_sub] <;> omega

theorem writable_grantWrite (m : Mem) (a : U64) :
    HasFlag (read64 (grantWrite m a) a) pteWritable := by
  rw [grantWrite, read64_write64_self]
  exact hasFlag_or.mpr (.inr (by decide))

theorem setWritable_eq (s : MmState) (ptr : U64) :
    setWritable s ptr = (true, { s with mem := grantWrite s.mem (ptr - s.getHhdmBase) }) := by
  rw [setWritable]
  split
  · rename_i hset
    -- where the code skips the store, the store would change nothing
    rw [MmState.deref] at hset
    rw [grantWrite, or_writable_of_hasFlag hset, write64_read64_self]
  · rfl

/-! ## No walk looks at it -/

section

variable {s : MmState} {va : U64} {A : U64 → Prop} {m m' : Mem} {t : U64} {v : BitVec 36}

theorem not_hasFlag_writable_present : ¬ HasFlag pteWritable ptePresent := by decide

theorem not_hasFlag_writable_hugePage : ¬ HasFlag pteWritable pteHugePage := by decide

theorem deref_window_mem (s : MmState) (m' : Mem) (t : U64) (i : BitVec 9) :
    MmState.deref { s with mem := m' } (tableSlot (s.physToVirt t) (i.setWidth 64)) =
      entry m' t i :=
  MmState.deref_window { s with mem := m' } t i

theorem RelaxedAt.walkPt (h : RelaxedAt A s.mem m') (w : Walk) (ht : IsFrame t) :
    Myria.Mm.walkPt { s with mem := m' } va w (s.physToVirt t) =
      Myria.Mm.walkPt s va w (s.physToVirt t) := by
  simp only [Myria.Mm.walkPt, ptIndex_eq, deref_window_mem, MmState.deref_window,
    h.hasFlag ht _ not_hasFlag_writable_present]

theorem RelaxedAt.walkPd (h : RelaxedAt A s.mem m') (w : Walk) (ht : IsFrame t) :
    Myria.Mm.walkPd { s with mem := m' } va w (s.physToVirt t) =
      Myria.Mm.walkPd s va w (s.physToVirt t) := by
  simp only [Myria.Mm.walkPd, pdIndex_eq, deref_window_mem, MmState.deref_window,
    h.hasFlag ht _ not_hasFlag_writable_present, h.hasFlag ht _ not_hasFlag_writable_hugePage]
  have hnext := h.pteToPhys ht (slot2 (vpn va))
  simp only [Myria.Mm.pteToPhys] at hnext
  rw [hnext]
  refine ite_congr rfl (fun _ => rfl) fun _ => ite_congr rfl (fun _ => rfl) fun _ => ?_
  exact h.walkPt _ (pteToPhys_isFrame _)

theorem RelaxedAt.walkPdpt (h : RelaxedAt A s.mem m') (w : Walk) (ht : IsFrame t) :
    Myria.Mm.walkPdpt { s with mem := m' } va w (s.physToVirt t) =
      Myria.Mm.walkPdpt s va w (s.physToVirt t) := by
  simp only [Myria.Mm.walkPdpt, pdptIndex_eq, deref_window_mem, MmState.deref_window,
    h.hasFlag ht _ not_hasFlag_writable_present, h.hasFlag ht _ not_hasFlag_writable_hugePage]
  have hnext := h.pteToPhys ht (slot3 (vpn va))
  simp only [Myria.Mm.pteToPhys] at hnext
  rw [hnext]
  refine ite_congr rfl (fun _ => rfl) fun _ => ite_congr rfl (fun _ => rfl) fun _ => ?_
  exact h.walkPd _ (pteToPhys_isFrame _)

/-- A walk meets the same pointers and ends at the same leaf. -/
theorem RelaxedAt.walkVaToLeaf (h : RelaxedAt A s.mem m') (va : U64) (w : Walk) :
    Myria.Mm.walkVaToLeaf { s with mem := m' } va w = Myria.Mm.walkVaToLeaf s va w := by
  have ht : IsFrame (s.cr3 &&& pteAddrMask) := pteToPhys_isFrame s.cr3
  have hroot : MmState.physToVirt { s with mem := m' } = s.physToVirt := rfl
  simp only [Myria.Mm.walkVaToLeaf, hroot, pml4Index_eq, deref_window_mem, MmState.deref_window,
    h.hasFlag ht _ not_hasFlag_writable_present]
  have hnext := h.pteToPhys ht (slot4 (vpn va))
  simp only [Myria.Mm.pteToPhys] at hnext
  rw [hnext]
  refine ite_congr rfl (fun _ => rfl) fun _ => ?_
  exact h.walkPdpt _ (pteToPhys_isFrame _)

theorem RelaxedAt.pdFrame (h : RelaxedAt A m m') (ht : IsFrame t) (v : BitVec 36) :
    Myria.Mm.pdFrame m' t v = Myria.Mm.pdFrame m t v := by
  have hframe := pteToPhys_isFrame (entry m t (slot2 v))
  simp only [Myria.Mm.pdFrame, largeFrame, plainFrame_nil, h.pteToPhys ht, h.pteToPhys hframe,
    h.hasFlag ht _ not_hasFlag_writable_present, h.hasFlag ht _ not_hasFlag_writable_hugePage,
    h.hasFlag hframe _ not_hasFlag_writable_present]

theorem RelaxedAt.pdptFrame (h : RelaxedAt A m m') (ht : IsFrame t) (v : BitVec 36) :
    Myria.Mm.pdptFrame m' t v = Myria.Mm.pdptFrame m t v := by
  have hframe := pteToPhys_isFrame (entry m t (slot3 v))
  simp only [Myria.Mm.pdptFrame, largeFrame, h.pteToPhys ht, h.pdFrame hframe,
    h.hasFlag ht _ not_hasFlag_writable_present, h.hasFlag ht _ not_hasFlag_writable_hugePage]

theorem RelaxedAt.walkedFrame (h : RelaxedAt A s.mem m') (va : U64) (w : Walk) :
    Myria.Mm.walkedFrame { s with mem := m' } va
        (Myria.Mm.walkVaToLeaf { s with mem := m' } va w) =
      Myria.Mm.walkedFrame s va (Myria.Mm.walkVaToLeaf s va w) := by
  have ht : IsFrame (Myria.Mm.pteToPhys s.cr3) := pteToPhys_isFrame s.cr3
  rw [walkVaToLeaf_frame, walkVaToLeaf_frame]
  simp only [h.hasFlag ht _ not_hasFlag_writable_present, h.pteToPhys ht,
    h.pdptFrame (pteToPhys_isFrame _)]

/-- A translation apart from the right to write. -/
def Translation.withoutWrite (tr : Translation) : Translation := { tr with writable := false }

/-- The processor's translation keeps everything but the right to write. -/
theorem RelaxedAt.hwTranslate (h : RelaxedAt A m m') (ht : IsFrame t) (v : BitVec 36) :
    (Myria.Mm.hwTranslate m' t v).map Translation.withoutWrite =
      (Myria.Mm.hwTranslate m t v).map Translation.withoutWrite := by
  have hp : ¬ HasFlag pteWritable ptePresent := by decide
  have hh : ¬ HasFlag pteWritable pteHugePage := by decide
  have hu : ¬ HasFlag pteWritable pteUser := by decide
  have hn : ¬ HasFlag pteWritable pteNoExecute := by decide
  have hf : ∀ e, IsFrame (Myria.Mm.pteToPhys e) := pteToPhys_isFrame
  simp only [Myria.Mm.hwTranslate, largeFrame, h.hasFlag ht _ hp, h.hasFlag ht _ hh,
    h.pteToPhys ht, h.hasFlag (hf _) _ hp, h.hasFlag (hf _) _ hh, h.pteToPhys (hf _), apply_ite
    (Option.map Translation.withoutWrite), Option.map_some, Option.map_none, Translation.through,
    Translation.withoutWrite, List.all_cons, List.all_nil, List.any_cons, List.any_nil,
    h.hasFlag ht _ hu, h.hasFlag ht _ hn, h.hasFlag (hf _) _ hu, h.hasFlag (hf _) _ hn]

end

/-! ## The entries of a walk -/

/-- The pointers to the entries above the leaf. -/
def Walk.above (w : Walk) : List U64 :=
  match w.leaf with
  | .leaf4K => [w.pml4e, w.pdpte, w.pde]
  | .leaf2M => [w.pml4e, w.pdpte]
  | .leaf1G => [w.pml4e]
  | .leafNone => []

/-- The pointer to the leaf. -/
def Walk.leafEntry (w : Walk) : Option U64 :=
  match w.leaf with
  | .leaf4K => some w.pte
  | .leaf2M => some w.pde
  | .leaf1G => some w.pdpte
  | .leafNone => none

theorem Walk.pml4e_mem_above {w : Walk} {p : U64} (h : w.leafEntry = some p) :
    w.pml4e ∈ w.above := by
  rw [leafEntry] at h
  rw [above]
  split at h
  all_goals simp_all

section

variable {s s' : MmState} {va : U64} {w w' : Walk}

/-- A pointer into the direct map to an aligned word. -/
def MmState.PtrAligned (s : MmState) (p : U64) : Prop := (p - s.getHhdmBase).toNat % 8 = 0

theorem ptrAligned_window (s : MmState) {t : U64} (ht : IsFrame t) (i : BitVec 9) :
    s.PtrAligned (tableSlot (s.physToVirt t) (i.setWidth 64)) := by
  rw [MmState.PtrAligned, MmState.physToVirt, MmState.tableSlot_window]
  exact ht.tableSlot_aligned i

/-- A walk that succeeds ends at a leaf. All its pointers are to aligned words,
and they are the entries through which the processor translates, unless that
stops at a PML4 entry with the reserved bit set. -/
theorem walkVaToLeaf_path (h : walkVaToLeaf s va w = (true, w')) :
    ∃ p, w'.leafEntry = some p ∧
      (∀ q ∈ w'.above ++ [p], s.PtrAligned q) ∧
      (¬ HasFlag (s.deref w'.pml4e) pteHugePage →
        ∃ f, hwTranslate s.mem (pteToPhys s.cr3) (vpn va) =
          some (.through ((w'.above ++ [p]).map s.deref) f)) := by
  have hf : ∀ e, IsFrame (e &&& pteAddrMask) := pteToPhys_isFrame
  simp only [walkVaToLeaf, walkPdpt, walkPd, walkPt, pml4Index_eq, pdptIndex_eq, pdIndex_eq,
    ptIndex_eq, MmState.deref_window] at h
  simp only [hwTranslate, pteToPhys]
  split at h
  · cases h
  rename_i hp4
  split at h
  · cases h
  rename_i hp3
  split at h
  · rename_i hh3
    cases h
    refine ⟨_, rfl, by simp [Walk.above, ptrAligned_window, hf], fun h4 => ?_⟩
    simp only [MmState.deref_window] at h4
    simp only [hp4, h4, or_self, hp3, hh3, if_true, if_false, Walk.above, List.cons_append,
      List.nil_append, List.map_cons, List.map_nil, MmState.deref_window]
    exact ⟨_, rfl⟩
  rename_i hh3
  split at h
  · cases h
  rename_i hp2
  split at h
  · rename_i hh2
    cases h
    refine ⟨_, rfl, by simp [Walk.above, ptrAligned_window, hf], fun h4 => ?_⟩
    simp only [MmState.deref_window] at h4
    simp only [hp4, h4, or_self, hp3, hh3, hp2, hh2, if_true, if_false, Walk.above,
      List.cons_append,
      List.nil_append, List.map_cons, List.map_nil, MmState.deref_window]
    exact ⟨_, rfl⟩
  rename_i hh2
  split at h
  · cases h
  rename_i hp1
  cases h
  refine ⟨_, rfl, by simp [Walk.above, ptrAligned_window, hf], fun h4 => ?_⟩
  simp only [MmState.deref_window] at h4
  simp only [hp4, h4, or_self, hp3, hh3, hp2, hh2, hp1, if_false, Walk.above, List.cons_append,
    List.nil_append, List.map_cons, List.map_nil, MmState.deref_window]
  exact ⟨_, rfl⟩

theorem makePageWritableMinimal_eq (h : makePageWritableMinimal s va = (true, s')) :
    ∃ w p, walkVaToLeaf s va .unset = (true, w) ∧ w.leafEntry = some p ∧
      s' = { s with mem := grantWrite s.mem (p - s.getHhdmBase) } := by
  rw [makePageWritableMinimal] at h
  split at h
  · cases h
  rename_i w hw
  refine ⟨w, ?_⟩
  split at h
  · rename_i hleaf
    rw [setWritable_eq] at h
    exact ⟨w.pte, hw, by rw [Walk.leafEntry, hleaf], (Prod.mk.inj h).2.symm⟩
  · rename_i hleaf
    rw [setWritable_eq] at h
    exact ⟨w.pde, hw, by rw [Walk.leafEntry, hleaf], (Prod.mk.inj h).2.symm⟩
  · rename_i hleaf
    rw [setWritable_eq] at h
    exact ⟨w.pdpte, hw, by rw [Walk.leafEntry, hleaf], (Prod.mk.inj h).2.symm⟩
  · cases h

end

/-! ## The loop -/

/-- The word at `a` is the leaf of a page of `vas`. -/
def LeafOf (s : MmState) (vas : List U64) (a : U64) : Prop :=
  ∃ va ∈ vas, ∃ w p, walkVaToLeaf s va .unset = (true, w) ∧ w.leafEntry = some p ∧
    a = p - s.getHhdmBase

theorem RelaxedAt.mono {A B : U64 → Prop} {m m' : Mem} (h : RelaxedAt A m m')
    (hAB : ∀ a, A a → B a) : RelaxedAt B m m' :=
  fun a ha => (h a ha).imp_right fun ⟨hA, heq⟩ => ⟨hAB a hA, heq⟩

/-- The writable bit of some leaves of `vas` may have been set between `s` and `s'`,
and that of the leaf of each page has been. -/
structure LeavesGranted (s s' : MmState) (vas : List U64) : Prop where
  others : s' = { s with mem := s'.mem }
  memory : RelaxedAt (LeafOf s vas) s.mem s'.mem
  leaves : ∀ va ∈ vas, ∃ w p, walkVaToLeaf s va .unset = (true, w) ∧ w.leafEntry = some p ∧
    HasFlag (s'.deref p) pteWritable

theorem makeWritable_granted {s s' : MmState} {vas : List U64} (h : makeWritable s vas = some s') :
    LeavesGranted s s' vas := by
  induction vas generalizing s with
  | nil =>
    cases h
    exact ⟨rfl, RelaxedAt.refl _ _, fun va hva => nomatch hva⟩
  | cons va vas ih =>
    rw [makeWritable] at h
    split at h
    swap
    · cases h
    rename_i s₁ hmake
    obtain ⟨w, p, hw, hp, rfl⟩ := makePageWritableMinimal_eq hmake
    obtain ⟨p', hp', haligned, -⟩ := walkVaToLeaf_path hw
    cases hp.symm.trans hp'
    have hstep := relaxedAt_grantWrite s.mem (haligned p (by simp))
    have hrest := ih h
    -- the rest of the loop walks as it would have before this page
    have hleaf : ∀ a, LeafOf { s with mem := grantWrite s.mem (p - s.getHhdmBase) } vas a →
        LeafOf s (va :: vas) a := by
      rintro a ⟨va', hva', w', q, hw', hq, ha⟩
      rw [hstep.walkVaToLeaf] at hw'
      exact ⟨va', List.mem_cons_of_mem _ hva', w', q, hw', hq, ha⟩
    refine ⟨hrest.others, ?_, fun va' hva' => ?_⟩
    · refine (hstep.mono ?_).trans (hrest.memory.mono hleaf)
      rintro a rfl
      exact ⟨va, List.mem_cons_self, w, p, hw, hp, rfl⟩
    rcases List.mem_cons.mp hva' with rfl | hva'
    · refine ⟨w, p, hw, hp, ?_⟩
      have hset := hrest.memory.writable (haligned p (by simp)) (writable_grantWrite s.mem _)
      rw [hrest.others]
      exact hset
    · obtain ⟨w', q, hw', hq, hset⟩ := hrest.leaves va' hva'
      rw [hstep.walkVaToLeaf] at hw'
      exact ⟨w', q, hw', hq, hset⟩

/-! ## Exactly the requested range -/

/-- What granting write access to the pages from `start` to `stop`, and to nothing
else, amounts to. -/
structure GrantsExactly (s s' : MmState) (start stop : U64) : Prop where
  /-- only the writable bit of leaves of the range changed, nothing else of memory -/
  memory : RelaxedAt (fun a => ∃ va, InPageRange start stop va ∧ LeafOf s [va] a) s.mem s'.mem
  others : s' = { s with mem := s'.mem }
  /-- every page of the range has a leaf, the same as before, and it is writable -/
  leaf : ∀ va, InPageRange start stop va → ∃ w p, walkVaToLeaf s va .unset = (true, w) ∧
    walkVaToLeaf s' va .unset = (true, w) ∧ w.leafEntry = some p ∧
    HasFlag (s'.deref p) pteWritable
  /-- every walk, in the range or not, goes the same way to the same frame -/
  walk : ∀ va w, walkVaToLeaf s' va w = walkVaToLeaf s va w ∧
    walkedFrame s' va (walkVaToLeaf s' va w) = walkedFrame s va (walkVaToLeaf s va w)
  /-- and so does every translation, below whatever PML4 -/
  translation : ∀ root v, IsFrame root →
    (hwTranslate s'.mem root v).map Translation.withoutWrite =
      (hwTranslate s.mem root v).map Translation.withoutWrite
  /-- where the entries above the leaf were writable, so is the page -/
  effective : ∀ va w, InPageRange start stop va → walkVaToLeaf s va .unset = (true, w) →
    (∀ q ∈ w.above, HasFlag (s.deref q) pteWritable) →
      (∀ q ∈ w.above ++ w.leafEntry.toList, HasFlag (s'.deref q) pteWritable) ∧
      (¬ HasFlag (s.deref w.pml4e) pteHugePage →
        ∃ tr, hwTranslate s'.mem (pteToPhys s'.cr3) (vpn va) = some tr ∧ tr.writable = true)

theorem LeavesGranted.above {s s' : MmState} {vas : List U64} (h : LeavesGranted s s' vas)
    {va : U64} {w : Walk} (hva : va ∈ vas) (hw : walkVaToLeaf s va .unset = (true, w))
    (habove : ∀ q ∈ w.above, HasFlag (s.deref q) pteWritable) :
    ∀ q ∈ w.above ++ w.leafEntry.toList, HasFlag (s'.deref q) pteWritable := by
  obtain ⟨p, hp, haligned, -⟩ := walkVaToLeaf_path hw
  obtain ⟨w', p', hw', hp', hset⟩ := h.leaves va hva
  cases hw.symm.trans hw'
  cases hp.symm.trans hp'
  intro q hq
  rw [hp, Option.toList_some] at hq
  rcases List.mem_append.mp hq with hq' | hq'
  · have hkept := h.memory.writable (haligned q hq) (habove q hq')
    rw [h.others]
    exact hkept
  · rwa [List.mem_singleton.mp hq']

/-- A page whose leaf was made writable can be written, if the entries above the leaf
let it. -/
theorem LeavesGranted.effective {s s' : MmState} {vas : List U64} (h : LeavesGranted s s' vas)
    {va : U64} {w : Walk} (hva : va ∈ vas) (hw : walkVaToLeaf s va .unset = (true, w))
    (habove : ∀ q ∈ w.above, HasFlag (s.deref q) pteWritable)
    (hbit : ¬ HasFlag (s.deref w.pml4e) pteHugePage) :
    ∃ tr, hwTranslate s'.mem (pteToPhys s'.cr3) (vpn va) = some tr ∧ tr.writable = true := by
  have hwalk : walkVaToLeaf s' va .unset = (true, w) := by
    rw [h.others, ← hw]
    exact h.memory.walkVaToLeaf va _
  -- the processor goes through the entries that the walk met, all writable now
  obtain ⟨p, hp, haligned, htr⟩ := walkVaToLeaf_path hwalk
  have hbase : s'.getHhdmBase = s.getHhdmBase := by
    rw [h.others]
    rfl
  have hpml4e : s.PtrAligned w.pml4e := by
    rw [MmState.PtrAligned, ← hbase]
    exact haligned _ (List.mem_append_left _ (Walk.pml4e_mem_above hp))
  have hbit' : ¬ HasFlag (s'.deref w.pml4e) pteHugePage := by
    rw [MmState.deref, hbase, h.memory.hasFlag_word hpml4e not_hasFlag_writable_hugePage]
    exact hbit
  obtain ⟨f, htr⟩ := htr hbit'
  refine ⟨_, htr, ?_⟩
  have hall := h.above hva hw habove
  rw [hp] at hall
  simp only [Translation.through, List.all_map, List.all_eq_true, Function.comp_apply,
    decide_eq_true_eq]
  exact hall

/-- **`enable_bss_write_permissions` opens exactly its range.** Whatever memory
holds, if the loop meets no failed walk it leaves every page of the range with a
writable leaf, changes nothing but the writable bit of such leaves, and redirects
no walk. -/
theorem enable_bss_write_exact {s s' : MmState} {start stop : U64}
    (hstop : stop.toNat + 0xFFF < 2 ^ 64) (h : enableBssWritePermissions s start stop = some s') :
    GrantsExactly s s' start stop := by
  have hgranted := makeWritable_granted h
  have hwalk : ∀ va w, walkVaToLeaf s' va w = walkVaToLeaf s va w := by
    intro va w
    rw [hgranted.others]
    exact hgranted.memory.walkVaToLeaf va w
  refine ⟨hgranted.memory.mono ?_, hgranted.others, ?_, fun va w => ⟨hwalk va w, ?_⟩,
    fun root v hroot => hgranted.memory.hwTranslate hroot v, ?_⟩
  · rintro a ⟨va, hva, hleaf⟩
    exact ⟨va, (mem_loopPages hstop).mp hva, va, List.mem_singleton_self va, hleaf⟩
  · intro va hva
    obtain ⟨w, p, hw, hp, hset⟩ := hgranted.leaves va ((mem_loopPages hstop).mpr hva)
    exact ⟨w, p, hw, (hwalk va _).trans hw, hp, hset⟩
  · rw [hgranted.others]
    exact hgranted.memory.walkedFrame va w
  · intro va w hva hw habove
    have hin := (mem_loopPages hstop).mpr hva
    exact ⟨hgranted.above hin hw habove, hgranted.effective hin hw habove⟩

/-- A data section that a bootloader left read-only in one 2 MiB page. -/
def MmState.readOnlyData : MmState :=
  { blank with
    mem := setEntry (setEntry (setEntry blank.mem 0x1000 256 0x2003) 0x2000 0 0x3003)
      0x3000 1 0x200081 }

theorem enable_bss_write_exact_large_page :
    ∃ s', enableBssWritePermissions .readOnlyData 0xffff800000200010 0xffff800000201008 = some s' ∧
      GrantsExactly .readOnlyData s' 0xffff800000200010 0xffff800000201008 := by
  have hsome : (enableBssWritePermissions .readOnlyData 0xffff800000200010
      0xffff800000201008).isSome = true := by decide +kernel
  obtain ⟨s', hs'⟩ := Option.isSome_iff_exists.mp hsome
  exact ⟨s', hs', enable_bss_write_exact (by decide) hs'⟩

end Myria.Mm
