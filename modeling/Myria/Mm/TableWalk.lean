import Myria.Mm.PmmAccounting
import Myria.Mm.WriteXorExecute

/-! The way down the page tables that `user_map_4k_in_pml4` and `map_user_4k`
share, on memory and allocator alone and with no assumption on what the tables
hold: they may be shared, refer to themselves or lie in free pages. The two
functions follow it step by step. -/
namespace Myria.Mm

open ByteMem Trace

/-- One level down from slot `i` of table `t`: the table the slot leads to, which
is made if there is none. There is no way on where the allocator has no page, or
where the window at `base` shows the table at the null pointer. -/
def descend (base : U64) (c : Mem × Pmm) (t : U64) (i : BitVec 9) : Option (U64 × Mem × Pmm) :=
  if HasFlag (entry c.1 t i) ptePresent then
    let next := pteToPhys (entry c.1 t i)
    if next + base = 0#64 then none else some (next, openSlot c.1 t i, c.2)
  else
    let (f, p) := pmmAllocPage c.2
    if f = 0#64 ∨ f + base = 0#64 then none
    else some (f, linked c.1 t i f (newTableEntry f), p)

/-- Put the entry `e` in the page table of page `v`, below the PML4 `root`; in a
page-directory-pointer table or page directory an entry may bar the way. -/
def planMap (barred : U64 → Bool) (base : U64) (v : BitVec 36) (e : U64) (c : Mem × Pmm)
    (root : U64) : Option (Mem × Pmm) :=
  (descend base c root (slot4 v)).bind fun x =>
    if barred (entry x.2.1 x.1 (slot3 v)) then none
    else (descend base x.2 x.1 (slot3 v)).bind fun y =>
      if barred (entry y.2.1 y.1 (slot2 v)) then none
      else (descend base y.2 y.1 (slot2 v)).bind fun z =>
        some (setEntry z.2.1 z.1 (slot1 v) e, z.2.2)

/-! ## Pages are only taken -/

/-- From `p` to `p'` pages were taken and none came back. -/
structure Draws (p p' : Pmm) : Prop where
  consistent : p'.Consistent
  fewer : ∀ b, p'.Available b → p.Available b
  count : p'.freeCount ≤ p.freeCount

theorem Draws.refl {p : Pmm} (h : p.Consistent) : Draws p p := ⟨h, fun _ hb => hb, Nat.le_refl _⟩

theorem Draws.trans {p p' p'' : Pmm} (h : Draws p p') (h' : Draws p' p'') : Draws p p'' :=
  ⟨h'.consistent, fun b hb => h.fewer b (h'.fewer b hb), Nat.le_trans h'.count h.count⟩

theorem pmmAllocPage_draws {p p' : Pmm} {f : U64} (h : p.Consistent)
    (heq : pmmAllocPage p = (f, p')) : Draws p p' := by
  rcases pmmAllocPage_counted h heq with ⟨-, -, rfl⟩ | ⟨hcount, -, hc, hfewer⟩
  · exact .refl h
  · exact ⟨hc, hfewer, by omega⟩

/-! ## One level -/

section Level

variable {base : U64} {m : Mem} {p p' : Pmm} {c' : Mem × Pmm} {t f : U64} {i : BitVec 9}

theorem descend_of_present (h : HasFlag (entry m t i) ptePresent) :
    descend base (m, p) t i = if pteToPhys (entry m t i) + base = 0#64 then none
      else some (pteToPhys (entry m t i), openSlot m t i, p) := by
  rw [descend, if_pos h]

theorem descend_of_absent (h : ¬ HasFlag (entry m t i) ptePresent)
    (halloc : pmmAllocPage p = (f, p')) :
    descend base (m, p) t i = if f = 0#64 ∨ f + base = 0#64 then none
      else some (f, linked m t i f (newTableEntry f), p') := by
  rw [descend, if_neg h, halloc]

/-- Where a level leads, and that the slot now leads there. -/
theorem descend_spec (hc : p.Consistent) (ht : IsFrame t)
    (h : descend base (m, p) t i = some (f, c')) :
    IsFrame f ∧ f + base ≠ 0#64 ∧ pteToPhys (entry c'.1 t i) = f ∧ Draws p c'.2 := by
  rcases halloc : pmmAllocPage p with ⟨g, p'⟩
  by_cases hpres : HasFlag (entry m t i) ptePresent
  · rw [descend_of_present hpres] at h
    split at h
    · cases h
    · rename_i hshown
      cases h
      exact ⟨pteToPhys_isFrame _, hshown, pteToPhys_openSlot m ht ht i i, .refl hc⟩
  · rw [descend_of_absent hpres halloc] at h
    split at h
    · cases h
    · rename_i hne
      cases h
      rw [not_or] at hne
      have hf : IsFrame f := (pmmAllocPage_takes hc halloc hne.1).isFrame
      refine ⟨hf, hne.2, ?_, pmmAllocPage_draws hc halloc⟩
      rw [entry_linked _ ht hf ht, if_pos ⟨rfl, rfl⟩, hf.pteToPhys_newTableEntry]

end Level

/-- What a function that makes one level down answers, a pointer, and leaves. -/
structure Follows (s : MmState) (d : Option (U64 × Mem × Pmm)) (r : U64 × MmState) : Prop where
  found : ∀ f c, d = some (f, c) →
    s.physToVirt f ≠ 0#64 ∧ r = (s.physToVirt f, { s with mem := c.1, pmm := c.2 })
  missed : d = none → r.1 = 0#64
  draws : Draws s.pmm r.2.pmm

/-- What a function that maps a page answers and leaves. -/
structure Maps (s : MmState) (d : Option (Mem × Pmm)) (r : Bool × MmState) : Prop where
  done : ∀ c, d = some c → r = (true, { s with mem := c.1, pmm := c.2 })
  refused : d = none → r.1 = false
  draws : Draws s.pmm r.2.pmm

theorem Maps.cases {s : MmState} {d : Option (Mem × Pmm)} {r : Bool × MmState} (h : Maps s d r) :
    (∃ s', r = (false, s') ∧ d = none ∧ Draws s.pmm s'.pmm) ∨
    (∃ m' p', r = (true, { s with mem := m', pmm := p' }) ∧ d = some (m', p') ∧
      Draws s.pmm p') := by
  have hdraws := h.draws
  cases d with
  | none => exact .inl ⟨r.2, Prod.ext (h.refused rfl) rfl, rfl, hdraws⟩
  | some c =>
    have hr := h.done c rfl
    rw [hr] at hdraws
    exact .inr ⟨c.1, c.2, hr, rfl, hdraws⟩

theorem Maps.of_refused {s : MmState} {r : Bool × MmState} (h : r.1 = false)
    (hdraws : Draws s.pmm r.2.pmm) : Maps s none r where
  done := fun _ hc => nomatch hc
  refused := fun _ => h
  draws := hdraws

theorem Maps.of_done {s : MmState} {c : Mem × Pmm} {r : Bool × MmState}
    (h : r = (true, { s with mem := c.1, pmm := c.2 })) (hdraws : Draws s.pmm c.2) :
    Maps s (some c) r where
  done := by
    intro c' heq
    cases heq
    exact h
  refused := fun hc => nomatch hc
  draws := by rwa [h]

/-- `if (!t) return false;` after a level, and on with the next. -/
theorem Follows.maps {s : MmState} {d : Option (U64 × Mem × Pmm)} {r : U64 × MmState}
    (h : Follows s d r) {k : U64 × Mem × Pmm → Option (Mem × Pmm)} {next : Bool × MmState}
    (hnext : ∀ f c, d = some (f, c) → Maps { s with mem := c.1, pmm := c.2 } (k (f, c)) next) :
    Maps s (d.bind k) (if r.1 = 0#64 then (false, r.2) else next) := by
  cases d with
  | none =>
    rw [if_pos (h.missed rfl)]
    exact .of_refused rfl h.draws
  | some x =>
    obtain ⟨hshown, hr⟩ := h.found x.1 x.2 rfl
    have hn := hnext x.1 x.2 rfl
    have hdraws := h.draws
    rw [hr] at hdraws ⊢
    rw [if_neg hshown]
    exact ⟨hn.done, hn.refused, hdraws.trans hn.draws⟩

theorem Follows.of_missed {s : MmState} {r : U64 × MmState} (h : r.1 = 0#64)
    (hdraws : Draws s.pmm r.2.pmm) : Follows s none r where
  found := fun _ _ hc => nomatch hc
  missed := fun _ => h
  draws := hdraws

theorem Follows.of_found {s : MmState} {f : U64} {c : Mem × Pmm} (hshown : s.physToVirt f ≠ 0#64)
    (hdraws : Draws s.pmm c.2) :
    Follows s (some (f, c)) (s.physToVirt f, { s with mem := c.1, pmm := c.2 }) where
  found := by
    intro f' c' heq
    cases heq
    exact ⟨hshown, rfl⟩
  missed := fun h => nomatch h
  draws := hdraws

/-- The three things a level may do, whether or not its table is shown at null. -/
theorem Follows.of_cases {s : MmState} (hc : s.pmm.Consistent) {t : U64} {i : BitVec 9}
    {r : U64 × MmState}
    (h : (HasFlag (entry s.mem t i) ptePresent ∧
        r = (s.physToVirt (pteToPhys (entry s.mem t i)), { s with mem := openSlot s.mem t i })) ∨
      (¬ HasFlag (entry s.mem t i) ptePresent ∧ s.pmm.Exhausted ∧ r = (0#64, s)) ∨
      (¬ HasFlag (entry s.mem t i) ptePresent ∧ ∃ f p', pmmAllocPage s.pmm = (f, p') ∧
        TakesPage s.pmm f p' ∧ r = (s.physToVirt f,
          { s with mem := linked s.mem t i f (newTableEntry f), pmm := p' }))) :
    Follows s (descend s.getHhdmBase (s.mem, s.pmm) t i) r := by
  rcases h with ⟨hpres, rfl⟩ | ⟨habs, hex, rfl⟩ | ⟨habs, f, p', halloc, htake, rfl⟩
  · rw [descend_of_present hpres]
    split
    · rename_i hnull
      exact .of_missed hnull (.refl hc)
    · rename_i hshown
      exact .of_found hshown (.refl hc)
  · rw [descend_of_absent habs hex.allocPage, if_pos (.inl rfl)]
    exact .of_missed rfl (.refl hc)
  · have hdraws := pmmAllocPage_draws hc halloc
    rw [descend_of_absent habs halloc]
    generalize linked s.mem t i f (newTableEntry f) = m'
    split
    · rename_i hnull
      have hzero : s.physToVirt f = 0#64 := hnull.resolve_left htake.isPage.ne_zero
      exact .of_missed hzero hdraws
    · rename_i hne
      have hshown : s.physToVirt f ≠ 0#64 := fun h => hne (.inr h)
      exact .of_found hshown hdraws

/-! ## The two functions -/

theorem getOrMakeTableInPml4_follows {s : MmState} (hc : s.pmm.Consistent) {t : U64}
    (ht : IsFrame t) (i : BitVec 9) :
    Follows s (descend s.getHhdmBase (s.mem, s.pmm) t i)
      (getOrMakeTableInPml4 s t (i.setWidth 64) pteUser) := by
  have hentry : ∀ f, newTableEntry f = f ||| ptePresent ||| pteWritable ||| pteUser := by
    intro f
    rw [newTableEntry, BitVec.or_assoc, BitVec.or_comm pteUser, ← BitVec.or_assoc]
  apply Follows.of_cases hc
  rcases getOrMakeTableInPml4_cases hc ht i with
    hpres | habs | ⟨habs, f, p', halloc, htake, heq⟩
  · exact .inl hpres
  · exact .inr (.inl habs)
  · exact .inr (.inr ⟨habs, f, p', halloc, htake, by rw [heq, hentry]; rfl⟩)

theorem getOrMakeTable_follows {r : Traced MmState} (hc : r.now.pmm.Consistent) {t : U64}
    (ht : IsFrame t) (i : BitVec 9) :
    Follows r.now (descend r.now.getHhdmBase (r.now.mem, r.now.pmm) t i)
      ((getOrMakeTable r (r.now.physToVirt t) (i.setWidth 64)).1,
        (getOrMakeTable r (r.now.physToVirt t) (i.setWidth 64)).2.now) := by
  apply Follows.of_cases hc
  rcases getOrMakeTable_cases hc ht i with
    ⟨hpres, heq⟩ | ⟨habs, hex, heq⟩ | ⟨habs, f, p', q, halloc, htake, -, heq⟩
  · exact .inl ⟨hpres, by rw [heq, Traced.now_put]⟩
  · exact .inr (.inl ⟨habs, hex, by rw [heq, Traced.now_put]⟩)
  · exact .inr (.inr ⟨habs, f, p', halloc, htake, by rw [heq, Traced.now_put]⟩)

/-- Nothing bars the way of `user_map_4k_in_pml4`: it takes a large page for a
table. -/
theorem userMap4kInPml4_maps {s : MmState} (hc : s.pmm.Consistent) {a : U64} (ha : IsFrame a)
    (va pa : U64) (w x : Bool) :
    Maps s (planMap (fun _ => false) s.getHhdmBase (vpn va)
      ((pa &&& pteAddrMask) ||| userPteFlags w x) (s.mem, s.pmm) a)
      (userMap4kInPml4 s a va pa w x) := by
  simp only [userMap4kInPml4, pml4Index_eq, pdptIndex_eq, pdIndex_eq, ptIndex_eq, planMap,
    Bool.false_eq_true, if_false]
  have hbase : ∀ m p, MmState.getHhdmBase { s with mem := m, pmm := p } = s.getHhdmBase :=
    fun _ _ => rfl
  have h₃ := getOrMakeTableInPml4_follows hc ha (slot4 (vpn va))
  refine h₃.maps fun t₃ c₃ hd₃ => ?_
  obtain ⟨hf₃, -, hr₃, hw₃⟩ := descend_spec hc ha hd₃
  rw [(h₃.found t₃ c₃ hd₃).2]
  -- the code reads the frame of the table just found back from the entry above
  rw [pteToPhys] at hr₃
  simp only [MmState.physToVirt, hbase, MmState.load_window, hr₃]
  have h₂ := getOrMakeTableInPml4_follows (s := { s with mem := c₃.1, pmm := c₃.2 }) hw₃.consistent
    hf₃ (slot3 (vpn va))
  refine h₂.maps fun t₂ c₂ hd₂ => ?_
  obtain ⟨hf₂, -, hr₂, hw₂⟩ := descend_spec hw₃.consistent hf₃ hd₂
  rw [(h₂.found t₂ c₂ hd₂).2]
  rw [pteToPhys] at hr₂
  simp only [hr₂]
  have h₁ := getOrMakeTableInPml4_follows (s := { s with mem := c₂.1, pmm := c₂.2 }) hw₂.consistent
    hf₂ (slot2 (vpn va))
  refine h₁.maps fun t₁ c₁ hd₁ => ?_
  obtain ⟨-, -, -, hw₁⟩ := descend_spec hw₂.consistent hf₂ hd₁
  rw [(h₁.found t₁ c₁ hd₁).2]
  exact .of_done (congrArg (true, ·) (MmState.store_window _ _ t₁ _ _)) (.refl hw₁.consistent)

/-- The state a recorded call ends in. -/
def ended (r : Bool × Traced MmState) : Bool × MmState := (r.1, r.2.now)

theorem withTable_maps {r : Traced MmState} (hc : r.now.pmm.Consistent) {t : U64} (ht : IsFrame t)
    (i : BitVec 9) {k : U64 × Mem × Pmm → Option (Mem × Pmm)}
    {next : Traced MmState → U64 → Bool × Traced MmState}
    (hnext : ∀ f (q : Traced MmState), q.now.getHhdmBase = r.now.getHhdmBase →
      descend r.now.getHhdmBase (r.now.mem, r.now.pmm) t i = some (f, q.now.mem, q.now.pmm) →
        Maps q.now (k (f, q.now.mem, q.now.pmm)) (ended (next q (q.now.physToVirt f)))) :
    Maps r.now ((descend r.now.getHhdmBase (r.now.mem, r.now.pmm) t i).bind k)
      (ended (withTable r (r.now.physToVirt t) (i.setWidth 64) next)) := by
  have h := getOrMakeTable_follows hc ht i
  rw [withTable]
  generalize getOrMakeTable r (r.now.physToVirt t) (i.setWidth 64) = out at h ⊢
  obtain ⟨u, q⟩ := out
  have hmaps : Maps r.now ((descend r.now.getHhdmBase (r.now.mem, r.now.pmm) t i).bind k)
      (if u = 0#64 then (false, q.now) else ended (next q u)) := h.maps fun f c hd => ?_
  · dsimp only
    split
    · rename_i hu
      rwa [if_pos hu] at hmaps
    · rename_i hu
      rwa [if_neg hu] at hmaps
  · obtain ⟨-, hfound⟩ := h.found f c hd
    obtain ⟨rfl, hq⟩ := Prod.mk.inj hfound
    dsimp only at hq
    have hbase : q.now.getHhdmBase = r.now.getHhdmBase := by
      rw [hq]
      rfl
    have hstate : c = (q.now.mem, q.now.pmm) := by rw [hq]
    have hn := hnext f q hbase (hstate ▸ hd)
    rw [← hstate, MmState.physToVirt, hbase] at hn
    rwa [← hq]

/-- A large page in the way of `map_user_4k`. -/
def isHuge (e : U64) : Bool := decide (HasFlag e pteHugePage)

/-- `if (table[index] & PTE_HUGEPAGE) return false;` before the next level. -/
theorem barred_maps {r : Traced MmState} (hc : r.now.pmm.Consistent) (e : U64)
    {d : Option (Mem × Pmm)} {out : Bool × Traced MmState} (h : Maps r.now d (ended out)) :
    Maps r.now (if isHuge e then none else d)
      (ended (if HasFlag e pteHugePage then (false, r) else out)) := by
  simp only [isHuge, decide_eq_true_eq]
  split
  · exact .of_refused rfl (.refl hc)
  · exact h

section

variable {r : Traced MmState} (hc : r.now.pmm.Consistent) {t : U64} (ht : IsFrame t)
  (va pa flags : U64)
include hc ht

theorem mapInPd_maps :
    Maps r.now (if isHuge (entry r.now.mem t (slot2 (vpn va))) then none
      else (descend r.now.getHhdmBase (r.now.mem, r.now.pmm) t (slot2 (vpn va))).bind fun z =>
        some (setEntry z.2.1 z.1 (slot1 (vpn va)) ((pa &&& pteAddrMask) ||| flags ||| pteUser),
          z.2.2))
      (ended (mapInPd va pa flags r (r.now.physToVirt t))) := by
  rw [mapInPd, pdIndex_eq, MmState.physToVirt, MmState.load_window]
  refine barred_maps hc _ (withTable_maps hc ht _ fun f q hbase hd => ?_)
  obtain ⟨-, -, -, hdraws⟩ := descend_spec hc ht hd
  refine .of_done ?_ (.refl hdraws.consistent)
  rw [mapInPt, ptIndex_eq]
  exact congrArg (true, ·) (MmState.store_window _ _ f _ _)

theorem mapInPdpt_maps :
    Maps r.now (if isHuge (entry r.now.mem t (slot3 (vpn va))) then none
      else (descend r.now.getHhdmBase (r.now.mem, r.now.pmm) t (slot3 (vpn va))).bind fun y =>
        if isHuge (entry y.2.1 y.1 (slot2 (vpn va))) then none
        else (descend r.now.getHhdmBase y.2 y.1 (slot2 (vpn va))).bind fun z =>
          some (setEntry z.2.1 z.1 (slot1 (vpn va)) ((pa &&& pteAddrMask) ||| flags ||| pteUser),
            z.2.2))
      (ended (mapInPdpt va pa flags r (r.now.physToVirt t))) := by
  rw [mapInPdpt, pdptIndex_eq, MmState.physToVirt, MmState.load_window]
  refine barred_maps hc _ (withTable_maps hc ht _ fun f q hbase hd => ?_)
  obtain ⟨hf, -, -, hdraws⟩ := descend_spec hc ht hd
  rw [← hbase]
  exact mapInPd_maps hdraws.consistent hf va pa flags

omit ht in
/-- `map_user_4k` goes the planned way, unless a large page bars it. -/
theorem mapUser4k_maps :
    Maps r.now (planMap isHuge r.now.getHhdmBase (vpn va)
      ((pa &&& pteAddrMask) ||| flags ||| pteUser) (r.now.mem, r.now.pmm) r.now.cr3Root)
      (ended (mapUser4k va pa flags r)) := by
  have hroot : IsFrame r.now.cr3Root := r.now.cr3Root_isFrame
  rw [mapUser4k, pml4Index_eq, planMap]
  refine withTable_maps hc hroot _ fun f q hbase hd => ?_
  obtain ⟨hf, -, -, hdraws⟩ := descend_spec hc hroot hd
  rw [← hbase]
  exact mapInPdpt_maps hdraws.consistent hf va pa flags

end

end Myria.Mm
